import Kvx.ChainLifetime
import Kvx.KvReached
import Kvx.PageLedger

/-!
# Destroying the store

`kv_destroy` gives back what its shards hold: the slabs and the arrays of their classes, the chained
buckets, the mappings. Each of them has one owner, so each is given back once.
-/
namespace Kvx.Hashtable

variable {ι : Type} {E : Env} {itemKey : ι → List UInt8} {t t' : Table ι}

/-! ## Mappings -/

def Event.mapLen : Event → Multiset ℕ
  | .map len => {len}
  | _ => 0

def Event.unmapLen : Event → Multiset ℕ
  | .unmap len _ => {len}
  | _ => 0

/-- The lengths of the mappings that were made. -/
def mapLens (trace : List Event) : Multiset ℕ := (trace.map Event.mapLen).sum

/-- The lengths of the mappings that were hit by an unmapping. -/
def unmapLens (trace : List Event) : Multiset ℕ := (trace.map Event.unmapLen).sum

def Table.mapLens (t : Table ι) : Multiset ℕ :=
  {t.oldBuckets.len} + t.newBuckets.elim 0 fun m => {m.len}

def MapsInv (t : Table ι) : Prop := Hashtable.mapLens t.trace = unmapLens t.trace + t.mapLens

theorem chained_lens {events : List Event} (h : ∀ e ∈ events, e.Chained) (trace : List Event) :
    mapLens (events ++ trace) = mapLens trace ∧ unmapLens (events ++ trace) = unmapLens trace := by
  have hcounts : ∀ e : Event, e.Chained → e.mapLen = 0 ∧ e.unmapLen = 0 := by
    intro e he
    cases e with
    | map => exact he.elim
    | unmap => exact he.elim
    | calloc => exact ⟨rfl, rfl⟩
    | free => exact ⟨rfl, rfl⟩
  exact ⟨chained_sum (fun e he => (hcounts e he).1) h trace,
    chained_sum (fun e he => (hcounts e he).2) h trace⟩

theorem Kept.mapLens (h : Kept t t') : t'.mapLens = t.mapLens := by
  have hnew := h.newLen
  unfold Table.mapLens
  rw [h.oldLen]
  congr 1
  cases hm : t.newBuckets <;> cases hm' : t'.newBuckets <;> simp_all

theorem MapsInv.kept (h : MapsInv t) (hkept : Kept t t') : MapsInv t' := by
  obtain ⟨events, htrace, hall⟩ := hkept.trace
  obtain ⟨hmap, hunmap⟩ := chained_lens hall t.trace
  unfold MapsInv
  rw [htrace, hmap, hunmap, hkept.mapLens]
  exact h

theorem MapsInv.maintenance (h : MapsInv t)
    (hrun : hashtableMaintenance E itemKey t = some t') : MapsInv t' := by
  rcases maintenance_cases hrun with ⟨-, rfl⟩ | ⟨t₁, m₁, -, h₁, hm₁, rfl⟩
  · exact h
  have hstart : MapsInv { t with migrationPos := t.migrationPos + 1 } := h
  have hmid := hstart.kept (Kept.migrateBucket h₁)
  split_ifs
  · -- the old array goes, and the new one stays
    simp only [MapsInv, Table.mapLens, hm₁, Option.elim_some] at hmid
    simp only [MapsInv, hashtableFinishMigration, Table.mapLens, Option.elim_none, add_zero,
      Hashtable.mapLens, unmapLens, List.map_cons, List.sum_cons, Event.mapLen, Event.unmapLen,
      zero_add] at hmid ⊢
    rw [hmid]
    abel
  · exact hmid

theorem MapsInv.checkInit (h : MapsInv t) (granted : Bool) :
    MapsInv (hashtableCheckInitMigration E granted t) := by
  unfold hashtableCheckInitMigration
  split_ifs with hstay
  · exact h
  dsimp only
  split
  · exact h
  · next bytes _ =>
    have hnone : t.newBuckets = none := by simpa using (not_or.mp hstay).2
    simp only [MapsInv, Table.mapLens, hnone, Option.elim_none, add_zero] at h
    simp only [MapsInv, Table.mapLens, Option.elim_some, Hashtable.mapLens, unmapLens, List.map_cons,
      List.sum_cons, Event.mapLen, Event.unmapLen, zero_add] at h ⊢
    rw [h]
    abel

theorem MapsInv.set {ref : SlotRef} {granted : Bool} {hash : BitVec 64} {key : List UInt8}
    (h : MapsInv t) (hrun : hashtableSet E itemKey granted t hash key = some (t', ref)) :
    MapsInv t' := by
  simp only [hashtableSet, Option.bind_eq_bind, Option.bind_eq_some_iff] at hrun
  obtain ⟨t₁, hmaint, hrun⟩ := hrun
  have h₁ := h.maintenance hmaint
  split_ifs at hrun
  · exact h₁.kept (Kept.setNew hrun)
  · exact (h₁.checkInit granted).kept (Kept.setOld hrun)

theorem MapsInv.delete {hash : BitVec 64} {key : List UInt8} {item : Option ι} (h : MapsInv t)
    (hrun : hashtableDelete E itemKey t hash key = some (t', item)) : MapsInv t' := by
  simp only [hashtableDelete, Option.bind_eq_bind, Option.bind_eq_some_iff] at hrun
  obtain ⟨t₁, hmaint, hrun⟩ := hrun
  have h₁ := h.maintenance hmaint
  split_ifs at hrun
  · exact h₁.kept (Kept.deleteNew hrun)
  · exact h₁.kept (Kept.deleteOld hrun)

theorem init_maps {granted : Bool} {leftover cap : ℕ}
    (hinit : hashtableInit E granted leftover cap = some t) : MapsInv t := by
  simp only [hashtableInit] at hinit
  split_ifs at hinit
  all_goals
    split at hinit
    · simp at hinit
    · rw [Option.some.injEq] at hinit
      subst hinit
      simp [MapsInv, Table.mapLens, Hashtable.mapLens, unmapLens, Event.mapLen, Event.unmapLen]

/-- Chained buckets and mappings are held, or were given back. -/
structure Resources (t : Table ι) : Prop where
  chains : ChainsInv t
  maps : MapsInv t

theorem Resources.writeSlot (h : Resources t) (slot : SlotRef) (item : Option ι) :
    Resources (t.writeSlot slot item) :=
  ⟨h.chains.writeSlot slot item, h.maps.kept (Kept.writeSlot t slot item)⟩

/-! ## `hashtable_destroy` -/

/-- What `hashtable_destroy` asks of the system, the first first. -/
def destroyEvents (t : Table ι) : List Event := (hashtableDestroy { t with trace := [] }).reverse

theorem destroyBuckets_append (trace : List Event) (buckets : Mapping ι) (count bytes : ℕ) :
    hashtableDestroyBuckets trace buckets count bytes =
      hashtableDestroyBuckets [] buckets count bytes ++ trace := by
  simp [hashtableDestroyBuckets]

theorem destroy_append (t : Table ι) :
    hashtableDestroy t = (destroyEvents t).reverse ++ t.trace := by
  unfold destroyEvents hashtableDestroy
  rw [List.reverse_reverse]
  cases hm : t.newBuckets with
  | none => exact destroyBuckets_append t.trace _ _ _
  | some m =>
    simp only
    rw [destroyBuckets_append t.trace, destroyBuckets_append (_ ++ t.trace),
      destroyBuckets_append (hashtableDestroyBuckets [] m _ _), List.append_assoc]

theorem unmapLens_destroyBuckets (trace : List Event) (buckets : Mapping ι) (count bytes : ℕ) :
    unmapLens (hashtableDestroyBuckets trace buckets count bytes) =
      {buckets.len} + unmapLens trace := by
  have hfrees : ∀ e ∈ ((buckets.chains.take count).flatMap fun chain =>
      chain.next.map fun c => Event.free c.addr).reverse, e.Chained := by
    intro e he
    simp only [List.mem_reverse, List.mem_flatMap, List.mem_map] at he
    obtain ⟨chain, -, c, -, rfl⟩ := he
    trivial
  unfold hashtableDestroyBuckets
  simp only
  rw [unmapLens, List.map_cons, List.sum_cons, ← unmapLens, (chained_lens hfrees trace).2]
  rfl

theorem Resources.destroy (h : Resources t) (hinv : TableInv E itemKey t) :
    callocs t.trace = frees t.trace + frees (destroyEvents t) ∧ (callocs t.trace).Nodup ∧
      mapLens t.trace = unmapLens t.trace + unmapLens (destroyEvents t) := by
  have hreverse : frees (destroyEvents t).reverse = frees (destroyEvents t) :=
    ((List.reverse_perm _).map _).sum_eq
  have hunmaps : unmapLens (destroyEvents t).reverse = unmapLens (destroyEvents t) :=
    ((List.reverse_perm _).map _).sum_eq
  have hfrees := (destroy_chains hinv).2
  rw [destroy_append, frees_append, hreverse, add_comm, add_right_inj] at hfrees
  refine ⟨?_, h.chains.balanced.nodup, ?_⟩
  · rw [hfrees, h.chains.balanced.balance, add_zero]
  · rw [h.maps, ← hunmaps, destroyEvents, List.reverse_reverse, hashtableDestroy]
    simp only
    rw [unmapLens_destroyBuckets, Table.mapLens]
    cases t.newBuckets with
    | none => rfl
    | some m =>
      simp only [Option.elim_some]
      rw [unmapLens_destroyBuckets]
      rfl

end Kvx.Hashtable

namespace Kvx.SlabAlloc

open Kvx.Lib

variable {alloc : SlabAllocator} {live : Multiset Ptr}

theorem slabs_perm (h : AllocInv alloc live) :
    (alloc.classes.flatMap SlabClass.slabs).Perm (List.range alloc.slabs.length) := by
  have hnodup : (alloc.classes.flatMap SlabClass.slabs).Nodup := by
    rw [List.nodup_flatMap]
    refine ⟨fun sc hsc => ?_, ?_⟩
    · obtain ⟨idx, hidx⟩ := List.getElem?_of_mem hsc
      exact (h.classes.cls idx sc hidx).slabs_nodup
    · rw [List.pairwise_iff_getElem]
      intro i j hi hj hij block hb hb'
      obtain ⟨slab, hs, hparent⟩ :=
        ((h.classes.cls i _ (List.getElem?_eq_getElem hi)).slabs_mem block).mp hb
      obtain ⟨slab', hs', hparent'⟩ :=
        ((h.classes.cls j _ (List.getElem?_eq_getElem hj)).slabs_mem block).mp hb'
      rw [hs, Option.some.injEq] at hs'
      subst hs'
      omega
  refine (List.perm_ext_iff_of_nodup hnodup List.nodup_range).mpr fun block => ?_
  rw [List.mem_flatMap, List.mem_range]
  constructor
  · rintro ⟨sc, hsc, hb⟩
    obtain ⟨idx, hidx⟩ := List.getElem?_of_mem hsc
    obtain ⟨slab, hs, -⟩ := ((h.classes.cls idx sc hidx).slabs_mem block).mp hb
    exact (List.getElem?_eq_some_iff.mp hs).1
  · intro hlt
    have hs := List.getElem?_eq_getElem hlt
    have hidx := h.classes.parent block _ hs
    refine ⟨_, List.getElem_mem hidx, ?_⟩
    exact ((h.classes.cls _ _ (List.getElem?_eq_getElem hidx)).slabs_mem block).mpr ⟨_, hs, rfl⟩

end Kvx.SlabAlloc

namespace Kvx.Store

open Kvx.Lib Kvx.Hashtable Kvx.SlabAlloc Kvx.Item

/-! ## What `kv_destroy` gives back -/

/-- A block that is freed, a mapping that is unmapped, or the mutex. -/
inductive Release
  | slab (block : ℕ)
  | freeStack (idx : ℕ)
  | slabs (idx : ℕ)
  | classes
  | allocator
  | event (e : Event)
  | table
  | mutex
  deriving DecidableEq, Repr

def slabClassDestroy (sc : SlabClass) (idx : ℕ) : List Release :=
  sc.slabs.map .slab ++ [.freeStack idx, .slabs idx]

/-- The `for` loop over the classes from `idx` on. -/
def slabClassesDestroy : List SlabClass → ℕ → List Release
  | [], _ => []
  | sc :: classes, idx => slabClassDestroy sc idx ++ slabClassesDestroy classes (idx + 1)

def slabAllocatorDestroy (alloc : SlabAllocator) : List Release :=
  slabClassesDestroy alloc.classes 0 ++ [.classes, .allocator]

def tableDestroy (table : Table Ptr) : List Release := (destroyEvents table).map .event ++ [.table]

def kvShardDestroy (shard : KvShard) : List Release :=
  slabAllocatorDestroy shard.allocator ++ tableDestroy shard.table ++ [.mutex]

inductive KvRelease
  | shard (idx : Fin 256) (r : Release)
  | kv
  deriving DecidableEq, Repr

def kvDestroy (kv : Kv) : List KvRelease :=
  (List.finRange 256).flatMap (fun idx => (kvShardDestroy (kv.shards idx)).map (.shard idx)) ++ [.kv]

def KvRelease.of (idx : Fin 256) : KvRelease → Option Release
  | .shard i r => if i = idx then some r else none
  | .kv => none

def Release.asSlab : Release → Option ℕ
  | .slab block => some block
  | _ => none

def Release.asFreeStack : Release → Option ℕ
  | .freeStack idx => some idx
  | _ => none

def Release.asSlabs : Release → Option ℕ
  | .slabs idx => some idx
  | _ => none

def Release.asEvent : Release → Option Event
  | .event e => some e
  | _ => none

variable {E : Env} {kv kv' : Kv} {shard shard' : KvShard} {M : EntryMap} {key : List UInt8}
  {e : Entry}

/-! ## The slabs -/

theorem classes_asSlab (classes : List SlabClass) (idx : ℕ) :
    (slabClassesDestroy classes idx).filterMap Release.asSlab = classes.flatMap SlabClass.slabs := by
  induction classes generalizing idx with
  | nil => rfl
  | cons sc classes ih =>
    have hslabs : (sc.slabs.map Release.slab).filterMap Release.asSlab = sc.slabs := by
      rw [List.filterMap_map]
      exact List.filterMap_some
    simp [slabClassesDestroy, slabClassDestroy, List.filterMap_append, List.filterMap_cons, hslabs, ih,
      Release.asSlab]

theorem classes_arrays (classes : List SlabClass) (idx : ℕ) :
    (slabClassesDestroy classes idx).filterMap Release.asFreeStack =
        List.range' idx classes.length ∧
      (slabClassesDestroy classes idx).filterMap Release.asSlabs =
        List.range' idx classes.length := by
  induction classes generalizing idx with
  | nil => exact ⟨rfl, rfl⟩
  | cons sc classes ih =>
    obtain ⟨hstacks, hslabs⟩ := ih (idx + 1)
    simp [slabClassesDestroy, slabClassDestroy, List.filterMap_append, List.filterMap_cons,
      List.filterMap_map, hstacks, hslabs, Release.asFreeStack, Release.asSlabs, Function.comp_def,
      List.range'_succ]

/-! ## The tables of the shards -/

theorem shardStore_table {slot : SlotRef} {item : Ptr} {dataLen : ℕ} {code : KvError}
    (hrun : kvShardStore shard slot item dataLen key e = some (shard', code)) :
    shard'.table = shard.table ∨ ∃ p, shard'.table = shard.table.writeSlot slot (some p) := by
  simp only [kvShardStore, Option.bind_eq_bind, Option.bind_eq_some_iff] at hrun
  obtain ⟨dataSize, -, hrun⟩ := hrun
  split_ifs at hrun
  · simp only [Option.bind_eq_some_iff] at hrun
    obtain ⟨⟨alloc, fresh⟩, -, hrun⟩ := hrun
    cases fresh with
    | none =>
      simp only [Option.some.injEq, Prod.mk.injEq] at hrun
      exact Or.inl (hrun.1 ▸ rfl)
    | some fresh =>
      simp only [Option.bind_eq_some_iff, Option.some.injEq, Prod.mk.injEq] at hrun
      obtain ⟨_, -, _, -, rfl, -⟩ := hrun
      exact Or.inr ⟨fresh, rfl⟩
  · simp only [Option.bind_eq_some_iff, Option.some.injEq, Prod.mk.injEq] at hrun
    obtain ⟨_, -, rfl, -⟩ := hrun
    exact Or.inl rfl

theorem accounted_store {slot : SlotRef} {item : Ptr} {dataLen : ℕ} {code : KvError}
    (h : Resources shard.table)
    (hrun : kvShardStore shard slot item dataLen key e = some (shard', code)) :
    Resources shard'.table := by
  rcases shardStore_table hrun with hsame | ⟨p, hwrite⟩
  · rwa [hsame]
  · rw [hwrite]
    exact h.writeSlot slot (some p)

theorem resources_shardSet {granted : Bool} {code : KvError} (h : Resources shard.table)
    (hinv : ShardInv E shard M)
    (hrun : kvShardSet E granted shard (E.xxh3 key) key e = some (shard', code)) :
    Resources shard'.table := by
  obtain ⟨table', slot, found, rest, hset, hslot⟩ := set_spec hinv.table granted key
  have hcase : Resources table' := ⟨h.chains.set hinv.table hset, h.maps.set hset⟩
  simp -implicitDefEqProofs only [kvShardSet, hset, hslot.read, Option.bind_eq_bind,
    Option.bind_some] at hrun
  cases found with
  | some item => exact accounted_store hcase hrun
  | none =>
    rcases alloc_refused_or (Pages.sizeT (key.length + e.value.length)) with hno | ⟨hpos, hmax⟩
    · -- the rollback reads through `NULL`
      have hdelete := delete_holed (set_holed hinv.table hset hslot.read)
      simp -implicitDefEqProofs only [hno, hdelete, Option.bind_some, Option.bind_none] at hrun
      simp at hrun
    · obtain ⟨alloc₁, p, halloc, -⟩ := alloc_sizeT hinv.heap hpos hmax
      rw [halloc, Option.bind_some] at hrun
      exact accounted_store (hcase.writeSlot slot (some p)) hrun

theorem resources_shardDelete {code : KvError} (h : Resources shard.table)
    (hinv : ShardInv E shard M)
    (hrun : kvShardDelete E shard (E.xxh3 key) key = some (shard', code)) :
    Resources shard'.table := by
  simp only [kvShardDelete, Option.bind_eq_bind, Option.bind_eq_some_iff] at hrun
  obtain ⟨⟨table', item⟩, hdelete, hrun⟩ := hrun
  have htable : shard'.table = table' := by
    cases item with
    | none =>
      simp only [Option.some.injEq, Prod.mk.injEq] at hrun
      rw [← hrun.1]
    | some item =>
      simp only [Option.bind_eq_some_iff, Option.some.injEq, Prod.mk.injEq] at hrun
      obtain ⟨_, -, rfl, -⟩ := hrun
      rfl
  rw [htable]
  exact ⟨h.chains.delete hinv.table hdelete, h.maps.delete hdelete⟩

/-- Of every shard the chained buckets and the mappings are accounted for. -/
def AllResources (kv : Kv) : Prop := ∀ idx, Resources (kv.shards idx).table

theorem AllResources.setShard (h : AllResources kv) {idx : Fin 256}
    (hs : Resources shard.table) : AllResources (kv.setShard idx shard) := by
  intro i
  by_cases hi : i = idx
  · subst hi
    rwa [Kv.setShard_self]
  · rw [Kv.setShard_ne kv shard hi]
    exact h i

theorem AllResources.runKvOp {op : KvOp} {reply : KvReply} (h : AllResources kv)
    (hinv : KvInv E kv M) (hrun : runKvOp E kv op = some (kv', reply)) : AllResources kv' := by
  cases op with
  | set granted key e =>
    simp only [Store.runKvOp, kvSet, Option.bind_eq_bind, Option.bind_eq_some_iff, Prod.exists,
      Option.some.injEq, Prod.mk.injEq] at hrun
    obtain ⟨_, code, ⟨shard', _, hset, rfl, rfl⟩, rfl, -⟩ := hrun
    exact h.setShard (resources_shardSet (h _) (hinv _) hset)
  | get key dstLen =>
    simp only [Store.runKvOp, Option.bind_eq_bind, Option.bind_eq_some_iff, Option.some.injEq,
      Prod.mk.injEq] at hrun
    obtain ⟨_, -, rfl, -⟩ := hrun
    exact h
  | delete key =>
    simp only [Store.runKvOp, kvDelete, Option.bind_eq_bind, Option.bind_eq_some_iff, Prod.exists,
      Option.some.injEq, Prod.mk.injEq] at hrun
    obtain ⟨_, code, ⟨shard', _, hdelete, rfl, rfl⟩, rfl, -⟩ := hrun
    exact h.setShard (resources_shardDelete (h _) (hinv _) hdelete)

theorem AllResources.runKv {ops : List KvOp} {replies : List KvReply} (h : AllResources kv)
    (hinv : KvInv E kv M) (hk : ∀ op ∈ ops, op.Narrow)
    (hrun : runKv E kv ops = some (kv', replies)) : AllResources kv' := by
  induction ops generalizing kv M replies with
  | nil =>
    simp only [Store.runKv, Option.some.injEq, Prod.mk.injEq] at hrun
    exact hrun.1 ▸ h
  | cons op ops ih =>
    simp only [Store.runKv, Option.bind_eq_bind, Option.bind_eq_some_iff, Prod.exists,
      Option.some.injEq, Prod.mk.injEq] at hrun
    obtain ⟨kv₁, reply, hop, _, rest, hrest, rfl, -⟩ := hrun
    obtain ⟨M₁, hinv₁⟩ := runKvOp_inv hinv (hk op List.mem_cons_self) hop
    exact ih (h.runKvOp hinv hop) hinv₁ (fun o ho => hk o (List.mem_cons_of_mem op ho)) hrest

theorem shardInit_accounted {granted : Bool} {leftover : ℕ} {memory : Ptr → Cell}
    (h : kvShardInit E granted leftover memory = some shard) : Resources shard.table := by
  simp only [kvShardInit, Option.bind_eq_bind, Option.bind_eq_some_iff, Option.some.injEq] at h
  obtain ⟨table, hinit, rfl⟩ := h
  exact ⟨init_chains hinit, init_maps hinit⟩

theorem kvInit_resources {leftover : Fin 256 → ℕ} {memory : Fin 256 → Ptr → Cell}
    (hinit : kvInit E leftover memory = some kv) : AllResources kv := by
  unfold kvInit at hinit
  split_ifs at hinit with hsome
  rw [Option.some.injEq] at hinit
  subst hinit
  exact fun idx => shardInit_accounted (Option.some_get (hsome idx)).symm

theorem Reached.resources (h : Reached E kv) : AllResources kv := by
  obtain ⟨leftover, memory, kv₀, ops, replies, hinit, hk, hrun⟩ := h
  exact (kvInit_resources hinit).runKv (kvInit_spec hinit) (fun op hop => (hk op hop).narrow) hrun

/-! ## The whole store -/

theorem flatMap_single {α β : Type} [DecidableEq α] {l : List α} {a : α} (f : α → List β)
    (hnd : l.Nodup) (ha : a ∈ l) : (l.flatMap fun i => if i = a then f i else []) = f a := by
  induction l with
  | nil => exact absurd ha List.not_mem_nil
  | cons b l ih =>
    obtain ⟨hb, hnd⟩ := List.nodup_cons.mp hnd
    rw [List.flatMap_cons]
    by_cases hba : b = a
    · subst hba
      have hrest : (l.flatMap fun i => if i = b then f i else []) = [] := by
        rw [List.flatMap_eq_nil_iff]
        intro i hi
        rw [if_neg]
        rintro rfl
        exact hb hi
      rw [if_pos rfl, hrest, List.append_nil]
    · rw [if_neg hba, List.nil_append, ih hnd ((List.mem_cons.mp ha).resolve_left (Ne.symm hba))]

theorem released_of (kv : Kv) (idx : Fin 256) :
    (kvDestroy kv).filterMap (KvRelease.of idx) = kvShardDestroy (kv.shards idx) := by
  have hone : ∀ i : Fin 256, ((kvShardDestroy (kv.shards i)).map (KvRelease.shard i)).filterMap
      (KvRelease.of idx) = if i = idx then kvShardDestroy (kv.shards i) else [] := by
    intro i
    rw [List.filterMap_map]
    split_ifs with hi
    · have hsome : (KvRelease.of idx ∘ KvRelease.shard i) = some := by
        funext r
        simp [KvRelease.of, hi]
      rw [hsome, List.filterMap_some]
    · have hnone : (KvRelease.of idx ∘ KvRelease.shard i) = fun _ => none := by
        funext r
        simp [KvRelease.of, hi]
      rw [hnone, List.filterMap_none]
  have hlast : [KvRelease.kv].filterMap (KvRelease.of idx) = [] := rfl
  rw [kvDestroy, List.filterMap_append, List.filterMap_flatMap, hlast, List.append_nil]
  simp only [hone]
  exact flatMap_single _ (List.nodup_finRange 256) (List.mem_finRange idx)

/-- `released` is what is given back for a shard: each thing it holds, once. -/
structure ReleasedOnce (shard : KvShard) (released : List Release) : Prop where
  slabs : (released.filterMap Release.asSlab).Perm (List.range shard.allocator.slabs.length)
  freeStacks : released.filterMap Release.asFreeStack = List.range shard.allocator.classes.length
  arrays : released.filterMap Release.asSlabs = List.range shard.allocator.classes.length
  -- what was allocated and not freed by migration
  buckets : callocs shard.table.trace =
    frees shard.table.trace + frees (released.filterMap Release.asEvent)
  once : (callocs shard.table.trace).Nodup
  mappings : mapLens shard.table.trace =
    unmapLens shard.table.trace + unmapLens (released.filterMap Release.asEvent)
  rest : released.count .classes = 1 ∧ released.count .allocator = 1 ∧
    released.count .table = 1 ∧ released.count .mutex = 1

theorem table_releases (table : Table Ptr) :
    (tableDestroy table).filterMap Release.asEvent = destroyEvents table ∧
      (tableDestroy table).filterMap Release.asSlab = [] ∧
      (tableDestroy table).filterMap Release.asFreeStack = [] ∧
      (tableDestroy table).filterMap Release.asSlabs = [] := by
  simp [tableDestroy, List.filterMap_append, List.filterMap_map, Function.comp_def, Release.asEvent,
    Release.asSlab, Release.asFreeStack, Release.asSlabs]

theorem classes_events (classes : List SlabClass) (idx : ℕ) :
    (slabClassesDestroy classes idx).filterMap Release.asEvent = [] := by
  induction classes generalizing idx with
  | nil => rfl
  | cons sc classes ih =>
    simp [slabClassesDestroy, slabClassDestroy, List.filterMap_append, List.filterMap_cons,
      List.filterMap_map, Function.comp_def, ih, Release.asEvent]

theorem count_classes {r : Release} (hslab : ∀ b, r ≠ .slab b) (hstack : ∀ i, r ≠ .freeStack i)
    (harray : ∀ i, r ≠ .slabs i) (classes : List SlabClass) (idx : ℕ) :
    (slabClassesDestroy classes idx).count r = 0 := by
  rw [List.count_eq_zero]
  induction classes generalizing idx with
  | nil => exact List.not_mem_nil
  | cons sc classes ih =>
    simp only [slabClassesDestroy, slabClassDestroy, List.mem_append, List.mem_map, List.mem_cons,
      List.not_mem_nil, or_false, not_or, not_exists, not_and]
    exact ⟨⟨fun b _ => (hslab b).symm, hstack idx, harray idx⟩, ih (idx + 1)⟩

/-- After any calls that returned, `kv_destroy` gives back everything that the shards hold, each
thing once. -/
theorem kv_destroy_releases (h : Reached E kv) (idx : Fin 256) :
    ReleasedOnce (kv.shards idx) ((kvDestroy kv).filterMap (KvRelease.of idx)) := by
  obtain ⟨M, hinv⟩ := h.inv
  have hs := hinv idx
  obtain ⟨hbuckets, honce, hmappings⟩ := (h.resources idx).destroy hs.table
  obtain ⟨hevents, hnoSlab, hnoStack, hnoArray⟩ := table_releases (kv.shards idx).table
  obtain ⟨hstacks, harrays⟩ := classes_arrays (kv.shards idx).allocator.classes 0
  have hrange : ∀ n, List.range' 0 n = List.range n := fun n => List.range_eq_range'.symm
  have hall : ((kvShardDestroy (kv.shards idx)).filterMap Release.asEvent) =
      destroyEvents (kv.shards idx).table := by
    simp [kvShardDestroy, slabAllocatorDestroy, List.filterMap_append, List.filterMap_cons,
      classes_events, hevents, Release.asEvent]
  rw [released_of]
  refine ⟨?_, ?_, ?_, ?_, honce, ?_, ?_⟩
  · have hslabs := slabs_perm hs.heap
    simpa [kvShardDestroy, slabAllocatorDestroy, List.filterMap_append, List.filterMap_cons,
      classes_asSlab, hnoSlab, Release.asSlab] using hslabs
  · simp [kvShardDestroy, slabAllocatorDestroy, List.filterMap_append, List.filterMap_cons,
      hstacks, hnoStack, Release.asFreeStack, hrange]
  · simp [kvShardDestroy, slabAllocatorDestroy, List.filterMap_append, List.filterMap_cons,
      harrays, hnoArray, Release.asSlabs, hrange]
  · rw [hall]
    exact hbuckets
  · rw [hall]
    exact hmappings
  · simp [kvShardDestroy, slabAllocatorDestroy, tableDestroy, List.count_append, count_classes,
      List.count_eq_zero]

theorem kv_destroy_releases_twoLeft :
    ReleasedOnce (twoLeftKv.shards 0) ((kvDestroy twoLeftKv).filterMap (KvRelease.of 0)) :=
  kv_destroy_releases twoLeftKv_reached 0

end Kvx.Store
