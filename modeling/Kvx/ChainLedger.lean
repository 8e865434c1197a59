import Kvx.TableFrame

/-!
# Chained buckets

Every chained bucket that was allocated is in a chain of one of the arrays, or held by the
migration step that walks over it, or freed. The chains of a migrated bucket stay empty.
-/
namespace Kvx.Hashtable

open Kvx.Lib

variable {ι : Type} {E : Env} {itemKey : ι → List UInt8}

def Event.calloced : Event → Multiset ℕ
  | .calloc addr => {addr}
  | _ => 0

def Event.freed : Event → Multiset ℕ
  | .free addr => {addr}
  | _ => 0

def callocs (trace : List Event) : Multiset ℕ := (trace.map Event.calloced).sum

def frees (trace : List Event) : Multiset ℕ := (trace.map Event.freed).sum

def Chain.addrs (chain : Chain ι) : Multiset ℕ := ↑(chain.next.map Chained.addr)

def arrayAddrs (chains : List (Chain ι)) : Multiset ℕ := (chains.map Chain.addrs).sum

/-- The chained buckets that the two arrays lead to. -/
def Table.addrs (t : Table ι) : Multiset ℕ :=
  arrayAddrs t.oldBuckets.chains + t.newBuckets.elim 0 fun m => arrayAddrs m.chains

/-- `held` are the buckets that are on no chain any more and not freed yet. -/
structure Balanced (t : Table ι) (held : Multiset ℕ) : Prop where
  balance : callocs t.trace = frees t.trace + t.addrs + held
  nodup : (callocs t.trace).Nodup
  fresh : ∀ addr ∈ callocs t.trace, addr < t.fresh

theorem addrs_modify (chain : Chain ι) (n : ℕ) (f : Bucket ι → Bucket ι) :
    (chain.modify n f).addrs = chain.addrs := by
  cases n with
  | zero => rfl
  | succ n =>
    have hmap : (chain.next.modify n fun c => { c with bucket := f c.bucket }).map
        Chained.addr = chain.next.map Chained.addr := by
      apply List.ext_getElem?
      intro m
      rw [List.getElem?_map, List.getElem?_modify, List.getElem?_map]
      cases chain.next[m]? with
      | none => simp
      | some c => by_cases hm : n = m <;> simp [hm]
    exact congrArg (fun l : List ℕ => (l : Multiset ℕ)) hmap

theorem addrs_locate {chain : Chain ι} {addr : ℕ} {tag : BitVec 8} {key : List UInt8}
    {found : Located ι} (h : locate itemKey chain addr tag key = some found) :
    found.chain.addrs = chain.addrs + if found.grown then {addr} else 0 := by
  simp only [locate, Option.bind_eq_bind, Option.bind_eq_some_iff, Option.some.injEq] at h
  obtain ⟨⟨loc, grown⟩, -, rfl⟩ := h
  cases grown with
  | false => exact (add_zero _).symm
  | true => simp [Chain.addrs, hashtableBucketInitChain, ← Multiset.coe_add]

theorem arrayAddrs_set {chains : List (Chain ι)} {j : ℕ} {c d : Chain ι} {more : Multiset ℕ}
    (hc : chains[j]? = some c) (hd : d.addrs = c.addrs + more) :
    arrayAddrs (chains.set j d) = arrayAddrs chains + more := by
  have hset := sum_map_set Chain.addrs d hc
  rw [hd, add_left_comm, add_comm _ c.addrs] at hset
  exact add_left_cancel hset

theorem arrayAddrs_set_nil {chains : List (Chain ι)} {j : ℕ} {c : Chain ι} (head : Bucket ι)
    (hc : chains[j]? = some c) :
    arrayAddrs (chains.set j ⟨head, []⟩) + c.addrs = arrayAddrs chains := by
  have hset := sum_map_set Chain.addrs ⟨head, []⟩ hc
  rwa [show Chain.addrs ⟨head, []⟩ = 0 from rfl, add_zero] at hset

theorem addrs_arraySet {addr n : ℕ} {chains : List (Chain ι)} {hash : BitVec 64}
    {tag : BitVec 8} {key : List UInt8} {r : ArraySet ι}
    (h : arraySet itemKey addr chains n hash tag key = some r) :
    ∃ c d, chains[bucketIdx hash n]? = some c ∧ r.chains = chains.set (bucketIdx hash n) d ∧
      d.addrs = c.addrs + if r.grown then {addr} else 0 := by
  simp only [arraySet, Option.bind_eq_bind, Option.bind_eq_some_iff] at h
  obtain ⟨c, hc, found, hf, b, hb, h⟩ := h
  have haddrs := addrs_locate hf
  split_ifs at h
  · rw [Option.some.injEq] at h
    subst h
    exact ⟨c, _, hc, rfl, (addrs_modify _ _ _).trans haddrs⟩
  · rw [Option.some.injEq] at h
    subst h
    exact ⟨c, _, hc, rfl, haddrs⟩

theorem addrs_writeChains (chains : List (Chain ι)) (ref : SlotRef) (item : Option ι) :
    (writeChains chains ref item).map Chain.addrs = chains.map Chain.addrs := by
  apply List.ext_getElem?
  intro m
  rw [writeChains, List.getElem?_map, List.getElem?_modify, List.getElem?_map]
  cases chains[m]? with
  | none => simp
  | some c => by_cases hm : ref.idx = m <;> simp [hm, addrs_modify]

theorem addrs_arrayDelete {n : ℕ} {chains chains' : List (Chain ι)} {hash : BitVec 64}
    {tag : BitVec 8} {key : List UInt8} {item : Option ι}
    (h : arrayDelete itemKey chains n hash tag key = some (some (chains', item))) :
    chains'.map Chain.addrs = chains.map Chain.addrs := by
  simp only [arrayDelete, Option.bind_eq_bind, Option.bind_eq_some_iff] at h
  obtain ⟨c, hc, found, -, h⟩ := h
  cases found with
  | none => simp at h
  | some loc =>
    simp only [Option.bind_eq_some_iff, Option.some.injEq, Prod.mk.injEq] at h
    obtain ⟨b, -, rfl, -⟩ := h
    have hget : (chains.map Chain.addrs)[bucketIdx hash n]? = some c.addrs := by
      rw [List.getElem?_map, hc, Option.map_some]
    obtain ⟨hlt, he⟩ := List.getElem?_eq_some_iff.mp hget
    rw [List.map_set, addrs_modify, ← he]
    exact List.set_getElem_self hlt

namespace Balanced

variable {t t' : Table ι} {held : Multiset ℕ}

theorem of_eq (h : Balanced t held) (hcallocs : callocs t'.trace = callocs t.trace)
    (hfrees : frees t'.trace = frees t.trace) (hfresh : t'.fresh = t.fresh)
    (haddrs : t'.addrs = t.addrs) : Balanced t' held :=
  ⟨by rw [hcallocs, hfrees, haddrs, h.balance], by rw [hcallocs]; exact h.nodup,
    by rw [hcallocs, hfresh]; exact h.fresh⟩

theorem grow (h : Balanced t held) (grown : Bool)
    (htrace : t'.trace = (t.noteCalloc grown).trace)
    (hfresh : t'.fresh = (t.noteCalloc grown).fresh)
    (haddrs : t'.addrs = t.addrs + if grown then {t.fresh} else 0) : Balanced t' held := by
  cases grown with
  | false =>
    exact h.of_eq (congrArg callocs htrace) (congrArg frees htrace) hfresh
      (haddrs.trans (add_zero _))
  | true =>
    have hcallocs : callocs t'.trace = {t.fresh} + callocs t.trace := by rw [htrace]; rfl
    have hfrees : frees t'.trace = frees t.trace := by
      rw [htrace]
      exact zero_add _
    refine ⟨?_, ?_, ?_⟩
    · rw [hcallocs, hfrees, haddrs, h.balance]
      simp only [if_true]
      abel
    · rw [hcallocs, Multiset.singleton_add, Multiset.nodup_cons]
      exact ⟨fun hmem => (h.fresh _ hmem).false, h.nodup⟩
    · intro addr haddr
      have hnext : t'.fresh = t.fresh + 1 := hfresh
      rw [hcallocs, Multiset.singleton_add, Multiset.mem_cons] at haddr
      rw [hnext]
      rcases haddr with rfl | haddr
      · exact Nat.lt_succ_self _
      · exact (h.fresh addr haddr).trans (Nat.lt_succ_self _)

theorem free {addr : ℕ} (h : Balanced t (addr ::ₘ held)) :
    Balanced { t with trace := .free addr :: t.trace } held := by
  have hcallocs : callocs (.free addr :: t.trace) = callocs t.trace := zero_add _
  have hfrees : frees (.free addr :: t.trace) = {addr} + frees t.trace := rfl
  refine ⟨?_, by rw [hcallocs]; exact h.nodup, by rw [hcallocs]; exact h.fresh⟩
  rw [hcallocs, hfrees, h.balance, ← Multiset.singleton_add]
  simp only [Table.addrs]
  abel

theorem migrateSlot {i : Fin 8} {b b' : Bucket ι} {item : Option ι} (hbal : Balanced t held)
    (h : hashtableMigrateSlot E itemKey t i b item = some (t', b')) :
    Balanced t' held ∧ t'.oldBuckets = t.oldBuckets := by
  simp only [hashtableMigrateSlot, Option.bind_eq_bind, Option.bind_eq_some_iff] at h
  obtain ⟨key, -, m, hm, c, hc, found, hf, nb, -, h⟩ := h
  have hloc := addrs_locate hf
  have hstart : Balanced { t with oldSize := t.oldSize - 1 } held := hbal.of_eq rfl rfl rfl rfl
  have hnew : ∀ d : Chain ι, d.addrs = found.chain.addrs →
      arrayAddrs (m.chains.set (bucketIdx (E.xxh3 key) t.newBucketCount) d) =
        arrayAddrs m.chains + if found.grown then {t.fresh} else 0 := fun d hd =>
    arrayAddrs_set hc (hd.trans hloc)
  split_ifs at h
  all_goals
    simp only [Option.some.injEq, Prod.mk.injEq] at h
    rw [← h.1]
    refine ⟨hstart.grow found.grown rfl rfl ?_, ?_⟩
  · cases hg : found.grown <;>
      simp [Table.addrs, Table.noteCalloc, hm, hnew _ (addrs_modify _ _ _), hg, add_assoc]
  · cases found.grown <;> rfl
  · cases hg : found.grown <;>
      simp [Table.addrs, Table.noteCalloc, hm, hnew _ rfl, hg, add_assoc]
  · cases found.grown <;> rfl

theorem migrateSlotsFrom {slots : List (Fin 8)} {b b' : Bucket ι} (hbal : Balanced t held)
    (h : migrateSlotsFrom E itemKey slots t b = some (t', b')) :
    Balanced t' held ∧ t'.oldBuckets = t.oldBuckets := by
  induction slots generalizing t b with
  | nil =>
    simp only [Hashtable.migrateSlotsFrom, Option.some.injEq, Prod.mk.injEq] at h
    exact h.1 ▸ ⟨hbal, rfl⟩
  | cons i slots ih =>
    unfold Hashtable.migrateSlotsFrom at h
    split_ifs at h
    · exact ih hbal h
    · simp only [Option.bind_eq_bind, Option.bind_eq_some_iff] at h
      obtain ⟨⟨t₁, b₁⟩, h₁, h⟩ := h
      obtain ⟨hbal₁, hold₁⟩ := hbal.migrateSlot h₁
      obtain ⟨hbal', hold'⟩ := ih hbal₁ h
      exact ⟨hbal', hold'.trans hold₁⟩

theorem migrateChained {next : List (Chained ι)}
    (hbal : Balanced t (↑(next.map Chained.addr) + held))
    (h : migrateChained E itemKey next t = some t') :
    Balanced t' held ∧ t'.oldBuckets = t.oldBuckets := by
  induction next generalizing t with
  | nil =>
    simp only [Hashtable.migrateChained, Option.some.injEq] at h
    rw [List.map_nil, Multiset.coe_nil, zero_add] at hbal
    exact h ▸ ⟨hbal, rfl⟩
  | cons c next ih =>
    simp only [Hashtable.migrateChained, Option.bind_eq_bind, Option.bind_eq_some_iff] at h
    obtain ⟨⟨t₁, b₁⟩, h₁, h⟩ := h
    obtain ⟨hbal₁, hold₁⟩ := hbal.migrateSlotsFrom h₁
    rw [List.map_cons, ← Multiset.cons_coe, Multiset.cons_add] at hbal₁
    obtain ⟨hbal', hold'⟩ := ih hbal₁.free h
    exact ⟨hbal', hold'.trans hold₁⟩

/-- The chained buckets of the migrated bucket are freed, and it leads to none any more. -/
theorem migrateBucket {pos : ℕ} (hbal : Balanced t held)
    (h : hashtableMigrateBucket E itemKey t pos = some t') :
    Balanced t' held ∧ ∃ head, t'.oldBuckets.chains = t.oldBuckets.chains.set pos ⟨head, []⟩ := by
  simp only [hashtableMigrateBucket, Option.bind_eq_bind, Option.bind_eq_some_iff] at h
  obtain ⟨c, hc, ⟨t₁, head⟩, h₁, h⟩ := h
  obtain ⟨hbal₁, hold₁⟩ := hbal.migrateSlotsFrom h₁
  have hset := arrayAddrs_set_nil head (hold₁ ▸ hc : t₁.oldBuckets.chains[pos]? = some c)
  have hheld : Balanced { t₁ with oldBuckets :=
      { t₁.oldBuckets with chains := t₁.oldBuckets.chains.set pos ⟨head, []⟩ } }
      (c.addrs + held) := by
    refine ⟨?_, hbal₁.nodup, hbal₁.fresh⟩
    rw [hbal₁.balance]
    simp only [Table.addrs]
    rw [← hset]
    abel
  obtain ⟨hbal', hold'⟩ := hheld.migrateChained h
  refine ⟨hbal', head, ?_⟩
  rw [hold', hold₁]

end Balanced

end Kvx.Hashtable
