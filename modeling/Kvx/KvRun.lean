import Kvx.ShardOps

/-!
# The store refines a finite map

Every shard holds the entries of the keys that hash to it. A run interleaves calls of
`kv_set`, `kv_get` and `kv_delete`, and ends where one of them faults.
-/
namespace Kvx.Store

open Kvx.Lib Kvx.Hashtable Kvx.SlabAlloc Kvx.Item

variable {E : Env} {kv kv' : Kv} {M : EntryMap} {key : List UInt8} {e : Entry}

def shardMap (E : Env) (M : EntryMap) (idx : Fin 256) : EntryMap :=
  fun key => if shardIdx (E.xxh3 key) = idx then M key else none

def KvInv (E : Env) (kv : Kv) (M : EntryMap) : Prop :=
  ∀ idx, ShardInv E (kv.shards idx) (shardMap E M idx)

@[simp] theorem shardMap_self (M : EntryMap) (key : List UInt8) :
    shardMap E M (shardIdx (E.xxh3 key)) key = M key := if_pos rfl

theorem shardMap_update_self (M : EntryMap) (key : List UInt8) (v : Option Entry) :
    shardMap E (Function.update M key v) (shardIdx (E.xxh3 key)) =
      Function.update (shardMap E M (shardIdx (E.xxh3 key))) key v := by
  funext k
  by_cases hk : k = key
  · subst hk
    rw [shardMap_self, Function.update_self, Function.update_self]
  · rw [Function.update_of_ne hk, shardMap, shardMap, Function.update_of_ne hk]

theorem shardMap_update_ne (M : EntryMap) {idx : Fin 256} (v : Option Entry)
    (h : idx ≠ shardIdx (E.xxh3 key)) :
    shardMap E (Function.update M key v) idx = shardMap E M idx := by
  funext k
  unfold shardMap
  split_ifs with hk
  · rw [Function.update_of_ne]
    rintro rfl
    exact h hk.symm
  · rfl

@[simp] theorem Kv.setShard_self (kv : Kv) (idx : Fin 256) (shard : KvShard) :
    (kv.setShard idx shard).shards idx = shard := by
  simp [Kv.setShard]

theorem Kv.setShard_ne (kv : Kv) {idx i : Fin 256} (shard : KvShard) (h : i ≠ idx) :
    (kv.setShard idx shard).shards i = kv.shards i := by
  simp [Kv.setShard, h]

theorem KvInv.setShard {shard : KvShard} (h : KvInv E kv M) (v : Option Entry)
    (hs : ShardInv E shard (Function.update (shardMap E M (shardIdx (E.xxh3 key))) key v)) :
    KvInv E (kv.setShard (shardIdx (E.xxh3 key)) shard) (Function.update M key v) := by
  intro idx
  by_cases hi : idx = shardIdx (E.xxh3 key)
  · subst hi
    rw [Kv.setShard_self, shardMap_update_self]
    exact hs
  · rw [Kv.setShard_ne kv shard hi, shardMap_update_ne M v hi]
    exact h idx

theorem KvInv.setShard_same {shard : KvShard} {idx : Fin 256} (h : KvInv E kv M)
    (hs : ShardInv E shard (shardMap E M idx)) : KvInv E (kv.setShard idx shard) M := by
  intro i
  by_cases hi : i = idx
  · subst hi
    rw [Kv.setShard_self]
    exact hs
  · rw [Kv.setShard_ne kv shard hi]
    exact h i

theorem kvInit_spec {leftover : Fin 256 → ℕ} {memory : Fin 256 → Ptr → Cell}
    (h : kvInit E leftover memory = some kv) : KvInv E kv fun _ => none := by
  unfold kvInit at h
  split_ifs at h with hsome
  rw [Option.some.injEq] at h
  subst h
  intro idx
  have hempty : shardMap E (fun _ => none) idx = fun _ => none := by
    funext k
    exact ite_self none
  rw [hempty]
  exact shardInit_spec (Option.some_get (hsome idx)).symm

theorem kvGet_spec (h : KvInv E kv M) (key : List UInt8) (dstLen : ℕ) :
    kvGet E kv key dstLen = some (lookup dstLen (M key)) := by
  unfold kvGet
  rw [shardGet_spec (h _) key dstLen, shardMap_self]

theorem kvSet_fits (h : KvInv E kv M) (granted : Bool) (hfit : Fits key e)
    (hr : 0 < key.length + e.value.length ∨ M key ≠ none) :
    ∃ kv', kvSet E granted kv key e = some (kv', .ok) ∧
      (key.length < 256 ^ 2 → KvInv E kv' (Function.update M key (some e))) := by
  obtain ⟨shard', hrun, hinv⟩ :=
    shardSet_fits (h (shardIdx (E.xxh3 key))) granted hfit (by rwa [shardMap_self])
  refine ⟨_, ?_, fun hkey => h.setShard (some e) (hinv hkey)⟩
  simp -implicitDefEqProofs only [kvSet, hrun, Option.bind_eq_bind, Option.bind_some]

theorem kvSet_refused (h : KvInv E kv M) (granted : Bool)
    (hword : key.length + e.value.length + 24 < 2 ^ 64) (hbig : ¬ Fits key e)
    (hpresent : M key ≠ none) :
    ∃ kv', kvSet E granted kv key e = some (kv', .noMem) ∧ KvInv E kv' M ∧
      ∀ idx, (kv'.shards idx).table.bag = (kv.shards idx).table.bag := by
  obtain ⟨shard', hrun, hinv, hbag⟩ :=
    shardSet_refused (h _) granted hword hbig (by rw [shardMap_self]; exact hpresent)
  refine ⟨kv.setShard (shardIdx (E.xxh3 key)) shard', ?_, h.setShard_same hinv, fun idx => ?_⟩
  · simp -implicitDefEqProofs only [kvSet, hrun, Option.bind_eq_bind, Option.bind_some]
  · by_cases hi : idx = shardIdx (E.xxh3 key)
    · subst hi
      rw [Kv.setShard_self]
      exact hbag
    · rw [Kv.setShard_ne kv shard' hi]

theorem kvSet_faults (h : KvInv E kv M) (granted : Bool)
    (hword : key.length + e.value.length + 24 < 2 ^ 64) (hbig : ¬ Fits key e)
    (habsent : M key = none) : kvSet E granted kv key e = none := by
  have hrun := shardSet_faults (h _) granted
    (fun alloc => by rw [dataLen_eq hword]; exact alloc_tooLarge hword hbig)
    (by rw [shardMap_self]; exact habsent)
  simp -implicitDefEqProofs only [kvSet, hrun, Option.bind_eq_bind, Option.bind_none]

theorem kvSet_returns {granted : Bool} {code : KvError} (h : KvInv E kv M)
    (hkey : key.length < 256 ^ 2) (hrun : kvSet E granted kv key e = some (kv', code)) :
    code = .ok ∧ KvInv E kv' (Function.update M key (some e)) ∨ code = .noMem ∧ KvInv E kv' M := by
  simp only [kvSet, Option.bind_eq_bind, Option.bind_eq_some_iff, Prod.exists, Option.some.injEq,
    Prod.mk.injEq] at hrun
  obtain ⟨shard', _, hset, rfl, rfl⟩ := hrun
  rcases shardSet_returns (h _) hkey hset with ⟨rfl, hinv⟩ | ⟨rfl, hinv⟩
  · exact Or.inl ⟨rfl, h.setShard (some e) hinv⟩
  · exact Or.inr ⟨rfl, h.setShard_same hinv⟩

theorem kvDelete_spec (h : KvInv E kv M) (key : List UInt8) :
    ∃ kv', kvDelete E kv key = some (kv', if M key = none then .notFound else .ok) ∧
      KvInv E kv' (Function.update M key none) := by
  obtain ⟨shard', hrun, hinv⟩ := shardDelete_spec (h _) key
  rw [shardMap_self] at hrun
  refine ⟨_, ?_, h.setShard none hinv⟩
  simp -implicitDefEqProofs only [kvDelete, hrun, Option.bind_eq_bind, Option.bind_some]

inductive KvOp
  | set (granted : Bool) (key : List UInt8) (e : Entry)
  | get (key : List UInt8) (dstLen : ℕ)
  | delete (key : List UInt8)

inductive KvReply
  | code (code : KvError)
  | got (got : KvGot)
  deriving DecidableEq, Repr

def runKvOp (E : Env) (kv : Kv) : KvOp → Option (Kv × KvReply)
  | .set granted key e => do
      let (kv, code) ← kvSet E granted kv key e
      some (kv, .code code)
  | .get key dstLen => do
      let got ← kvGet E kv key dstLen
      some (kv, .got got)
  | .delete key => do
      let (kv, code) ← kvDelete E kv key
      some (kv, .code code)

def runKv (E : Env) : Kv → List KvOp → Option (Kv × List KvReply)
  | kv, [] => some (kv, [])
  | kv, op :: ops => do
      let (kv, reply) ← runKvOp E kv op
      let (kv, replies) ← runKv E kv ops
      some (kv, reply :: replies)

def mapKvOp (M : EntryMap) : KvOp → EntryMap
  | .set _ key e => if Fits key e then Function.update M key (some e) else M
  | .get _ _ => M
  | .delete key => Function.update M key none

def mapReply (M : EntryMap) : KvOp → KvReply
  | .set _ key e => .code (if Fits key e then .ok else .noMem)
  | .get key dstLen => .got (lookup dstLen (M key))
  | .delete key => .code (if M key = none then .notFound else .ok)

def mapKvRun : EntryMap → List KvOp → List KvReply
  | _, [] => []
  | M, op :: ops => mapReply M op :: mapKvRun (mapKvOp M op) ops

def KvOp.Valid : KvOp → Prop
  | .set _ key e => Store.Valid key e
  | _ => True

/-- The call returns: a value that is too large must find its key present. -/
def Returns (M : EntryMap) : KvOp → Prop
  | .set _ key e => Fits key e ∨ M key ≠ none
  | _ => True

def AllReturn : EntryMap → List KvOp → Prop
  | _, [] => True
  | M, op :: ops => Returns M op ∧ AllReturn (mapKvOp M op) ops

/-- A call that returns answers as the map does. -/
theorem runKvOp_refines (h : KvInv E kv M) {op : KvOp} (hv : op.Valid) (hr : Returns M op) :
    ∃ kv', runKvOp E kv op = some (kv', mapReply M op) ∧ KvInv E kv' (mapKvOp M op) := by
  cases op with
  | set granted key e =>
    by_cases hfit : Fits key e
    · obtain ⟨kv', hrun, hinv⟩ := kvSet_fits h granted hfit (Or.inl hv.pos)
      simp only [mapKvOp, mapReply, if_pos hfit]
      refine ⟨kv', ?_, hinv hv.key_short⟩
      simp -implicitDefEqProofs only [runKvOp, hrun, Option.bind_eq_bind, Option.bind_some]
    · obtain ⟨kv', hrun, hinv, -⟩ := kvSet_refused h granted hv.word hfit (hr.resolve_left hfit)
      simp only [mapKvOp, mapReply, if_neg hfit]
      refine ⟨kv', ?_, hinv⟩
      simp -implicitDefEqProofs only [runKvOp, hrun, Option.bind_eq_bind, Option.bind_some]
  | get key dstLen =>
    refine ⟨kv, ?_, h⟩
    simp -implicitDefEqProofs only [runKvOp, kvGet_spec h, Option.bind_eq_bind, Option.bind_some]
    rfl
  | delete key =>
    obtain ⟨kv', hrun, hinv⟩ := kvDelete_spec h key
    refine ⟨kv', ?_, hinv⟩
    simp -implicitDefEqProofs only [runKvOp, hrun, Option.bind_eq_bind, Option.bind_some]
    rfl

theorem runKvOp_faults (h : KvInv E kv M) {op : KvOp} (hv : op.Valid) (hr : ¬ Returns M op) :
    runKvOp E kv op = none := by
  cases op with
  | set granted key e =>
    obtain ⟨hbig, habsent⟩ := not_or.mp hr
    have hrun := kvSet_faults h granted hv.word hbig (not_not.mp habsent)
    simp -implicitDefEqProofs only [runKvOp, hrun, Option.bind_eq_bind, Option.bind_none]
  | get key dstLen => exact absurd trivial hr
  | delete key => exact absurd trivial hr

theorem runKv_refines (h : KvInv E kv M) {ops : List KvOp} (hv : ∀ op ∈ ops, op.Valid)
    (hr : AllReturn M ops) : ∃ kv', runKv E kv ops = some (kv', mapKvRun M ops) := by
  induction ops generalizing kv M with
  | nil => exact ⟨kv, rfl⟩
  | cons op ops ih =>
    obtain ⟨kv₁, hrun, hinv⟩ := runKvOp_refines h (hv op List.mem_cons_self) hr.1
    obtain ⟨kv₂, hrest⟩ := ih hinv (fun o ho => hv o (List.mem_cons_of_mem op ho)) hr.2
    refine ⟨kv₂, ?_⟩
    simp -implicitDefEqProofs only [runKv, hrun, hrest, Option.bind_eq_bind, Option.bind_some]
    rfl

theorem runKv_returns (h : KvInv E kv M) {ops : List KvOp} (hv : ∀ op ∈ ops, op.Valid)
    {replies : List KvReply} (hrun : runKv E kv ops = some (kv', replies)) : AllReturn M ops := by
  induction ops generalizing kv kv' M replies with
  | nil => trivial
  | cons op ops ih =>
    simp only [runKv, Option.bind_eq_bind, Option.bind_eq_some_iff, Prod.exists] at hrun
    obtain ⟨kv₁, reply, hop, kv₂, rest, hrest, -⟩ := hrun
    have hr : Returns M op := by
      by_contra hn
      rw [runKvOp_faults h (hv op List.mem_cons_self) hn] at hop
      simp at hop
    obtain ⟨kv₃, hop', hinv⟩ := runKvOp_refines h (hv op List.mem_cons_self) hr
    rw [hop, Option.some.injEq, Prod.mk.injEq] at hop'
    obtain ⟨rfl, -⟩ := hop'
    exact ⟨hr, ih hinv (fun o ho => hv o (List.mem_cons_of_mem op ho)) hrest⟩

/-- From `kv_init` on, the calls of a run that returns answer as the map does. A run returns
exactly if no set of an absent key has a value that is too large. -/
theorem kv_refines_map {leftover : Fin 256 → ℕ} {memory : Fin 256 → Ptr → Cell}
    (hinit : kvInit E leftover memory = some kv) (ops : List KvOp) (hv : ∀ op ∈ ops, op.Valid) :
    (∀ kv' replies, runKv E kv ops = some (kv', replies) →
      replies = mapKvRun (fun _ => none) ops) ∧
    ((∃ kv' replies, runKv E kv ops = some (kv', replies)) ↔ AllReturn (fun _ => none) ops) := by
  have hinv := kvInit_spec hinit
  constructor
  · intro kv' replies hrun
    obtain ⟨kv'', hrun'⟩ := runKv_refines hinv hv (runKv_returns hinv hv hrun)
    rw [hrun, Option.some.injEq, Prod.mk.injEq] at hrun'
    exact hrun'.2
  · constructor
    · rintro ⟨kv', replies, hrun⟩
      exact runKv_returns hinv hv hrun
    · intro hr
      obtain ⟨kv', hrun⟩ := runKv_refines hinv hv hr
      exact ⟨kv', _, hrun⟩

theorem freshShard_isSome : (kvShardInit lengthEnv true 0 fun _ => .byte 0).isSome := by
  decide +kernel

/-- `kv_init` on a host with pages of 4096 bytes. -/
def freshKv : Kv := ⟨fun _ => (kvShardInit lengthEnv true 0 fun _ => .byte 0).get freshShard_isSome⟩

theorem freshKv_init : kvInit lengthEnv (fun _ => 0) (fun _ _ => .byte 0) = some freshKv :=
  dif_pos fun _ => freshShard_isSome

/-- A set, an overwrite, two lookups and a delete of one key. -/
def overwriteOps : List KvOp :=
  [.set true [7] ⟨[1, 2], 3, 4⟩, .set false [7] ⟨[5], 6, 7⟩, .get [7] 0, .get [7] 1, .delete [7]]

theorem kv_refines_map_overwrite :
    (∀ kv' replies, runKv lengthEnv freshKv overwriteOps = some (kv', replies) →
      replies = mapKvRun (fun _ => none) overwriteOps) ∧
    ((∃ kv' replies, runKv lengthEnv freshKv overwriteOps = some (kv', replies)) ↔
      AllReturn (fun _ => none) overwriteOps) := by
  refine kv_refines_map freshKv_init overwriteOps fun op hop => ?_
  simp only [overwriteOps, List.mem_cons, List.not_mem_nil, or_false] at hop
  rcases hop with rfl | rfl | rfl | rfl | rfl
  · exact ⟨by decide, by decide, by decide⟩
  · exact ⟨by decide, by decide, by decide⟩
  · trivial
  · trivial
  · trivial

end Kvx.Store
