import Kvx.KvRun

/-!
# The reached states

After any run of calls that returned, the items of every shard are its live chunks, and
`kv_set` is total and atomic exactly where its value is not too large or its key is
present.
-/
namespace Kvx.Store

open Kvx.Lib Kvx.Hashtable Kvx.SlabAlloc Kvx.Item

def KvOp.key : KvOp → List UInt8
  | .set _ key _ => key
  | .get key _ => key
  | .delete key => key

/-- The lengths `proto_parse_key` lets through. -/
def KvOp.KeyOk (op : KvOp) : Prop := 1 ≤ op.key.length ∧ op.key.length ≤ 250

variable {E : Env} {kv kv' : Kv} {M : EntryMap} {key : List UInt8} {e : Entry}

/-- A run of calls from `kv_init` returned and left `kv`. -/
def Reached (E : Env) (kv : Kv) : Prop :=
  ∃ leftover memory kv₀ ops replies, kvInit E leftover memory = some kv₀ ∧
    (∀ op ∈ ops, op.KeyOk) ∧ runKv E kv₀ ops = some (kv, replies)

/-- The length of the key of a set fits its two bytes. -/
def KvOp.Narrow : KvOp → Prop
  | .set _ key _ => key.length < 2 ^ 16
  | _ => True

theorem KvOp.KeyOk.narrow {op : KvOp} (h : op.KeyOk) : op.Narrow := by
  cases op with
  | set granted key e => exact Nat.lt_of_le_of_lt h.2 (by decide)
  | get key dstLen => trivial
  | delete key => trivial

/-- Every call that returns leaves a store that holds the entries of some map. -/
theorem runKvOp_inv {op : KvOp} {reply : KvReply} (h : KvInv E kv M) (hk : op.Narrow)
    (hrun : runKvOp E kv op = some (kv', reply)) : ∃ M', KvInv E kv' M' := by
  cases op with
  | set granted key e =>
    simp only [runKvOp, Option.bind_eq_bind, Option.bind_eq_some_iff, Prod.exists,
      Option.some.injEq, Prod.mk.injEq] at hrun
    obtain ⟨_, code, hset, rfl, -⟩ := hrun
    rcases kvSet_returns h hk hset with ⟨-, hinv⟩ | ⟨-, hinv⟩
    · exact ⟨_, hinv⟩
    · exact ⟨_, hinv⟩
  | get key dstLen =>
    simp only [runKvOp, Option.bind_eq_bind, Option.bind_eq_some_iff, Option.some.injEq,
      Prod.mk.injEq] at hrun
    obtain ⟨_, -, rfl, -⟩ := hrun
    exact ⟨M, h⟩
  | delete key =>
    obtain ⟨kv₁, hdelete, hinv⟩ := kvDelete_spec h key
    simp -implicitDefEqProofs only [runKvOp, hdelete, Option.bind_eq_bind, Option.bind_some,
      Option.some.injEq, Prod.mk.injEq] at hrun
    exact ⟨_, hrun.1 ▸ hinv⟩

theorem runKv_inv {ops : List KvOp} {replies : List KvReply} (h : KvInv E kv M)
    (hk : ∀ op ∈ ops, op.Narrow) (hrun : runKv E kv ops = some (kv', replies)) :
    ∃ M', KvInv E kv' M' := by
  induction ops generalizing kv M replies with
  | nil =>
    simp only [runKv, Option.some.injEq, Prod.mk.injEq] at hrun
    exact ⟨M, hrun.1 ▸ h⟩
  | cons op ops ih =>
    simp only [runKv, Option.bind_eq_bind, Option.bind_eq_some_iff, Prod.exists,
      Option.some.injEq, Prod.mk.injEq] at hrun
    obtain ⟨kv₁, reply, hop, _, rest, hrest, rfl, -⟩ := hrun
    obtain ⟨M₁, hinv⟩ := runKvOp_inv h (hk op List.mem_cons_self) hop
    exact ih hinv (fun o ho => hk o (List.mem_cons_of_mem op ho)) hrest

theorem Reached.inv (h : Reached E kv) : ∃ M, KvInv E kv M := by
  obtain ⟨leftover, memory, kv₀, ops, replies, hinit, hk, hrun⟩ := h
  exact runKv_inv (kvInit_spec hinit) (fun op hop => (hk op hop).narrow) hrun

/-- No BUSY slot of either array holds `NULL`. -/
def Filled (table : Table Ptr) : Prop :=
  ∀ chain, (chain ∈ table.oldBuckets.chains ∨
      ∃ m, table.newBuckets = some m ∧ chain ∈ m.chains) →
    ∀ loc slot, chain.slotAt loc = some slot → ¬ slot.Null

theorem arrayOk_filled {itemKey : Ptr → List UInt8} {n : ℕ} {chains : List (Chain Ptr)}
    (h : ArrayOk E itemKey n chains) {chain : Chain Ptr} (hc : chain ∈ chains) {loc : Loc}
    {slot : Slot Ptr} (hs : chain.slotAt loc = some slot) : ¬ slot.Null := by
  rintro ⟨hb, hnull⟩
  obtain ⟨j, hj⟩ := List.getElem?_of_mem hc
  obtain ⟨p, hp, -⟩ := h.chain j chain hj loc slot hs hb
  simp [hnull] at hp

theorem tableInv_filled {itemKey : Ptr → List UInt8} {table : Table Ptr}
    (h : TableInv E itemKey table) : Filled table := by
  intro chain hc loc slot hs
  rcases hc with hc | ⟨m, hm, hc⟩
  · exact arrayOk_filled h.old_ok hc hs
  · exact arrayOk_filled (h.running m hm).ok hc hs

/-- The items of the BUSY slots of both arrays, a slot at a time, are the live chunks. -/
structure Owned (shard : KvShard) : Prop where
  once : shard.table.bag.Nodup
  live : ∀ p, p ∈ shard.table.bag ↔ shard.allocator.Live p
  filled : Filled shard.table

theorem items_owned (h : Reached E kv) (idx : Fin 256) : Owned (kv.shards idx) := by
  obtain ⟨M, hinv⟩ := h.inv
  have hs := hinv idx
  exact ⟨hs.heap.slabs.live_nodup, hs.heap.live_iff, tableInv_filled hs.table⟩

def oneSetOps : List KvOp := [.set true [7] ⟨[1, 2], 3, 4⟩, .get [7] 1]

theorem oneSet_returns : (runKv lengthEnv freshKv oneSetOps).isSome := by decide +kernel

def oneSetKv : Kv := ((runKv lengthEnv freshKv oneSetOps).get oneSet_returns).1

theorem oneSetKv_reached : Reached lengthEnv oneSetKv :=
  ⟨_, _, freshKv, oneSetOps, ((runKv lengthEnv freshKv oneSetOps).get oneSet_returns).2,
    freshKv_init, by simp [oneSetOps, KvOp.KeyOk, KvOp.key], (Option.some_get oneSet_returns).symm⟩

/-- Two of three items are left, in one shard. -/
def twoLeftOps : List KvOp :=
  [.set true [7] ⟨[1, 2], 3, 4⟩, .set true [8] ⟨[5], 6, 7⟩, .delete [7], .set true [9] ⟨[1], 2, 3⟩]

theorem twoLeft_returns : (runKv lengthEnv freshKv twoLeftOps).isSome := by decide +kernel

def twoLeftKv : Kv := ((runKv lengthEnv freshKv twoLeftOps).get twoLeft_returns).1

theorem twoLeftKv_reached : Reached lengthEnv twoLeftKv :=
  ⟨_, _, freshKv, twoLeftOps, ((runKv lengthEnv freshKv twoLeftOps).get twoLeft_returns).2,
    freshKv_init, by simp [twoLeftOps, KvOp.KeyOk, KvOp.key], (Option.some_get twoLeft_returns).symm⟩

theorem items_owned_twoLeft :
    Owned (twoLeftKv.shards 0) ∧ hashtableLen (twoLeftKv.shards 0).table = 2 :=
  ⟨items_owned twoLeftKv_reached 0, by decide +kernel⟩

def Present (E : Env) (kv : Kv) (key : List UInt8) : Prop :=
  ∃ got, kvGet E kv key 0 = some got ∧ got.code ≠ .notFound

theorem present_iff (h : KvInv E kv M) : Present E kv key ↔ M key ≠ none := by
  unfold Present
  simp only [kvGet_spec h, Option.some.injEq, exists_eq_left']
  cases M key with
  | none => simp [lookup]
  | some e =>
    simp only [lookup]
    split_ifs <;> simp

theorem freshKv_reached : Reached lengthEnv freshKv :=
  ⟨_, _, freshKv, [], [], freshKv_init, by simp, rfl⟩

end Kvx.Store
