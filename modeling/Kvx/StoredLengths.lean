import Kvx.KvReached

/-!
# The lengths in an item

The calls take lengths of the size of a word, and an item has two bytes for the length of
its key and four for the length of its value. The allocator refuses every value that
would not fit. No check stops a key: its length is cut to two bytes, and its value is
stored over it.
-/
namespace Kvx.Store

open Kvx.Lib Kvx.Hashtable Kvx.SlabAlloc Kvx.Item

variable {E : Env} {kv kv' : Kv} {M M' : EntryMap} {key : List UInt8} {e : Entry}

/-- A run of calls from `kv_init` whose sets have keys that fit returned and left `kv`. -/
def NarrowReached (E : Env) (kv : Kv) : Prop :=
  ∃ leftover memory kv₀ ops replies, kvInit E leftover memory = some kv₀ ∧
    (∀ op ∈ ops, op.Narrow) ∧ runKv E kv₀ ops = some (kv, replies)

theorem NarrowReached.inv (h : NarrowReached E kv) : ∃ M, KvInv E kv M := by
  obtain ⟨leftover, memory, kv₀, ops, replies, hinit, hk, hrun⟩ := h
  exact runKv_inv (kvInit_spec hinit) hk hrun

theorem Reached.narrow (h : Reached E kv) : NarrowReached E kv := by
  obtain ⟨leftover, memory, kv₀, ops, replies, hinit, hk, hrun⟩ := h
  exact ⟨leftover, memory, kv₀, ops, replies, hinit, fun op hop => (hk op hop).narrow, hrun⟩

theorem ShardInv.card_eq {shard shard' : KvShard} (h : ShardInv E shard M)
    (h' : ShardInv E shard' M') (hdom : ∀ k, M k = none ↔ M' k = none) :
    shard.table.bag.card = shard'.table.bag.card := by
  have hkeys : ∀ {s : KvShard} {N : EntryMap}, ShardInv E s N → ∀ k,
      k ∈ s.table.bag.map (readKey s.allocator) ↔ N k ≠ none := by
    intro s N hs k
    rw [Multiset.mem_map]
    constructor
    · rintro ⟨p, hp, hk⟩
      obtain ⟨e, hN, -⟩ := hs.found hp hk
      simp [hN]
    · intro hN
      by_contra hno
      exact hN (hs.absent fun p hp hk => hno ⟨p, hp, hk⟩)
  have hmap : shard.table.bag.map (readKey shard.allocator) =
      shard'.table.bag.map (readKey shard'.allocator) := by
    rw [Multiset.Nodup.ext h.table.nodup h'.table.nodup]
    intro k
    rw [hkeys h, hkeys h', ne_eq, ne_eq, hdom]
  have hcard := congrArg Multiset.card hmap
  rwa [Multiset.card_map, Multiset.card_map] at hcard

theorem KvInv.len_eq {e' : Entry} (h : KvInv E kv M) (hM : M key = some e)
    (h' : KvInv E kv' (Function.update M key (some e'))) (idx : Fin 256) :
    hashtableLen (kv'.shards idx).table = hashtableLen (kv.shards idx).table := by
  rw [(h' idx).table.len, (h idx).table.len]
  refine (h' idx).card_eq (h idx) fun k => ?_
  unfold shardMap
  split_ifs with hidx
  · by_cases hk : k = key
    · subst hk
      simp [hM]
    · rw [Function.update_of_ne hk]
  · rfl

/-- The item a lookup of `key` finds. -/
def storedItem (E : Env) (kv : Kv) (key : List UInt8) : Option (Option Ptr) :=
  let shard := kv.shards (shardIdx (E.xxh3 key))
  hashtableGet (readKey shard.allocator) shard.table (E.xxh3 key) key

theorem itemKeyLen_lt {alloc : SlabAllocator} {p : Ptr} {n : ℕ} (h : itemKeyLen alloc p = some n) :
    n < 2 ^ 16 := by
  simp only [itemKeyLen, SlabAllocator.loadNat, SlabAllocator.load, Option.bind_eq_bind] at h
  split_ifs at h with hin
  · have hlt := toNat_lt h
    rwa [length_readCells] at hlt
  · simp at h

/-- What `kv_get` writes for an entry that fits the buffer. -/
def gotEntry (e : Entry) : KvGot :=
  ⟨.ok, some e.value.length, some e.flags, some e.exp, some e.value⟩

/-- After a set of `e` under `key` that returned `KV_OK` and left `kv`: the item has the lengths
passed, a lookup with room for the value returns it, and one more set replaces it. -/
structure Intact (E : Env) (kv : Kv) (key : List UInt8) (e : Entry) : Prop where
  item : ∃ p, storedItem E kv key = some (some p) ∧
    itemKeyLen (kv.shards (shardIdx (E.xxh3 key))).allocator p = some key.length ∧
    itemValueLen (kv.shards (shardIdx (E.xxh3 key))).allocator p = some e.value.length
  get : ∀ dstLen, e.value.length ≤ dstLen → kvGet E kv key dstLen = some (gotEntry e)
  overwrite : ∀ granted e' kv', kvSet E granted kv key e' = some (kv', .ok) →
    (∀ idx, hashtableLen (kv'.shards idx).table = hashtableLen (kv.shards idx).table) ∧
    ∀ dstLen, e'.value.length ≤ dstLen → kvGet E kv' key dstLen = some (gotEntry e')

theorem kvGet_entry (h : KvInv E kv M) (hM : M key = some e) {dstLen : ℕ}
    (hroom : e.value.length ≤ dstLen) : kvGet E kv key dstLen = some (gotEntry e) := by
  rw [kvGet_spec h, hM, lookup, if_neg (not_lt.mpr hroom), gotEntry]

theorem storedItem_entry (h : KvInv E kv M) (hM : M key = some e) :
    ∃ p, storedItem E kv key = some (some p) ∧
      Holds (kv.shards (shardIdx (E.xxh3 key))).allocator p key e := by
  have hs := h (shardIdx (E.xxh3 key))
  have hM' : shardMap E M (shardIdx (E.xxh3 key)) key = some e := by rw [shardMap_self, hM]
  obtain ⟨r, hrun, hhit, hmiss⟩ := get_spec hs.table key
  cases r with
  | none =>
    rw [hs.absent (hmiss rfl)] at hM'
    simp at hM'
  | some p =>
    obtain ⟨hp, hk⟩ := hhit p rfl
    obtain ⟨e', he', hold⟩ := hs.found hp hk
    rw [hM', Option.some.injEq] at he'
    exact ⟨p, hrun, he' ▸ hold⟩

theorem KvInv.intact (h : KvInv E kv M) (hM : M key = some e) (hkey : key.length < 2 ^ 16) :
    Intact E kv key e := by
  obtain ⟨p, hitem, hold⟩ := storedItem_entry h hM
  refine ⟨⟨p, hitem, hold.keyLen_eq, hold.valueLen_eq⟩, fun dstLen => kvGet_entry h hM,
    fun granted e' kv' hrun => ?_⟩
  obtain ⟨-, hinv⟩ | ⟨hcode, -⟩ := kvSet_returns h hkey hrun
  · exact ⟨h.len_eq hM hinv, fun dstLen => kvGet_entry hinv (Function.update_self _ _ _)⟩
  · simp at hcode

theorem set_intact_iff (h : NarrowReached E kv) {granted : Bool}
    (hrun : kvSet E granted kv key e = some (kv', .ok)) :
    Intact E kv' key e ↔ key.length < 2 ^ 16 := by
  constructor
  · intro hintact
    obtain ⟨p, -, hlen, -⟩ := hintact.item
    exact itemKeyLen_lt hlen
  · intro hkey
    obtain ⟨M, hinv⟩ := h.inv
    obtain ⟨-, hinv'⟩ | ⟨hcode, -⟩ := kvSet_returns hinv hkey hrun
    · exact hinv'.intact (Function.update_self _ _ _) hkey
    · simp at hcode

theorem set_intact_iff_overwrite :
    ∃ kv', kvSet lengthEnv true oneSetKv [7] ⟨[5, 6, 7], 8, 9⟩ = some (kv', .ok) ∧
      (Intact lengthEnv kv' [7] ⟨[5, 6, 7], 8, 9⟩ ↔ [(7 : UInt8)].length < 2 ^ 16) := by
  obtain ⟨M, hinv⟩ := oneSetKv_reached.inv
  have hfit : Fits [7] ⟨[5, 6, 7], 8, 9⟩ := by decide
  obtain ⟨kv', hrun, -⟩ := kvSet_fits hinv true hfit (Or.inl (by decide))
  exact ⟨kv', hrun, set_intact_iff oneSetKv_reached.narrow hrun⟩

/-- The shortest keys whose length is cut: to 0. -/
def wideKey : List UInt8 := List.replicate (2 ^ 16) 0

/-- No item has the length of the key that was just set. -/
theorem wide_key_truncated :
    NarrowReached lengthEnv freshKv ∧ ∃ kv',
      kvSet lengthEnv true freshKv wideKey ⟨[1], 0, 0⟩ = some (kv', .ok) ∧
      ¬ Intact lengthEnv kv' wideKey ⟨[1], 0, 0⟩ := by
  have hlen : wideKey.length = 2 ^ 16 := List.length_replicate
  have hfit : Fits wideKey ⟨[1], 0, 0⟩ := by simp [Fits, hlen]
  obtain ⟨kv', hrun, -⟩ :=
    kvSet_fits (kvInit_spec freshKv_init) true hfit (Or.inl (by simp [hlen]))
  refine ⟨freshKv_reached.narrow, kv', hrun, fun hintact => ?_⟩
  obtain ⟨p, -, hp, -⟩ := hintact.item
  have := itemKeyLen_lt hp
  omega

end Kvx.Store
