import Kvx.Kv

/-!
# The invariant of a shard

The items of the table are the live items of the allocator, and each holds the entry of
one key. The three operations act on the entries as those of a finite map.
-/
namespace Kvx.Store

open Kvx.Lib Kvx.Hashtable Kvx.SlabAlloc Kvx.Item

variable {E : Env} {shard : KvShard} {alloc alloc' : SlabAllocator} {key : List UInt8}
  {e : Entry} {live : Multiset Ptr} {p q : Ptr}

abbrev EntryMap := List UInt8 → Option Entry

structure ShardInv (E : Env) (shard : KvShard) (M : EntryMap) : Prop where
  table : TableInv E (readKey shard.allocator) shard.table
  heap : AllocInv shard.allocator shard.table.bag
  holds : ∀ p ∈ shard.table.bag, ∃ k e, Holds shard.allocator p k e
  entries : ∀ k e, M k = some e ↔ ∃ p ∈ shard.table.bag, Holds shard.allocator p k e

variable {M : EntryMap}

theorem readKey_eq (h : Holds alloc p key e) : readKey alloc p = key := by
  rw [readKey, h.key_eq, Option.getD_some]

theorem holds_unique {k k' : List UInt8} {e e' : Entry} (h : Holds alloc p k e)
    (h' : Holds alloc p k' e') : k = k' ∧ e = e' := by
  have hk := h.key_eq.symm.trans h'.key_eq
  have hv := h.value_eq.symm.trans h'.value_eq
  have hf := h.flags_eq.symm.trans h'.flags_eq
  have hx := h.expireAt_eq.symm.trans h'.expireAt_eq
  simp only [Option.some.injEq] at hk hv hf hx
  cases e
  cases e'
  simp_all

theorem ShardInv.absent (h : ShardInv E shard M)
    (hno : ∀ p ∈ shard.table.bag, readKey shard.allocator p ≠ key) : M key = none := by
  cases hM : M key with
  | none => rfl
  | some e =>
    obtain ⟨p, hp, hold⟩ := (h.entries key e).mp hM
    exact absurd (readKey_eq hold) (hno p hp)

theorem ShardInv.found (h : ShardInv E shard M) (hp : p ∈ shard.table.bag)
    (hk : readKey shard.allocator p = key) : ∃ e, M key = some e ∧ Holds shard.allocator p key e := by
  obtain ⟨k, e, hold⟩ := h.holds p hp
  have hkk := readKey_eq hold
  rw [hk] at hkk
  subst hkk
  exact ⟨e, (h.entries key e).mpr ⟨p, hp, hold⟩, hold⟩

section Kept

variable {s : Multiset Ptr} (h : ShardInv E shard M) (hin : ∀ q ∈ s, q ∈ shard.table.bag)
  (hkeep : ∀ q ∈ s, ∀ k e, Holds shard.allocator q k e → Holds alloc' q k e)

include h hin hkeep

theorem ShardInv.holds_iff {k : List UInt8} (hq : q ∈ s) :
    Holds alloc' q k e ↔ Holds shard.allocator q k e := by
  refine ⟨fun hq' => ?_, hkeep q hq k e⟩
  obtain ⟨k₁, e₁, h₁⟩ := h.holds q (hin q hq)
  obtain ⟨rfl, rfl⟩ := holds_unique (hkeep q hq k₁ e₁ h₁) hq'
  exact h₁

theorem ShardInv.readKey_kept (hq : q ∈ s) : readKey alloc' q = readKey shard.allocator q := by
  obtain ⟨k, e, hold⟩ := h.holds q (hin q hq)
  rw [readKey_eq (hkeep q hq k e hold), readKey_eq hold]

end Kept

/-- What a lookup of the entry answers, and what it leaves alone. -/
def lookup (dstLen : ℕ) : Option Entry → KvGot
  | none => ⟨.notFound, none, none, none, none⟩
  | some e =>
      if dstLen < e.value.length then
        ⟨.valueLenExceedsDstBufferSize, some e.value.length, none, none, none⟩
      else ⟨.ok, some e.value.length, some e.flags, some e.exp, some e.value⟩

theorem shardGet_spec (h : ShardInv E shard M) (key : List UInt8) (dstLen : ℕ) :
    kvShardGet shard (E.xxh3 key) key dstLen = some (lookup dstLen (M key)) := by
  obtain ⟨r, hrun, hhit, hmiss⟩ := get_spec h.table key
  cases r with
  | none =>
    rw [h.absent (hmiss rfl)]
    simp -implicitDefEqProofs only [kvShardGet, hrun, Option.bind_eq_bind, Option.bind_some]
    rfl
  | some item =>
    obtain ⟨hmem, hk⟩ := hhit item rfl
    obtain ⟨e, hM, hold⟩ := h.found hmem hk
    rw [hM]
    simp -implicitDefEqProofs only [kvShardGet, hrun, hold.valueLen_eq, hold.flags_eq,
      hold.expireAt_eq, hold.value_eq, Option.bind_eq_bind, Option.bind_some, lookup]
    split_ifs <;> rfl

/-- Once an item with the entry is in the slot, and all other items are as they were. -/
theorem ShardInv.stored {table' : Table Ptr} {slot : SlotRef} {found : Option Ptr}
    {rest : Multiset Ptr} (h : ShardInv E shard M)
    (hslot : SlotFor E (readKey shard.allocator) shard.table key table' slot found rest)
    (hheap : AllocInv alloc' (p ::ₘ rest)) (hold : Holds alloc' p key e)
    (hkeep : ∀ q ∈ rest, ∀ k e', Holds shard.allocator q k e' → Holds alloc' q k e') :
    ShardInv E ⟨table'.writeSlot slot (some p), alloc'⟩ (Function.update M key (some e)) := by
  have hrest : ∀ q, q ∈ rest ↔ q ∈ shard.table.bag ∧ readKey shard.allocator q ≠ key :=
    fun q => hslot.mem_rest h.table.nodup
  have hin : ∀ q ∈ rest, q ∈ shard.table.bag := fun q hq => ((hrest q).mp hq).1
  have hsame : ∀ q ∈ rest, readKey alloc' q = readKey shard.allocator q :=
    fun q hq => h.readKey_kept hin hkeep hq
  obtain ⟨hinv, hbag⟩ := hslot.stored (readKey alloc') p (readKey_eq hold) hsame
  refine ⟨hinv, by rw [hbag]; exact hheap, fun q hq => ?_, fun k e' => ?_⟩
  · rw [hbag] at hq
    rcases Multiset.mem_cons.mp hq with rfl | hq
    · exact ⟨key, e, hold⟩
    · obtain ⟨k, e', hq'⟩ := h.holds q (hin q hq)
      exact ⟨k, e', hkeep q hq k e' hq'⟩
  · rw [hbag]
    by_cases hk : k = key
    · subst hk
      rw [Function.update_self, Option.some.injEq]
      constructor
      · rintro rfl
        exact ⟨p, Multiset.mem_cons_self p rest, hold⟩
      · rintro ⟨q, hq, hq'⟩
        rcases Multiset.mem_cons.mp hq with rfl | hq
        · exact (holds_unique hold hq').2
        · have hread := readKey_eq hq'
          rw [hsame q hq] at hread
          exact absurd hread ((hrest q).mp hq).2
    · rw [Function.update_of_ne hk, h.entries]
      constructor
      · rintro ⟨q, hq, hq'⟩
        have hqr := (hrest q).mpr ⟨hq, by rw [readKey_eq hq']; exact hk⟩
        exact ⟨q, Multiset.mem_cons_of_mem hqr, hkeep q hqr k e' hq'⟩
      · rintro ⟨q, hq, hq'⟩
        rcases Multiset.mem_cons.mp hq with rfl | hq
        · exact absurd (holds_unique hq' hold).1 hk
        · exact ⟨q, hin q hq, (h.holds_iff hin hkeep hq).mp hq'⟩

theorem ShardInv.kept {table' : Table Ptr} {slot : SlotRef} {item : Ptr} {rest : Multiset Ptr}
    (h : ShardInv E shard M)
    (hslot : SlotFor E (readKey shard.allocator) shard.table key table' slot (some item) rest) :
    ShardInv E ⟨table', shard.allocator⟩ M ∧ table'.bag = shard.table.bag := by
  obtain ⟨hk, hbag⟩ := hslot.present item rfl
  obtain ⟨hinv, hbag'⟩ := hslot.stored (readKey shard.allocator) item hk fun _ _ => rfl
  rw [writeSlot_read hslot.read] at hinv hbag'
  rw [← hbag] at hbag'
  refine ⟨⟨hinv, ?_, ?_, ?_⟩, hbag'⟩
  · rw [hbag']
    exact h.heap
  · rw [hbag']
    exact h.holds
  · rw [hbag']
    exact h.entries

theorem chunksKept_mem (alloc : SlabAllocator) (mem' : Ptr → Cell) :
    ChunksKept alloc { alloc with mem := mem' } := fun _ s hs => ⟨s, hs, rfl⟩

theorem allocated_keeps {size : ℕ} (h : Allocated alloc live alloc' p size) (hq : q ∈ live)
    {k : List UInt8} (hold : Holds alloc q k e) : Holds alloc' q k e := by
  refine hold.frame h.kept fun slab hs => ?_
  obtain ⟨s, hs', hc⟩ := h.kept _ slab hs
  obtain ⟨sp, hsp, hle, -⟩ := h.inv.header (Multiset.mem_cons_self p live)
  have hne : p ≠ q := fun he => h.fresh (he ▸ hq)
  rw [← hc]
  exact other_same h.inv (Multiset.mem_cons_self p live) (Multiset.mem_cons_of_mem hq) hne hsp hle
    h.mem s hs'

theorem filled_keeps {mem' : Ptr → Cell} {slab : Slab} (h : AllocInv alloc live) (hp : p ∈ live)
    (hq : q ∈ live) (hne : p ≠ q) (hs : alloc.slabs[p.block]? = some slab)
    (hsame : SameOutside p slab.chunkSize alloc.mem mem') {k : List UInt8}
    (hold : Holds alloc q k e) : Holds { alloc with mem := mem' } q k e :=
  hold.frame (chunksKept_mem alloc mem') (other_same h hp hq hne hs le_rfl hsame)

theorem freed_keeps (h : AllocInv alloc (p ::ₘ live)) (hkept : ChunksKept alloc alloc')
    (hsame : SameOutside p 8 alloc.mem alloc'.mem) (hq : q ∈ live) {k : List UInt8}
    (hold : Holds alloc q k e) : Holds alloc' q k e := by
  obtain ⟨slab, hs, hle, -⟩ := h.header (Multiset.mem_cons_self p live)
  have hnd := h.slabs.live_nodup
  rw [Multiset.nodup_cons] at hnd
  have hne : p ≠ q := fun he => hnd.1 (he ▸ hq)
  simp only [itemSize] at hle
  exact hold.frame hkept (other_same h (Multiset.mem_cons_self p live)
    (Multiset.mem_cons_of_mem hq) hne hs (by omega) hsame)

end Kvx.Store
