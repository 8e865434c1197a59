import Kvx.Table

/-!
# Writing slots of a chain

The bag of a chain is the bag of items its BUSY slots point at. A write to one slot
exchanges one contribution; an appended bucket contributes nothing.
-/
namespace Kvx.Hashtable

open Kvx.Lib

variable {ι : Type} {itemKey : ι → List UInt8} {tag : BitVec 8} {key : List UInt8}

def Chain.bag (chain : Chain ι) : Multiset ι := (chain.buckets.map Bucket.bag).sum

theorem mem_chain_bag {chain : Chain ι} {p : ι} :
    p ∈ chain.bag ↔
      ∃ loc s, chain.slotAt loc = some s ∧ s.state = .busy ∧ s.item = some p := by
  rw [Chain.bag, mem_sum_map]
  constructor
  · rintro ⟨b, hb, hp⟩
    obtain ⟨n, hn⟩ := List.getElem?_of_mem hb
    obtain ⟨i, hi⟩ := mem_bucket_bag.mp hp
    exact ⟨⟨n, i⟩, b.slot i, by simp [Chain.slotAt, hn], hi⟩
  · rintro ⟨loc, s, hs, hp⟩
    obtain ⟨b, hb, rfl⟩ := slotAt_isSome hs
    exact ⟨b, List.mem_of_getElem? hb, mem_bucket_bag.mpr ⟨loc.slot, hp⟩⟩

@[simp] theorem chain_bag_zero : (Chain.zero : Chain ι).bag = 0 := by
  simp [Chain.bag, Chain.buckets, Chain.zero]

theorem chain_bag_eq_zero {chain : Chain ι}
    (h : ∀ loc s, chain.slotAt loc = some s → s.state = .empty) : chain.bag = 0 := by
  apply Multiset.eq_zero_of_forall_notMem
  intro p hp
  obtain ⟨loc, s, hs, hb, -⟩ := mem_chain_bag.mp hp
  simp [h loc s hs] at hb

theorem slotAt_write {chain : Chain ι} {n : ℕ} {i : Fin 8} {f : Bucket ι → Bucket ι}
    {b : Bucket ι} (hb : chain.buckets[n]? = some b)
    (hf : ∀ j, j ≠ i → (f b).slot j = b.slot j) (loc : Loc) :
    (chain.modify n f).slotAt loc =
      if loc = ⟨n, i⟩ then some ((f b).slot i) else chain.slotAt loc := by
  obtain ⟨m, j⟩ := loc
  rw [slotAt_modify]
  simp only [Loc.mk.injEq]
  by_cases hm : m = n
  · subst hm
    by_cases hj : j = i
    · simp [hb, hj]
    · simp [hb, hj, hf j hj, Chain.slotAt]
  · simp [hm]

theorem chain_bag_off {c d : Chain ι} {loc : Loc} {s t : Slot ι} (hs : c.slotAt loc = some s)
    (ht : d.slotAt loc = some t) (hoff : ∀ l, l ≠ loc → d.slotAt l = c.slotAt l) :
    d.bag + s.bag = c.bag + t.bag := by
  obtain ⟨b, hb, rfl⟩ := slotAt_isSome hs
  obtain ⟨b', hb', rfl⟩ := slotAt_isSome ht
  have hex : b'.bag + (b.slot loc.slot).bag = b.bag + (b'.slot loc.slot).bag := by
    apply bucket_bag_exchange
    intro j hj
    have hne : (⟨loc.bucket, j⟩ : Loc) ≠ loc := fun he => hj (by rw [← he])
    simpa [Chain.slotAt, hb, hb'] using hoff ⟨loc.bucket, j⟩ hne
  have hlist : d.buckets.map Bucket.bag = (c.buckets.map Bucket.bag).set loc.bucket b'.bag := by
    apply List.ext_getElem?
    intro m
    rw [List.getElem?_map, List.getElem?_set, List.length_map, List.getElem?_map]
    by_cases hm : loc.bucket = m
    · subst hm
      have hlt := (List.getElem?_eq_some_iff.mp hb).1
      simp [hb', hlt]
    · rw [if_neg hm]
      have hslots : ∀ i, d.slotAt ⟨m, i⟩ = c.slotAt ⟨m, i⟩ := fun i =>
        hoff ⟨m, i⟩ fun he => hm (by rw [← he])
      simp only [Chain.slotAt] at hslots
      cases hc : c.buckets[m]? with
      | none =>
        have h0 := hslots 0
        rw [hc, Option.map_none, Option.map_eq_none_iff] at h0
        rw [h0]
      | some e =>
        cases hd : d.buckets[m]? with
        | none => simpa [hc, hd] using hslots 0
        | some e' =>
          have hall : ∀ i, e'.slot i = e.slot i := fun i => by simpa [hc, hd] using hslots i
          simp [Bucket.bag, hall]
  have hmap : (c.buckets.map Bucket.bag)[loc.bucket]? = some b.bag := by simp [hb]
  have hset := sum_map_set id b'.bag hmap
  simp only [List.map_id_fun, id_eq] at hset
  rw [Chain.bag, hlist, Chain.bag]
  apply add_right_cancel (b := b.bag)
  calc ((c.buckets.map Bucket.bag).set loc.bucket b'.bag).sum + (b.slot loc.slot).bag + b.bag
      = ((c.buckets.map Bucket.bag).set loc.bucket b'.bag).sum + b.bag +
          (b.slot loc.slot).bag := by abel
    _ = (c.buckets.map Bucket.bag).sum + (b'.bag + (b.slot loc.slot).bag) := by rw [hset]; abel
    _ = (c.buckets.map Bucket.bag).sum + (b'.slot loc.slot).bag + b.bag := by rw [hex]; abel

@[simp] theorem chain_bag_initChain (chain : Chain ι) (addr : ℕ) :
    (hashtableBucketInitChain chain addr).bag = chain.bag := by
  simp [Chain.bag, Chain.buckets, hashtableBucketInitChain]

theorem slotAt_setItem {chain : Chain ι} {loc : Loc} {s : Slot ι} (hs : chain.slotAt loc = some s)
    (item : Option ι) (l : Loc) :
    (chain.modify loc.bucket fun b => hashtableBucketSetSlotItem b loc.slot item).slotAt l =
      if l = loc then some { s with item := item } else chain.slotAt l := by
  obtain ⟨b, hb, rfl⟩ := slotAt_isSome hs
  rw [slotAt_write (i := loc.slot) hb fun j hj => by simp [hj]]
  simp

theorem modify_modify (chain : Chain ι) (n : ℕ) (f g : Bucket ι → Bucket ι) :
    (chain.modify n f).modify n g = chain.modify n (g ∘ f) := by
  cases n with
  | zero => rfl
  | succ n => simp [Chain.modify, List.modify_modify_eq, Function.comp_def]

theorem modify_congr {chain : Chain ι} {n : ℕ} {f g : Bucket ι → Bucket ι} {b : Bucket ι}
    (hb : chain.buckets[n]? = some b) (h : f b = g b) : chain.modify n f = chain.modify n g := by
  cases n with
  | zero =>
    simp only [Chain.buckets, List.getElem?_cons_zero, Option.some.injEq] at hb
    simp [Chain.modify, hb, h]
  | succ n =>
    simp only [Chain.buckets, List.getElem?_cons_succ, List.getElem?_map,
      Option.map_eq_some_iff] at hb
    obtain ⟨c, hc, rfl⟩ := hb
    simp only [Chain.modify, Chain.mk.injEq, true_and]
    apply List.ext_getElem?
    intro m
    rw [List.getElem?_modify, List.getElem?_modify]
    by_cases hm : n = m
    · subst hm
      simp [hc, h]
    · simp [hm]

/-- `chain'` is `chain`, possibly with empty slots behind. -/
structure Extends (chain chain' : Chain ι) : Prop where
  keeps : ∀ loc s, chain.slotAt loc = some s → chain'.slotAt loc = some s
  added : ∀ loc s, chain'.slotAt loc = some s →
    chain.slotAt loc = some s ∨ s = ⟨.empty, 0#8, none⟩
  bag_eq : chain'.bag = chain.bag

theorem Extends.refl (chain : Chain ι) : Extends chain chain :=
  ⟨fun _ _ h => h, fun _ _ h => Or.inl h, rfl⟩

theorem extends_initChain (chain : Chain ι) (addr : ℕ) :
    Extends chain (hashtableBucketInitChain chain addr) := by
  refine ⟨fun loc s h => ?_, fun loc s h => ?_, chain_bag_initChain chain addr⟩
  · rw [slotAt_initChain, if_neg, h]
    intro he
    obtain ⟨b, hb, -⟩ := slotAt_isSome h
    rw [he, List.getElem?_eq_none le_rfl] at hb
    simp at hb
  · rw [slotAt_initChain] at h
    split_ifs at h with he
    · exact Or.inr (Option.some.inj h).symm
    · exact Or.inl h

inductive LocateOutcome (itemKey : ι → List UInt8) (tag : BitVec 8) (key : List UInt8)
    (chain : Chain ι) : Located ι → Prop
  | hit {loc : Loc} {s : Slot ι} (at_loc : chain.slotAt loc = some s)
      (hits : s.Hits itemKey key) : LocateOutcome itemKey tag key chain ⟨chain, loc, false⟩
  | claim {found : Located ι} {s : Slot ι}
      (misses : ∀ loc s, chain.slotAt loc = some s → s.Misses itemKey tag key)
      (ext : Extends chain found.chain) (at_loc : found.chain.slotAt found.loc = some s)
      (empty : s.state = .empty) : LocateOutcome itemKey tag key chain found

theorem LocateOutcome.extends {chain : Chain ι} {found : Located ι}
    (h : LocateOutcome itemKey tag key chain found) : Extends chain found.chain := by
  cases h with
  | hit at_loc hits => exact Extends.refl chain
  | claim misses ext at_loc empty => exact ext

theorem locate_null {chain : Chain ι} {addr : ℕ} (h : locate itemKey chain addr tag key = none) :
    ∃ loc s, chain.slotAt loc = some s ∧ s.Null := by
  cases hf : hashtableFindItemSlotOrNextFreeSlotInBucket itemKey chain tag key with
  | none => exact findOrFree_null hf
  | some r => simp [locate, hf] at h

theorem locate_spec {chain : Chain ι} {addr : ℕ} {found : Located ι}
    (h : locate itemKey chain addr tag key = some found) :
    LocateOutcome itemKey tag key chain found := by
  simp only [locate, Option.bind_eq_bind, Option.bind_eq_some_iff, Option.some.injEq] at h
  obtain ⟨⟨loc, grown⟩, hf, rfl⟩ := h
  cases findOrFree_spec hf with
  | hit at_loc hits => exact .hit at_loc hits
  | free misses at_loc empty => exact .claim misses (Extends.refl chain) at_loc empty
  | grow misses full =>
    refine .claim (s := ⟨.empty, 0#8, none⟩) misses (extends_initChain chain addr) ?_ rfl
    simp [slotAt_initChain]

end Kvx.Hashtable
