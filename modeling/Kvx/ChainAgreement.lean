import Kvx.ChainSearch

/-!
# The two searches agree

Both searches visit the candidate slots of a chain in the same order. The second one also keeps
the first free slot that it passes, and writes `bucket_out` before it knows whether the key
follows.
-/
namespace Kvx.Hashtable

open Kvx.Lib

variable {ι : Type}

section OutParameter

variable (itemKey : ι → List UInt8) (tag : BitVec 8) (key : List UInt8)

/-- `hashtable_find_item_slot_in_bucket_chained`: the slot (`none` stands for -1), and the bucket in
`*bucket_out` after the call. -/
def findItemSlotChainedOut (bucketOut : Option ℕ) :
    ℕ → List (Chained ι) → Option (Option (Fin 8) × Option ℕ)
  | _, [] => some (none, bucketOut)
  | pos, current :: next => do
      match ← scanBucket itemKey current.bucket tag key with
      | some slot => some (some slot, some pos)
      | none => findItemSlotChainedOut bucketOut (pos + 1) next

/-- `hashtable_find_item_slot_in_bucket`. -/
def findItemSlotOut (bucket : Chain ι) (bucketOut : Option ℕ) :
    Option (Option (Fin 8) × Option ℕ) := do
  match ← scanBucket itemKey bucket.head tag key with
  | some slot => some (some slot, some 0)
  | none => findItemSlotChainedOut itemKey tag key bucketOut 1 bucket.next

/-- The loop of `hashtable_find_item_slot_or_next_free_slot_chained`. The Boolean tells that
`hashtable_bucket_init_chain` is called on the last bucket. -/
def findItemSlotOrFreeChainedOut :
    Option (Fin 8) → Option ℕ → ℕ → List (Chained ι) → Option (Fin 8 × Option ℕ × Bool)
  | freeSlot, bucketOut, pos, [] =>
      match freeSlot with
      | some slot => some (slot, bucketOut, false)
      | none => some (0, some pos, true)
  | freeSlot, bucketOut, pos, current :: next => do
      match ← scanBucket itemKey current.bucket tag key with
      | some slot => some (slot, some pos, false)
      | none =>
          match freeSlot with
          | some slot => findItemSlotOrFreeChainedOut (some slot) bucketOut (pos + 1) next
          | none =>
              match hashtableBucketFirstFreeSlot current.bucket with
              | some slot => findItemSlotOrFreeChainedOut (some slot) (some pos) (pos + 1) next
              | none => findItemSlotOrFreeChainedOut none bucketOut (pos + 1) next

/-- `hashtable_find_item_slot_or_next_free_slot_in_bucket`: the slot, the bucket in `*bucket_out`
and the chain after the call. A new bucket is allocated at `addr`. -/
def findItemSlotOrFreeOut (bucket : Chain ι) (addr : ℕ) (bucketOut : Option ℕ) :
    Option (Fin 8 × Option ℕ × Chain ι) := do
  match ← scanBucket itemKey bucket.head tag key with
  | some slot => some (slot, some 0, bucket)
  | none =>
      let freeSlot := hashtableBucketFirstFreeSlot bucket.head
      let bucketOut := if freeSlot = none then bucketOut else some 0
      let (slot, bucketOut, grown) ←
        findItemSlotOrFreeChainedOut itemKey tag key freeSlot bucketOut 1 bucket.next
      some (slot, bucketOut, if grown then hashtableBucketInitChain bucket addr else bucket)

end OutParameter

variable {itemKey : ι → List UInt8} {tag : BitVec 8} {key : List UInt8} {chain : Chain ι}
  {next : List (Chained ι)} {pos addr : ℕ} {loc : Loc}

theorem findItemSlotChainedOut_eq (bucketOut : Option ℕ) (pos : ℕ) (next : List (Chained ι)) :
    findItemSlotChainedOut itemKey tag key bucketOut pos next =
      (hashtableFindItemSlotInBucketChained itemKey tag key pos next).map fun r =>
        r.elim (none, bucketOut) fun loc => (some loc.slot, some loc.bucket) := by
  induction next generalizing pos with
  | nil => rfl
  | cons current next ih =>
    simp only [findItemSlotChainedOut, hashtableFindItemSlotInBucketChained]
    cases scanBucket itemKey current.bucket tag key with
    | none => rfl
    | some r =>
      cases r with
      | some slot => rfl
      | none => exact ih (pos + 1)

theorem findItemSlotOut_eq (chain : Chain ι) (bucketOut : Option ℕ) :
    findItemSlotOut itemKey tag key chain bucketOut =
      (hashtableFindItemSlotInBucket itemKey chain tag key).map fun r =>
        r.elim (none, bucketOut) fun loc => (some loc.slot, some loc.bucket) := by
  simp only [findItemSlotOut, hashtableFindItemSlotInBucket]
  cases scanBucket itemKey chain.head tag key with
  | none => rfl
  | some r =>
    cases r with
    | some slot => rfl
    | none => exact findItemSlotChainedOut_eq bucketOut 1 chain.next

/-- While a free slot is kept, `bucket_out` is its bucket. -/
theorem findItemSlotOrFreeChainedOut_eq {free : Option Loc} {bucketOut : Option ℕ}
    (h : ∀ loc, free = some loc → bucketOut = some loc.bucket) (pos : ℕ)
    (next : List (Chained ι)) :
    findItemSlotOrFreeChainedOut itemKey tag key (free.map Loc.slot) bucketOut pos next =
      (hashtableFindItemSlotOrNextFreeSlotChained itemKey tag key free pos next).map fun r =>
        (r.1.slot, some r.1.bucket, r.2) := by
  induction next generalizing free bucketOut pos with
  | nil =>
    cases free with
    | none => rfl
    | some loc => simp [findItemSlotOrFreeChainedOut, hashtableFindItemSlotOrNextFreeSlotChained, h]
  | cons current next ih =>
    simp only [findItemSlotOrFreeChainedOut, hashtableFindItemSlotOrNextFreeSlotChained]
    cases scanBucket itemKey current.bucket tag key with
    | none => rfl
    | some r =>
      cases r with
      | some slot => rfl
      | none =>
        cases free with
        | some loc => exact ih h (pos + 1)
        | none =>
          cases hfree : hashtableBucketFirstFreeSlot current.bucket with
          | none =>
            have hnone : ∀ loc, (none : Option Loc) = some loc → bucketOut = some loc.bucket := by
              simp
            exact ih hnone (pos + 1)
          | some slot =>
            have hsome : ∀ loc, some (Loc.mk pos slot) = some loc → some pos = some loc.bucket := by
              rintro loc he
              rw [← Option.some.inj he]
            exact ih hsome (pos + 1)

theorem findItemSlotOrFreeOut_eq (chain : Chain ι) (addr : ℕ) (bucketOut : Option ℕ) :
    findItemSlotOrFreeOut itemKey tag key chain addr bucketOut =
      (hashtableFindItemSlotOrNextFreeSlotInBucket itemKey chain tag key).map fun r =>
        (r.1.slot, some r.1.bucket,
          if r.2 then hashtableBucketInitChain chain addr else chain) := by
  simp only [findItemSlotOrFreeOut, hashtableFindItemSlotOrNextFreeSlotInBucket]
  cases scanBucket itemKey chain.head tag key with
  | none => rfl
  | some r =>
    cases r with
    | some slot => rfl
    | none =>
      have hout : ∀ loc, (hashtableBucketFirstFreeSlot chain.head).map (Loc.mk 0) = some loc →
          (if hashtableBucketFirstFreeSlot chain.head = none then bucketOut else some 0) =
            some loc.bucket := by
        intro loc he
        obtain ⟨slot, hslot, rfl⟩ := Option.map_eq_some_iff.mp he
        rw [hslot]
        rfl
      have hslot : ((hashtableBucketFirstFreeSlot chain.head).map (Loc.mk 0)).map Loc.slot =
          hashtableBucketFirstFreeSlot chain.head := by
        cases hashtableBucketFirstFreeSlot chain.head <;> rfl
      have hrest := @findItemSlotOrFreeChainedOut_eq ι itemKey tag key _ _ hout 1 chain.next
      rw [hslot] at hrest
      simp only [Option.bind_eq_bind, Option.bind_some]
      rw [hrest]
      cases hashtableFindItemSlotOrNextFreeSlotChained itemKey tag key
        ((hashtableBucketFirstFreeSlot chain.head).map (Loc.mk 0)) 1 chain.next <;> rfl

/-- `a` stands before `b` in the order of the chain. -/
def Loc.Before (a b : Loc) : Prop := a.bucket < b.bucket ∨ (a.bucket = b.bucket ∧ a.slot < b.slot)

/-- The slot is EMPTY and all slots before it are BUSY. -/
structure FirstEmpty (chain : Chain ι) (loc : Loc) : Prop where
  empty : ∃ s, chain.slotAt loc = some s ∧ s.state = .empty
  before : ∀ l s, l.Before loc → chain.slotAt l = some s → s.state = .busy

/-- The location that the second search returns if it does not find the key. -/
def firstFreeFrom : ℕ → List (Bucket ι) → Loc × Bool
  | pos, [] => (⟨pos, 0⟩, true)
  | pos, b :: bs =>
      match hashtableBucketFirstFreeSlot b with
      | some slot => (⟨pos, slot⟩, false)
      | none => firstFreeFrom (pos + 1) bs

/-- What `firstFreeFrom` says about the buckets from position `pos` on. -/
theorem firstFreeFrom_spec (pos : ℕ) (bs : List (Bucket ι)) :
    (∃ n b slot, firstFreeFrom pos bs = (⟨pos + n, slot⟩, false) ∧ bs[n]? = some b ∧
      (b.slot slot).state = .empty ∧ (∀ j < slot, (b.slot j).state = .busy) ∧
      ∀ m < n, ∀ b', bs[m]? = some b' → ∀ j, (b'.slot j).state = .busy) ∨
    (firstFreeFrom pos bs = (⟨pos + bs.length, 0⟩, true) ∧
      ∀ b ∈ bs, ∀ j, (b.slot j).state = .busy) := by
  induction bs generalizing pos with
  | nil => exact Or.inr ⟨rfl, by simp⟩
  | cons b bs ih =>
    cases hfree : hashtableBucketFirstFreeSlot b with
    | some slot =>
      refine Or.inl ⟨0, b, slot, ?_, rfl, firstFreeSlot_some hfree,
        fun j hj => firstFreeSlot_first hfree hj, fun m hm => absurd hm (Nat.not_lt_zero m)⟩
      rw [firstFreeFrom, hfree]
      rfl
    | none =>
      have hstep : firstFreeFrom pos (b :: bs) = firstFreeFrom (pos + 1) bs := by
        rw [firstFreeFrom, hfree]
      rw [hstep]
      rcases ih (pos + 1) with ⟨n, b', slot, he, hn, hempty, hslots, hbefore⟩ | ⟨he, hfull⟩
      · refine Or.inl ⟨n + 1, b', slot, ?_, hn, hempty, hslots, fun m hm c hc => ?_⟩
        · rw [he, Nat.add_assoc, Nat.add_comm 1]
        · cases m with
          | zero =>
            rw [← Option.some.inj hc]
            exact firstFreeSlot_none hfree
          | succ m => exact hbefore m (by omega) c hc
      · refine Or.inr ⟨?_, ?_⟩
        · rw [he, List.length_cons, Nat.add_assoc, Nat.add_comm 1]
        · rw [List.forall_mem_cons]
          exact ⟨firstFreeSlot_none hfree, hfull⟩

/-- In a chain, the location is the first EMPTY slot, or one behind a chain without any. -/
theorem firstFreeFrom_chain (chain : Chain ι) :
    (∃ loc, firstFreeFrom 0 chain.buckets = (loc, false) ∧ FirstEmpty chain loc) ∨
    (firstFreeFrom 0 chain.buckets = (⟨chain.buckets.length, 0⟩, true) ∧
      ∀ loc s, chain.slotAt loc = some s → s.state = .busy) := by
  rcases firstFreeFrom_spec 0 chain.buckets with
    ⟨n, b, slot, he, hn, hempty, hslots, hbefore⟩ | ⟨he, hfull⟩
  · rw [Nat.zero_add] at he
    refine Or.inl ⟨_, he, ⟨_, by rw [Chain.slotAt, hn]; rfl, hempty⟩, fun l s hl hs => ?_⟩
    obtain ⟨b', hb', rfl⟩ := slotAt_isSome hs
    rcases hl with hlt | ⟨heq, hlt⟩
    · exact hbefore l.bucket hlt b' hb' l.slot
    · rw [heq, hn, Option.some.injEq] at hb'
      exact hb' ▸ hslots l.slot hlt
  · rw [Nat.zero_add] at he
    refine Or.inr ⟨he, fun loc s hs => ?_⟩
    obtain ⟨b, hb, rfl⟩ := slotAt_isSome hs
    exact hfull b (List.mem_of_getElem? hb) loc.slot

theorem findOrFreeChained_of_found {free : Option Loc}
    (h : hashtableFindItemSlotInBucketChained itemKey tag key pos next = some (some loc)) :
    hashtableFindItemSlotOrNextFreeSlotChained itemKey tag key free pos next =
      some (loc, false) := by
  induction next generalizing pos free with
  | nil => simp [hashtableFindItemSlotInBucketChained] at h
  | cons current next ih =>
    simp only [hashtableFindItemSlotInBucketChained] at h
    simp only [hashtableFindItemSlotOrNextFreeSlotChained]
    cases hs : scanBucket itemKey current.bucket tag key with
    | none => simp [hs] at h
    | some r =>
      rw [hs] at h
      cases r with
      | some slot =>
        simp only [Option.bind_eq_bind, Option.bind_some, Option.some.injEq] at h
        rw [← h]
        rfl
      | none => exact ih h

/-- A scan that does not find the key returns the free slot that was given, or else the first
one it passes. -/
theorem findOrFreeChained_of_missed {free : Option Loc}
    (h : hashtableFindItemSlotInBucketChained itemKey tag key pos next = some none) :
    hashtableFindItemSlotOrNextFreeSlotChained itemKey tag key free pos next =
      some (free.elim (firstFreeFrom pos (next.map Chained.bucket)) fun loc => (loc, false)) := by
  induction next generalizing pos free with
  | nil => cases free <;> rfl
  | cons current next ih =>
    simp only [hashtableFindItemSlotInBucketChained] at h
    simp only [hashtableFindItemSlotOrNextFreeSlotChained, List.map_cons, firstFreeFrom]
    cases hs : scanBucket itemKey current.bucket tag key with
    | none => simp [hs] at h
    | some r =>
      rw [hs] at h
      cases r with
      | some slot => simp at h
      | none =>
        simp only [Option.bind_eq_bind, Option.bind_some] at h ⊢
        rw [ih h]
        cases free with
        | some loc => rfl
        | none =>
          cases hashtableBucketFirstFreeSlot current.bucket <;> rfl

theorem findOrFree_of_found
    (h : hashtableFindItemSlotInBucket itemKey chain tag key = some (some loc)) :
    hashtableFindItemSlotOrNextFreeSlotInBucket itemKey chain tag key = some (loc, false) := by
  simp only [hashtableFindItemSlotInBucket] at h
  simp only [hashtableFindItemSlotOrNextFreeSlotInBucket]
  cases hs : scanBucket itemKey chain.head tag key with
  | none => simp [hs] at h
  | some r =>
    rw [hs] at h
    cases r with
    | some slot =>
      simp only [Option.bind_eq_bind, Option.bind_some, Option.some.injEq] at h
      rw [← h]
      rfl
    | none => exact findOrFreeChained_of_found h

theorem findOrFree_of_missed
    (h : hashtableFindItemSlotInBucket itemKey chain tag key = some none) :
    hashtableFindItemSlotOrNextFreeSlotInBucket itemKey chain tag key =
      some (firstFreeFrom 0 chain.buckets) := by
  simp only [hashtableFindItemSlotInBucket] at h
  simp only [hashtableFindItemSlotOrNextFreeSlotInBucket, Chain.buckets, firstFreeFrom]
  cases hs : scanBucket itemKey chain.head tag key with
  | none => simp [hs] at h
  | some r =>
    rw [hs] at h
    cases r with
    | some slot => simp at h
    | none =>
      simp only [Option.bind_eq_bind, Option.bind_some] at h ⊢
      rw [findOrFreeChained_of_missed h]
      cases hashtableBucketFirstFreeSlot chain.head <;> rfl

/-- What the second search returns after the first one returned -1. -/
inductive Claimed (chain : Chain ι) (addr : ℕ) : Fin 8 → ℕ → Chain ι → Prop
  | free {slot : Fin 8} {n : ℕ} (first : FirstEmpty chain ⟨n, slot⟩) : Claimed chain addr slot n chain
  | grow (full : ∀ loc s, chain.slotAt loc = some s → s.state = .busy) :
      Claimed chain addr 0 chain.buckets.length
        { chain with next := chain.next ++ [⟨addr, Bucket.zero⟩] }

/-- If every BUSY slot has an item, the second search returns what the first one finds, and
otherwise the first EMPTY slot; it extends the chain only if there is none. -/
theorem searches_agree (chain : Chain ι) (itemKey : ι → List UInt8) (tag : BitVec 8)
    (key : List UInt8) (addr : ℕ) (out₁ out₂ : Option ℕ)
    (hitems : ∀ loc s, chain.slotAt loc = some s → s.state = .busy → ∃ p, s.item = some p) :
    ∃ found out slot n chain', findItemSlotOut itemKey tag key chain out₁ = some (found, out) ∧
      findItemSlotOrFreeOut itemKey tag key chain addr out₂ = some (slot, some n, chain') ∧
      (found ≠ none → found = some slot ∧ out = some n ∧ chain' = chain) ∧
      (found = none → out = out₁ ∧ Claimed chain addr slot n chain') := by
  rw [findItemSlotOut_eq, findItemSlotOrFreeOut_eq]
  cases hfind : hashtableFindItemSlotInBucket itemKey chain tag key with
  | none =>
    obtain ⟨loc, s, hs, hbusy, hnull⟩ := find_null hfind
    obtain ⟨p, hp⟩ := hitems loc s hs hbusy
    rw [hnull] at hp
    cases hp
  | some r =>
    cases r with
    | some loc =>
      rw [findOrFree_of_found hfind]
      exact ⟨_, _, _, _, _, rfl, rfl, fun _ => ⟨rfl, rfl, rfl⟩, by simp⟩
    | none =>
      rw [findOrFree_of_missed hfind]
      refine ⟨_, _, _, _, _, rfl, rfl, fun hne => absurd rfl hne, fun _ => ⟨rfl, ?_⟩⟩
      rcases firstFreeFrom_chain chain with ⟨loc, he, hfirst⟩ | ⟨he, hfull⟩
      · rw [he]
        exact .free hfirst
      · rw [he]
        exact .grow hfull

/-- An item in slot 1 behind a free slot; an item is its key. -/
def secondSlot : Chain (List UInt8) :=
  ⟨hashtableBucketSetSlotItem (hashtableBucketSetSlotState Bucket.zero 1 .busy) 1 (some [97]), []⟩

theorem searches_agree_secondSlot :
    ∃ n chain', findItemSlotOrFreeOut id 0#8 [97] secondSlot 0 none = some (1, some n, chain') ∧
      n = 0 ∧ chain' = secondSlot := by
  have hitems : ∀ loc s, secondSlot.slotAt loc = some s → s.state = .busy →
      ∃ p, s.item = some p := by
    rw [forall_slots (P := fun s => s.state = .busy → ∃ p, s.item = some p)]
    refine ⟨fun i => ?_, by simp [secondSlot]⟩
    by_cases hi : i = 1
    · simp [secondSlot, hi]
    · simp [secondSlot, hi]
  have hfind : findItemSlotOut id 0#8 [97] secondSlot none = some (some 1, some 0) := by
    decide +kernel
  obtain ⟨found, out, slot, n, chain', hrun, hrun', hfound, -⟩ :=
    searches_agree secondSlot id 0#8 [97] 0 none none hitems
  rw [hfind, Option.some.injEq, Prod.mk.injEq] at hrun
  obtain ⟨rfl, rfl⟩ := hrun
  obtain ⟨hslot, hn, hchain⟩ := hfound (by simp)
  rw [← Option.some.inj hslot, hchain] at hrun'
  exact ⟨n, secondSlot, hrun', (Option.some.inj hn).symm, rfl⟩

end Kvx.Hashtable
