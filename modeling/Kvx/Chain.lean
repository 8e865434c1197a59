import Kvx.Bucket

/-!
# Bucket chains and the two searches over them

A head bucket and the buckets chained behind it. A search compares keys through
the item pointers of the candidate slots, so it can read through `NULL`: the
outer `Option` of every search is `none` exactly when it does.
-/
namespace Kvx.Hashtable

open Kvx.Lib Kvx.Lib.ByteLanes

/-- A bucket from `calloc`, with the address it was given. -/
structure Chained (ι : Type) where
  addr : ℕ
  bucket : Bucket ι
  deriving DecidableEq, Repr

/-- `head.next` is the first entry of `next`, and so on; the last one is `NULL`. -/
structure Chain (ι : Type) where
  head : Bucket ι
  next : List (Chained ι)
  deriving DecidableEq, Repr

/-- What `bucket_out` and the returned slot index name: a bucket, counted from the head. -/
structure Loc where
  bucket : ℕ
  slot : Fin 8
  deriving DecidableEq, Repr

variable {ι : Type}

def Chain.zero : Chain ι := ⟨Bucket.zero, []⟩

def Chain.buckets (chain : Chain ι) : List (Bucket ι) :=
  chain.head :: chain.next.map Chained.bucket

def Chain.slotAt (chain : Chain ι) (loc : Loc) : Option (Slot ι) :=
  chain.buckets[loc.bucket]?.map fun b => b.slot loc.slot

def Chain.modify (chain : Chain ι) (n : ℕ) (f : Bucket ι → Bucket ι) : Chain ι :=
  match n with
  | 0 => { chain with head := f chain.head }
  | n + 1 => { chain with next := chain.next.modify n fun c => { c with bucket := f c.bucket } }

section Search

variable (itemKey : ι → List UInt8)

/-- `none`: the key of a `NULL` item is read. -/
def itemKeyMatches (item : Option ι) (comparedKey : List UInt8) : Option Bool :=
  match item with
  | none => none
  | some p =>
      if comparedKey.length ≠ (itemKey p).length then some false
      else some (decide (itemKey p = comparedKey))

/-- The `while (candidates)` loop, over the slots it takes from the candidate byte. -/
def scanCandidates (bucket : Bucket ι) (key : List UInt8) :
    List (Fin 8) → Option (Option (Fin 8))
  | [] => some none
  | slot :: candidates => do
      let item := hashtableBucketGetSlotItem bucket slot
      if ← itemKeyMatches itemKey item key then some (some slot)
      else scanCandidates bucket key candidates

def scanBucket (bucket : Bucket ι) (tag : BitVec 8) (key : List UInt8) :
    Option (Option (Fin 8)) :=
  scanCandidates itemKey bucket key (setBits 8 (hashtableBucketMatchTag bucket tag))

def hashtableFindItemSlotInBucketChained (tag : BitVec 8) (key : List UInt8) :
    ℕ → List (Chained ι) → Option (Option Loc)
  | _, [] => some none
  | pos, current :: next => do
      match ← scanBucket itemKey current.bucket tag key with
      | some slot => some (some ⟨pos, slot⟩)
      | none => hashtableFindItemSlotInBucketChained tag key (pos + 1) next

/-- `some none` stands for the result -1. -/
def hashtableFindItemSlotInBucket (bucket : Chain ι) (tag : BitVec 8) (key : List UInt8) :
    Option (Option Loc) := do
  match ← scanBucket itemKey bucket.head tag key with
  | some slot => some (some ⟨0, slot⟩)
  | none => hashtableFindItemSlotInBucketChained itemKey tag key 1 bucket.next

/-- `prev_bucket->next = calloc(...)`, where `prev_bucket` is the last of the chain. -/
def hashtableBucketInitChain (bucket : Chain ι) (addr : ℕ) : Chain ι :=
  { bucket with next := bucket.next ++ [⟨addr, Bucket.zero⟩] }

/-- The Boolean tells that the chain must be extended by one bucket, whose slot 0 is returned. -/
def hashtableFindItemSlotOrNextFreeSlotChained (tag : BitVec 8) (key : List UInt8) :
    Option Loc → ℕ → List (Chained ι) → Option (Loc × Bool)
  | freeSlot, pos, [] =>
      match freeSlot with
      | some loc => some (loc, false)
      | none => some (⟨pos, 0⟩, true)
  | freeSlot, pos, current :: next => do
      match ← scanBucket itemKey current.bucket tag key with
      | some slot => some (⟨pos, slot⟩, false)
      | none =>
          let freeSlot' :=
            match freeSlot with
            | some loc => some loc
            | none => (hashtableBucketFirstFreeSlot current.bucket).map (Loc.mk pos)
          hashtableFindItemSlotOrNextFreeSlotChained tag key freeSlot' (pos + 1) next

def hashtableFindItemSlotOrNextFreeSlotInBucket (bucket : Chain ι) (tag : BitVec 8)
    (key : List UInt8) : Option (Loc × Bool) := do
  match ← scanBucket itemKey bucket.head tag key with
  | some slot => some (⟨0, slot⟩, false)
  | none =>
      let freeSlot := (hashtableBucketFirstFreeSlot bucket.head).map (Loc.mk 0)
      hashtableFindItemSlotOrNextFreeSlotChained itemKey tag key freeSlot 1 bucket.next

def Slot.Null (s : Slot ι) : Prop := s.state = .busy ∧ s.item = none

def Slot.Hits (key : List UInt8) (s : Slot ι) : Prop :=
  s.state = .busy ∧ ∃ p, s.item = some p ∧ itemKey p = key

def Slot.Misses (tag : BitVec 8) (key : List UInt8) (s : Slot ι) : Prop :=
  s.state = .busy → s.tag = tag → ∃ p, s.item = some p ∧ itemKey p ≠ key

variable {itemKey}

theorem itemKeyMatches_some (p : ι) (key : List UInt8) :
    itemKeyMatches itemKey (some p) key = some (decide (itemKey p = key)) := by
  simp only [itemKeyMatches]
  split_ifs with h
  · have hne : itemKey p ≠ key := fun he => h (by rw [he])
    simp [hne]
  · rfl

/-- What a scan of some slots returns, by the items that it meets. -/
inductive CandidatesScan (itemKey : ι → List UInt8) (key : List UInt8) (bucket : Bucket ι)
    (slots : List (Fin 8)) : Option (Option (Fin 8)) → Prop
  | null {i : Fin 8} (mem : i ∈ slots) (item : (bucket.slot i).item = none) :
      CandidatesScan itemKey key bucket slots none
  | hit {i : Fin 8} {p : ι} (mem : i ∈ slots) (item : (bucket.slot i).item = some p)
      (same : itemKey p = key) : CandidatesScan itemKey key bucket slots (some (some i))
  | miss (other : ∀ i ∈ slots, ∃ p, (bucket.slot i).item = some p ∧ itemKey p ≠ key) :
      CandidatesScan itemKey key bucket slots (some none)

theorem CandidatesScan.cons {bucket : Bucket ι} {key : List UInt8} {slots : List (Fin 8)}
    {r : Option (Option (Fin 8))} (h : CandidatesScan itemKey key bucket slots r) {j : Fin 8} {p : ι}
    (item : (bucket.slot j).item = some p) (other : itemKey p ≠ key) :
    CandidatesScan itemKey key bucket (j :: slots) r := by
  cases h with
  | null mem item => exact .null (List.mem_cons_of_mem _ mem) item
  | hit mem item same => exact .hit (List.mem_cons_of_mem _ mem) item same
  | miss all =>
    refine .miss fun i hi => ?_
    rcases List.mem_cons.mp hi with rfl | hi
    · exact ⟨p, item, other⟩
    · exact all i hi

theorem scanCandidates_spec (bucket : Bucket ι) (key : List UInt8) (slots : List (Fin 8)) :
    CandidatesScan itemKey key bucket slots (scanCandidates itemKey bucket key slots) := by
  induction slots with
  | nil => exact .miss (by simp)
  | cons j slots ih =>
    simp only [scanCandidates, getSlotItem_eq]
    cases hp : (bucket.slot j).item with
    | none => exact .null List.mem_cons_self hp
    | some p =>
      rw [itemKeyMatches_some]
      simp only [Option.bind_eq_bind, Option.bind_some, decide_eq_true_eq]
      split_ifs with hk
      · exact .hit List.mem_cons_self hp hk
      · exact ih.cons hp hk

inductive BucketScan (itemKey : ι → List UInt8) (tag : BitVec 8) (key : List UInt8)
    (bucket : Bucket ι) : Option (Option (Fin 8)) → Prop
  | null {i : Fin 8} (null : (bucket.slot i).Null) : BucketScan itemKey tag key bucket none
  | hit {i : Fin 8} (hits : (bucket.slot i).Hits itemKey key) :
      BucketScan itemKey tag key bucket (some (some i))
  | miss (misses : ∀ i, (bucket.slot i).Misses itemKey tag key) :
      BucketScan itemKey tag key bucket (some none)

theorem scanBucket_spec (bucket : Bucket ι) (tag : BitVec 8) (key : List UInt8) :
    BucketScan itemKey tag key bucket (scanBucket itemKey bucket tag key) := by
  have hscan : CandidatesScan itemKey key bucket _ (scanBucket itemKey bucket tag key) :=
    scanCandidates_spec bucket key (setBits 8 (hashtableBucketMatchTag bucket tag))
  generalize scanBucket itemKey bucket tag key = r at hscan
  cases hscan with
  | null mem item => exact .null ⟨matchTag_busy (mem_setBits.mp mem), item⟩
  | hit mem item same => exact .hit ⟨matchTag_busy (mem_setBits.mp mem), _, item, same⟩
  | miss other =>
    exact .miss fun i busy tagged => other i (mem_setBits.mpr (matchTag_complete busy tagged))

theorem slotAt_head (chain : Chain ι) (i : Fin 8) :
    chain.slotAt ⟨0, i⟩ = some (chain.head.slot i) := rfl

theorem slotAt_next (chain : Chain ι) (n : ℕ) (i : Fin 8) :
    chain.slotAt ⟨n + 1, i⟩ = chain.next[n]?.map fun c => c.bucket.slot i := by
  simp [Chain.slotAt, Chain.buckets, Function.comp_def]

theorem slotAt_isSome {chain : Chain ι} {loc : Loc} {s : Slot ι} (h : chain.slotAt loc = some s) :
    ∃ b, chain.buckets[loc.bucket]? = some b ∧ b.slot loc.slot = s := by
  simpa [Chain.slotAt] using h

theorem forall_slots {chain : Chain ι} {P : Slot ι → Prop} :
    (∀ loc s, chain.slotAt loc = some s → P s) ↔
      (∀ i, P (chain.head.slot i)) ∧ ∀ c ∈ chain.next, ∀ i, P (c.bucket.slot i) := by
  constructor
  · intro h
    refine ⟨fun i => h ⟨0, i⟩ _ rfl, fun c hc i => ?_⟩
    obtain ⟨n, hn⟩ := List.getElem?_of_mem hc
    exact h ⟨n + 1, i⟩ _ (by simp [slotAt_next, hn])
  · rintro ⟨hhead, hnext⟩ ⟨n, i⟩ s hs
    cases n with
    | zero =>
      rw [slotAt_head] at hs
      exact Option.some.inj hs ▸ hhead i
    | succ n =>
      rw [slotAt_next] at hs
      obtain ⟨c, hc, rfl⟩ := Option.map_eq_some_iff.mp hs
      exact hnext c (List.mem_of_getElem? hc) i

theorem slotAt_zero {loc : Loc} {s : Slot ι}
    (h : (Chain.zero : Chain ι).slotAt loc = some s) : s = ⟨.empty, 0#8, none⟩ := by
  revert loc s
  rw [forall_slots (P := fun s => s = ⟨.empty, 0#8, none⟩)]
  simp [Chain.zero]

theorem slotAt_modify (chain : Chain ι) (n : ℕ) (f : Bucket ι → Bucket ι) (loc : Loc) :
    (chain.modify n f).slotAt loc =
      if loc.bucket = n then chain.buckets[n]?.map fun b => (f b).slot loc.slot
      else chain.slotAt loc := by
  obtain ⟨m, i⟩ := loc
  cases n with
  | zero =>
    cases m with
    | zero => rfl
    | succ m => simp [slotAt_next, Chain.modify]
  | succ n =>
    cases m with
    | zero => simp [slotAt_head, Chain.modify]
    | succ m =>
      rw [slotAt_next, slotAt_next]
      by_cases h : m = n
      · subst h
        simp [Chain.modify, Chain.buckets, Function.comp_def]
      · have h' : ¬ n = m := fun he => h he.symm
        simp [Chain.modify, h, h']

theorem slotAt_initChain (chain : Chain ι) (addr : ℕ) (loc : Loc) :
    (hashtableBucketInitChain chain addr).slotAt loc =
      if loc.bucket = chain.buckets.length then some ⟨.empty, 0#8, none⟩ else chain.slotAt loc := by
  obtain ⟨m, i⟩ := loc
  cases m with
  | zero => simp [slotAt_head, hashtableBucketInitChain, Chain.buckets]
  | succ m =>
    rw [slotAt_next, slotAt_next]
    simp only [hashtableBucketInitChain, Chain.buckets, List.length_cons, List.length_map,
      Nat.add_right_cancel_iff]
    by_cases h : m = chain.next.length
    · subst h
      simp
    · rw [if_neg h]
      rcases Nat.lt_or_gt_of_ne h with hlt | hgt
      · rw [List.getElem?_append_left hlt]
      · rw [List.getElem?_eq_none (by simp; omega), List.getElem?_eq_none (by omega)]

end Search

end Kvx.Hashtable
