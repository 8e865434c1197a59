import Kvx.Lib.ByteLanes
import Kvx.Lib.Sums

/-!
# Buckets of the hash table

Eight slots share one word of state bits and one word of tag bytes. `Bucket.slot`
reads one slot out of the packed words; every operation is described by what it
does to that reading.
-/
namespace Kvx.Hashtable

open Kvx.Lib Kvx.Lib.ByteLanes

inductive SlotState
  | empty
  | busy
  deriving DecidableEq, Repr

/-- `ι` is the type of item pointers; `none` is `NULL`. The `next` field lives in `Chain`. -/
structure Bucket (ι : Type) where
  slotStates : BitVec 8
  hashTags : BitVec 64
  items : Vector (Option ι) 8
  deriving DecidableEq, Repr

/-- One slot, unpacked. -/
structure Slot (ι : Type) where
  state : SlotState
  tag : BitVec 8
  item : Option ι
  deriving DecidableEq, Repr

variable {ι : Type}

/-- The bytes `calloc` and `mmap` return are zero. -/
def Bucket.zero : Bucket ι := ⟨0#8, 0#64, Vector.replicate 8 none⟩

def tagLsbs : BitVec 64 := 0x0101010101010101#64
def tagMsbs : BitVec 64 := 0x8080808080808080#64
def tagGather : BitVec 64 := 0x0002040810204081#64

def hashtableBucketMatchTag (bucket : Bucket ι) (tag : BitVec 8) : BitVec 8 :=
  let x := bucket.hashTags ^^^ (tagLsbs * tag.setWidth 64)
  let zero := (x - tagLsbs) &&& ~~~x &&& tagMsbs
  let cand := ((zero * tagGather) >>> 56).setWidth 8
  cand &&& bucket.slotStates

/-- `none` stands for the result -1. -/
def hashtableBucketFirstFreeSlot (bucket : Bucket ι) : Option (Fin 8) :=
  let freeBits := ~~~bucket.slotStates
  if freeBits ≠ 0#8 then some (lowestBit freeBits) else none

def hashtableBucketSetSlotState (bucket : Bucket ι) (slotIdx : Fin 8) (state : SlotState) :
    Bucket ι :=
  match state with
  | .busy => { bucket with slotStates := bucket.slotStates ||| (1#8 <<< slotIdx.val) }
  | .empty => { bucket with slotStates := bucket.slotStates &&& ~~~(1#8 <<< slotIdx.val) }

def hashtableBucketGetSlotState (bucket : Bucket ι) (slotIdx : Fin 8) : SlotState :=
  if bucket.slotStates &&& (1#8 <<< slotIdx.val) ≠ 0#8 then .busy else .empty

def hashtableBucketSetSlotHashTag (bucket : Bucket ι) (slot : Fin 8) (tag : BitVec 8) : Bucket ι :=
  let shift := 8 * slot.val
  let mask := 0xff#64 <<< shift
  { bucket with hashTags := (bucket.hashTags &&& ~~~mask) ||| (tag.setWidth 64 <<< shift) }

def hashtableBucketSetSlotItem (bucket : Bucket ι) (slotIdx : Fin 8) (item : Option ι) :
    Bucket ι :=
  { bucket with items := bucket.items.set slotIdx item }

def hashtableBucketGetSlotItem (bucket : Bucket ι) (slotIdx : Fin 8) : Option ι :=
  bucket.items[slotIdx]

/-- The reading of the packed words that the proofs use. -/
def Bucket.slot (bucket : Bucket ι) (i : Fin 8) : Slot ι :=
  ⟨hashtableBucketGetSlotState bucket i, lane bucket.hashTags i, bucket.items[i]⟩

theorem getLsbD_bit (i j : Fin 8) : (1#8 <<< i.val).getLsbD j = decide (j = i) := by
  revert i j
  decide

theorem and_bit_ne_zero (s : BitVec 8) (i : Fin 8) :
    s &&& (1#8 <<< i.val) ≠ 0#8 ↔ s.getLsbD i = true := by
  constructor
  · intro hne
    by_contra hclear
    apply hne
    apply BitVec.eq_of_getLsbD_eq
    intro j hj
    rw [BitVec.getLsbD_and, getLsbD_bit i ⟨j, hj⟩, BitVec.getLsbD_zero]
    by_cases h : (⟨j, hj⟩ : Fin 8) = i
    · subst h
      simpa using hclear
    · simp [h]
  · intro hset hzero
    have hbit : (s &&& (1#8 <<< i.val)).getLsbD i = true := by
      rw [BitVec.getLsbD_and, hset, getLsbD_bit, decide_eq_true rfl, Bool.and_self]
    rw [hzero, BitVec.getLsbD_zero] at hbit
    cases hbit

theorem getSlotState_eq (bucket : Bucket ι) (i : Fin 8) :
    hashtableBucketGetSlotState bucket i =
      if bucket.slotStates.getLsbD i then .busy else .empty := by
  simp only [hashtableBucketGetSlotState, and_bit_ne_zero]

theorem slot_state_busy {bucket : Bucket ι} {i : Fin 8} :
    (bucket.slot i).state = .busy ↔ bucket.slotStates.getLsbD i = true := by
  simp only [Bucket.slot, getSlotState_eq]
  cases bucket.slotStates.getLsbD i <;> simp

@[simp] theorem slot_state_ne_busy {s : SlotState} : s ≠ .busy ↔ s = .empty := by
  cases s <;> simp

@[simp] theorem slot_zero (i : Fin 8) : (Bucket.zero : Bucket ι).slot i = ⟨.empty, 0#8, none⟩ := by
  simp [Bucket.slot, Bucket.zero, getSlotState_eq]

@[simp] theorem slot_setSlotState (bucket : Bucket ι) (i j : Fin 8) (s : SlotState) :
    (hashtableBucketSetSlotState bucket i s).slot j =
      if j = i then { bucket.slot i with state := s } else bucket.slot j := by
  cases s with
  | empty =>
    simp only [Bucket.slot, hashtableBucketSetSlotState, getSlotState_eq, BitVec.getLsbD_and,
      BitVec.getLsbD_not, getLsbD_bit, j.isLt, decide_true, Bool.true_and]
    by_cases h : j = i <;> simp [h]
  | busy =>
    simp only [Bucket.slot, hashtableBucketSetSlotState, getSlotState_eq, BitVec.getLsbD_or,
      getLsbD_bit]
    by_cases h : j = i <;> simp [h]

@[simp] theorem slot_setSlotHashTag (bucket : Bucket ι) (i j : Fin 8) (t : BitVec 8) :
    (hashtableBucketSetSlotHashTag bucket i t).slot j =
      if j = i then { bucket.slot i with tag := t } else bucket.slot j := by
  simp only [Bucket.slot, hashtableBucketSetSlotHashTag, getSlotState_eq, lane_insert]
  by_cases h : j = i <;> simp [h]

@[simp] theorem slot_setSlotItem (bucket : Bucket ι) (i j : Fin 8) (p : Option ι) :
    (hashtableBucketSetSlotItem bucket i p).slot j =
      if j = i then { bucket.slot i with item := p } else bucket.slot j := by
  simp only [Bucket.slot, hashtableBucketSetSlotItem, getSlotState_eq]
  by_cases h : j = i
  · simp [h]
  · have hne : i.val ≠ j.val := fun he => h (Fin.ext he.symm)
    simp [h, Vector.getElem_set_ne _ _ hne]

@[simp] theorem getSlotItem_eq (bucket : Bucket ι) (i : Fin 8) :
    hashtableBucketGetSlotItem bucket i = (bucket.slot i).item := rfl

@[simp] theorem getSlotState_eq_slot (bucket : Bucket ι) (i : Fin 8) :
    hashtableBucketGetSlotState bucket i = (bucket.slot i).state := rfl

/-- A bit of the result is a BUSY slot whose byte borrows. -/
theorem matchTag_getLsbD {bucket : Bucket ι} {tag : BitVec 8} {i : Fin 8} :
    (hashtableBucketMatchTag bucket tag).getLsbD i = true ↔ (bucket.slot i).state = .busy ∧
      Borrows (bucket.hashTags ^^^ (tagLsbs * tag.setWidth 64)) (i + 1) := by
  have hflags : ∀ x : BitVec 64, x &&& tagMsbs &&& tagMsbs = x &&& tagMsbs := fun x => by
    rw [BitVec.and_assoc, BitVec.and_self]
  unfold hashtableBucketMatchTag
  simp only
  rw [BitVec.getLsbD_and, Bool.and_eq_true, tagGather, gather_flags (hflags _), slot_state_busy, and_comm]
  exact and_congr_right fun _ => flag_iff

theorem lane_differs {bucket : Bucket ι} {tag b : BitVec 8} {i : Fin 8} :
    lane (bucket.hashTags ^^^ (tagLsbs * tag.setWidth 64)) i = b ↔
      (bucket.slot i).tag = tag ^^^ b := by
  rw [lane_xor, tagLsbs, lane_repeat]
  constructor
  · rintro rfl
    rw [BitVec.xor_comm (lane bucket.hashTags i), ← BitVec.xor_assoc, BitVec.xor_self,
      BitVec.zero_xor]
    rfl
  · intro h
    have htag : lane bucket.hashTags i = tag ^^^ b := h
    rw [htag, BitVec.xor_comm, ← BitVec.xor_assoc, BitVec.xor_self, BitVec.zero_xor]

theorem matchTag_busy {bucket : Bucket ι} {tag : BitVec 8} {i : Fin 8}
    (h : (hashtableBucketMatchTag bucket tag).getLsbD i = true) :
    (bucket.slot i).state = .busy :=
  (matchTag_getLsbD.mp h).1

theorem matchTag_complete {bucket : Bucket ι} {tag : BitVec 8} {i : Fin 8}
    (hs : (bucket.slot i).state = .busy) (ht : (bucket.slot i).tag = tag) :
    (hashtableBucketMatchTag bucket tag).getLsbD i = true := by
  have hzero : lane (bucket.hashTags ^^^ (tagLsbs * tag.setWidth 64)) i = 0#8 := by
    rw [lane_differs, ht, BitVec.xor_zero]
  exact matchTag_getLsbD.mpr ⟨hs, borrows_succ.mpr (.inl hzero)⟩

/-- The tags from slot `j` to slot `i` hand a borrow on: the first is the searched one, and the
others differ from it in the lowest bit. -/
def BorrowRun (bucket : Bucket ι) (tag : BitVec 8) (j i : Fin 8) : Prop :=
  j ≤ i ∧ (bucket.slot j).tag = tag ∧
    ∀ k, j < k → k ≤ i → (bucket.slot k).tag = tag ^^^ 1#8

/-- The BUSY slots at the end of such a run are reported: each BUSY slot with the searched tag, and
those behind a slot with this tag that differ in the lowest bit. -/
theorem matchTag_exact (bucket : Bucket ι) (tag : BitVec 8) (i : Fin 8) :
    ((hashtableBucketMatchTag bucket tag).getLsbD i = true ↔
      (bucket.slot i).state = .busy ∧ ∃ j, BorrowRun bucket tag j i) ∧
    ((bucket.slot i).state = .busy → (bucket.slot i).tag = tag →
      (hashtableBucketMatchTag bucket tag).getLsbD i = true) ∧
    ((hashtableBucketMatchTag bucket tag).getLsbD i = true → (bucket.slot i).state = .busy) ∧
    ((hashtableBucketMatchTag bucket tag).getLsbD i = true → (bucket.slot i).tag ≠ tag →
      (bucket.slot i).tag = tag ^^^ 1#8 ∧ ∃ j < i, BorrowRun bucket tag j i) := by
  have hexact : (hashtableBucketMatchTag bucket tag).getLsbD i = true ↔
      (bucket.slot i).state = .busy ∧ ∃ j, BorrowRun bucket tag j i := by
    rw [matchTag_getLsbD, borrows_iff i.isLt]
    simp only [lane_differs, BitVec.xor_zero]
    rfl
  refine ⟨hexact, matchTag_complete, matchTag_busy, fun hset hother => ?_⟩
  obtain ⟨-, j, hj, htag, hrun⟩ := hexact.mp hset
  have hlt : j < i := by
    refine lt_of_le_of_ne hj ?_
    rintro rfl
    exact hother htag
  exact ⟨hrun i hlt (le_refl i), j, hlt, hj, htag, hrun⟩

theorem firstFreeSlot_none {bucket : Bucket ι} (h : hashtableBucketFirstFreeSlot bucket = none)
    (i : Fin 8) : (bucket.slot i).state = .busy := by
  simp only [hashtableBucketFirstFreeSlot] at h
  split_ifs at h with hz
  have hz' : ~~~bucket.slotStates = 0#8 := by simpa using hz
  have hbit := congrArg (fun s => s.getLsbD i) hz'
  rw [slot_state_busy]
  simpa using hbit

theorem firstFreeSlot_some {bucket : Bucket ι} {i : Fin 8}
    (h : hashtableBucketFirstFreeSlot bucket = some i) : (bucket.slot i).state = .empty := by
  simp only [hashtableBucketFirstFreeSlot] at h
  split_ifs at h with hz
  have hbit := lowestBit_set _ hz
  simp only [Option.some.injEq] at h
  rw [h] at hbit
  simp only [BitVec.getLsbD_not, Bool.and_eq_true, Bool.not_eq_true'] at hbit
  rw [← slot_state_ne_busy, ne_eq, slot_state_busy, hbit.2]
  exact Bool.false_ne_true

theorem firstFreeSlot_first {bucket : Bucket ι} {i j : Fin 8}
    (h : hashtableBucketFirstFreeSlot bucket = some i) (hj : j < i) :
    (bucket.slot j).state = .busy := by
  simp only [hashtableBucketFirstFreeSlot] at h
  split_ifs at h with hz
  simp only [Option.some.injEq] at h
  have hbit := lowestBit_least (~~~bucket.slotStates) j (h ▸ hj)
  rw [slot_state_busy]
  simpa using hbit

/-- A BUSY slot contributes the item it points at. -/
def Slot.bag (s : Slot ι) : Multiset ι :=
  match s.state, s.item with
  | .busy, some p => {p}
  | _, _ => 0

def Bucket.bag (bucket : Bucket ι) : Multiset ι := ∑ i, (bucket.slot i).bag

@[simp] theorem bag_zero : (Bucket.zero : Bucket ι).bag = 0 := by
  simp [Bucket.bag, Slot.bag]

theorem slot_bag_busy {s : Slot ι} {p : ι} (h : s.state = .busy) (hp : s.item = some p) :
    s.bag = {p} := by
  simp [Slot.bag, h, hp]

theorem slot_bag_empty {s : Slot ι} (h : s.state = .empty) : s.bag = 0 := by
  simp [Slot.bag, h]

theorem mem_slot_bag {s : Slot ι} {p : ι} : p ∈ s.bag ↔ s.state = .busy ∧ s.item = some p := by
  obtain ⟨st, t, it⟩ := s
  cases st <;> cases it <;> simp [Slot.bag, eq_comm]

theorem mem_bucket_bag {bucket : Bucket ι} {p : ι} :
    p ∈ bucket.bag ↔ ∃ i, (bucket.slot i).state = .busy ∧ (bucket.slot i).item = some p := by
  simp [Bucket.bag, Multiset.mem_sum, mem_slot_bag]

theorem bucket_bag_exchange {a b : Bucket ι} {i : Fin 8}
    (h : ∀ j, j ≠ i → b.slot j = a.slot j) :
    b.bag + (a.slot i).bag = a.bag + (b.slot i).bag :=
  sum_exchange (f := fun j => (a.slot j).bag) (g := fun j => (b.slot j).bag)
    fun j hj => congrArg Slot.bag (h j hj)

end Kvx.Hashtable
