import Kvx.Item
import Kvx.Lib.CountLoop
import Kvx.SlabSearch

/-!
# The benchmark of the slab allocator

The patterns of allocations and frees, and the check that no chunk is written by the owner of
another one, on the slab backend. Timing is left out. `none` also stands for `abort`.
-/
namespace Kvx.SlabBench

open Kvx.Lib Kvx.SlabAlloc Kvx.Item

def rngSeed (s : BitVec 64) : BitVec 64 := if s = 0#64 then 0x243F6A8885A308D3#64 else s

/-- The result is the next state too. -/
def rngNext (s : BitVec 64) : BitVec 64 :=
  let x := s ^^^ (s <<< 13)
  let x := x ^^^ (x >>> 7)
  x ^^^ (x <<< 17)

def sampleSize (s : BitVec 64) : BitVec 64 × ℕ :=
  let s := rngNext s
  let r := (s >>> 32).toNat % 2 ^ 32 % 100
  let s := rngNext s
  if r < 70 then (s, 48 + s.toNat % 80)
  else if r < 90 then (s, 128 + s.toNat % 896)
  else if r < 99 then (s, 1024 + s.toNat % 7168)
  else (s, 8192 + s.toNat % 57344)

def fixedSize : ℕ := 64

def drawSizes (mixed : Bool) : ℕ → BitVec 64 → List ℕ
  | 0, _ => []
  | n + 1, s =>
      if mixed then
        let (s, size) := sampleSize s
        size :: drawSizes mixed n s
      else fixedSize :: drawSizes mixed n s

def sizesBuildN (mixed : Bool) (live ops : ℕ) : List ℕ :=
  drawSizes mixed (ops + live) (rngSeed 0xC0FFEE#64)

abbrev Slots := List (Option Ptr)

def beAlloc (alloc : SlabAllocator) (dataLen : ℕ) : Option (SlabAllocator × Option Ptr) :=
  slabAllocatorAllocItem alloc dataLen

def beFree (alloc : SlabAllocator) (item : Option Ptr) : Option SlabAllocator := do
  slabAllocatorFreeItem alloc (← item)

/-- What is read only goes into a sum that nothing reads. -/
def itemLookup (alloc : SlabAllocator) (item : Ptr) : Option (List Cell) := do
  let keyLen ← alloc.load (item.add offKeyLen) 2
  let valueLen ← alloc.load (item.add offValueLen) 4
  let expireAt ← alloc.load (item.add offExpireAt) 4
  some (keyLen ++ valueLen ++ expireAt)

/-- `touch` is `touch_before_free`. -/
def beFreeAfterLookup (touch : Bool) (alloc : SlabAllocator) (item : Option Ptr) :
    Option SlabAllocator := do
  if touch then
    let _ ← itemLookup alloc (← item)
    beFree alloc item
  else beFree alloc item

section Patterns

variable (touch : Bool) (sizes : List ℕ) (n : ℕ)

def allocSlot (i : ℕ) (s : SlabAllocator × Slots) : Option (SlabAllocator × Slots) := do
  let (alloc, item) ← beAlloc s.1 (← sizes[i]?)
  some (alloc, s.2 ++ [item])

def allocSlots (alloc : SlabAllocator) : Option (SlabAllocator × Slots) :=
  countTo n (allocSlot sizes) (alloc, [])

def freeSlots (alloc : SlabAllocator) (slots : Slots) : Option SlabAllocator :=
  slots.foldlM beFree alloc

def benchLifo (alloc : SlabAllocator) : Option SlabAllocator := do
  let (alloc, slots) ← allocSlots sizes n alloc
  freeSlots alloc slots.reverse

def benchFifo (alloc : SlabAllocator) : Option SlabAllocator := do
  let (alloc, slots) ← allocSlots sizes n alloc
  freeSlots alloc slots

def touchSlot (i : ℕ) (s : SlabAllocator × Slots) : Option (SlabAllocator × Slots) := do
  let size ← sizes[i]?
  let (alloc, item) ← beAlloc s.1 size
  let it ← item
  let alloc ← alloc.store (it.add itemSize) (byteCells [UInt8.ofNat i])
  let alloc ← alloc.store (it.add (itemSize + (size - 1))) (byteCells [UInt8.ofNat i])
  some (alloc, s.2 ++ [item])

def benchTouch (alloc : SlabAllocator) : Option SlabAllocator := do
  let (alloc, slots) ← countTo n (touchSlot sizes) (alloc, [])
  slots.reverse.foldlM (beFreeAfterLookup touch) alloc

def replaceSlot (k : ℕ) (s : SlabAllocator × Slots × BitVec 64) :
    Option (SlabAllocator × Slots × BitVec 64) := do
  let (alloc, slots, rng) := s
  let rng := rngNext rng
  let slot := rng.toNat % n
  let alloc ← beFreeAfterLookup touch alloc (← slots[slot]?)
  let (alloc, item) ← beAlloc alloc (← sizes[n + k]?)
  some (alloc, slots.set slot item, rng)

def replaceSlots (seed : BitVec 64) (ops : ℕ) (alloc : SlabAllocator) : Option SlabAllocator := do
  let (alloc, slots) ← allocSlots sizes n alloc
  let (alloc, slots, _) ← countTo ops (replaceSlot touch sizes n) (alloc, slots, rngSeed seed)
  freeSlots alloc slots

def benchChurn (ops : ℕ) (alloc : SlabAllocator) : Option SlabAllocator :=
  replaceSlots touch sizes n 0x5EED#64 ops alloc

/-- `samples` is `LAT_SAMPLES`. -/
def benchLatency (samples : ℕ) (alloc : SlabAllocator) : Option SlabAllocator :=
  replaceSlots touch sizes n 0x1A7E#64 samples alloc

/-- The sums that the waste is computed from. -/
def reportFragmentation (alloc : SlabAllocator) : Option (ℕ × ℕ) :=
  countTo n (fun i s => do
    let size ← sizes[i]?
    let usable ← slabAllocatorUsableSize alloc size
    some (s.1 + size, s.2 + usable)) (0, 0)

end Patterns

/-- The address of an item; `base` is where `malloc` put the blocks. -/
def address (base : ℕ → ℕ) (item : Ptr) : ℕ := base item.block + item.off

def pattern (i size : ℕ) : List UInt8 := List.replicate size (UInt8.ofNat (i &&& 0xFF))

def fillSlot (align : ℕ) (base : ℕ → ℕ) (i : ℕ) (s : SlabAllocator × List (Ptr × ℕ) × BitVec 64) :
    Option (SlabAllocator × List (Ptr × ℕ) × BitVec 64) := do
  let (alloc, slots, rng) := s
  let (rng, size) := sampleSize rng
  let (alloc, item) ← beAlloc alloc size
  let item ← item
  guard (address base item % align = 0)
  guard ((← alloc.loadPtr item) ≠ none)
  let alloc ← alloc.store (item.add offKeyLen) (natCells 2 (i &&& 0xFF))
  let alloc ← alloc.store (item.add offFlags) (natCells 2 (i &&& 0x7))
  let alloc ← alloc.store (item.add offValueLen) (natCells 4 (size % 2 ^ 32))
  let alloc ← alloc.store (item.add offExpireAt) (natCells 4 (i * 7 % 2 ^ 32))
  let alloc ← alloc.store (item.add itemSize) (byteCells (pattern i size))
  some (alloc, slots ++ [(item, size)], rng)

def checkSlot (alloc : SlabAllocator) (i : ℕ) (slot : Ptr × ℕ) : Option Unit := do
  let (item, size) := slot
  guard ((← itemKeyLen alloc item) = i &&& 0xFF)
  guard ((← itemValueLen alloc item) = size % 2 ^ 32)
  guard ((← alloc.loadNat (item.add offExpireAt) 4) = i * 7 % 2 ^ 32)
  guard ((← alloc.loadPtr item) ≠ none)
  let data ← alloc.loadBytes (item.add itemSize) size
  guard (data.all (· = UInt8.ofNat (i &&& 0xFF)))

/-- `check_integrity` of `n` items. -/
def checkIntegrity (touch : Bool) (align : ℕ) (base : ℕ → ℕ) (n : ℕ) (alloc : SlabAllocator) :
    Option SlabAllocator := do
  let (alloc, slots, _) ← countTo n (fillSlot align base) (alloc, [], rngSeed 0xBEEF#64)
  let _ ← countTo n (fun i _ => do checkSlot alloc i (← slots[i]?)) ()
  slots.foldlM (fun alloc slot => beFreeAfterLookup touch alloc (some slot.1)) alloc

/-- `REPEATS` -/
def repeats : ℕ := 3

def bestOf (fn : SlabAllocator → Option SlabAllocator) (alloc : SlabAllocator) :
    Option SlabAllocator := countTo repeats (fun _ => fn) alloc

def runSuite (touch mixed : Bool) (live ops samples : ℕ) (alloc : SlabAllocator) :
    Option SlabAllocator := do
  let sizes := sizesBuildN mixed live ops
  let alloc ← bestOf (benchLifo sizes live) alloc
  let alloc ← bestOf (benchFifo sizes live) alloc
  let alloc ← bestOf (benchTouch touch sizes live) alloc
  let alloc ← benchChurn touch sizes live ops alloc
  let alloc ← benchLatency touch sizes live samples alloc
  let _ ← reportFragmentation sizes live alloc
  some alloc

/-- `main` without arguments, up to `slab_allocator_destroy`. -/
def runAll (touch : Bool) (base : ℕ → ℕ) (items live ops samples : ℕ) (leftover : Ptr → Cell) :
    Option SlabAllocator := do
  let alloc ← checkIntegrity touch 8 base items (slabAllocatorInit leftover)
  let alloc ← runSuite touch false live ops samples alloc
  runSuite touch true live ops samples alloc

inductive Pattern
  | lifo
  | fifo
  | touch
  | churn
  deriving DecidableEq, Repr

/-- A round of `run_single`, on the slab backend. -/
def Pattern.run (touch : Bool) (sizes : List ℕ) (live ops : ℕ) : Pattern → SlabAllocator →
    Option SlabAllocator
  | .lifo => benchLifo sizes live
  | .fifo => benchFifo sizes live
  | .touch => benchTouch touch sizes live
  | .churn => benchChurn touch sizes live (ops / 8)

/-- `run_single`, when the clock allows `rounds` rounds. -/
def runSingle (touch mixed : Bool) (live ops : ℕ) (p : Pattern) (rounds : ℕ)
    (leftover : Ptr → Cell) : Option SlabAllocator :=
  countTo rounds (fun _ => p.run touch (sizesBuildN mixed live ops) live ops)
    (slabAllocatorInit leftover)

end Kvx.SlabBench
