import Kvx.Lib.BlockMemory
import Kvx.Pages

/-!
# The slab allocator

A slab is one block of `SLAB_SIZE` bytes: its header, kept here as a record, and an area
carved into chunks of one size. A free chunk holds the link to the next free chunk where
a live item holds its `slab_ptr`. `none` stands for an access outside the area of a slab,
a read of something that is not a pointer, or a write past the end of a stack.
-/
namespace Kvx.SlabAlloc

open Kvx.Lib

def slabSize : ℕ := 2 ^ 21
def slabClassInitialCap : ℕ := 8
def minDataChunkSize : ℕ := 48
def maxDataChunkSize : ℕ := 2 ^ 19

/-- `sizeof(slab_t)`, the offset of `mem`. -/
def sizeofSlab : ℕ := 40

/-- `sizeof(item_t)`, the offset of `data`. -/
def itemSize : ℕ := 24

def alignofItem : ℕ := 8

def offDataSize : ℕ := 12

def alignUp (value alignment : ℕ) : ℕ := Pages.alignUp value alignment

/-- `struct slab_t` without `mem`. A slab is named by its block. -/
structure Slab where
  chunkSize : ℕ
  freeList : Option Ptr
  bump : Ptr
  freeCount : ℕ
  parentSlabClass : ℕ
  deriving DecidableEq, Repr

/-- `struct slab_class_t`. The stack lists its entries from the top. -/
structure SlabClass where
  dataChunkSize : ℕ
  freeStack : List ℕ
  slabsCap : ℕ
  slabs : List ℕ
  deriving DecidableEq, Repr

/-- `struct slab_allocator_t`, with the slabs `malloc` returned and their memory. -/
structure SlabAllocator where
  classes : List SlabClass
  slabs : List Slab
  mem : Ptr → Cell

/-- The `n` bytes from `p` on lie in the `mem` area of a slab. -/
def SlabAllocator.InMem (alloc : SlabAllocator) (p : Ptr) (n : ℕ) : Prop :=
  p.block < alloc.slabs.length ∧ sizeofSlab ≤ p.off ∧ p.off + n ≤ slabSize

instance (alloc : SlabAllocator) (p : Ptr) (n : ℕ) : Decidable (alloc.InMem p n) :=
  inferInstanceAs (Decidable (_ ∧ _))

def SlabAllocator.load (alloc : SlabAllocator) (p : Ptr) (n : ℕ) : Option (List Cell) :=
  if alloc.InMem p n then some (readCells alloc.mem p n) else none

def SlabAllocator.store (alloc : SlabAllocator) (p : Ptr) (cells : List Cell) :
    Option SlabAllocator :=
  if alloc.InMem p cells.length then some { alloc with mem := writeCells alloc.mem p cells }
  else none

def SlabAllocator.loadPtr (alloc : SlabAllocator) (p : Ptr) : Option (Option Ptr) := do
  toPtr (← alloc.load p 8)

def SlabAllocator.loadNat (alloc : SlabAllocator) (p : Ptr) (bytes : ℕ) : Option ℕ := do
  toNat (← alloc.load p bytes)

def SlabAllocator.loadBytes (alloc : SlabAllocator) (p : Ptr) (n : ℕ) : Option (List UInt8) := do
  toBytes (← alloc.load p n)

def slabInit (block dataChunkSize parentSlabClass : ℕ) : Slab :=
  let chunkSize := alignUp dataChunkSize alignofItem
  { chunkSize := chunkSize
    freeList := none
    bump := ⟨block, sizeofSlab⟩
    freeCount := (slabSize - sizeofSlab) / chunkSize
    parentSlabClass := parentSlabClass }

/-- The free list first, then the next chunk that was never used. -/
def takeChunk (alloc : SlabAllocator) (slab : Slab) : Option (Ptr × Slab) :=
  match slab.freeList with
  | some item => do
      let link ← alloc.loadPtr item
      some (item, { slab with freeList := link })
  | none => some (slab.bump, { slab with bump := slab.bump.add slab.chunkSize })

def slabAllocItem (alloc : SlabAllocator) (block : ℕ) : Option (SlabAllocator × Option Ptr) := do
  let slab ← alloc.slabs[block]?
  if slab.freeCount = 0 then some (alloc, none)
  else
    let (item, slab) ← takeChunk alloc slab
    let slab := { slab with freeCount := slab.freeCount - 1 }
    let alloc := { alloc with slabs := alloc.slabs.set block slab }
    let alloc ← alloc.store item (ptrCells (some ⟨block, 0⟩))
    let alloc ← alloc.store (item.add offDataSize) (natCells 4 (slab.chunkSize - itemSize))
    some (alloc, some item)

def slabClassInit (chunkSize : ℕ) : SlabClass where
  dataChunkSize := chunkSize
  freeStack := []
  slabsCap := slabClassInitialCap
  slabs := []

def slabClassGrowSlabs (sc : SlabClass) : SlabClass :=
  { sc with slabsCap := sc.slabsCap + sc.slabsCap / 2 }

/-- `free_stack[free_top++] = slab`. -/
def SlabClass.push (sc : SlabClass) (block : ℕ) : Option SlabClass :=
  if sc.freeStack.length < sc.slabsCap then some { sc with freeStack := block :: sc.freeStack }
  else none

def slabClassGrow (alloc : SlabAllocator) (idx : ℕ) : Option SlabAllocator := do
  let sc ← alloc.classes[idx]?
  let sc := if sc.slabs.length = sc.slabsCap then slabClassGrowSlabs sc else sc
  let block := alloc.slabs.length
  let newSlab := slabInit block sc.dataChunkSize idx
  if sc.slabs.length < sc.slabsCap then
    let sc ← SlabClass.push { sc with slabs := sc.slabs ++ [block] } block
    some { alloc with
      slabs := alloc.slabs ++ [newSlab]
      classes := alloc.classes.set idx sc }
  else none

def slabClassAllocItem (alloc : SlabAllocator) (idx : ℕ) :
    Option (SlabAllocator × Option Ptr) := do
  let sc ← alloc.classes[idx]?
  let alloc ← (if sc.freeStack = [] then slabClassGrow alloc idx else some alloc)
  let sc ← alloc.classes[idx]?
  let block ← sc.freeStack.head?
  let (alloc, item) ← slabAllocItem alloc block
  let slab ← alloc.slabs[block]?
  if slab.freeCount = 0 then
    some ({ alloc with
      classes := alloc.classes.set idx { sc with freeStack := sc.freeStack.tail } }, item)
  else some (alloc, item)

def slabClassFreeItem (alloc : SlabAllocator) (idx block : ℕ) : Option SlabAllocator := do
  let slab ← alloc.slabs[block]?
  if slab.freeCount = 1 then
    let sc ← alloc.classes[idx]?
    let sc ← sc.push block
    some { alloc with classes := alloc.classes.set idx sc }
  else some alloc

/-- The slab is read from the item, and must be the start of a block. -/
def slabAllocatorFreeItem (alloc : SlabAllocator) (item : Ptr) : Option SlabAllocator := do
  let slabPtr ← ← alloc.loadPtr item
  if slabPtr.off ≠ 0 then none
  else
    let slab ← alloc.slabs[slabPtr.block]?
    let alloc ← alloc.store item (ptrCells slab.freeList)
    let slab := { slab with
      freeList := some item
      freeCount := slab.freeCount + 1 }
    slabClassFreeItem { alloc with slabs := alloc.slabs.set slabPtr.block slab }
      slab.parentSlabClass slabPtr.block

/-- `size * CHUNK_GROWTH_FACTOR` is exact in a double, and is cut to a `size_t`. -/
def nextChunkSize (size : ℕ) : ℕ :=
  let next := alignUp (size * 5 / 4) alignofItem
  let next := if next ≤ size then size + alignofItem else next
  if next > maxDataChunkSize then maxDataChunkSize else next

/-- The `while` loop, with a bound on its steps. -/
def countSlabClassesFrom : ℕ → ℕ → ℕ → ℕ
  | 0, _, count => count
  | fuel + 1, size, count =>
      if size < maxDataChunkSize then countSlabClassesFrom fuel (nextChunkSize size) (count + 1)
      else count

def countSlabClasses : ℕ := countSlabClassesFrom maxDataChunkSize minDataChunkSize 1

/-- The chunk sizes of the `for` loop that initialises the classes. -/
def chunkSizesFrom : ℕ → ℕ → List ℕ
  | 0, _ => []
  | n + 1, chunkSize => chunkSize :: chunkSizesFrom n (nextChunkSize chunkSize)

def chunkSizes : List ℕ := chunkSizesFrom countSlabClasses minDataChunkSize

/-- `leftover` is what the memory of later slabs holds when `malloc` returns it. -/
def slabAllocatorInit (leftover : Ptr → Cell) : SlabAllocator where
  classes := chunkSizes.map slabClassInit
  slabs := []
  mem := leftover

/-- The binary search, with a bound on its steps. -/
def findClassFrom (classes : List SlabClass) (size : ℕ) : ℕ → ℕ → ℕ → Option ℕ
  | 0, left, _ => some left
  | fuel + 1, left, right =>
      if left < right then do
        let mid := left + (right - left) / 2
        let sc ← classes[mid]?
        if sc.dataChunkSize < size then findClassFrom classes size fuel (mid + 1) right
        else findClassFrom classes size fuel left mid
      else some left

def slabAllocatorFindClass (alloc : SlabAllocator) (size : ℕ) : Option ℕ :=
  findClassFrom alloc.classes size alloc.classes.length 0 alloc.classes.length

def slabAllocatorAllocItem (alloc : SlabAllocator) (dataLen : ℕ) :
    Option (SlabAllocator × Option Ptr) :=
  let size := Pages.sizeT (dataLen + itemSize)
  if dataLen = 0 then some (alloc, none)
  else if size > maxDataChunkSize then some (alloc, none)
  else do
    let idx ← slabAllocatorFindClass alloc size
    if idx = alloc.classes.length then some (alloc, none)
    else slabClassAllocItem alloc idx

end Kvx.SlabAlloc
