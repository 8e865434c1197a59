import Kvx.SlabSizes

/-!
# The search for a size class

`slab_allocator_find_class` on any sorted classes, and on those of an allocator, for which
`slab_allocator_usable_size` does not ask whether a class was found.
-/
namespace Kvx.SlabAlloc

open Kvx.Lib

variable {alloc : SlabAllocator}

/-- `none`: the class that it reads is none of the array. -/
def slabAllocatorUsableSize (alloc : SlabAllocator) (size : ℕ) : Option ℕ :=
  if size = 0 then some 0
  else if size > maxDataChunkSize then some 0
  else do
    let idx ← slabAllocatorFindClass alloc size
    let sc ← alloc.classes[idx]?
    some sc.dataChunkSize

/-- `idx` is the first of the classes with chunks for `size`, or their number. -/
structure FirstClass (classes : List SlabClass) (size idx : ℕ) : Prop where
  le : idx ≤ classes.length
  enough : ∀ sc, classes[idx]? = some sc → size ≤ sc.dataChunkSize
  least : ∀ i sc, classes[i]? = some sc → size ≤ sc.dataChunkSize → idx ≤ i

theorem firstClass_of_separates {classes : List SlabClass} {size idx : ℕ}
    (h : Separates classes (smallFor size) idx idx) : FirstClass classes size idx where
  le := h.within
  enough sc hsc := not_lt.mp (of_decide_eq_false (h.above idx sc (le_refl idx) hsc))
  least i sc hsc hlarge := by
    by_contra hlt
    have hsmall := smallFor_iff.mp (h.below i sc (not_le.mp hlt) hsc)
    omega

/-- The sizes of the chunks rise in multiples of 8 to the largest. -/
structure SizeTable (sizes : List ℕ) : Prop where
  rising : sizes.Pairwise (· < ·)
  aligned : ∀ size ∈ sizes, size % 8 = 0
  last : sizes.getLast? = some maxDataChunkSize

/-- `usable` is the smallest size of the chunks of a class that holds `size`. -/
structure SmallestHolding (classes : List SlabClass) (size usable : ℕ) : Prop where
  mem : ∃ sc ∈ classes, sc.dataChunkSize = usable
  holds : size ≤ usable
  least : ∀ sc ∈ classes, size ≤ sc.dataChunkSize → usable ≤ sc.dataChunkSize

theorem chunkSizes_table : SizeTable chunkSizes where
  rising := chunkSizes_sorted
  aligned size hsize := (chunkSizes_ok size hsize).2.2
  last := chunkSizes_last

theorem usableSize_smallest (h : ClassesOk alloc) {size : ℕ} (hpos : 1 ≤ size)
    (hmax : size ≤ maxDataChunkSize) :
    ∃ usable, slabAllocatorUsableSize alloc size = some usable ∧
      SmallestHolding alloc.classes size usable := by
  obtain ⟨idx, sc, hrun, hsc, hholds, hleast⟩ := findClass_smallest h hmax
  refine ⟨sc.dataChunkSize, ?_, ⟨sc, List.mem_of_getElem? hsc, rfl⟩, hholds, hleast⟩
  rw [slabAllocatorUsableSize, if_neg (by omega), if_neg (not_lt.mpr hmax), hrun]
  simp only [Option.bind_eq_bind, Option.bind_some, hsc]

/-- On sorted classes the search ends, reads classes only and finds the first that is large enough.
The classes of an allocator are sorted and end with the largest size, so for a possible size a
class is found. -/
theorem findClass_lowerBound (leftover : Ptr → Cell) :
    (∀ (alloc : SlabAllocator) (size : ℕ),
      (alloc.classes.map SlabClass.dataChunkSize).Pairwise (· < ·) →
      ∃ probes idx, bisect alloc.classes (smallFor size) 0 alloc.classes.length =
          some (probes, idx) ∧ slabAllocatorFindClass alloc size = some idx ∧
        (∀ i ∈ probes, i < alloc.classes.length) ∧ FirstClass alloc.classes size idx) ∧
    SizeTable ((slabAllocatorInit leftover).classes.map SlabClass.dataChunkSize) ∧
    ∀ (alloc : SlabAllocator) (live : List Ptr), ItemRun leftover alloc live →
      ∀ size, 1 ≤ size → size ≤ maxDataChunkSize →
        ∃ usable, slabAllocatorUsableSize alloc size = some usable ∧
          SmallestHolding alloc.classes size usable := by
  refine ⟨fun alloc size hsorted => ?_, ?_, fun alloc live hrun size hpos hmax =>
    usableSize_smallest hrun.inv.classes hpos hmax⟩
  · obtain ⟨probes, idx, hbisect, hfind, hprobes, hidx⟩ := findClass_bisect hsorted size
    exact ⟨probes, idx, hbisect, hfind, hprobes, firstClass_of_separates hidx⟩
  · have hrun : ItemRun leftover (slabAllocatorInit leftover) [] := .init
    rw [hrun.inv.classes.sizes]
    exact chunkSizes_table

/-- 500 bytes in an allocator without slabs -/
theorem findClass_lowerBound_init :
    (∃ idx, slabAllocatorFindClass (slabAllocatorInit fun _ => .byte 0) 500 = some idx ∧
      FirstClass (slabAllocatorInit fun _ => .byte 0).classes 500 idx) ∧
    ∃ usable, slabAllocatorUsableSize (slabAllocatorInit fun _ => .byte 0) 500 = some usable ∧
      SmallestHolding (slabAllocatorInit fun _ => .byte 0).classes 500 usable := by
  obtain ⟨hsearch, htable, husable⟩ := findClass_lowerBound fun _ => .byte 0
  obtain ⟨-, idx, -, hfind, -, hfirst⟩ := hsearch _ 500 htable.rising
  exact ⟨⟨idx, hfind, hfirst⟩, husable _ [] .init 500 (by decide) (by decide)⟩

end Kvx.SlabAlloc
