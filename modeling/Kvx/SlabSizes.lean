import Kvx.SlabParents

/-!
# The sizes that are served

`data_len + ITEM_SIZE` is a `size_t`. A length for which the sum wraps passes the check of the
maximum and gets an item of the smallest class.
-/
namespace Kvx.SlabAlloc

open Kvx.Lib

variable {alloc alloc' : SlabAllocator} {leftover : Ptr → Cell} {live : List Ptr} {p : Ptr}
  {slab : Slab} {sc : SlabClass} {idx dataLen : ℕ}

/-- The answer that a request for `dataLen` bytes is meant to get. -/
structure Answered (alloc' : SlabAllocator) (r : Option Ptr) (dataLen : ℕ) : Prop where
  served : r ≠ none ↔ 1 ≤ dataLen ∧ dataLen ≤ 2 ^ 19 - 24
  data_size : ∀ p, r = some p → ∃ size, itemDataSize alloc' p = some size ∧ dataLen ≤ size
  smallest : ∀ p, r = some p → ∃ slab sc, alloc'.slabs[p.block]? = some slab ∧
    alloc'.classes[slab.parentSlabClass]? = some sc ∧ dataLen + itemSize ≤ sc.dataChunkSize ∧
    ∀ sc' ∈ alloc'.classes, dataLen + itemSize ≤ sc'.dataChunkSize →
      sc.dataChunkSize ≤ sc'.dataChunkSize

theorem chunkSizes_lt {i j s t : ℕ} (hs : chunkSizes[i]? = some s) (ht : chunkSizes[j]? = some t)
    (h : s < t) : i < j := by
  obtain ⟨hi, rfl⟩ := List.getElem?_eq_some_iff.mp hs
  obtain ⟨hj, rfl⟩ := List.getElem?_eq_some_iff.mp ht
  by_contra hge
  rcases Nat.eq_or_lt_of_le (not_lt.mp hge) with rfl | hlt
  · exact lt_irrefl _ h
  · have := List.pairwise_iff_getElem.mp chunkSizes_sorted j i hj hi hlt
    omega

theorem findClass_smallest (h : ClassesOk alloc) {size : ℕ} (hsize : size ≤ maxDataChunkSize) :
    ∃ idx sc, slabAllocatorFindClass alloc size = some idx ∧ alloc.classes[idx]? = some sc ∧
      size ≤ sc.dataChunkSize ∧
      ∀ sc' ∈ alloc.classes, size ≤ sc'.dataChunkSize → sc.dataChunkSize ≤ sc'.dataChunkSize := by
  obtain ⟨idx, sc, hrun, hsc, hholds, hbelow⟩ := findClass_spec h hsize
  refine ⟨idx, sc, hrun, hsc, hholds, fun sc' hmem hlarge => ?_⟩
  -- a class with smaller chunks stands before this one, and its chunks are too small
  obtain ⟨i, hi⟩ := List.mem_iff_getElem?.mp hmem
  by_contra hgt
  have hbefore := chunkSizes_lt (h.size_get hi) (h.size_get hsc) (not_le.mp hgt)
  have hsmall := hbelow i sc' hbefore hi
  omega

/-- What an item for `size` bytes comes from: the first class with chunks large enough. -/
structure ServedBy (alloc' : SlabAllocator) (p : Ptr) (size : ℕ) (slab : Slab) (sc : SlabClass) :
    Prop where
  slab_get : alloc'.slabs[p.block]? = some slab
  class_get : alloc'.classes[slab.parentSlabClass]? = some sc
  data_size : itemDataSize alloc' p = some (sc.dataChunkSize - itemSize)
  large : size ≤ sc.dataChunkSize
  least : ∀ sc' ∈ alloc'.classes, size ≤ sc'.dataChunkSize → sc.dataChunkSize ≤ sc'.dataChunkSize

theorem alloc_servedBy (h : AllocInv alloc live) (hpos : 0 < dataLen)
    (hmax : Pages.sizeT (dataLen + itemSize) ≤ maxDataChunkSize) :
    ∃ alloc' p slab sc, slabAllocatorAllocItem alloc dataLen = some (alloc', some p) ∧
      AllocInv alloc' (p ::ₘ (live : Multiset Ptr)) ∧
      ServedBy alloc' p (Pages.sizeT (dataLen + itemSize)) slab sc := by
  obtain ⟨idx, sc, hfind, hsc, hle, hleast⟩ := findClass_smallest h.classes hmax
  have hlt := (List.getElem?_eq_some_iff.mp hsc).1
  obtain ⟨alloc', p, hrun, ha, htop⟩ := classAlloc_spec h hsc
  have hparent := htop.parent (h.classes.cls idx sc hsc) (slabClassAllocItem_parents hsc hrun)
  obtain ⟨slab, hs, hidx⟩ := parents_eq_some.mp hparent
  obtain ⟨rest, sc', -, -, hsc', -⟩ := htop.stack
  have hsize' := ha.inv.classes.size_get hsc'
  have hkept := h.classes.size_get hsc
  rw [hsize', Option.some.injEq] at hkept
  have hchunk := (ha.inv.classes.cls idx sc' hsc').chunk p.block slab hs hidx
  obtain ⟨slab₁, hs₁, -, -, -, -, -, hdata, -⟩ := ha.inv.header (Multiset.mem_cons_self p _)
  rw [hs, Option.some.injEq] at hs₁
  refine ⟨alloc', p, slab, sc', ?_, ha.inv, hs, hidx ▸ hsc', ?_, hkept ▸ hle, ?_⟩
  · simp only [slabAllocatorAllocItem, hfind, Option.bind_eq_bind, Option.bind_some]
    rw [if_neg (by omega), if_neg (by omega), if_neg (by omega)]
    exact hrun
  · rw [hdata, ← hs₁, hchunk]
  · -- the classes before the call have the same sizes
    intro sc₁ hmem hlarge
    obtain ⟨i, hi⟩ := List.mem_iff_getElem?.mp hmem
    obtain ⟨sc₂, hsc₂, he⟩ := h.classes.class_get (ha.inv.classes.size_get hi)
    have hsmallest := hleast sc₂ (List.mem_of_getElem? hsc₂) (he ▸ hlarge)
    omega

/-- A length whose sum with the header wraps is served from the class of the smallest chunks. -/
theorem alloc_wrapped (h : AllocInv alloc live) (hlen : dataLen < 2 ^ 64)
    (hwrap : 2 ^ 64 ≤ dataLen + itemSize) :
    ∃ alloc' p, slabAllocatorAllocItem alloc dataLen = some (alloc', some p) ∧
      itemDataSize alloc' p = some 24 := by
  have hsize : Pages.sizeT (dataLen + itemSize) = dataLen + itemSize - 2 ^ 64 := by
    simp only [Pages.sizeT, itemSize] at *
    omega
  have hsmall : Pages.sizeT (dataLen + itemSize) ≤ minDataChunkSize := by
    rw [hsize]
    simp only [itemSize, minDataChunkSize]
    omega
  obtain ⟨alloc', p, slab, sc, hrun, hinv, hby⟩ :=
    alloc_servedBy h (by simp only [itemSize] at hwrap; omega)
      (hsmall.trans (by decide))
  have hfirst : chunkSizes[0]? = some minDataChunkSize := rfl
  obtain ⟨sc₀, hsc₀, he⟩ := hinv.classes.class_get hfirst
  have hle := hby.least sc₀ (List.mem_of_getElem? hsc₀) (by rw [he]; exact hsmall)
  have hmin := (chunkSizes_ok _ (hinv.classes.size_mem hby.class_get)).1
  have hchunk : sc.dataChunkSize = minDataChunkSize := le_antisymm (hle.trans he.le) hmin
  refine ⟨alloc', p, hrun, ?_⟩
  rw [hby.data_size, hchunk]
  rfl

theorem alloc_answered (h : AllocInv alloc live) (hfits : dataLen + itemSize < 2 ^ 64) :
    ∃ alloc' r, slabAllocatorAllocItem alloc dataLen = some (alloc', r) ∧
      Answered alloc' r dataLen := by
  have hsize : Pages.sizeT (dataLen + itemSize) = dataLen + itemSize := Nat.mod_eq_of_lt hfits
  by_cases hok : 1 ≤ dataLen ∧ dataLen ≤ 2 ^ 19 - 24
  · have hmax : Pages.sizeT (dataLen + itemSize) ≤ maxDataChunkSize := by
      rw [hsize]
      simp only [itemSize, maxDataChunkSize]
      omega
    obtain ⟨alloc', p, slab, sc, hrun, hinv, hby⟩ := alloc_servedBy h hok.1 hmax
    rw [hsize] at hby
    refine ⟨alloc', some p, hrun, ⟨fun _ => hok, fun _ => Option.some_ne_none p⟩, fun q hq => ?_,
      fun q hq => ?_⟩
    · rw [← Option.some.inj hq]
      have hlarge := hby.large
      exact ⟨_, hby.data_size, by omega⟩
    · rw [← Option.some.inj hq]
      exact ⟨slab, sc, hby.slab_get, hby.class_get, hby.large, hby.least⟩
  · have hrefused : slabAllocatorAllocItem alloc dataLen = some (alloc, none) := by
      rcases alloc_refused_or dataLen with hrefused | ⟨hpos, hmax⟩
      · exact hrefused alloc
      · rw [hsize] at hmax
        simp only [itemSize, maxDataChunkSize] at hmax
        omega
    exact ⟨alloc, none, hrefused, ⟨fun hne => absurd rfl hne, fun h => absurd h hok⟩, by simp, by simp⟩

/-- The answer is the right one unless the size of the item is not a `size_t`. -/
theorem alloc_answered_iff (h : ItemRun leftover alloc live) (hlen : dataLen < 2 ^ 64) :
    (∃ alloc' r, slabAllocatorAllocItem alloc dataLen = some (alloc', r) ∧
      Answered alloc' r dataLen) ↔ dataLen + itemSize < 2 ^ 64 := by
  refine ⟨fun hans => ?_, alloc_answered h.inv⟩
  by_contra hwrap
  obtain ⟨alloc₁, p, hrun₁, -⟩ := alloc_wrapped h.inv hlen (not_lt.mp hwrap)
  obtain ⟨alloc', r, hrun, ha⟩ := hans
  rw [hrun, Option.some.injEq, Prod.mk.injEq] at hrun₁
  have hle := (ha.served.mp (by simp [hrun₁.2])).2
  simp only [itemSize] at hwrap
  omega

/-- An empty allocator and the largest length it serves. -/
theorem alloc_answered_iff_init :
    ∃ alloc' r, slabAllocatorAllocItem (slabAllocatorInit fun _ => .byte 0) (2 ^ 19 - 24) =
      some (alloc', r) ∧ Answered alloc' r (2 ^ 19 - 24) :=
  (alloc_answered_iff .init (by decide)).mpr (by decide)

/-- A request for 2^64 - 1 bytes gets an item for 24. -/
theorem alloc_answered_max :
    ItemRun (fun _ => .byte 0) (slabAllocatorInit fun _ => .byte 0) [] ∧
      (∃ alloc' p, slabAllocatorAllocItem (slabAllocatorInit fun _ => .byte 0) (2 ^ 64 - 1) =
        some (alloc', some p) ∧ itemDataSize alloc' p = some 24) ∧
      ¬ ∃ alloc' r, slabAllocatorAllocItem (slabAllocatorInit fun _ => .byte 0) (2 ^ 64 - 1) =
        some (alloc', r) ∧ Answered alloc' r (2 ^ 64 - 1) := by
  have hinv : AllocInv (slabAllocatorInit fun _ => .byte 0) ([] : List Ptr) := init_inv _
  have hlen : 2 ^ 64 - 1 < 2 ^ 64 := by decide
  obtain ⟨alloc₁, p, hrun₁, hdata⟩ := alloc_wrapped hinv hlen (by decide)
  refine ⟨.init, ⟨alloc₁, p, hrun₁, hdata⟩, fun hans => ?_⟩
  obtain ⟨alloc', r, hrun, ha⟩ := hans
  rw [hrun, Option.some.injEq, Prod.mk.injEq] at hrun₁
  have hle := (ha.served.mp (by simp [hrun₁.2])).2
  omega

end Kvx.SlabAlloc
