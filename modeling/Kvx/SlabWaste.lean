import Kvx.SlabBench
import Kvx.SlabParents

/-!
# How much of a chunk is wasted

The size of a class is at most a quarter larger than the one before it, rounded up to the alignment.
So the class that a size falls into wastes a fifth of its chunks at most, but for the rounding.
-/
namespace Kvx.SlabBench

open Kvx.Lib Kvx.SlabAlloc

variable {alloc : SlabAllocator} {leftover : Ptr → Cell} {live : List Ptr}

theorem alignUp_le {v : ℕ} (hv : v ≤ 2 ^ 20) : alignUp v alignofItem ≤ v + 7 := by
  have hsum : Pages.sizeT (v + 2 ^ 3 - 1) = v + 7 := by
    rw [Pages.sizeT, Nat.mod_eq_of_lt (by omega)]
    omega
  have hlt : Pages.sizeT (v + 2 ^ 3 - 1) < 2 ^ 64 := Nat.mod_lt _ (by decide)
  rw [alignUp, show alignofItem = 2 ^ 3 from rfl, Pages.alignUp,
    Pages.and_high_bits hlt (by decide), hsum]
  omega

theorem nextChunkSize_le {size : ℕ} (hmin : minDataChunkSize ≤ size)
    (hmax : size ≤ maxDataChunkSize) : 4 * nextChunkSize size ≤ 5 * size + 28 := by
  simp only [minDataChunkSize, maxDataChunkSize] at hmin hmax
  have halign : alignUp (size * 5 / 4) alignofItem ≤ size * 5 / 4 + 7 := alignUp_le (by omega)
  obtain ⟨next, hnext⟩ : ∃ next, alignUp (size * 5 / 4) alignofItem = next := ⟨_, rfl⟩
  rw [hnext] at halign
  have hstep : nextChunkSize size ≤ max next (size + alignofItem) := by
    simp only [nextChunkSize, hnext]
    split_ifs <;> omega
  simp only [alignofItem] at hstep
  omega

theorem chunkSizesFrom_succ {n size i next : ℕ}
    (h : (chunkSizesFrom n size)[i + 1]? = some next) :
    ∃ prev, (chunkSizesFrom n size)[i]? = some prev ∧ next = nextChunkSize prev := by
  induction n generalizing size i with
  | zero => simp [chunkSizesFrom] at h
  | succ n ih =>
    rw [chunkSizesFrom, List.getElem?_cons_succ] at h
    cases i with
    | zero =>
      refine ⟨size, by rw [chunkSizesFrom, List.getElem?_cons_zero], ?_⟩
      cases n with
      | zero => simp [chunkSizesFrom] at h
      | succ n =>
        rw [chunkSizesFrom, List.getElem?_cons_zero] at h
        exact (Option.some.inj h).symm
    | succ i =>
      obtain ⟨prev, hprev, hnext⟩ := ih h
      exact ⟨prev, by rw [chunkSizesFrom, List.getElem?_cons_succ, hprev], hnext⟩

theorem usableSize_waste (h : ClassesOk alloc) {size : ℕ} (hmin : minDataChunkSize ≤ size)
    (hmax : size ≤ maxDataChunkSize) :
    ∃ usable, slabAllocatorUsableSize alloc size = some usable ∧ size ≤ usable ∧
      4 * usable ≤ 5 * size + 23 := by
  simp only [minDataChunkSize] at hmin
  obtain ⟨idx, sc, hfind, hsc, hholds, hbelow⟩ := findClass_spec h hmax
  have hsize := h.size_get hsc
  refine ⟨sc.dataChunkSize, ?_, hholds, ?_⟩
  · rw [slabAllocatorUsableSize, if_neg (by omega), if_neg (not_lt.mpr hmax), hfind]
    simp only [Option.bind_eq_bind, Option.bind_some, hsc]
  cases idx with
  | zero =>
    have hfirst : chunkSizes[0]? = some minDataChunkSize := rfl
    have hsmallest : sc.dataChunkSize = 48 := Option.some.inj (hsize.symm.trans hfirst)
    omega
  | succ idx =>
    obtain ⟨prev, hprev, hnext⟩ := chunkSizesFrom_succ hsize
    obtain ⟨sc', hsc', rfl⟩ := h.class_get hprev
    obtain ⟨hlo, hhi, -⟩ := chunkSizes_ok _ (h.size_mem hsc')
    have hsmall := hbelow idx sc' (Nat.lt_succ_self idx) hsc'
    have hstep := nextChunkSize_le hlo hhi
    omega

/-- The report on the waste: no more than a fifth and 6 bytes for each size. -/
theorem reportFragmentation_bounded (h : ItemRun leftover alloc live) {sizes : List ℕ} {n : ℕ}
    (hn : n ≤ sizes.length)
    (hsizes : ∀ size ∈ sizes, minDataChunkSize ≤ size ∧ size ≤ maxDataChunkSize) :
    ∃ usable, reportFragmentation sizes n alloc = some ((sizes.take n).sum, usable) ∧
      (sizes.take n).sum ≤ usable ∧ 4 * usable ≤ 5 * (sizes.take n).sum + 23 * n := by
  have hloop : ∃ s, reportFragmentation sizes n alloc = some s ∧ s.1 = (sizes.take n).sum ∧
      s.1 ≤ s.2 ∧ 4 * s.2 ≤ 5 * s.1 + 23 * n := by
    refine countTo_inv (P := fun i (s : ℕ × ℕ) => s.1 = (sizes.take i).sum ∧ s.1 ≤ s.2 ∧
      4 * s.2 ≤ 5 * s.1 + 23 * i) ⟨rfl, le_rfl, by simp⟩ fun i hi s hs => ?_
    obtain ⟨hreq, hle, hwaste⟩ := hs
    have hlt : i < sizes.length := hi.trans_le hn
    obtain ⟨size, hsize⟩ : ∃ size, sizes[i]? = some size := ⟨_, List.getElem?_eq_getElem hlt⟩
    obtain ⟨hmin, hmax⟩ := hsizes size (List.mem_of_getElem? hsize)
    obtain ⟨usable, hrun, hholds, hbound⟩ := usableSize_waste h.inv.classes hmin hmax
    refine ⟨(s.1 + size, s.2 + usable), ?_, ?_, ?_, ?_⟩
    · simp only [hsize, hrun, Option.bind_eq_bind, Option.bind_some]
    · rw [List.take_add_one, hsize, hreq, Option.toList_some, List.sum_append, List.sum_singleton]
    · exact Nat.add_le_add hle hholds
    · simp only
      omega
  obtain ⟨⟨req, usable⟩, hrun, rfl, hle, hwaste⟩ := hloop
  exact ⟨usable, hrun, hle, hwaste⟩

/-- The sizes 48, 49 and 1000 -/
theorem reportFragmentation_bounded_three : ∃ usable,
    reportFragmentation [48, 49, 1000] 3 (slabAllocatorInit fun _ => .byte 0) =
      some (([48, 49, 1000].take 3).sum, usable) ∧ ([48, 49, 1000].take 3).sum ≤ usable ∧
      4 * usable ≤ 5 * ([48, 49, 1000].take 3).sum + 23 * 3 :=
  reportFragmentation_bounded .init (by decide) (by decide)

end Kvx.SlabBench
