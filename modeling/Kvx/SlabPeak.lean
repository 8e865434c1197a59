import Kvx.Lib.Sums
import Kvx.SlabParents

/-!
# How many slabs a run needs

A class gets a new slab only when all chunks of its slabs are live. The number of its slabs is
then the number that its live items need, so it never exceeds what the most items that were
live at one time need.
-/
namespace Kvx.SlabAlloc

open Kvx.Lib

variable {alloc : SlabAllocator} {leftover : Ptr → Cell} {live : List Ptr} {p : Ptr}
  {sc sc' : SlabClass} {idx : ℕ}

/-- An allocator with the list of its live items. -/
abbrev ItemState := SlabAllocator × List Ptr

/-- An allocation, a free of a live item, or a write of its owner into a live item. -/
inductive ItemStep : ItemState → ItemState → Prop
  | alloc {alloc alloc' : SlabAllocator} {live : List Ptr} {dataLen : ℕ} {r : Option Ptr}
      (run : slabAllocatorAllocItem alloc dataLen = some (alloc', r)) :
      ItemStep (alloc, live) (alloc', r.toList ++ live)
  | free {alloc alloc' : SlabAllocator} {live : List Ptr} {p : Ptr} (item : p ∈ live)
      (run : slabAllocatorFreeItem alloc p = some alloc') :
      ItemStep (alloc, live) (alloc', live.erase p)
  | write {alloc alloc' : SlabAllocator} {live : List Ptr} {p : Ptr} {slab : Slab} {off : ℕ}
      {cells : List Cell} (item : p ∈ live) (slabOf : alloc.slabs[p.block]? = some slab)
      (lo : 8 ≤ off) (mid : off + cells.length ≤ offDataSize ∨ offDataSize + 4 ≤ off)
      (hi : off + cells.length ≤ slab.chunkSize)
      (run : alloc.store (p.add off) cells = some alloc') : ItemStep (alloc, live) (alloc', live)

/-- The states of a run from `slab_allocator_init`, the last one first. -/
inductive ItemTrace (leftover : Ptr → Cell) : List ItemState → Prop
  | init : ItemTrace leftover [(slabAllocatorInit leftover, [])]
  | step {s s' : ItemState} {past : List ItemState} (before : ItemTrace leftover (s :: past))
      (next : ItemStep s s') : ItemTrace leftover (s' :: s :: past)

def liveOf (idx : ℕ) (s : ItemState) : ℕ :=
  s.2.countP fun p => s.1.parents[p.block]? = some idx

/-- The largest number of items of a class that were live at one time. -/
def peakLive (idx : ℕ) (states : List ItemState) : ℕ := (states.map (liveOf idx)).foldr max 0

theorem ItemStep.run {s s' : ItemState} (h : ItemRun leftover s.1 s.2) (next : ItemStep s s') :
    ItemRun leftover s'.1 s'.2 := by
  cases next with
  | alloc run => exact .alloc h run
  | free item run => exact .free h item run
  | write item slabOf lo mid hi run => exact .write h item slabOf lo mid hi run

theorem ItemTrace.run {s : ItemState} {past : List ItemState}
    (h : ItemTrace leftover (s :: past)) : ItemRun leftover s.1 s.2 := by
  generalize hstates : s :: past = states at h
  induction h generalizing s past with
  | init =>
    obtain ⟨rfl, -⟩ := List.cons.inj hstates
    exact .init
  | step before next ih =>
    obtain ⟨rfl, -⟩ := List.cons.inj hstates
    exact next.run (ih rfl)

theorem peakLive_cons (idx : ℕ) (s : ItemState) (past : List ItemState) :
    peakLive idx (s :: past) = max (liveOf idx s) (peakLive idx past) := rfl

/-- A step that adds a slab: the stack of a class is empty, and an item in the new slab is
returned. -/
structure Grows (s s' : ItemState) (idx : ℕ) : Prop where
  empty : ∃ sc, s.1.classes[idx]? = some sc ∧ sc.freeStack = []
  parents : s'.1.parents = s.1.parents ++ [idx]
  live : ∃ p, s'.2 = p :: s.2 ∧ p.block = s.1.slabs.length

theorem ItemStep.grows {s s' : ItemState} (h : AllocInv s.1 s.2) (next : ItemStep s s') :
    s'.1.parents = s.1.parents ∨ ∃ idx, Grows s s' idx := by
  cases next with
  | @alloc alloc alloc' live dataLen r run =>
    rcases alloc_refused_or dataLen with hrefused | ⟨hpos, hmax⟩
    · rw [hrefused, Option.some.injEq, Prod.mk.injEq] at run
      exact Or.inl (run.1 ▸ rfl)
    · obtain ⟨idx, sc, hfind, hsc, -⟩ := findClass_spec h.classes hmax
      have hlt := (List.getElem?_eq_some_iff.mp hsc).1
      simp only [slabAllocatorAllocItem, hfind, Option.bind_eq_bind, Option.bind_some] at run
      rw [if_neg (by omega), if_neg (by omega), if_neg (by simp only at hlt; omega)] at run
      obtain ⟨alloc₁, p, hrun, -, htop⟩ := classAlloc_spec h hsc
      have hparents := slabClassAllocItem_parents hsc run
      rw [hrun, Option.some.injEq, Prod.mk.injEq] at run
      obtain ⟨rfl, rfl⟩ := run
      by_cases hempty : sc.freeStack = []
      · rw [if_pos hempty] at hparents
        obtain ⟨rest, sc', slab', hread, -⟩ := htop.stack
        rw [stackRead, if_pos hempty] at hread
        exact Or.inr ⟨idx, ⟨sc, hsc, hempty⟩, hparents, p, rfl, (List.cons.inj hread).1.symm⟩
      · rw [if_neg hempty] at hparents
        exact Or.inl hparents
  | free item run => exact Or.inl (slabAllocatorFreeItem_parents run)
  | write item slabOf lo mid hi run =>
    exact Or.inl (by rw [SlabAllocator.parents, (store_slabs run).1]; rfl)

theorem AllocInv.full (h : AllocInv alloc live) (hsc : alloc.classes[idx]? = some sc)
    (hempty : sc.freeStack = []) {b : ℕ} (hb : b ∈ sc.slabs) :
    liveChunks live b = capacity sc.dataChunkSize := by
  have hcls := h.classes.cls idx sc hsc
  obtain ⟨slab, hs, hp⟩ := (hcls.slabs_mem b).mp hb
  have hbooks := h.slabBooks hs
  have hnone : ¬ 0 < slab.freeCount := by
    intro hpos
    have hmem := (hcls.stack_mem b).mpr ⟨slab, hs, hp, hpos⟩
    rw [hempty] at hmem
    exact absurd hmem (List.not_mem_nil)
  have hcount := hbooks.count
  have hle := hbooks.live_le
  rw [← hcls.chunk b slab hs hp]
  omega

theorem AllocInv.liveOf_eq (h : AllocInv alloc live) (hsc : alloc.classes[idx]? = some sc) :
    liveOf idx (alloc, live) = (sc.slabs.map (liveChunks live)).sum := by
  have hcls := h.classes.cls idx sc hsc
  have hsum := countP_mem_eq_sum Ptr.block live hcls.slabs_nodup
  unfold liveChunks
  rw [← hsum, liveOf]
  refine List.countP_congr fun p _ => ?_
  simp only [decide_eq_true_eq]
  rw [hcls.slabs_mem, parents_eq_some]

theorem AllocInv.liveOf_full (h : AllocInv alloc live) (hsc : alloc.classes[idx]? = some sc)
    (hempty : sc.freeStack = []) :
    liveOf idx (alloc, live) = sc.slabs.length * capacity sc.dataChunkSize := by
  rw [h.liveOf_eq hsc, List.map_congr_left fun b hb => h.full hsc hempty hb, List.map_const',
    List.sum_replicate, smul_eq_mul]

theorem AllocInv.capacity_pos (h : AllocInv alloc live) (hsc : alloc.classes[idx]? = some sc) :
    0 < capacity sc.dataChunkSize := by
  obtain ⟨hmin, hmax, -⟩ := chunkSizes_ok _ (h.classes.size_mem hsc)
  exact SlabAlloc.capacity_pos hmin hmax

/-- A step either keeps the number of slabs of a class, or adds one to those in use and returns an
item in it. -/
theorem ItemStep.slabs {s s' : ItemState} (h : AllocInv s.1 s.2) (h' : AllocInv s'.1 s'.2)
    (next : ItemStep s s') (hsc : s.1.classes[idx]? = some sc)
    (hsc' : s'.1.classes[idx]? = some sc') :
    sc'.slabs.length = sc.slabs.length ∨
      (sc'.slabs.length = sc.slabs.length + 1 ∧ sc.freeStack = [] ∧
        liveOf idx s' = liveOf idx s + 1) := by
  rw [(h.classes.cls idx sc hsc).slabs_length, (h'.classes.cls idx sc' hsc').slabs_length]
  rcases next.grows h with hsame | ⟨j, ⟨sc₁, hsc₁, hempty⟩, hparents, p, hlive, hblock⟩
  · exact Or.inl (by rw [hsame])
  by_cases hj : j = idx
  · subst hj
    rw [hsc, Option.some.injEq] at hsc₁
    refine Or.inr ⟨by rw [hparents, List.count_append, List.count_singleton_self], hsc₁ ▸ hempty, ?_⟩
    have hlen : s.1.parents.length = s.1.slabs.length := List.length_map _
    have hnew : (s.1.parents ++ [j])[p.block]? = some j := by
      rw [hblock, ← hlen, List.getElem?_concat_length]
    rw [liveOf, hlive, hparents, List.countP_cons_of_pos (by simpa using hnew)]
    refine congrArg (· + 1) (List.countP_congr fun q hq => ?_)
    have hlt := h.slabs.block q (Multiset.mem_coe.mpr hq)
    rw [List.getElem?_append_left (by rw [hlen]; exact hlt)]
  · refine Or.inl ?_
    rw [hparents, List.count_append, List.count_singleton, if_neg (by simpa using hj)]
    rfl

theorem succ_le_ceilDiv {n peak cap : ℕ} (hcap : 0 < cap) (h : n * cap + 1 ≤ peak) :
    n + 1 ≤ peak ⌈/⌉ cap := by
  by_contra hlt
  have hle : peak ⌈/⌉ cap ≤ n := by omega
  rw [ceilDiv_le_iff_le_mul hcap] at hle
  rw [Nat.mul_comm] at h
  omega

/-- A class has at most the slabs that its items needed when most of them were live. -/
theorem ItemTrace.slabs_le {s : ItemState} {past : List ItemState}
    (h : ItemTrace leftover (s :: past)) (hsc : s.1.classes[idx]? = some sc) :
    sc.slabs.length ≤ peakLive idx (s :: past) ⌈/⌉ capacity sc.dataChunkSize := by
  generalize hstates : s :: past = states at h
  induction h generalizing s past sc with
  | init =>
    obtain ⟨rfl, -⟩ := List.cons.inj hstates
    obtain ⟨size, -, rfl⟩ := List.mem_map.mp (List.mem_of_getElem? hsc)
    exact Nat.zero_le _
  | @step s₀ s' past before next ih =>
    obtain ⟨rfl, -⟩ := List.cons.inj hstates
    have hinv := before.run.inv
    have hinv' := (next.run before.run).inv
    obtain ⟨sc₀, hsc₀, hsize⟩ := hinv.classes.class_get (hinv'.classes.size_get hsc)
    have hcap := hinv.capacity_pos hsc₀
    have hbound := ih hsc₀ rfl
    rw [peakLive_cons, ← hsize]
    rcases next.slabs hinv hinv' hsc₀ hsc with hsame | ⟨hmore, hempty, hlive⟩
    · rw [hsame]
      exact hbound.trans ((gc_mul_ceilDiv hcap).monotone_l (le_max_right _ _))
    · have hfull := hinv.liveOf_full hsc₀ hempty
      rw [hmore]
      refine succ_le_ceilDiv hcap (le_max_of_le_left ?_)
      rw [hlive]
      exact Nat.succ_le_succ hfull.ge

/-- A new slab is only added to a class whose slabs are full, so the number of slabs of a class is
at most what its items needed when most of them were live. -/
theorem slabs_bounded_by_peak {s : ItemState} {past : List ItemState}
    (h : ItemTrace leftover (s :: past)) :
    (∀ (idx : ℕ) (sc : SlabClass), s.1.classes[idx]? = some sc →
      sc.slabs.length ≤ peakLive idx (s :: past) ⌈/⌉ capacity sc.dataChunkSize) ∧
    ∀ (s' : ItemState) (idx : ℕ) (sc sc' : SlabClass), ItemStep s s' →
      s.1.classes[idx]? = some sc → s'.1.classes[idx]? = some sc' →
      sc'.slabs.length ≠ sc.slabs.length →
      sc'.slabs.length = sc.slabs.length + 1 ∧
        ∀ b ∈ sc.slabs, liveChunks s.2 b = capacity sc.dataChunkSize := by
  refine ⟨fun idx sc hsc => h.slabs_le hsc, fun s' idx sc sc' next hsc hsc' hne => ?_⟩
  have hinv := h.run.inv
  rcases next.slabs hinv (next.run h.run).inv hsc hsc' with hsame | ⟨hmore, hempty, -⟩
  · exact absurd hsame hne
  · exact ⟨hmore, fun b hb => hinv.full hsc hempty hb⟩

/-- The first two items share a slab, and the third one takes the chunk of the first. -/
def reusedStates : List ItemState :=
  [(reusedItem.1, [⟨0, 40⟩, ⟨0, 88⟩]), (freedItem, [⟨0, 88⟩]), (twoItems.1, [⟨0, 88⟩, ⟨0, 40⟩]),
    (oneItem.1, [⟨0, 40⟩]), (slabAllocatorInit fun _ => .byte 0, [])]

theorem reusedStates_trace : ItemTrace (fun _ => .byte 0) reusedStates :=
  .step (.step (.step (.step .init (.alloc oneItem_run)) (.alloc twoItems_run))
    (.free (by decide) freedItem_run)) (.alloc reusedItem_run)

theorem slabs_bounded_by_peak_reused : ∃ sc, reusedItem.1.classes[0]? = some sc ∧
    sc.slabs.length = 1 ∧ peakLive 0 reusedStates = 2 ∧
    sc.slabs.length ≤ peakLive 0 reusedStates ⌈/⌉ capacity sc.dataChunkSize := by
  have hsc : reusedItem.1.classes[0]? = some {
      dataChunkSize := 48
      freeStack := [0]
      slabsCap := 8
      slabs := [0] } := by decide +kernel
  exact ⟨_, hsc, rfl, by decide +kernel, (slabs_bounded_by_peak reusedStates_trace).1 0 _ hsc⟩

end Kvx.SlabAlloc
