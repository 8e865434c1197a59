import Kvx.SlabBook

/-!
# The class of each slab

A slab belongs to one class for good. An allocation adds a slab to the class that it is
served from, if the stack of that class is empty, and no other call adds one.
-/
namespace Kvx.SlabAlloc

open Kvx.Lib

variable {alloc alloc' : SlabAllocator} {live : Multiset Ptr} {p : Ptr} {slab slab' : Slab}
  {sc : SlabClass} {block idx : ℕ} {r : Option Ptr}

def SlabAllocator.parents (alloc : SlabAllocator) : List ℕ :=
  alloc.slabs.map Slab.parentSlabClass

theorem parents_get (hs : alloc.slabs[block]? = some slab) :
    alloc.parents[block]? = some slab.parentSlabClass := by
  rw [SlabAllocator.parents, List.getElem?_map, hs]
  rfl

theorem parents_eq_some : alloc.parents[block]? = some idx ↔
    ∃ slab, alloc.slabs[block]? = some slab ∧ slab.parentSlabClass = idx := by
  rw [SlabAllocator.parents, List.getElem?_map, Option.map_eq_some_iff]

theorem store_slabs {cells : List Cell} (h : alloc.store p cells = some alloc') :
    alloc'.slabs = alloc.slabs ∧ alloc'.classes = alloc.classes := by
  unfold SlabAllocator.store at h
  split_ifs at h
  rw [← Option.some.inj h]
  exact ⟨rfl, rfl⟩

theorem takeChunk_parent (h : takeChunk alloc slab = some (p, slab')) :
    slab'.parentSlabClass = slab.parentSlabClass := by
  unfold takeChunk at h
  cases hfree : slab.freeList with
  | none =>
    simp only [hfree, Option.some.injEq, Prod.mk.injEq] at h
    rw [← h.2]
  | some item =>
    simp only [hfree, Option.bind_eq_bind, Option.bind_eq_some_iff, Option.some.injEq,
      Prod.mk.injEq] at h
    obtain ⟨link, -, -, rfl⟩ := h
    rfl

theorem parents_set (hs : alloc.slabs[block]? = some slab)
    (hparent : slab'.parentSlabClass = slab.parentSlabClass) :
    (alloc.slabs.set block slab').map Slab.parentSlabClass = alloc.parents :=
  map_set_of_eq hs hparent

theorem slabAllocItem_parents (h : slabAllocItem alloc block = some (alloc', r)) :
    alloc'.parents = alloc.parents ∧ alloc'.classes = alloc.classes := by
  unfold slabAllocItem at h
  simp only [Option.bind_eq_bind, Option.bind_eq_some_iff] at h
  obtain ⟨slab, hs, h⟩ := h
  split_ifs at h
  · obtain ⟨rfl, -⟩ := Prod.mk.inj (Option.some.inj h)
    exact ⟨rfl, rfl⟩
  · simp only [Option.bind_eq_some_iff] at h
    obtain ⟨⟨item, slab'⟩, htake, alloc₁, hstore₁, alloc₂, hstore₂, h⟩ := h
    obtain ⟨rfl, -⟩ := Prod.mk.inj (Option.some.inj h)
    obtain ⟨hslabs₁, hcls₁⟩ := store_slabs hstore₁
    obtain ⟨hslabs₂, hcls₂⟩ := store_slabs hstore₂
    refine ⟨?_, hcls₂.trans hcls₁⟩
    have hkept : slab'.parentSlabClass = slab.parentSlabClass := takeChunk_parent htake
    rw [SlabAllocator.parents, hslabs₂, hslabs₁]
    exact parents_set hs hkept

theorem slabClassGrow_parents (h : slabClassGrow alloc idx = some alloc') :
    alloc'.parents = alloc.parents ++ [idx] := by
  unfold slabClassGrow at h
  simp only [Option.bind_eq_bind, Option.bind_eq_some_iff] at h
  obtain ⟨sc, -, h⟩ := h
  split_ifs at h
  all_goals
    obtain ⟨sc', -, h⟩ := Option.bind_eq_some_iff.mp h
    rw [← Option.some.inj h]
    simp [SlabAllocator.parents, slabInit]

/-- An allocation adds a slab to its class if the stack of the class is empty. -/
theorem slabClassAllocItem_parents (hsc : alloc.classes[idx]? = some sc)
    (h : slabClassAllocItem alloc idx = some (alloc', r)) :
    alloc'.parents = if sc.freeStack = [] then alloc.parents ++ [idx] else alloc.parents := by
  unfold slabClassAllocItem at h
  simp only [hsc, Option.bind_eq_bind, Option.bind_some, Option.bind_eq_some_iff] at h
  obtain ⟨alloc₁, hgrow, sc₁, -, block, -, ⟨alloc₂, item⟩, hitem, slab, -, h⟩ := h
  have hparents : alloc'.parents = alloc₁.parents := by
    rw [← (slabAllocItem_parents hitem).1]
    split_ifs at h
    all_goals
      obtain ⟨rfl, -⟩ := Prod.mk.inj (Option.some.inj h)
      rfl
  rw [hparents]
  split_ifs at hgrow ⊢
  · exact slabClassGrow_parents hgrow
  · rw [← Option.some.inj hgrow]

theorem slabClassFreeItem_parents (h : slabClassFreeItem alloc idx block = some alloc') :
    alloc'.parents = alloc.parents := by
  unfold slabClassFreeItem at h
  simp only [Option.bind_eq_bind, Option.bind_eq_some_iff] at h
  obtain ⟨slab, -, h⟩ := h
  split_ifs at h
  · simp only [Option.bind_eq_some_iff] at h
    obtain ⟨sc, -, sc', -, h⟩ := h
    rw [← Option.some.inj h]
    rfl
  · rw [← Option.some.inj h]

theorem slabAllocatorFreeItem_parents (h : slabAllocatorFreeItem alloc p = some alloc') :
    alloc'.parents = alloc.parents := by
  unfold slabAllocatorFreeItem at h
  simp only [Option.bind_eq_bind, Option.bind_eq_some_iff] at h
  obtain ⟨link, -, slabPtr, -, h⟩ := h
  split_ifs at h
  simp only [Option.bind_eq_some_iff] at h
  obtain ⟨slab, hs, alloc₁, hstore, h⟩ := h
  have hslabs := (store_slabs hstore).1
  rw [slabClassFreeItem_parents h, SlabAllocator.parents, hslabs]
  exact parents_set hs rfl

theorem ClassesOk.size_get (h : ClassesOk alloc) (hsc : alloc.classes[idx]? = some sc) :
    chunkSizes[idx]? = some sc.dataChunkSize := by
  rw [← h.sizes, List.getElem?_map, hsc]
  rfl

theorem ClassesOk.class_get {size : ℕ} (h : ClassesOk alloc) (hsize : chunkSizes[idx]? = some size) :
    ∃ sc, alloc.classes[idx]? = some sc ∧ sc.dataChunkSize = size := by
  rwa [← h.sizes, List.getElem?_map, Option.map_eq_some_iff] at hsize

theorem length_positions {β : Type} [DecidableEq β] (l : List β) (a : β) :
    ((List.range l.length).filter fun i => l[i]? = some a).length = l.count a := by
  induction l using List.reverseRecOn with
  | nil => rfl
  | append_singleton l b ih =>
    have hold : ((List.range l.length).filter fun i => (l ++ [b])[i]? = some a) =
        (List.range l.length).filter fun i => l[i]? = some a := by
      refine List.filter_congr fun i hi => ?_
      rw [List.getElem?_append_left (List.mem_range.mp hi)]
    rw [List.length_append, List.length_singleton, List.range_succ, List.filter_append, hold,
      List.length_append, ih, List.count_append]
    by_cases hb : b = a
    · simp [hb]
    · simp [hb]

theorem ClassOk.slabs_length (h : ClassOk alloc.slabs idx sc) :
    sc.slabs.length = alloc.parents.count idx := by
  have hnd : ((List.range alloc.parents.length).filter
      fun i => alloc.parents[i]? = some idx).Nodup := List.nodup_range.filter _
  rw [← length_positions]
  refine ((List.perm_ext_iff_of_nodup h.slabs_nodup hnd).mpr fun b => ?_).length_eq
  rw [h.slabs_mem, ← parents_eq_some, List.mem_filter, List.mem_range, decide_eq_true_eq]
  constructor
  · intro hb
    exact ⟨(List.getElem?_eq_some_iff.mp hb).1, hb⟩
  · exact fun hb => hb.2

theorem FromTop.parent (htop : FromTop alloc idx sc alloc' p)
    (h : ClassOk alloc.slabs idx sc) (hparents : alloc'.parents =
      if sc.freeStack = [] then alloc.parents ++ [idx] else alloc.parents) :
    alloc'.parents[p.block]? = some idx := by
  obtain ⟨⟨rest, sc', slab', hread, -⟩, -⟩ := htop
  rw [hparents]
  unfold stackRead at hread
  split_ifs at hread ⊢ with hempty
  · obtain ⟨hblock, -⟩ := List.cons.inj hread
    rw [← hblock, List.getElem?_append_right (by simp [SlabAllocator.parents])]
    simp [SlabAllocator.parents]
  · obtain ⟨slab, hs, hp, -⟩ := (h.stack_mem p.block).mp (hread ▸ List.mem_cons_self)
    exact hp ▸ parents_get hs

end Kvx.SlabAlloc
