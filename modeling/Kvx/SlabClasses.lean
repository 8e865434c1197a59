import Kvx.SlabHeap

/-!
# Size classes

The stack of a class lists exactly its slabs with a chunk left, so an allocation finds
one at the top or grows the class, and a free never pushes a slab twice.
-/
namespace Kvx.SlabAlloc

open Kvx.Lib

variable {alloc : SlabAllocator} {live : Multiset Ptr} {p : Ptr} {slab : Slab} {sc : SlabClass}
  {block idx : ℕ}

structure ClassOk (slabs : List Slab) (idx : ℕ) (sc : SlabClass) : Prop where
  slabs_nodup : sc.slabs.Nodup
  slabs_mem : ∀ b, b ∈ sc.slabs ↔ ∃ slab, slabs[b]? = some slab ∧ slab.parentSlabClass = idx
  cap : sc.slabs.length ≤ sc.slabsCap
  cap_min : slabClassInitialCap ≤ sc.slabsCap
  stack_nodup : sc.freeStack.Nodup
  stack_mem : ∀ b, b ∈ sc.freeStack ↔
    ∃ slab, slabs[b]? = some slab ∧ slab.parentSlabClass = idx ∧ 0 < slab.freeCount
  chunk : ∀ (b : ℕ) (slab : Slab), slabs[b]? = some slab → slab.parentSlabClass = idx →
    slab.chunkSize = sc.dataChunkSize

structure ClassesOk (alloc : SlabAllocator) : Prop where
  cls : ∀ idx sc, alloc.classes[idx]? = some sc → ClassOk alloc.slabs idx sc
  parent : ∀ (b : ℕ) (slab : Slab), alloc.slabs[b]? = some slab →
    slab.parentSlabClass < alloc.classes.length
  sizes : alloc.classes.map SlabClass.dataChunkSize = chunkSizes

structure AllocInv (alloc : SlabAllocator) (live : Multiset Ptr) : Prop where
  slabs : SlabsOk alloc live
  classes : ClassesOk alloc

theorem chunkSizes_ok : ∀ s ∈ chunkSizes,
    minDataChunkSize ≤ s ∧ s ≤ maxDataChunkSize ∧ s % alignofItem = 0 := by decide +kernel

theorem chunkSizes_sorted : chunkSizes.Pairwise (· < ·) := by decide +kernel

theorem chunkSizes_last : chunkSizes.getLast? = some maxDataChunkSize := by decide +kernel

theorem ClassesOk.size_mem (h : ClassesOk alloc) (hsc : alloc.classes[idx]? = some sc) :
    sc.dataChunkSize ∈ chunkSizes := by
  rw [← h.sizes]
  exact List.mem_map.mpr ⟨sc, List.mem_of_getElem? hsc, rfl⟩

theorem alignUp_item {v : ℕ} (hv : v ≤ maxDataChunkSize) (h : v % alignofItem = 0) :
    alignUp v alignofItem = v := by
  have h3 : alignofItem = 2 ^ 3 := rfl
  simp only [maxDataChunkSize] at hv
  have hlt : Pages.sizeT (v + 2 ^ 3 - 1) < 2 ^ 64 := Nat.mod_lt _ (by decide)
  rw [h3] at h ⊢
  rw [alignUp, Pages.alignUp, Pages.and_high_bits hlt (by decide), Pages.sizeT,
    Nat.mod_eq_of_lt (by omega)]
  omega

theorem capacity_pos {chunkSize : ℕ} (hmin : minDataChunkSize ≤ chunkSize)
    (hmax : chunkSize ≤ maxDataChunkSize) : 0 < capacity chunkSize := by
  apply Nat.div_pos
  · simp only [slabSize, sizeofSlab, maxDataChunkSize] at *
    omega
  · exact Nat.lt_of_lt_of_le (by decide) hmin

theorem slabInit_ok {dataChunkSize : ℕ} (mem : Ptr → Cell) (block idx : ℕ)
    (h : dataChunkSize ∈ chunkSizes) :
    (slabInit block dataChunkSize idx).chunkSize = dataChunkSize ∧
      0 < (slabInit block dataChunkSize idx).freeCount ∧
      SlabOk mem block (slabInit block dataChunkSize idx) 0 [] 0 := by
  obtain ⟨hmin, hmax, halign⟩ := chunkSizes_ok _ h
  have hsize : (slabInit block dataChunkSize idx).chunkSize = dataChunkSize :=
    alignUp_item hmax halign
  have hcount : (slabInit block dataChunkSize idx).freeCount = capacity dataChunkSize :=
    congrArg capacity hsize
  refine ⟨hsize, ?_, ?_⟩
  · rw [hcount]
    exact capacity_pos hmin hmax
  · exact {
      chunk_min := by rw [hsize]; exact hmin
      chunk_max := by rw [hsize]; exact hmax
      chunk_align := by rw [hsize]; exact halign
      bump := by simp [slabInit, chunkAt]
      fits := Nat.zero_le _
      linked := .nil
      part := by simp
      count := by rw [hsize, hcount, Multiset.card_zero, Nat.add_zero] }

theorem slabs_concat {slabs : List Slab} {new slab : Slab} {b : ℕ} :
    (slabs ++ [new])[b]? = some slab ↔
      slabs[b]? = some slab ∨ b = slabs.length ∧ slab = new := by
  rw [List.getElem?_append, List.getElem?_singleton]
  split_ifs with hlt hzero
  · simp [hlt.ne]
  · have hb : b = slabs.length := by omega
    simp [hb, eq_comm]
  · have hb : b ≠ slabs.length := by omega
    simp [hb, List.getElem?_eq_none (Nat.not_lt.mp hlt)]

theorem exists_concat {slabs : List Slab} {new : Slab} {b : ℕ} {P : Slab → Prop} :
    (∃ slab, (slabs ++ [new])[b]? = some slab ∧ P slab) ↔
      (∃ slab, slabs[b]? = some slab ∧ P slab) ∨ b = slabs.length ∧ P new := by
  simp only [slabs_concat, or_and_right, exists_or, and_assoc, exists_and_left, exists_eq_left]

theorem map_set_of_eq {β γ : Type} {f : β → γ} {l : List β} {i : ℕ} {a b : β}
    (h : l[i]? = some a) (hf : f b = f a) : (l.set i b).map f = l.map f := by
  obtain ⟨hlt, rfl⟩ := List.getElem?_eq_some_iff.mp h
  have hlt' : i < (l.map f).length := by rwa [List.length_map]
  rw [List.map_set, hf, ← List.getElem_map (h := hlt'), List.set_getElem_self]

def SlabClass.roomy (sc : SlabClass) : SlabClass :=
  if sc.slabs.length = sc.slabsCap then slabClassGrowSlabs sc else sc

/-- The class with the new slab `block`, which is the only one with a chunk left. -/
def SlabClass.grown (sc : SlabClass) (block : ℕ) : SlabClass :=
  { sc.roomy with
    slabs := sc.slabs ++ [block]
    freeStack := [block] }

theorem ClassOk.roomy {slabs : List Slab} (h : ClassOk slabs idx sc) :
    sc.roomy.slabs = sc.slabs ∧ sc.roomy.freeStack = sc.freeStack ∧
      sc.roomy.dataChunkSize = sc.dataChunkSize ∧ sc.slabs.length < sc.roomy.slabsCap ∧
      slabClassInitialCap ≤ sc.roomy.slabsCap := by
  have hcap := h.cap
  have hmin := h.cap_min
  unfold SlabClass.roomy
  split_ifs with hfull
  · simp only [slabClassInitialCap] at hmin
    refine ⟨rfl, rfl, rfl, ?_, ?_⟩
    · simp only [slabClassGrowSlabs]
      omega
    · simp only [slabClassGrowSlabs, slabClassInitialCap]
      omega
  · exact ⟨rfl, rfl, rfl, by omega, hmin⟩

theorem SlabsOk.concat (h : SlabsOk alloc live) {new : Slab} (classes : List SlabClass)
    (hnew : SlabOk alloc.mem alloc.slabs.length new 0 [] 0) :
    SlabsOk { alloc with slabs := alloc.slabs ++ [new], classes := classes } live := by
  refine ⟨fun b s hbs => ?_, fun q hq => ?_, fun q hq s hqs => ?_⟩
  · rcases slabs_concat.mp hbs with hbs | ⟨rfl, rfl⟩
    · exact h.slab b s hbs
    · refine ⟨0, [], ?_⟩
      have hnone : liveAt live alloc.slabs.length = 0 := by
        apply Multiset.eq_zero_of_forall_notMem
        intro q hq
        obtain ⟨hql, hqb⟩ := mem_liveAt.mp hq
        have := h.block q hql
        omega
      rw [hnone]
      exact hnew
  · have := h.block q hq
    simp only [List.length_append, List.length_singleton]
    omega
  · rcases slabs_concat.mp hqs with hqs | ⟨hq0, -⟩
    · exact h.header q hq s hqs
    · have := h.block q hq
      omega

theorem ClassOk.grown {slabs : List Slab} (h : ClassOk slabs idx sc) (hempty : sc.freeStack = [])
    {new : Slab} (hparent : new.parentSlabClass = idx) (hchunk : new.chunkSize = sc.dataChunkSize)
    (hcount : 0 < new.freeCount) : ClassOk (slabs ++ [new]) idx (sc.grown slabs.length) := by
  obtain ⟨-, -, hsize, hroom, hmin⟩ := h.roomy
  have hnotin : slabs.length ∉ sc.slabs := by
    intro hm
    obtain ⟨s, hs, -⟩ := (h.slabs_mem _).mp hm
    have := (List.getElem?_eq_some_iff.mp hs).1
    omega
  exact {
    slabs_nodup := List.nodup_append.mpr ⟨h.slabs_nodup, by simp, by
      intro a ha b hb
      rw [List.mem_singleton] at hb
      rw [hb]
      exact fun he => hnotin (he ▸ ha)⟩
    slabs_mem := fun b => by
      simp only [SlabClass.grown]
      rw [List.mem_append, List.mem_singleton, h.slabs_mem, exists_concat, hparent]
      simp
    cap := by
      simp only [SlabClass.grown, List.length_append, List.length_singleton]
      omega
    cap_min := hmin
    stack_nodup := by simp [SlabClass.grown]
    stack_mem := fun b => by
      have hnone := h.stack_mem b
      rw [hempty] at hnone
      rw [exists_concat, ← hnone]
      simp only [SlabClass.grown, List.mem_singleton, List.not_mem_nil, false_or]
      constructor
      · rintro rfl
        exact ⟨rfl, hparent, hcount⟩
      · rintro ⟨rfl, -⟩
        rfl
    chunk := fun b s hbs hp => by
      rcases slabs_concat.mp hbs with hbs | ⟨rfl, rfl⟩
      · rw [h.chunk b s hbs hp]
        exact hsize.symm
      · rw [hchunk]
        exact hsize.symm }

theorem ClassOk.grown_other {slabs : List Slab} (h : ClassOk slabs idx sc) {new : Slab}
    (hparent : new.parentSlabClass ≠ idx) : ClassOk (slabs ++ [new]) idx sc :=
  { h with
    slabs_mem := fun b => by
      rw [h.slabs_mem, exists_concat, or_iff_left]
      exact fun hb => hparent hb.2
    stack_mem := fun b => by
      rw [h.stack_mem, exists_concat, or_iff_left]
      exact fun hb => hparent hb.2.1
    chunk := fun b s hbs hp => by
      rcases slabs_concat.mp hbs with hbs | ⟨rfl, rfl⟩
      · exact h.chunk b s hbs hp
      · exact absurd hp hparent }

theorem slabClassGrow_eq (h : AllocInv alloc live) (hsc : alloc.classes[idx]? = some sc)
    (hempty : sc.freeStack = []) :
    slabClassGrow alloc idx = some { alloc with
      slabs := alloc.slabs ++ [slabInit alloc.slabs.length sc.dataChunkSize idx]
      classes := alloc.classes.set idx (sc.grown alloc.slabs.length) } := by
  obtain ⟨hslabs, hstack, hsize, hroom, hmin⟩ := (h.classes.cls idx sc hsc).roomy
  have hpush : SlabClass.push { sc.roomy with slabs := sc.roomy.slabs ++ [alloc.slabs.length] }
      alloc.slabs.length = some (sc.grown alloc.slabs.length) := by
    simp only [SlabClass.push, SlabClass.grown, hstack, hempty, hslabs, List.length_nil]
    rw [if_pos (by omega)]
  have hroom' : sc.roomy.slabs.length < sc.roomy.slabsCap := by rwa [hslabs]
  rw [← hsize]
  simp only [slabClassGrow, hsc, Option.bind_eq_bind, Option.bind_some]
  change (if sc.roomy.slabs.length < sc.roomy.slabsCap then _ else none) = _
  rw [if_pos hroom']
  exact congrArg (Option.bind · _) hpush

theorem slabClassGrow_spec (h : AllocInv alloc live) (hsc : alloc.classes[idx]? = some sc)
    (hempty : sc.freeStack = []) :
    ∃ sc', slabClassGrow alloc idx = some { alloc with
        slabs := alloc.slabs ++ [slabInit alloc.slabs.length sc.dataChunkSize idx]
        classes := alloc.classes.set idx sc' } ∧
      sc'.freeStack = [alloc.slabs.length] ∧ sc'.dataChunkSize = sc.dataChunkSize ∧
      AllocInv { alloc with
        slabs := alloc.slabs ++ [slabInit alloc.slabs.length sc.dataChunkSize idx]
        classes := alloc.classes.set idx sc' } live := by
  have hc := h.classes.cls idx sc hsc
  have hlt := (List.getElem?_eq_some_iff.mp hsc).1
  have hsize : (sc.grown alloc.slabs.length).dataChunkSize = sc.dataChunkSize := hc.roomy.2.2.1
  obtain ⟨hchunk, hcount, hnew⟩ :=
    slabInit_ok alloc.mem alloc.slabs.length idx (h.classes.size_mem hsc)
  refine ⟨_, slabClassGrow_eq h hsc hempty, rfl, hsize, h.slabs.concat _ hnew, ?_⟩
  refine ⟨fun c s hcs => ?_, fun b s hbs => ?_, ?_⟩
  · rw [List.getElem?_set] at hcs
    split_ifs at hcs with hci
    · rw [← hci, ← Option.some.inj hcs]
      exact hc.grown hempty rfl hchunk hcount
    · exact (h.classes.cls c s hcs).grown_other hci
  · simp only [List.length_set]
    rcases slabs_concat.mp hbs with hbs | ⟨-, rfl⟩
    · exact h.classes.parent b s hbs
    · exact hlt
  · rw [← h.classes.sizes]
    exact map_set_of_eq hsc hsize

end Kvx.SlabAlloc
