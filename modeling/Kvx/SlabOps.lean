import Kvx.Lib.LowerBound
import Kvx.SlabClasses

/-!
# Allocating and freeing items

Both keep the invariant of the allocator: an allocation of a possible size returns a
fresh chunk that is large enough, and a live item can always be freed.
-/
namespace Kvx.SlabAlloc

open Kvx.Lib

variable {alloc alloc' : SlabAllocator} {live : Multiset Ptr} {p : Ptr} {slab slab' : Slab}
  {sc : SlabClass} {block idx : ℕ}

theorem exists_set {slabs : List Slab} {b : ℕ} {P : Slab → Prop} (hb : b < slabs.length) (c : ℕ) :
    (∃ s, (slabs.set b slab')[c]? = some s ∧ P s) ↔
      c = b ∧ P slab' ∨ c ≠ b ∧ ∃ s, slabs[c]? = some s ∧ P s := by
  by_cases hc : c = b
  · subst hc
    simp [hb]
  · have hne : (slabs.set b slab')[c]? = slabs[c]? := List.getElem?_set_ne (Ne.symm hc)
    simp [hne, hc]

theorem ClassOk.update {slabs : List Slab} (h : ClassOk slabs idx sc)
    (hs : slabs[block]? = some slab) (hchunk : slab'.chunkSize = slab.chunkSize)
    (hparent : slab'.parentSlabClass = slab.parentSlabClass) {stack : List ℕ}
    (hnd : stack.Nodup)
    (hstack : ∀ b, b ∈ stack ↔ b = block ∧ slab.parentSlabClass = idx ∧ 0 < slab'.freeCount ∨
      b ≠ block ∧ b ∈ sc.freeStack) :
    ClassOk (slabs.set block slab') idx { sc with freeStack := stack } := by
  have hlt := (List.getElem?_eq_some_iff.mp hs).1
  exact {
    slabs_nodup := h.slabs_nodup
    slabs_mem := fun b => by
      rw [h.slabs_mem, exists_set hlt, hparent]
      constructor
      · rintro ⟨s, hbs, hp⟩
        by_cases hb : b = block
        · subst hb
          rw [hs, Option.some.injEq] at hbs
          exact Or.inl ⟨rfl, hbs ▸ hp⟩
        · exact Or.inr ⟨hb, s, hbs, hp⟩
      · rintro (⟨rfl, hp⟩ | ⟨-, hex⟩)
        · exact ⟨slab, hs, hp⟩
        · exact hex
    cap := h.cap
    cap_min := h.cap_min
    stack_nodup := hnd
    stack_mem := fun b => by rw [hstack, exists_set hlt, hparent, h.stack_mem]
    chunk := fun b s hbs hp => by
      rw [List.getElem?_set] at hbs
      split_ifs at hbs with hb
      · rw [← Option.some.inj hbs] at hp ⊢
        rw [hchunk]
        exact h.chunk block slab hs (hparent ▸ hp)
      · exact h.chunk b s hbs hp }

theorem ClassesOk.update (h : ClassesOk alloc) (hs : alloc.slabs[block]? = some slab)
    (slab' : Slab) (hchunk : slab'.chunkSize = slab.chunkSize)
    (hparent : slab'.parentSlabClass = slab.parentSlabClass)
    (hsc : alloc.classes[slab.parentSlabClass]? = some sc) (stack : List ℕ) (hnd : stack.Nodup)
    (hstack : ∀ b, b ∈ stack ↔ b = block ∧ 0 < slab'.freeCount ∨ b ≠ block ∧ b ∈ sc.freeStack)
    (mem : Ptr → Cell) :
    ClassesOk { alloc with
      slabs := alloc.slabs.set block slab'
      classes := alloc.classes.set slab.parentSlabClass { sc with freeStack := stack }
      mem := mem } := by
  refine ⟨fun c s hcs => ?_, fun b s hbs => ?_, ?_⟩
  · rw [List.getElem?_set] at hcs
    split_ifs at hcs with hc
    · subst hc
      rw [← Option.some.inj hcs]
      refine (h.cls _ sc hsc).update hs hchunk hparent hnd fun b => ?_
      rw [hstack b]
      simp
    · have hco := h.cls c s hcs
      refine hco.update hs hchunk hparent hco.stack_nodup fun b => ?_
      constructor
      · intro hb
        refine Or.inr ⟨?_, hb⟩
        rintro rfl
        obtain ⟨s', hs', hp, -⟩ := (hco.stack_mem b).mp hb
        rw [hs, Option.some.injEq] at hs'
        exact hc (hs' ▸ hp)
      · rintro (⟨-, hp, -⟩ | ⟨-, hb⟩)
        · exact absurd hp hc
        · exact hb
  · rw [List.length_set]
    rw [List.getElem?_set] at hbs
    split_ifs at hbs with hb
    · rw [← Option.some.inj hbs, hparent]
      exact h.parent block slab hs
    · exact h.parent b s hbs
  · rw [← h.sizes]
    exact map_set_of_eq hsc rfl

theorem set_self {β : Type} {l : List β} {i : ℕ} {a : β} (h : l[i]? = some a) : l.set i a = l := by
  obtain ⟨hlt, rfl⟩ := List.getElem?_eq_some_iff.mp h
  exact List.set_getElem_self hlt

theorem ClassesOk.top (h : ClassesOk alloc) (hsc : alloc.classes[idx]? = some sc)
    (hb : block ∈ sc.freeStack) : ∃ slab, alloc.slabs[block]? = some slab ∧
      slab.parentSlabClass = idx ∧ 0 < slab.freeCount ∧ slab.chunkSize = sc.dataChunkSize := by
  obtain ⟨slab, hs, hp, hc⟩ := ((h.cls idx sc hsc).stack_mem block).mp hb
  exact ⟨slab, hs, hp, hc, (h.cls idx sc hsc).chunk block slab hs hp⟩

def ChunksKept (alloc alloc' : SlabAllocator) : Prop :=
  ∀ (b : ℕ) (slab : Slab), alloc.slabs[b]? = some slab →
    ∃ slab', alloc'.slabs[b]? = some slab' ∧ slab'.chunkSize = slab.chunkSize

/-- What an allocation that returns `p` does. -/
structure Allocated (alloc : SlabAllocator) (live : Multiset Ptr) (alloc' : SlabAllocator)
    (p : Ptr) (size : ℕ) : Prop where
  inv : AllocInv alloc' (p ::ₘ live)
  fresh : p ∉ live
  large : ∃ slab, alloc'.slabs[p.block]? = some slab ∧ size ≤ slab.chunkSize
  kept : ChunksKept alloc alloc'
  mem : SameOutside p itemSize alloc.mem alloc'.mem

theorem chunksKept_set (h : alloc'.slabs = alloc.slabs.set block slab')
    (hs : alloc.slabs[block]? = some slab) (hchunk : slab'.chunkSize = slab.chunkSize) :
    ChunksKept alloc alloc' := by
  intro b s hbs
  rw [h]
  by_cases hb : b = block
  · subst hb
    rw [hs, Option.some.injEq] at hbs
    exact ⟨slab', List.getElem?_set_self (List.getElem?_eq_some_iff.mp hs).1, hbs ▸ hchunk⟩
  · exact ⟨s, by rw [List.getElem?_set_ne (Ne.symm hb), hbs], rfl⟩

theorem classAlloc_top {stack : List ℕ} (h : AllocInv alloc live)
    (hsc : alloc.classes[idx]? = some sc) (hstack : sc.freeStack = block :: stack) :
    ∃ alloc₁ slab' p, slabAllocItem alloc block = some (alloc₁, some p) ∧ p.block = block ∧
      alloc₁.slabs[block]? = some slab' ∧ alloc₁.classes = alloc.classes ∧
      (slab'.freeCount = 0 → Allocated alloc live { alloc₁ with
        classes := alloc₁.classes.set idx { sc with freeStack := stack } } p sc.dataChunkSize) ∧
      (slab'.freeCount ≠ 0 → Allocated alloc live alloc₁ p sc.dataChunkSize) := by
  obtain ⟨slab, hs, hparent, hcount, hsize⟩ :=
    h.classes.top hsc (by rw [hstack]; exact List.mem_cons_self)
  have hlt := (List.getElem?_eq_some_iff.mp hs).1
  obtain ⟨alloc₁, p, slab', hrun, hb, hfresh, hcls, hslabs, hchunk, hpar, hfc, hok, hmem⟩ :=
    slabAllocItem_spec h.slabs hs hcount
  have hs' : alloc₁.slabs[block]? = some slab' := by
    rw [hslabs]
    exact List.getElem?_set_self hlt
  have hnd := (h.classes.cls idx sc hsc).stack_nodup
  rw [hstack, List.nodup_cons] at hnd
  have hsc' : alloc.classes[slab.parentSlabClass]? = some sc := by rw [hparent]; exact hsc
  have hlarge : ∃ slab, alloc₁.slabs[p.block]? = some slab ∧
      sc.dataChunkSize ≤ slab.chunkSize :=
    ⟨slab', by rw [hb]; exact hs', by rw [hchunk, hsize]⟩
  have hkept : ChunksKept alloc alloc₁ := chunksKept_set hslabs hs hchunk
  refine ⟨alloc₁, slab', p, hrun, hb, hs', hcls, fun h0 => ?_, fun hne => ?_⟩
  · -- the last chunk of the slab: it leaves the stack
    have hupd := h.classes.update hs slab' hchunk hpar hsc' stack hnd.2 (fun b => by
      rw [hstack, List.mem_cons]
      constructor
      · intro hbm
        exact Or.inr ⟨fun he => hnd.1 (he ▸ hbm), Or.inr hbm⟩
      · rintro (⟨-, hpos⟩ | ⟨hne, rfl | hbm⟩)
        · omega
        · exact absurd rfl hne
        · exact hbm) alloc₁.mem
    rw [hparent, ← hslabs, ← hcls] at hupd
    exact ⟨⟨⟨hok.slab, hok.block, hok.header⟩, hupd⟩, hfresh, hlarge, hkept, hmem⟩
  · have hupd := h.classes.update hs slab' hchunk hpar hsc' sc.freeStack
      (h.classes.cls idx sc hsc).stack_nodup (fun b => by
        rw [hstack, List.mem_cons]
        constructor
        · rintro (rfl | hbm)
          · exact Or.inl ⟨rfl, by omega⟩
          · exact Or.inr ⟨fun he => hnd.1 (he ▸ hbm), Or.inr hbm⟩
        · rintro (⟨rfl, -⟩ | ⟨-, hbm⟩)
          · exact Or.inl rfl
          · exact hbm) alloc₁.mem
    rw [set_self hsc', ← hslabs, ← hcls] at hupd
    exact ⟨⟨hok, hupd⟩, hfresh, hlarge, hkept, hmem⟩

/-- The stack an allocation reads its slab from: a class without a free chunk grows first. -/
def stackRead (alloc : SlabAllocator) (sc : SlabClass) : List ℕ :=
  if sc.freeStack = [] then [alloc.slabs.length] else sc.freeStack

/-- What an allocation from a class that returns `p` does to the stacks: `p` lies in the slab at
the top, which leaves the stack with its last chunk. -/
structure FromTop (alloc : SlabAllocator) (idx : ℕ) (sc : SlabClass) (alloc' : SlabAllocator)
    (p : Ptr) : Prop where
  stack : ∃ rest sc' slab', stackRead alloc sc = p.block :: rest ∧
    alloc'.classes[idx]? = some sc' ∧ alloc'.slabs[p.block]? = some slab' ∧
    sc'.freeStack = if slab'.freeCount = 0 then rest else p.block :: rest
  others : ∀ j, j ≠ idx → alloc'.classes[j]? = alloc.classes[j]?

theorem grown_spec (h : AllocInv alloc live) (hsc : alloc.classes[idx]? = some sc) :
    ∃ alloc₁ sc₁ block stack,
      (if sc.freeStack = [] then slabClassGrow alloc idx else some alloc) = some alloc₁ ∧
      AllocInv alloc₁ live ∧ alloc₁.classes[idx]? = some sc₁ ∧
      sc₁.freeStack = block :: stack ∧ stackRead alloc sc = block :: stack ∧
      sc₁.dataChunkSize = sc.dataChunkSize ∧ alloc₁.mem = alloc.mem ∧ ChunksKept alloc alloc₁ ∧
      ∀ j, j ≠ idx → alloc₁.classes[j]? = alloc.classes[j]? := by
  cases hstack : sc.freeStack with
  | nil =>
    have hlt := (List.getElem?_eq_some_iff.mp hsc).1
    obtain ⟨sc', hrun, hst, hsz, hinv⟩ := slabClassGrow_spec h hsc hstack
    refine ⟨_, sc', _, [], by rw [if_pos rfl]; exact hrun, hinv,
      List.getElem?_set_self hlt, hst, if_pos hstack, hsz, rfl, ?_,
      fun j hj => List.getElem?_set_ne (Ne.symm hj)⟩
    intro b s hbs
    refine ⟨s, ?_, rfl⟩
    simp only
    rw [List.getElem?_append_left (List.getElem?_eq_some_iff.mp hbs).1, hbs]
  | cons block stack =>
    have hread : stackRead alloc sc = block :: stack := by
      rw [stackRead, hstack, if_neg (List.cons_ne_nil _ _)]
    exact ⟨alloc, sc, block, stack, by simp, h, hsc, hstack, hread, rfl, rfl,
      fun b s hbs => ⟨s, hbs, rfl⟩, fun _ _ => rfl⟩

theorem classAlloc_spec (h : AllocInv alloc live) (hsc : alloc.classes[idx]? = some sc) :
    ∃ alloc' p, slabClassAllocItem alloc idx = some (alloc', some p) ∧
      Allocated alloc live alloc' p sc.dataChunkSize ∧ FromTop alloc idx sc alloc' p := by
  obtain ⟨alloc₁, sc₁, block, stack, hgrow, hinv₁, hsc₁, hstack₁, hread, hsize₁, hmem₁, hkept₁,
    hothers⟩ := grown_spec h hsc
  have hlt := (List.getElem?_eq_some_iff.mp hsc₁).1
  obtain ⟨alloc₂, slab', p, hrun, hb, hs', hcls, hzero, hpos⟩ :=
    classAlloc_top hinv₁ hsc₁ hstack₁
  subst hb
  have htrans : ∀ {a : SlabAllocator}, Allocated alloc₁ live a p sc₁.dataChunkSize →
      Allocated alloc live a p sc.dataChunkSize := by
    intro a ha
    refine ⟨ha.inv, ha.fresh, by rw [← hsize₁]; exact ha.large, fun b s hbs => ?_, ?_⟩
    · obtain ⟨s₁, hs₁, he₁⟩ := hkept₁ b s hbs
      obtain ⟨s₂, hs₂, he₂⟩ := ha.kept b s₁ hs₁
      exact ⟨s₂, hs₂, he₂.trans he₁⟩
    · rw [← hmem₁]
      exact ha.mem
  by_cases h0 : slab'.freeCount = 0
  · refine ⟨_, p, ?_, htrans (hzero h0), ⟨stack, _, slab', hread,
      List.getElem?_set_self (by rw [hcls]; exact hlt), hs', (if_pos h0).symm⟩, fun j hj => ?_⟩
    · simp only [slabClassAllocItem, hsc, hgrow, hsc₁, hstack₁, List.head?_cons, hrun, hs', h0,
        Option.bind_eq_bind, Option.bind_some, ↓reduceIte, List.tail_cons]
    · rw [List.getElem?_set_ne (Ne.symm hj), hcls]
      exact hothers j hj
  · refine ⟨_, p, ?_, htrans (hpos h0), ⟨stack, sc₁, slab', hread, by rw [hcls]; exact hsc₁, hs',
      by rw [if_neg h0]; exact hstack₁⟩, fun j hj => ?_⟩
    · simp only [slabClassAllocItem, hsc, hgrow, hsc₁, hstack₁, List.head?_cons, hrun, hs', h0,
        Option.bind_eq_bind, Option.bind_some, ↓reduceIte]
    · rw [hcls]
      exact hothers j hj

def smallFor (size : ℕ) (sc : SlabClass) : Bool := sc.dataChunkSize < size

theorem smallFor_iff {size : ℕ} {sc : SlabClass} :
    smallFor size sc = true ↔ sc.dataChunkSize < size := decide_eq_true_iff

theorem findClassFrom_eq (classes : List SlabClass) (size : ℕ) {fuel left right : ℕ}
    (hfuel : right - left ≤ fuel) :
    findClassFrom classes size fuel left right =
      (bisect classes (smallFor size) left right).map Prod.snd := by
  induction fuel generalizing left right with
  | zero =>
    rw [bisect, if_neg (by omega)]
    rfl
  | succ fuel ih =>
    unfold findClassFrom
    by_cases hlt : left < right
    · rw [if_pos hlt]
      cases hmid : classes[left + (right - left) / 2]? with
      | none =>
        rw [bisect, if_pos hlt]
        simp only [hmid, Option.bind_eq_bind, Option.bind_none, Option.map_none]
      | some sc =>
        rw [bisect_step hlt hmid, Option.map_map]
        simp only [hmid, Option.bind_eq_bind, Option.bind_some]
        by_cases hsmall : sc.dataChunkSize < size
        · rw [if_pos hsmall, if_pos (smallFor_iff.mpr hsmall), ih (by omega)]
          rfl
        · rw [if_neg hsmall, if_neg (mt smallFor_iff.mp hsmall), ih (by omega)]
          rfl
    · rw [if_neg hlt, bisect, if_neg hlt]
      rfl

theorem ordered_of_sorted {classes : List SlabClass}
    (hsorted : (classes.map SlabClass.dataChunkSize).Pairwise (· < ·)) (size : ℕ) :
    Ordered classes (smallFor size) :=
  (List.pairwise_map.mp hsorted).imp fun hlt hsmall =>
    smallFor_iff.mpr (hlt.trans (smallFor_iff.mp hsmall))

/-- The search reads classes only, and ends behind those with chunks too small. -/
theorem findClass_bisect (hsorted : (alloc.classes.map SlabClass.dataChunkSize).Pairwise (· < ·))
    (size : ℕ) :
    ∃ probes idx, bisect alloc.classes (smallFor size) 0 alloc.classes.length =
        some (probes, idx) ∧ slabAllocatorFindClass alloc size = some idx ∧
      (∀ i ∈ probes, i < alloc.classes.length) ∧
      Separates alloc.classes (smallFor size) idx idx := by
  obtain ⟨probes, idx, hrun, hprobes, hidx⟩ :=
    bisect_spec (ordered_of_sorted hsorted size) (.whole alloc.classes (smallFor size))
  refine ⟨probes, idx, hrun, ?_, fun i hi => (hprobes i hi).2, hidx⟩
  rw [slabAllocatorFindClass, findClassFrom_eq _ _ (Nat.sub_zero _).le, hrun]
  rfl

/-- Every possible size has a class whose chunks are large enough, and is served from the first
such class. -/
theorem findClass_spec (h : ClassesOk alloc) {size : ℕ} (hsize : size ≤ maxDataChunkSize) :
    ∃ idx sc, slabAllocatorFindClass alloc size = some idx ∧ alloc.classes[idx]? = some sc ∧
      size ≤ sc.dataChunkSize ∧
      ∀ (i : ℕ) (sc' : SlabClass), i < idx → alloc.classes[i]? = some sc' →
        sc'.dataChunkSize < size := by
  have hsorted : (alloc.classes.map SlabClass.dataChunkSize).Pairwise (· < ·) := by
    rw [h.sizes]
    exact chunkSizes_sorted
  obtain ⟨-, idx, -, hrun, -, hidx⟩ := findClass_bisect hsorted size
  have hlast := chunkSizes_last
  rw [← h.sizes, List.getLast?_map, Option.map_eq_some_iff] at hlast
  obtain ⟨sc, hsc, hmax⟩ := hlast
  rw [List.getLast?_eq_getElem?] at hsc
  have hlt : idx < alloc.classes.length := by
    by_contra hge
    have hlen := (List.getElem?_eq_some_iff.mp hsc).1
    have hsmall := smallFor_iff.mp (hidx.below _ sc (by omega) hsc)
    omega
  have hget := List.getElem?_eq_getElem hlt
  exact ⟨idx, _, hrun, hget, not_lt.mp (of_decide_eq_false (hidx.above idx _ (le_refl idx) hget)),
    fun i sc' hi hsc' => smallFor_iff.mp (hidx.below i sc' hi hsc')⟩

theorem alloc_sizeT (h : AllocInv alloc live) {dataLen : ℕ} (hpos : 0 < dataLen)
    (hmax : Pages.sizeT (dataLen + itemSize) ≤ maxDataChunkSize) :
    ∃ alloc' p, slabAllocatorAllocItem alloc dataLen = some (alloc', some p) ∧
      Allocated alloc live alloc' p (Pages.sizeT (dataLen + itemSize)) := by
  obtain ⟨idx, sc, hfind, hsc, hle, -⟩ := findClass_spec h.classes hmax
  have hlt := (List.getElem?_eq_some_iff.mp hsc).1
  obtain ⟨alloc', p, hrun, ha, -⟩ := classAlloc_spec h hsc
  refine ⟨alloc', p, ?_, ha.inv, ha.fresh, ?_, ha.kept, ha.mem⟩
  · simp only [slabAllocatorAllocItem, hfind, Option.bind_eq_bind, Option.bind_some]
    rw [if_neg (by omega), if_neg (by omega), if_neg (by omega)]
    exact hrun
  · obtain ⟨slab, hs, hlarge⟩ := ha.large
    exact ⟨slab, hs, hle.trans hlarge⟩

theorem alloc_spec (h : AllocInv alloc live) {dataLen : ℕ} (hpos : 0 < dataLen)
    (hmax : dataLen + itemSize ≤ maxDataChunkSize) :
    ∃ alloc' p, slabAllocatorAllocItem alloc dataLen = some (alloc', some p) ∧
      Allocated alloc live alloc' p (dataLen + itemSize) := by
  have hsize : Pages.sizeT (dataLen + itemSize) = dataLen + itemSize := by
    simp only [maxDataChunkSize] at hmax
    exact Nat.mod_eq_of_lt (by omega)
  have ha := alloc_sizeT h hpos (by rw [hsize]; exact hmax)
  rwa [hsize] at ha

theorem alloc_refused_or (dataLen : ℕ) :
    (∀ alloc, slabAllocatorAllocItem alloc dataLen = some (alloc, none)) ∨
      (0 < dataLen ∧ Pages.sizeT (dataLen + itemSize) ≤ maxDataChunkSize) := by
  by_cases h0 : dataLen = 0
  · exact Or.inl fun alloc => by simp only [slabAllocatorAllocItem, if_pos h0]
  by_cases hbig : Pages.sizeT (dataLen + itemSize) > maxDataChunkSize
  · exact Or.inl fun alloc => by simp only [slabAllocatorAllocItem, if_neg h0, if_pos hbig]
  · exact Or.inr ⟨Nat.pos_of_ne_zero h0, not_lt.mp hbig⟩

theorem ClassOk.stack_room {slabs : List Slab} (h : ClassOk slabs idx sc)
    (hs : slabs[block]? = some slab) (hparent : slab.parentSlabClass = idx)
    (hout : block ∉ sc.freeStack) : sc.freeStack.length < sc.slabsCap := by
  have hnd : (block :: sc.freeStack).Nodup := List.nodup_cons.mpr ⟨hout, h.stack_nodup⟩
  refine Nat.lt_of_lt_of_le ?_ h.cap
  refine (List.subperm_of_subset hnd fun b hb => ?_).length_le
  rcases List.mem_cons.mp hb with rfl | hb
  · exact (h.slabs_mem b).mpr ⟨slab, hs, hparent⟩
  · obtain ⟨s, hs', hp, -⟩ := (h.stack_mem b).mp hb
    exact (h.slabs_mem b).mpr ⟨s, hs', hp⟩

theorem alloc_refused {dataLen : ℕ} (hmax : maxDataChunkSize < dataLen + itemSize)
    (hword : dataLen + itemSize < 2 ^ 64) :
    slabAllocatorAllocItem alloc dataLen = some (alloc, none) := by
  have hsize : Pages.sizeT (dataLen + itemSize) = dataLen + itemSize := Nat.mod_eq_of_lt hword
  simp only [slabAllocatorAllocItem, hsize]
  split_ifs <;> rfl

theorem free_spec (h : AllocInv alloc (p ::ₘ live)) :
    ∃ alloc', slabAllocatorFreeItem alloc p = some alloc' ∧ AllocInv alloc' live ∧
      ChunksKept alloc alloc' ∧ SameOutside p 8 alloc.mem alloc'.mem := by
  obtain ⟨slab, mem', hs, hrun, hok, hmem⟩ := freeItem_spec h.slabs
  have hlt := (List.getElem?_eq_some_iff.mp hs).1
  have hplt := h.classes.parent p.block slab hs
  have hsc := List.getElem?_eq_getElem hplt
  have hco := h.classes.cls _ _ hsc
  rw [hrun]
  unfold slabClassFreeItem
  simp only [List.getElem?_set_self hlt, hsc, Option.bind_eq_bind, Option.bind_some,
    Nat.add_eq_right]
  by_cases h0 : slab.freeCount = 0
  · -- a full slab: it goes back on the stack of its class
    have hout : p.block ∉ (alloc.classes[slab.parentSlabClass]).freeStack := by
      intro hm
      obtain ⟨s, hs', -, hc⟩ := (hco.stack_mem p.block).mp hm
      rw [hs, Option.some.injEq] at hs'
      subst hs'
      omega
    have hroom := hco.stack_room hs rfl hout
    have hupd := h.classes.update hs { slab with
        freeList := some p, freeCount := slab.freeCount + 1 } rfl rfl hsc
      (p.block :: (alloc.classes[slab.parentSlabClass]).freeStack)
      (List.nodup_cons.mpr ⟨hout, hco.stack_nodup⟩) (fun b => by
        rw [List.mem_cons]
        constructor
        · rintro (rfl | hb)
          · exact Or.inl ⟨rfl, Nat.succ_pos _⟩
          · exact Or.inr ⟨fun he => hout (he ▸ hb), hb⟩
        · rintro (⟨rfl, -⟩ | ⟨-, hb⟩)
          · exact Or.inl rfl
          · exact Or.inr hb) mem'
    rw [if_pos (by omega)]
    simp only [SlabClass.push, if_pos hroom, Option.bind_some]
    exact ⟨_, rfl, ⟨⟨hok.slab, hok.block, hok.header⟩, hupd⟩, chunksKept_set rfl hs rfl, hmem⟩
  · have hupd := h.classes.update hs { slab with
        freeList := some p, freeCount := slab.freeCount + 1 } rfl rfl hsc
      (alloc.classes[slab.parentSlabClass]).freeStack hco.stack_nodup (fun b => by
        constructor
        · intro hb
          by_cases hbp : b = p.block
          · exact Or.inl ⟨hbp, Nat.succ_pos _⟩
          · exact Or.inr ⟨hbp, hb⟩
        · rintro (⟨rfl, -⟩ | ⟨-, hb⟩)
          · exact (hco.stack_mem p.block).mpr ⟨slab, hs, rfl, by omega⟩
          · exact hb) mem'
    rw [set_self hsc] at hupd
    rw [if_neg (by omega)]
    exact ⟨_, rfl, ⟨hok, hupd⟩, chunksKept_set rfl hs rfl, hmem⟩

theorem init_inv (leftover : Ptr → Cell) : AllocInv (slabAllocatorInit leftover) 0 := by
  have hsizes : (slabAllocatorInit leftover).classes.map SlabClass.dataChunkSize = chunkSizes := by
    simp [slabAllocatorInit, slabClassInit, Function.comp_def]
  refine ⟨⟨by simp [slabAllocatorInit], by simp, by simp⟩, ⟨fun idx sc hsc => ?_,
    by simp [slabAllocatorInit], hsizes⟩⟩
  obtain ⟨size, -, rfl⟩ := List.mem_map.mp (List.mem_of_getElem? hsc)
  exact {
    slabs_nodup := List.nodup_nil
    slabs_mem := by simp [slabClassInit, slabAllocatorInit]
    cap := Nat.zero_le _
    cap_min := le_rfl
    stack_nodup := List.nodup_nil
    stack_mem := by simp [slabClassInit, slabAllocatorInit]
    chunk := by simp [slabAllocatorInit] }

end Kvx.SlabAlloc
