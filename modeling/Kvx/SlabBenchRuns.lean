import Kvx.SlabBench
import Kvx.SlabPeak

/-!
# The patterns give back what they take

A pattern finds an item for every size, frees every item once and only live ones. So it can be run
any number of times, and needs no more slabs than the items that are live at one time fill.
-/
namespace Kvx.SlabBench

open Kvx.Lib Kvx.SlabAlloc Kvx.Item

variable {leftover : Ptr → Cell} {peak : ℕ} {alloc : SlabAllocator} {live rest : List Ptr} {p : Ptr}

/-- A run from `slab_allocator_init` leads here, and no more than `peak` items were live at one time
in it. -/
def Within (leftover : Ptr → Cell) (peak : ℕ) (alloc : SlabAllocator) (live : List Ptr) : Prop :=
  ∃ order past, ItemTrace leftover ((alloc, order) :: past) ∧ order.Perm live ∧
    ∀ s ∈ (alloc, order) :: past, s.2.length ≤ peak

theorem Within.init (leftover : Ptr → Cell) (peak : ℕ) :
    Within leftover peak (slabAllocatorInit leftover) [] :=
  ⟨[], [], .init, .nil, by simp⟩

theorem Within.perm {live' : List Ptr} (h : Within leftover peak alloc live)
    (hperm : live.Perm live') : Within leftover peak alloc live' := by
  obtain ⟨order, past, htrace, horder, hpeak⟩ := h
  exact ⟨order, past, htrace, horder.trans hperm, hpeak⟩

theorem Within.inv (h : Within leftover peak alloc live) : AllocInv alloc live := by
  obtain ⟨order, past, htrace, horder, -⟩ := h
  rw [← Multiset.coe_eq_coe.mpr horder]
  exact htrace.run.inv

theorem Within.nodup (h : Within leftover peak alloc live) : live.Nodup :=
  Multiset.coe_nodup.mp h.inv.slabs.live_nodup

theorem Within.allocItem {dataLen : ℕ} (h : Within leftover peak alloc live)
    (hroom : live.length < peak) (hpos : 1 ≤ dataLen) (hmax : dataLen ≤ 2 ^ 19 - 24) :
    ∃ alloc' p, slabAllocatorAllocItem alloc dataLen = some (alloc', some p) ∧
      Within leftover peak alloc' (p :: live) ∧
      Allocated alloc live alloc' p (dataLen + itemSize) := by
  obtain ⟨alloc', p, hrun, hallocated⟩ := alloc_spec h.inv hpos
    (by simp only [itemSize, maxDataChunkSize]; omega)
  obtain ⟨order, past, htrace, horder, hpeak⟩ := h
  refine ⟨alloc', p, hrun, ⟨_, _, .step htrace (.alloc hrun), horder.cons p, ?_⟩, hallocated⟩
  refine List.forall_mem_cons.mpr ⟨?_, hpeak⟩
  rw [← horder.length_eq] at hroom
  exact hroom

theorem Within.freeItem (h : Within leftover peak alloc (p :: live)) :
    ∃ alloc', slabAllocatorFreeItem alloc p = some alloc' ∧ Within leftover peak alloc' live := by
  obtain ⟨order, past, htrace, horder, hpeak⟩ := h
  have hp : p ∈ order := horder.mem_iff.mpr List.mem_cons_self
  obtain ⟨alloc', hrun, -⟩ := htrace.run.inv.freeItem hp
  refine ⟨alloc', hrun, _, _, .step htrace (.free hp hrun), ?_, ?_⟩
  · have herase := horder.erase p
    rwa [List.erase_cons_head] at herase
  · refine List.forall_mem_cons.mpr ⟨?_, hpeak⟩
    exact (List.length_erase_le).trans (hpeak _ List.mem_cons_self)

theorem Within.write {slab : Slab} {off : ℕ} {cells : List Cell}
    (h : Within leftover peak alloc live) (hp : p ∈ live) (hs : alloc.slabs[p.block]? = some slab)
    (hlo : 8 ≤ off) (hmid : off + cells.length ≤ offDataSize ∨ offDataSize + 4 ≤ off)
    (hhi : off + cells.length ≤ slab.chunkSize) :
    alloc.store (p.add off) cells =
        some { alloc with mem := writeCells alloc.mem (p.add off) cells } ∧
      Within leftover peak { alloc with mem := writeCells alloc.mem (p.add off) cells } live := by
  obtain ⟨order, past, htrace, horder, hpeak⟩ := h
  have hp' := horder.mem_iff.mpr hp
  obtain ⟨hrun, -⟩ := store_spec htrace.run.inv (Multiset.mem_coe.mpr hp') hs cells hlo hmid hhi
  refine ⟨hrun, _, _, .step htrace (.write hp' hs hlo hmid hhi hrun), horder, ?_⟩
  have hlen : order.length ≤ peak := hpeak (alloc, order) List.mem_cons_self
  exact List.forall_mem_cons.mpr ⟨hlen, hpeak⟩

/-- Every chunk is free, and no class has more slabs than `peak` items fill. -/
structure Quiet (peak : ℕ) (alloc : SlabAllocator) : Prop where
  idle : ∀ (block : ℕ) (slab : Slab), alloc.slabs[block]? = some slab →
    slab.freeCount = capacity slab.chunkSize
  slabs_le : ∀ (idx : ℕ) (sc : SlabClass), alloc.classes[idx]? = some sc →
    sc.slabs.length ≤ peak ⌈/⌉ capacity sc.dataChunkSize

theorem peakLive_le {states : List ItemState} (idx : ℕ) (h : ∀ s ∈ states, s.2.length ≤ peak) :
    peakLive idx states ≤ peak := by
  induction states with
  | nil => exact Nat.zero_le peak
  | cons s states ih =>
    obtain ⟨hs, hrest⟩ := List.forall_mem_cons.mp h
    rw [peakLive_cons]
    exact max_le (List.countP_le_length.trans hs) (ih hrest)

theorem Within.quiet (h : Within leftover peak alloc []) : Quiet peak alloc := by
  refine ⟨fun block slab hs => ?_, fun idx sc hsc => ?_⟩
  · have hbooks : SlabBooks slab block [] := h.inv.slabBooks hs
    exact hbooks.count
  · have hcap := h.inv.capacity_pos hsc
    obtain ⟨order, past, htrace, -, hpeak⟩ := h
    exact (htrace.slabs_le hsc).trans
      ((gc_mul_ceilDiv hcap).monotone_l (peakLive_le idx hpeak))

theorem itemLookup_spec (h : AllocInv alloc live) (hp : p ∈ (live : Multiset Ptr)) :
    ∃ cells, itemLookup alloc p = some cells := by
  obtain ⟨slab, hs, hle, hlo, hhi, -⟩ := h.header hp
  have hblock := (List.getElem?_eq_some_iff.mp hs).1
  have hload {off n : ℕ} (hoff : off + n ≤ itemSize) :
      alloc.load (p.add off) n = some (readCells alloc.mem (p.add off) n) := by
    refine if_pos ⟨hblock, hlo.trans (Nat.le_add_right _ _), ?_⟩
    simp only [Ptr.add_off]
    omega
  exact ⟨_, by rw [itemLookup, hload (by decide), hload (by decide), hload (by decide)]; rfl⟩

theorem beFreeAfterLookup_spec (touch : Bool) (h : Within leftover peak alloc (p :: live)) :
    ∃ alloc', beFreeAfterLookup touch alloc (some p) = some alloc' ∧
      Within leftover peak alloc' live := by
  obtain ⟨alloc', hrun, hwithin⟩ := h.freeItem
  refine ⟨alloc', ?_, hwithin⟩
  cases touch with
  | false => exact hrun
  | true =>
    obtain ⟨cells, hcells⟩ := itemLookup_spec h.inv (Multiset.mem_coe.mpr List.mem_cons_self)
    simp only [beFreeAfterLookup, hcells, beFree, Option.bind_eq_bind, Option.bind_some, if_true]
    exact hrun

theorem freeAll_spec (touch : Bool) {items : List Ptr}
    (h : Within leftover peak alloc (items ++ rest)) :
    ∃ alloc', (items.map some).foldlM (beFreeAfterLookup touch) alloc = some alloc' ∧
      Within leftover peak alloc' rest := by
  induction items generalizing alloc with
  | nil => exact ⟨alloc, rfl, h⟩
  | cons p items ih =>
    obtain ⟨alloc₁, hfree, hwithin⟩ := beFreeAfterLookup_spec touch h
    obtain ⟨alloc₂, hrest, hwithin'⟩ := ih hwithin
    refine ⟨alloc₂, ?_, hwithin'⟩
    rw [List.map_cons, List.foldlM_cons, hfree]
    exact hrest

/-- The sizes that the first `n` items are allocated for. -/
structure Served (sizes : List ℕ) (n : ℕ) : Prop where
  enough : n ≤ sizes.length
  fits : ∀ size ∈ sizes, 1 ≤ size ∧ size ≤ 2 ^ 19 - 24

section Loops

variable {sizes : List ℕ} {n : ℕ}

theorem Served.get (h : Served sizes n) {i : ℕ} (hi : i < n) :
    ∃ size, sizes[i]? = some size ∧ 1 ≤ size ∧ size ≤ 2 ^ 19 - 24 :=
  ⟨_, List.getElem?_eq_getElem (hi.trans_le h.enough), h.fits _ (List.getElem_mem _)⟩

/-- The slots after `i` rounds that fill them. -/
def Filled (leftover : Ptr → Cell) (peak : ℕ) (rest : List Ptr) (i : ℕ)
    (s : SlabAllocator × Slots) : Prop :=
  ∃ items, s.2 = items.map some ∧ items.length = i ∧ Within leftover peak s.1 (items ++ rest)

theorem perm_concat_append (items rest : List Ptr) (p : Ptr) :
    (p :: (items ++ rest)).Perm (items ++ [p] ++ rest) := by
  rw [List.append_assoc]
  exact List.perm_middle.symm

theorem allocSlots_spec (h : Within leftover peak alloc rest) (hroom : n + rest.length ≤ peak)
    (hsizes : Served sizes n) :
    ∃ s, allocSlots sizes n alloc = some s ∧ Filled leftover peak rest n s := by
  refine countTo_inv ⟨[], rfl, rfl, h⟩ fun i hi s hs => ?_
  obtain ⟨alloc, slots⟩ := s
  obtain ⟨items, rfl, hlen, hwithin⟩ := hs
  obtain ⟨size, hsize, hpos, hmax⟩ := hsizes.get hi
  obtain ⟨alloc', p, hrun, hwithin', -⟩ := hwithin.allocItem
    (by rw [List.length_append]; omega) hpos hmax
  refine ⟨(alloc', items.map some ++ [some p]), ?_, items ++ [p], ?_, ?_, ?_⟩
  · simp only [allocSlot, beAlloc, hsize, hrun, Option.bind_eq_bind, Option.bind_some]
  · rw [List.map_append, List.map_singleton]
  · rw [List.length_append, List.length_singleton, hlen]
  · exact hwithin'.perm (perm_concat_append items rest p)

theorem touchSlots_spec (h : Within leftover peak alloc rest) (hroom : n + rest.length ≤ peak)
    (hsizes : Served sizes n) :
    ∃ s, countTo n (touchSlot sizes) (alloc, []) = some s ∧ Filled leftover peak rest n s := by
  refine countTo_inv ⟨[], rfl, rfl, h⟩ fun i hi s hs => ?_
  obtain ⟨alloc, slots⟩ := s
  obtain ⟨items, rfl, hlen, hwithin⟩ := hs
  obtain ⟨size, hsize, hpos, hmax⟩ := hsizes.get hi
  obtain ⟨alloc', p, hrun, hwithin', hallocated⟩ := hwithin.allocItem
    (by rw [List.length_append]; omega) hpos hmax
  obtain ⟨slab, hslab, hlarge⟩ := hallocated.large
  -- The first byte and the last one; for a size of 1 they are the same byte.
  have htouch {alloc : SlabAllocator} (off : ℕ)
      (h : Within leftover peak alloc (p :: (items ++ rest)))
      (hs : alloc.slabs[p.block]? = some slab) (hlo : itemSize ≤ off)
      (hhi : off < itemSize + size) :
      alloc.store (p.add off) (byteCells [UInt8.ofNat i]) =
          some { alloc with mem := writeCells alloc.mem (p.add off) (byteCells [UInt8.ofNat i]) } ∧
        Within leftover peak
          { alloc with mem := writeCells alloc.mem (p.add off) (byteCells [UInt8.ofNat i]) }
          (p :: (items ++ rest)) := by
    simp only [itemSize] at hlo hhi hlarge
    refine h.write List.mem_cons_self hs (by omega) (Or.inr ?_) ?_
    · simp only [offDataSize]
      omega
    · rw [length_byteCells, List.length_singleton]
      omega
  obtain ⟨hfirst, hwithin₁⟩ := htouch itemSize hwithin' hslab le_rfl (by omega)
  obtain ⟨hlast, hwithin₂⟩ := htouch (itemSize + (size - 1)) hwithin₁ hslab (by omega) (by omega)
  refine ⟨(_, items.map some ++ [some p]), ?_, items ++ [p], ?_, ?_,
    hwithin₂.perm (perm_concat_append items rest p)⟩
  · simp only [touchSlot, beAlloc, hsize, hrun, hfirst, hlast, Option.bind_eq_bind,
      Option.bind_some]
  · rw [List.map_append, List.map_singleton]
  · rw [List.length_append, List.length_singleton, hlen]

theorem replaceSlots_spec (touch : Bool) (seed : BitVec 64) {ops : ℕ}
    (h : Within leftover peak alloc rest) (hpos : 0 < n) (hroom : n + rest.length ≤ peak)
    (hsizes : Served sizes (n + ops)) :
    ∃ alloc', replaceSlots touch sizes n seed ops alloc = some alloc' ∧
      Within leftover peak alloc' rest := by
  have hserved : Served sizes n := ⟨(Nat.le_add_right n ops).trans hsizes.enough, hsizes.fits⟩
  obtain ⟨⟨alloc₁, slots₁⟩, halloc, hfilled⟩ := allocSlots_spec h hroom hserved
  have hloop : ∃ s, countTo ops (replaceSlot touch sizes n) (alloc₁, slots₁, rngSeed seed) =
      some s ∧ Filled leftover peak rest n (s.1, s.2.1) := by
    refine countTo_inv (P := fun _ (s : SlabAllocator × Slots × BitVec 64) =>
      Filled leftover peak rest n (s.1, s.2.1)) hfilled
      fun k hk s hs => ?_
    obtain ⟨alloc, slots, rng⟩ := s
    obtain ⟨items, rfl, hlen, hwithin⟩ := hs
    obtain ⟨slot, hslot⟩ : ∃ slot, (rngNext rng).toNat % n = slot := ⟨_, rfl⟩
    have hlt : slot < items.length := hlen ▸ hslot ▸ Nat.mod_lt _ hpos
    obtain ⟨size, hsize, hone, hmax⟩ := hsizes.get (Nat.add_lt_add_left hk n)
    have htaken : (items ++ rest).Perm (items[slot] :: (items.eraseIdx slot ++ rest)) :=
      (List.getElem_cons_eraseIdx_perm hlt).symm.append_right rest
    obtain ⟨alloc', hfree, hwithin'⟩ := beFreeAfterLookup_spec touch (hwithin.perm htaken)
    obtain ⟨alloc'', p, hrun, hwithin'', -⟩ := hwithin'.allocItem
      (by rw [List.length_append, List.length_eraseIdx_of_lt hlt]; omega) hone hmax
    refine ⟨(alloc'', (items.map some).set slot (some p), rngNext rng), ?_, items.set slot p,
      List.map_set.symm, List.length_set.trans hlen, ?_⟩
    · have hget : (items.map some)[slot]? = some (some items[slot]) := by
        rw [List.getElem?_map, List.getElem?_eq_getElem hlt, Option.map_some]
      simp only [replaceSlot, beAlloc, hslot, hget, hfree, hsize, hrun, Option.bind_eq_bind,
        Option.bind_some]
    · exact hwithin''.perm ((List.set_perm_cons_eraseIdx hlt p).symm.append_right rest)
  obtain ⟨⟨alloc₂, slots₂, rng⟩, hrun, items, rfl, -, hwithin⟩ := hloop
  obtain ⟨alloc₃, hfree, hwithin'⟩ := freeAll_spec false hwithin
  refine ⟨alloc₃, ?_, hwithin'⟩
  simp only [replaceSlots, halloc, hrun, Option.bind_eq_bind, Option.bind_some]
  exact hfree

end Loops

/-- A pattern ends, and leaves the live items as they were. -/
def Restores (leftover : Ptr → Cell) (peak : ℕ) (rest : List Ptr)
    (f : SlabAllocator → Option SlabAllocator) : Prop :=
  ∀ alloc, Within leftover peak alloc rest →
    ∃ alloc', f alloc = some alloc' ∧ Within leftover peak alloc' rest

section Patterns

variable {sizes : List ℕ} {n : ℕ} {f : SlabAllocator → Option SlabAllocator}

theorem Restores.repeated (h : Restores leftover peak rest f) (rounds : ℕ) :
    Restores leftover peak rest (countTo rounds fun _ => f) :=
  fun _ hwithin => countTo_inv hwithin fun _ _ alloc halloc => h alloc halloc

variable (hroom : n + rest.length ≤ peak) (hsizes : Served sizes n)

include hroom hsizes

theorem benchLifo_restores : Restores leftover peak rest (benchLifo sizes n) := by
  intro alloc h
  obtain ⟨⟨alloc₁, slots⟩, hrun, items, rfl, -, hwithin⟩ := allocSlots_spec h hroom hsizes
  obtain ⟨alloc₂, hfree, hwithin'⟩ :=
    freeAll_spec false (hwithin.perm ((List.reverse_perm items).symm.append_right rest))
  refine ⟨alloc₂, ?_, hwithin'⟩
  simp only [benchLifo, hrun, Option.bind_eq_bind, Option.bind_some, ← List.map_reverse]
  exact hfree

theorem benchFifo_restores : Restores leftover peak rest (benchFifo sizes n) := by
  intro alloc h
  obtain ⟨⟨alloc₁, slots⟩, hrun, items, rfl, -, hwithin⟩ := allocSlots_spec h hroom hsizes
  obtain ⟨alloc₂, hfree, hwithin'⟩ := freeAll_spec false hwithin
  refine ⟨alloc₂, ?_, hwithin'⟩
  simp only [benchFifo, hrun, Option.bind_eq_bind, Option.bind_some]
  exact hfree

theorem benchTouch_restores (touch : Bool) :
    Restores leftover peak rest (benchTouch touch sizes n) := by
  intro alloc h
  obtain ⟨⟨alloc₁, slots⟩, hrun, items, rfl, -, hwithin⟩ := touchSlots_spec h hroom hsizes
  obtain ⟨alloc₂, hfree, hwithin'⟩ :=
    freeAll_spec touch (hwithin.perm ((List.reverse_perm items).symm.append_right rest))
  refine ⟨alloc₂, ?_, hwithin'⟩
  simp only [benchTouch, hrun, Option.bind_eq_bind, Option.bind_some, ← List.map_reverse]
  exact hfree

omit hsizes in
theorem replaceSlots_restores (touch : Bool) (seed : BitVec 64) {ops : ℕ} (hpos : 0 < n)
    (hsizes : Served sizes (n + ops)) :
    Restores leftover peak rest (replaceSlots touch sizes n seed ops) :=
  fun _ h => replaceSlots_spec touch seed h hpos hroom hsizes

end Patterns

theorem sampleSize_range (s : BitVec 64) : 48 ≤ (sampleSize s).2 ∧ (sampleSize s).2 < 2 ^ 16 := by
  simp only [sampleSize]
  split_ifs <;> omega

theorem drawSizes_length (mixed : Bool) (n : ℕ) (s : BitVec 64) :
    (drawSizes mixed n s).length = n := by
  induction n generalizing s with
  | zero => rfl
  | succ n ih =>
    rw [drawSizes]
    split_ifs <;> exact congrArg Nat.succ (ih _)

theorem drawSizes_range (mixed : Bool) (n : ℕ) (s : BitVec 64) :
    ∀ size ∈ drawSizes mixed n s, 48 ≤ size ∧ size < 2 ^ 16 := by
  induction n generalizing s with
  | zero => simp [drawSizes]
  | succ n ih =>
    rw [drawSizes]
    split_ifs
    · exact List.forall_mem_cons.mpr ⟨sampleSize_range s, ih _⟩
    · exact List.forall_mem_cons.mpr ⟨by decide, ih _⟩

theorem sizesBuildN_served (mixed : Bool) (live ops : ℕ) :
    Served (sizesBuildN mixed live ops) (live + ops) where
  enough := by
    rw [sizesBuildN, drawSizes_length]
    omega
  fits size hsize := by
    have hrange := drawSizes_range mixed _ _ size hsize
    omega

theorem Served.mono {sizes : List ℕ} {n m : ℕ} (h : Served sizes n) (hle : m ≤ n) :
    Served sizes m :=
  ⟨hle.trans h.enough, h.fits⟩

theorem pattern_restores (touch mixed : Bool) {n : ℕ} (ops : ℕ) (hpos : 0 < n)
    (pat : Pattern) :
    Restores leftover n [] (pat.run touch (sizesBuildN mixed n ops) n ops) := by
  have hserved := sizesBuildN_served mixed n ops
  cases pat with
  | lifo => exact benchLifo_restores le_rfl (hserved.mono (Nat.le_add_right n ops))
  | fifo => exact benchFifo_restores le_rfl (hserved.mono (Nat.le_add_right n ops))
  | touch => exact benchTouch_restores le_rfl (hserved.mono (Nat.le_add_right n ops)) touch
  | churn =>
    exact replaceSlots_restores le_rfl touch _ hpos
      (hserved.mono (Nat.add_le_add_left (Nat.div_le_self ops 8) n))

/-- However often a pattern is run, it finds an item for every size, frees only live items and each
once, and the classes have no more slabs at the end than the slots fill. -/
theorem runSingle_bounded (leftover : Ptr → Cell) (touch mixed : Bool) (ops rounds : ℕ)
    (pat : Pattern) {slots : ℕ} (hpos : 0 < slots) :
    ∃ alloc, runSingle touch mixed slots ops pat rounds leftover = some alloc ∧
      Quiet slots alloc := by
  obtain ⟨alloc, hrun, hwithin⟩ :=
    (pattern_restores touch mixed ops hpos pat).repeated rounds _ (.init leftover slots)
  exact ⟨alloc, hrun, hwithin.quiet⟩

theorem runSingle_bounded_churn : ∃ alloc,
    runSingle true true 100000 2000000 .churn 3 (fun _ => .byte 0) = some alloc ∧
      Quiet 100000 alloc :=
  runSingle_bounded _ true true 2000000 3 .churn (by decide)

end Kvx.SlabBench
