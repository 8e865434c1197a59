import Kvx.SlabBenchRuns
import Kvx.SlabWaste

/-!
# The integrity check passes

What an owner stored in its item is there until the owner writes it again or the item is freed:
chunks of other items are disjoint, and the allocator writes into the header of a new item only. So
the check of the benchmark passes for every number of items.
-/
namespace Kvx.SlabBench

open Kvx.Lib Kvx.SlabAlloc Kvx.Item

variable {leftover : Ptr → Cell} {peak : ℕ} {alloc alloc' : SlabAllocator} {live rest : List Ptr}
  {p : Ptr}

structure Field where
  item : Ptr
  off : ℕ
  cells : List Cell

/-- An owner leaves `slab_ptr` and `data_size` alone. -/
structure Field.Owned (f : Field) (chunkSize : ℕ) : Prop where
  lo : 8 ≤ f.off
  mid : f.off + f.cells.length ≤ offDataSize ∨ offDataSize + 4 ≤ f.off
  hi : f.off + f.cells.length ≤ chunkSize

/-- Fields of one item that do not overlap, or fields of two items. -/
def Field.Clear (f g : Field) : Prop :=
  f.item = g.item → f.off + f.cells.length ≤ g.off ∨ g.off + g.cells.length ≤ f.off

structure Field.Stored (alloc : SlabAllocator) (f : Field) : Prop where
  chunk : ∃ slab, alloc.slabs[f.item.block]? = some slab ∧
    f.off + f.cells.length ≤ slab.chunkSize
  cells : readCells alloc.mem (f.item.add f.off) f.cells.length = f.cells

def Field.store (alloc : SlabAllocator) (f : Field) : Option SlabAllocator :=
  alloc.store (f.item.add f.off) f.cells

def Keeps (alloc : SlabAllocator) (live : List Ptr) (fields : Set Field) : Prop :=
  ∀ f ∈ fields, f.item ∈ live ∧ f.Stored alloc

theorem Field.Stored.frame {f : Field} {q : Ptr} {n : ℕ} (h : f.Stored alloc)
    (hkept : ChunksKept alloc alloc') (hsame : SameOutside q n alloc.mem alloc'.mem)
    (hapart : Apart q n (f.item.add f.off) f.cells.length) : f.Stored alloc' := by
  obtain ⟨slab, hs, hfit⟩ := h.chunk
  obtain ⟨slab', hs', hchunk⟩ := hkept _ slab hs
  exact ⟨⟨slab', hs', hchunk ▸ hfit⟩, (hsame.read hapart).trans h.cells⟩

theorem Keeps.load {f : Field} {fields : Set Field} (h : Keeps alloc live fields)
    (hwithin : Within leftover peak alloc live) (hf : f ∈ fields) :
    alloc.load (f.item.add f.off) f.cells.length = some f.cells := by
  obtain ⟨hlive, hstored⟩ := h f hf
  obtain ⟨slab, hs, -, hlo, hhi, -⟩ := hwithin.inv.header (Multiset.mem_coe.mpr hlive)
  obtain ⟨slab', hs', hfit⟩ := hstored.chunk
  obtain rfl : slab = slab' := Option.some.inj (hs.symm.trans hs')
  rw [← congrArg some hstored.cells]
  refine if_pos ⟨(List.getElem?_eq_some_iff.mp hs).1, hlo.trans (Nat.le_add_right _ _), ?_⟩
  simp only [Ptr.add_off]
  omega

theorem Keeps.allocItem {fields : Set Field} {size : ℕ} (h : Keeps alloc live fields)
    (hallocated : Allocated alloc live alloc' p size) : Keeps alloc' (p :: live) fields := by
  intro f hf
  obtain ⟨hlive, hstored⟩ := h f hf
  refine ⟨List.mem_cons_of_mem p hlive, ?_⟩
  have hinv := hallocated.inv
  have hne : p ≠ f.item := by
    rintro rfl
    exact hallocated.fresh (Multiset.mem_coe.mpr hlive)
  have hp : p ∈ p ::ₘ (live : Multiset Ptr) := Multiset.mem_cons_self p _
  have hf' : f.item ∈ p ::ₘ (live : Multiset Ptr) := Multiset.mem_cons_of_mem hlive
  obtain ⟨slab, hs, hle, -⟩ := hinv.header hp
  obtain ⟨slab', hs', hfit⟩ := hstored.chunk
  obtain ⟨slab'', hs'', hchunk⟩ := hallocated.kept _ slab' hs'
  have hapart := hinv.slabs.apart hp hf' hne hs hs''
  have hheader : Apart (p.add 0) itemSize (f.item.add f.off) f.cells.length :=
    hapart.shift ((Nat.zero_add _).trans_le hle) (hchunk ▸ hfit)
  exact hstored.frame hallocated.kept hallocated.mem hheader

theorem Keeps.store {fields : Set Field} {g : Field} {slab : Slab}
    (h : Keeps alloc live fields) (hwithin : Within leftover peak alloc live)
    (hlive : g.item ∈ live) (hs : alloc.slabs[g.item.block]? = some slab)
    (howned : g.Owned slab.chunkSize) (hclear : ∀ f ∈ fields, f.Clear g) :
    ∃ alloc', g.store alloc = some alloc' ∧ Within leftover peak alloc' live ∧
      Keeps alloc' live (insert g fields) ∧ alloc'.slabs = alloc.slabs := by
  obtain ⟨hrun, hwithin'⟩ := hwithin.write hlive hs howned.lo howned.mid howned.hi
  refine ⟨_, hrun, hwithin', fun f hf => ?_, rfl⟩
  rcases Set.mem_insert_iff.mp hf with rfl | hf
  · exact ⟨hlive, ⟨slab, hs, howned.hi⟩, read_write_same rfl⟩
  obtain ⟨hlive', hstored⟩ := h f hf
  obtain ⟨slab', hs', hfit⟩ := hstored.chunk
  refine ⟨hlive', hstored.frame (fun b slab hb => ⟨slab, hb, rfl⟩)
    (sameOutside_writeCells alloc.mem (g.item.add g.off) g.cells) ?_⟩
  by_cases hitem : f.item = g.item
  · have hoff := hclear f hf hitem
    unfold Apart
    simp only [Ptr.add_off, hitem]
    omega
  · exact (hwithin.inv.slabs.apart (Multiset.mem_coe.mpr hlive) (Multiset.mem_coe.mpr hlive')
      (Ne.symm hitem) hs hs').shift howned.hi hfit

theorem Keeps.storeAll {fields : Set Field} {new : List Field} {slab : Slab}
    (h : Keeps alloc live fields) (hwithin : Within leftover peak alloc live) (hlive : p ∈ live)
    (hs : alloc.slabs[p.block]? = some slab)
    (hnew : ∀ g ∈ new, g.item = p ∧ g.Owned slab.chunkSize)
    (hclear : ∀ f ∈ fields, ∀ g ∈ new, f.Clear g) (hpair : new.Pairwise Field.Clear) :
    ∃ alloc', new.foldlM Field.store alloc = some alloc' ∧ Within leftover peak alloc' live ∧
      Keeps alloc' live (fields ∪ {g | g ∈ new}) := by
  induction new generalizing alloc fields with
  | nil => exact ⟨alloc, rfl, hwithin, by simpa using h⟩
  | cons g new ih =>
    obtain ⟨⟨rfl, howned⟩, hnew⟩ := List.forall_mem_cons.mp hnew
    obtain ⟨hgnew, hpair⟩ := List.pairwise_cons.mp hpair
    obtain ⟨alloc₁, hstore, hwithin₁, hkeeps₁, hslabs⟩ := h.store hwithin hlive hs howned
      fun f hf => hclear f hf g List.mem_cons_self
    obtain ⟨alloc₂, hrest, hwithin₂, hkeeps₂⟩ := ih hkeeps₁ hwithin₁ (by rwa [hslabs]) hnew
      (fun f hf g' hg' => by
        rcases Set.mem_insert_iff.mp hf with rfl | hf
        · exact hgnew g' hg'
        · exact hclear f hf g' (List.mem_cons_of_mem g hg')) hpair
    refine ⟨alloc₂, ?_, hwithin₂, fun f hf => hkeeps₂ f ?_⟩
    · rw [List.foldlM_cons, hstore]
      exact hrest
    · rcases hf with hf | hf
      · exact Or.inl (Set.mem_insert_of_mem g hf)
      · rcases List.mem_cons.mp hf with rfl | hf
        · exact Or.inl (Set.mem_insert f fields)
        · exact Or.inr hf

/-- What the check stores in the item of slot `i`. -/
def slotFields (i : ℕ) (slot : Ptr × ℕ) : List Field :=
  [⟨slot.1, offKeyLen, natCells 2 (i &&& 0xFF)⟩, ⟨slot.1, offFlags, natCells 2 (i &&& 0x7)⟩,
    ⟨slot.1, offValueLen, natCells 4 (slot.2 % 2 ^ 32)⟩,
    ⟨slot.1, offExpireAt, natCells 4 (i * 7 % 2 ^ 32)⟩,
    ⟨slot.1, itemSize, byteCells (pattern i slot.2)⟩]

theorem slotFields_item {i : ℕ} {slot : Ptr × ℕ} {f : Field} (h : f ∈ slotFields i slot) :
    f.item = slot.1 := by
  simp only [slotFields, List.mem_cons, List.not_mem_nil, or_false] at h
  rcases h with rfl | rfl | rfl | rfl | rfl <;> rfl

theorem slotFields_owned {i chunkSize : ℕ} {slot : Ptr × ℕ} (hfit : slot.2 + itemSize ≤ chunkSize) :
    ∀ f ∈ slotFields i slot, f.Owned chunkSize := by
  simp only [itemSize] at hfit
  intro f hf
  simp only [slotFields, List.mem_cons, List.not_mem_nil, or_false] at hf
  rcases hf with rfl | rfl | rfl | rfl | rfl
  all_goals
    refine ⟨?_, ?_, ?_⟩ <;>
      simp only [length_natCells, length_byteCells, pattern, List.length_replicate, offKeyLen,
        offFlags, offValueLen, offExpireAt, offDataSize, itemSize] <;> omega

theorem slotFields_pairwise (i : ℕ) (slot : Ptr × ℕ) :
    (slotFields i slot).Pairwise Field.Clear := by
  simp [slotFields, Field.Clear, offKeyLen, offFlags, offValueLen, offExpireAt, itemSize]

def writtenFields (slots : List (Ptr × ℕ)) : Set Field :=
  {f | ∃ i slot, slots[i]? = some slot ∧ f ∈ slotFields i slot}

theorem writtenFields_concat {slots : List (Ptr × ℕ)} {slot : Ptr × ℕ} {f : Field}
    (h : f ∈ writtenFields (slots ++ [slot])) :
    f ∈ writtenFields slots ∨ f ∈ slotFields slots.length slot := by
  obtain ⟨i, slot', hget, hf⟩ := h
  rcases Nat.lt_or_ge i slots.length with hlt | hge
  · rw [List.getElem?_append_left hlt] at hget
    exact Or.inl ⟨i, slot', hget, hf⟩
  · rw [List.getElem?_append_right hge, List.getElem?_singleton] at hget
    split_ifs at hget with hi
    obtain rfl : slots.length = i := by omega
    exact Or.inr (Option.some.inj hget ▸ hf)

/-- What the check has done after `i` rounds that fill a slot. -/
structure Filling (leftover : Ptr → Cell) (peak : ℕ) (rest : List Ptr) (i : ℕ)
    (s : SlabAllocator × List (Ptr × ℕ) × BitVec 64) : Prop where
  within : Within leftover peak s.1 (s.2.1.map Prod.fst ++ rest)
  count : s.2.1.length = i
  small : ∀ slot ∈ s.2.1, slot.2 < 2 ^ 16
  keeps : Keeps s.1 (s.2.1.map Prod.fst ++ rest) (writtenFields s.2.1)

section Check

variable {align : ℕ} {base : ℕ → ℕ}

theorem fillSlot_spec (halign : align ∣ 8) (hbase : ∀ block, align ∣ base block) {i n : ℕ}
    (hi : i < n) (hroom : n + rest.length ≤ peak)
    {s : SlabAllocator × List (Ptr × ℕ) × BitVec 64} (h : Filling leftover peak rest i s) :
    ∃ s', fillSlot align base i s = some s' ∧ Filling leftover peak rest (i + 1) s' := by
  obtain ⟨alloc, slots, rng⟩ := s
  obtain ⟨hwithin, rfl, hsmall, hkeeps⟩ := h
  simp only at hwithin hsmall hkeeps hi
  obtain ⟨rng', size, hsample⟩ : ∃ rng' size, sampleSize rng = (rng', size) := ⟨_, _, rfl⟩
  have hrange := sampleSize_range rng
  rw [hsample] at hrange
  obtain ⟨alloc', p, halloc, hwithin', hallocated⟩ := hwithin.allocItem
    (by rw [List.length_append, List.length_map]; omega)
    (show 1 ≤ size by omega) (by omega)
  have hp : p ∈ p :: (slots.map Prod.fst ++ rest) := List.mem_cons_self
  obtain ⟨slab, hs, -, -, -, -, hoff, -, hptr⟩ := hwithin'.inv.header (Multiset.mem_coe.mpr hp)
  obtain ⟨slab', hs', hlarge⟩ := hallocated.large
  obtain rfl : slab = slab' := Option.some.inj (hs.symm.trans hs')
  have haddress : address base p % align = 0 :=
    Nat.mod_eq_zero_of_dvd
      ((hbase p.block).add (halign.trans (Nat.dvd_of_mod_eq_zero hoff)))
  have hfresh : ∀ f ∈ writtenFields slots, ∀ g ∈ slotFields slots.length (p, size), f.Clear g := by
    intro f hf g hg hitem
    have hitem : f.item = p := hitem.trans (slotFields_item hg)
    exact absurd (Multiset.mem_coe.mpr (hitem ▸ (hkeeps f hf).1)) hallocated.fresh
  obtain ⟨alloc'', hstores, hwithin'', hkeeps''⟩ := (hkeeps.allocItem hallocated).storeAll hwithin'
    hp hs (fun g hg => ⟨slotFields_item hg, slotFields_owned hlarge g hg⟩) hfresh
    (slotFields_pairwise _ _)
  have hperm : (p :: (slots.map Prod.fst ++ rest)).Perm
      ((slots ++ [(p, size)]).map Prod.fst ++ rest) := by
    rw [List.map_append, List.map_singleton]
    exact perm_concat_append _ rest p
  refine ⟨(alloc'', slots ++ [(p, size)], rng'), ?_, hwithin''.perm hperm, ?_, ?_, ?_⟩
  · simp only [slotFields, List.foldlM_cons, Field.store] at hstores
    obtain ⟨a₁, h₁, hstores⟩ := Option.bind_eq_some_iff.mp hstores
    obtain ⟨a₂, h₂, hstores⟩ := Option.bind_eq_some_iff.mp hstores
    obtain ⟨a₃, h₃, hstores⟩ := Option.bind_eq_some_iff.mp hstores
    obtain ⟨a₄, h₄, hstores⟩ := Option.bind_eq_some_iff.mp hstores
    obtain ⟨a₅, h₅, hstores⟩ := Option.bind_eq_some_iff.mp hstores
    obtain rfl : a₅ = alloc'' := Option.some.inj hstores
    simp only [fillSlot, hsample, beAlloc, halloc, haddress, hptr, h₁, h₂, h₃, h₄, h₅, guard,
      ne_eq, reduceCtorEq, not_false_eq_true, if_true, Option.bind_eq_bind, Option.bind_some,
      Option.pure_def]
  · rw [List.length_append, List.length_singleton]
  · intro slot hslot
    rcases List.mem_append.mp hslot with hslot | hslot
    · exact hsmall slot hslot
    · rw [List.mem_singleton.mp hslot]
      exact hrange.2
  · intro f hf
    obtain ⟨hlive, hstored⟩ := hkeeps'' f (writtenFields_concat hf)
    exact ⟨hperm.mem_iff.mp hlive, hstored⟩

theorem checkSlot_spec {i : ℕ} {slots : List (Ptr × ℕ)} {slot : Ptr × ℕ}
    (hwithin : Within leftover peak alloc (slots.map Prod.fst ++ rest))
    (hkeeps : Keeps alloc (slots.map Prod.fst ++ rest) (writtenFields slots))
    (hget : slots[i]? = some slot) : checkSlot alloc i slot = some () := by
  have hload {off : ℕ} {cells : List Cell} (hf : ⟨slot.1, off, cells⟩ ∈ slotFields i slot) :
      alloc.load (slot.1.add off) cells.length = some cells :=
    hkeeps.load hwithin ⟨i, slot, hget, hf⟩
  have hnat {off k n : ℕ} (hf : ⟨slot.1, off, natCells k n⟩ ∈ slotFields i slot)
      (hlt : n < 256 ^ k) : alloc.loadNat (slot.1.add off) k = some n := by
    have hcells := hload hf
    rw [length_natCells] at hcells
    rw [SlabAllocator.loadNat, hcells]
    exact toNat_natCells_of_lt hlt
  have hlow : i &&& 0xFF < 256 ^ 2 := Nat.and_le_right.trans_lt (by decide)
  have hkeyLen : itemKeyLen alloc slot.1 = some (i &&& 0xFF) := hnat (by simp [slotFields]) hlow
  have hvalueLen : itemValueLen alloc slot.1 = some (slot.2 % 2 ^ 32) :=
    hnat (by simp [slotFields]) (Nat.mod_lt _ (by decide))
  have hexpireAt : alloc.loadNat (slot.1.add offExpireAt) 4 = some (i * 7 % 2 ^ 32) :=
    hnat (by simp [slotFields]) (Nat.mod_lt _ (by decide))
  have hdata : alloc.loadBytes (slot.1.add itemSize) slot.2 = some (pattern i slot.2) := by
    have hfield : ⟨slot.1, itemSize, byteCells (pattern i slot.2)⟩ ∈ slotFields i slot := by
      simp [slotFields]
    have hcells := hload hfield
    rw [length_byteCells, pattern, List.length_replicate] at hcells
    rw [SlabAllocator.loadBytes, hcells]
    exact toBytes_byteCells _
  have hlive : slot.1 ∈ slots.map Prod.fst ++ rest :=
    List.mem_append_left rest (List.mem_map_of_mem (List.mem_of_getElem? hget))
  obtain ⟨slab, -, -, -, -, -, -, -, hptr⟩ := hwithin.inv.header (Multiset.mem_coe.mpr hlive)
  have hall : (pattern i slot.2).all (· = UInt8.ofNat (i &&& 0xFF)) = true := by
    rw [List.all_eq_true]
    intro byte hbyte
    exact decide_eq_true (List.eq_of_mem_replicate hbyte)
  simp only [checkSlot, hkeyLen, hvalueLen, hexpireAt, hptr, hdata, hall, guard, ne_eq,
    reduceCtorEq, not_false_eq_true, if_true, Option.bind_eq_bind, Option.bind_some,
    Option.pure_def]

/-- The check passes on any allocator that allocations and frees lead to, for any number of items,
and leaves its live items as they were. -/
theorem checkIntegrity_restores (touch : Bool) (halign : align ∣ 8)
    (hbase : ∀ block, align ∣ base block) {n : ℕ} (hroom : n + rest.length ≤ peak) :
    Restores leftover peak rest (checkIntegrity touch align base n) := by
  intro alloc h
  have hfill : ∃ s, countTo n (fillSlot align base) (alloc, [], rngSeed 0xBEEF#64) = some s ∧
      Filling leftover peak rest n s := by
    refine countTo_inv ⟨h, rfl, by simp, ?_⟩ fun i hi s hs => fillSlot_spec halign hbase hi hroom hs
    rintro f ⟨i, slot, hget, -⟩
    simp at hget
  obtain ⟨⟨alloc₁, slots, rng⟩, hrun, hwithin, hcount, -, hkeeps⟩ := hfill
  simp only at hwithin hcount hkeeps
  have hchecks : countTo n (fun i _ => slots[i]?.bind fun slot => checkSlot alloc₁ i slot) () =
      some () := by
    refine countTo_fixed fun i hi => ?_
    have hget := List.getElem?_eq_getElem (hcount ▸ hi)
    rw [hget]
    exact checkSlot_spec hwithin hkeeps hget
  obtain ⟨alloc₂, hfree, hwithin'⟩ := freeAll_spec touch hwithin
  refine ⟨alloc₂, ?_, hwithin'⟩
  rw [List.map_map, List.foldlM_map] at hfree
  simp only [checkIntegrity, hrun, hchecks, Option.bind_eq_bind, Option.bind_some]
  exact hfree

end Check

theorem sizesBuildN_reported (mixed : Bool) (live ops : ℕ) (h : Within leftover peak alloc rest) :
    ∃ sums, reportFragmentation (sizesBuildN mixed live ops) live alloc = some sums := by
  obtain ⟨order, past, htrace, -⟩ := h
  have hlen : live ≤ (sizesBuildN mixed live ops).length := by
    rw [sizesBuildN, drawSizes_length]
    exact Nat.le_add_left live ops
  obtain ⟨usable, hrun, -⟩ := reportFragmentation_bounded htrace.run hlen fun size hsize => by
    have hrange := drawSizes_range mixed _ _ size hsize
    simp only [minDataChunkSize, maxDataChunkSize]
    omega
  exact ⟨_, hrun⟩

theorem runSuite_restores (touch mixed : Bool) {slots ops samples : ℕ} (hpos : 0 < slots)
    (hsamples : samples ≤ ops) (hpeak : slots ≤ peak) :
    Restores leftover peak [] (runSuite touch mixed slots ops samples) := by
  intro alloc h
  have hserved := sizesBuildN_served mixed slots ops
  have hfew := hserved.mono (Nat.le_add_right slots ops)
  have hlatency := hserved.mono (Nat.add_le_add_left hsamples slots)
  obtain ⟨alloc₁, h₁, hwithin₁⟩ := (benchLifo_restores hpeak hfew).repeated repeats _ h
  obtain ⟨alloc₂, h₂, hwithin₂⟩ := (benchFifo_restores hpeak hfew).repeated repeats _ hwithin₁
  obtain ⟨alloc₃, h₃, hwithin₃⟩ :=
    (benchTouch_restores hpeak hfew touch).repeated repeats _ hwithin₂
  obtain ⟨alloc₄, h₄, hwithin₄⟩ :=
    replaceSlots_restores hpeak touch 0x5EED#64 hpos hserved _ hwithin₃
  obtain ⟨alloc₅, h₅, hwithin₅⟩ :=
    replaceSlots_restores hpeak touch 0x1A7E#64 hpos hlatency _ hwithin₄
  obtain ⟨sums, hreport⟩ := sizesBuildN_reported mixed slots ops hwithin₅
  refine ⟨alloc₅, ?_, hwithin₅⟩
  simp only [runSuite, bestOf, benchChurn, benchLatency, h₁, h₂, h₃, h₄, h₅, hreport,
    Option.bind_eq_bind, Option.bind_some]

/-- The check never aborts, and no pattern of the benchmark does. At the end every chunk is free,
and no class has more slabs than the most items of the benchmark fill. -/
theorem runAll_passes (leftover : Ptr → Cell) (touch : Bool) {base : ℕ → ℕ}
    (hbase : ∀ block, 8 ∣ base block) (items : ℕ) {slots ops samples : ℕ} (hpos : 0 < slots)
    (hsamples : samples ≤ ops) :
    ∃ alloc, runAll touch base items slots ops samples leftover = some alloc ∧
      Quiet (max items slots) alloc := by
  obtain ⟨alloc₁, h₁, hwithin₁⟩ := checkIntegrity_restores touch (dvd_refl 8) hbase
    (show items + [].length ≤ max items slots from le_max_left items slots) _ (.init leftover _)
  obtain ⟨alloc₂, h₂, hwithin₂⟩ :=
    runSuite_restores touch false hpos hsamples (le_max_right items slots) _ hwithin₁
  obtain ⟨alloc₃, h₃, hwithin₃⟩ :=
    runSuite_restores touch true hpos hsamples (le_max_right items slots) _ hwithin₂
  refine ⟨alloc₃, ?_, hwithin₃.quiet⟩
  simp only [runAll, h₁, h₂, Option.bind_eq_bind, Option.bind_some]
  exact h₃

/-- The constants of the source, with blocks a slab apart -/
theorem runAll_passes_source : ∃ alloc, runAll true (fun block => slabSize * block) 20000 100000
    2000000 200000 (fun _ => .byte 0) = some alloc ∧ Quiet (max 20000 100000) alloc :=
  runAll_passes _ true (fun block => Dvd.dvd.mul_right (by decide) block) 20000 (by decide)
    (by decide)

end Kvx.SlabBench
