import Kvx.SlabInv

/-!
# All slabs of an allocator

`SlabsOk alloc live` says that the live items of every slab and its free list make up the
carved chunks. Allocating from a slab and freeing an item keep it.
-/
namespace Kvx.SlabAlloc

open Kvx.Lib

variable {alloc : SlabAllocator} {live : Multiset Ptr} {p q : Ptr} {block : ℕ} {slab : Slab}

def liveAt (live : Multiset Ptr) (block : ℕ) : Multiset Ptr := live.filter fun p => p.block = block

theorem mem_liveAt : p ∈ liveAt live block ↔ p ∈ live ∧ p.block = block := Multiset.mem_filter

theorem liveAt_cons_self (p : Ptr) (live : Multiset Ptr) :
    liveAt (p ::ₘ live) p.block = p ::ₘ liveAt live p.block :=
  Multiset.filter_cons_of_pos _ rfl

theorem liveAt_cons_ne (h : p.block ≠ block) : liveAt (p ::ₘ live) block = liveAt live block :=
  Multiset.filter_cons_of_neg _ h

structure SlabsOk (alloc : SlabAllocator) (live : Multiset Ptr) : Prop where
  slab : ∀ block slab, alloc.slabs[block]? = some slab →
    ∃ carved free, SlabOk alloc.mem block slab carved free (liveAt live block)
  block : ∀ p ∈ live, p.block < alloc.slabs.length
  header : ∀ p ∈ live, ∀ slab, alloc.slabs[p.block]? = some slab → Header alloc.mem slab p

theorem SlabsOk.get (h : SlabsOk alloc live) (hp : p ∈ live) :
    ∃ slab carved free, alloc.slabs[p.block]? = some slab ∧
      SlabOk alloc.mem p.block slab carved free (liveAt live p.block) ∧
      p ∈ liveAt live p.block := by
  have hlt := h.block p hp
  obtain ⟨carved, free, hok⟩ := h.slab _ _ (List.getElem?_eq_getElem hlt)
  exact ⟨_, carved, free, List.getElem?_eq_getElem hlt, hok, mem_liveAt.mpr ⟨hp, rfl⟩⟩

theorem SlabOk.mem_live {mem : Ptr → Cell} {carved : ℕ} {free : List Ptr}
    (_ : SlabOk mem block slab carved free live) (hp : p ∈ live) :
    p ∈ (free : Multiset Ptr) + live :=
  Multiset.mem_add.mpr (Or.inr hp)

theorem SlabsOk.apart (h : SlabsOk alloc live) (hp : p ∈ live) (hq : q ∈ live) (hne : p ≠ q)
    {slab slab' : Slab} (hs : alloc.slabs[p.block]? = some slab)
    (hs' : alloc.slabs[q.block]? = some slab') :
    Apart p slab.chunkSize q slab'.chunkSize := by
  by_cases hb : p.block = q.block
  · obtain ⟨slab₁, carved, free, hs₁, hok, hpm⟩ := h.get hp
    rw [hs, Option.some.injEq] at hs₁
    subst hs₁
    rw [← hb, hs, Option.some.injEq] at hs'
    subst hs'
    have hqm : q ∈ liveAt live p.block := mem_liveAt.mpr ⟨hq, hb.symm⟩
    exact hok.apart (hok.mem_live hpm) (hok.mem_live hqm) hne
  · exact Or.inl hb

theorem SlabsOk.live_nodup (h : SlabsOk alloc live) : live.Nodup := by
  rw [Multiset.nodup_iff_count_le_one]
  intro p
  by_cases hp : p ∈ live
  · obtain ⟨slab, carved, free, -, hok, -⟩ := h.get hp
    have hnd := (Multiset.nodup_add.mp hok.nodup).2.1
    have hc := Multiset.nodup_iff_count_le_one.mp hnd p
    rwa [liveAt, Multiset.count_filter, if_pos rfl] at hc
  · rw [Multiset.count_eq_zero.mpr hp]
    exact Nat.zero_le 1

theorem Header.congr {mem mem' : Ptr → Cell} (h : Header mem slab p)
    (h8 : readCells mem' p 8 = readCells mem p 8)
    (h4 : readCells mem' (p.add offDataSize) 4 = readCells mem (p.add offDataSize) 4) :
    Header mem' slab p :=
  ⟨by rw [h8]; exact h.slab_ptr, by rw [h4]; exact h.data_size⟩

theorem Header.write {mem mem' : Ptr → Cell} {n chunkSize : ℕ} (h : Header mem slab p)
    (hsame : SameOutside q n mem mem') (hd : Apart q n p chunkSize) (hc : itemSize ≤ chunkSize) :
    Header mem' slab p := by
  simp only [itemSize] at hc
  refine h.congr (hsame.read (hd.mono le_rfl (by omega))) (hsame.read ?_)
  unfold Apart at *
  simp only [Ptr.add_block, Ptr.add_off, offDataSize]
  omega

theorem store_eq {cells : List Cell} (h : alloc.InMem p cells.length) :
    alloc.store p cells = some { alloc with mem := writeCells alloc.mem p cells } :=
  if_pos h

theorem header_stores (slab : Slab) (hin : alloc.InMem p itemSize) (hsize : slab.chunkSize ≤ maxDataChunkSize) :
    ∃ mem', (alloc.store p (ptrCells (some ⟨p.block, 0⟩))).bind (fun a =>
        a.store (p.add offDataSize) (natCells 4 (slab.chunkSize - itemSize))) =
        some { alloc with mem := mem' } ∧
      SameOutside p itemSize alloc.mem mem' ∧ Header mem' slab p := by
  obtain ⟨hb, hlo, hhi⟩ := hin
  simp only [itemSize] at hhi
  have hin₁ : alloc.InMem p (ptrCells (some ⟨p.block, 0⟩)).length := by
    rw [length_ptrCells]
    exact ⟨hb, hlo, by omega⟩
  have hin₂ : SlabAllocator.InMem
      { alloc with mem := writeCells alloc.mem p (ptrCells (some ⟨p.block, 0⟩)) }
      (p.add offDataSize) (natCells 4 (slab.chunkSize - itemSize)).length := by
    rw [length_natCells]
    refine ⟨hb, ?_, ?_⟩
    · exact hlo.trans (Nat.le_add_right _ _)
    · simp only [Ptr.add_off, offDataSize]
      omega
  have hw₁ := sameOutside_writeCells alloc.mem p (ptrCells (some ⟨p.block, 0⟩))
  have hw₂ := sameOutside_writeCells (writeCells alloc.mem p (ptrCells (some ⟨p.block, 0⟩)))
    (p.add offDataSize) (natCells 4 (slab.chunkSize - itemSize))
  rw [length_ptrCells] at hw₁
  rw [length_natCells] at hw₂
  refine ⟨writeCells (writeCells alloc.mem p (ptrCells (some ⟨p.block, 0⟩))) (p.add offDataSize)
    (natCells 4 (slab.chunkSize - itemSize)), ?_, ?_, ?_⟩
  · rw [store_eq hin₁, Option.bind_some, store_eq hin₂]
  · refine SameOutside.trans ?_ (hw₂.widen (by decide))
    exact SameOutside.widen (a := 0) hw₁ (by decide)
  · refine ⟨?_, ?_⟩
    · rw [hw₂.read (Or.inr (Or.inr (by simp [offDataSize])))]
      have hread := readCells_writeCells alloc.mem p (ptrCells (some ⟨p.block, 0⟩))
      rw [length_ptrCells] at hread
      rw [hread, toPtr_ptrCells]
    · have hread := readCells_writeCells
        (writeCells alloc.mem p (ptrCells (some ⟨p.block, 0⟩))) (p.add offDataSize)
        (natCells 4 (slab.chunkSize - itemSize))
      rw [length_natCells] at hread
      rw [hread, toNat_natCells, Nat.mod_eq_of_lt]
      simp only [maxDataChunkSize, itemSize] at *
      omega

theorem SlabsOk.set (h : SlabsOk alloc live) {live' : Multiset Ptr} {slab' : Slab} {mem' : Ptr → Cell}
    {carved n : ℕ} {free : List Ptr} (hlt : p.block < alloc.slabs.length)
    (hsame : SameOutside p n alloc.mem mem')
    (hok : SlabOk mem' p.block slab' carved free (liveAt live' p.block))
    (hother : ∀ b, p.block ≠ b → liveAt live' b = liveAt live b)
    (hheader : ∀ q ∈ live', q.block = p.block → Header mem' slab' q) :
    SlabsOk { alloc with slabs := alloc.slabs.set p.block slab', mem := mem' } live' := by
  have hold : ∀ q ∈ live', q.block ≠ p.block → q ∈ live := by
    intro q hq hne
    have hmem : q ∈ liveAt live' q.block := mem_liveAt.mpr ⟨hq, rfl⟩
    rw [hother q.block (Ne.symm hne)] at hmem
    exact (mem_liveAt.mp hmem).1
  refine ⟨fun b s hbs => ?_, fun q hq => ?_, fun q hq s hqs => ?_⟩
  · by_cases hbp : b = p.block
    · subst hbp
      rw [List.getElem?_set_self hlt, Option.some.injEq] at hbs
      subst hbs
      exact ⟨carved, free, hok⟩
    · rw [List.getElem?_set_ne (Ne.symm hbp)] at hbs
      rw [hother b (Ne.symm hbp)]
      obtain ⟨c, f, hsok⟩ := h.slab b s hbs
      exact ⟨c, f, hsok.write_other (Ne.symm hbp) hsame⟩
  · rw [List.length_set]
    by_cases hbq : q.block = p.block
    · rwa [hbq]
    · exact h.block q (hold q hq hbq)
  · by_cases hbq : q.block = p.block
    · rw [hbq, List.getElem?_set_self hlt, Option.some.injEq] at hqs
      subst hqs
      exact hheader q hq hbq
    · rw [List.getElem?_set_ne (Ne.symm hbq)] at hqs
      obtain ⟨c, f, hsok⟩ := h.slab _ s hqs
      exact (h.header q (hold q hq hbq) s hqs).write hsame (Or.inl (Ne.symm hbq)) hsok.link_le

theorem slabAllocItem_spec (h : SlabsOk alloc live) (hs : alloc.slabs[block]? = some slab)
    (hcount : 0 < slab.freeCount) :
    ∃ alloc' p slab', slabAllocItem alloc block = some (alloc', some p) ∧ p.block = block ∧
      p ∉ live ∧ alloc'.classes = alloc.classes ∧ alloc'.slabs = alloc.slabs.set block slab' ∧
      slab'.chunkSize = slab.chunkSize ∧ slab'.parentSlabClass = slab.parentSlabClass ∧
      slab'.freeCount = slab.freeCount - 1 ∧ SlabsOk alloc' (p ::ₘ live) ∧
      SameOutside p itemSize alloc.mem alloc'.mem := by
  have hlt := (List.getElem?_eq_some_iff.mp hs).1
  obtain ⟨carved, free, hok⟩ := h.slab block slab hs
  obtain ⟨p, slab', carved', free', htake, hchunk, hparent, hfc, hfresh, hok'⟩ :=
    takeChunk_spec hok hlt hcount
  have hmem : p ∈ (free' : Multiset Ptr) + p ::ₘ liveAt live block :=
    Multiset.mem_add.mpr (Or.inr (Multiset.mem_cons_self _ _))
  obtain ⟨hb, hlo, hhi, -, -⟩ := hok'.inside hmem
  have hle := hok'.link_le
  subst hb
  have hnl : p ∉ live := fun hm => hfresh (mem_liveAt.mpr ⟨hm, rfl⟩)
  let slab₁ := { slab' with freeCount := slab'.freeCount - 1 }
  have hin : SlabAllocator.InMem { alloc with slabs := alloc.slabs.set p.block slab₁ } p
      itemSize := by
    refine ⟨?_, hlo, ?_⟩
    · simp only [List.length_set]
      exact hlt
    · simp only at hhi hle
      omega
  obtain ⟨mem', hstores, hsame, hheader⟩ := header_stores slab₁ hin hok'.chunk_max
  have hwide : SameOutside p slab₁.chunkSize alloc.mem mem' :=
    SameOutside.widen (a := 0) hsame (by simp only [Nat.zero_add]; exact hle)
  have hne0 : slab.freeCount ≠ 0 := by omega
  refine ⟨{ alloc with slabs := alloc.slabs.set p.block slab₁, mem := mem' }, p, slab₁, ?_, rfl,
    hnl, rfl, rfl, hchunk, hparent, by rw [← hfc], ?_, hsame⟩
  · simp only [slabAllocItem, hs, hne0, ↓reduceIte, htake, Option.bind_eq_bind, Option.bind_some]
    rw [← Option.bind_assoc, hstores]
    rfl
  · have hlive : SlabOk mem' p.block slab₁ carved' free' (liveAt (p ::ₘ live) p.block) := by
      rw [liveAt_cons_self]
      exact hok'.write_live (Multiset.mem_cons_self _ _) hwide
    refine h.set hlt hsame hlive (fun b hb => liveAt_cons_ne hb) fun q hq hbq => ?_
    rcases Multiset.mem_cons.mp hq with rfl | hq
    · exact hheader
    · have hold := h.header q hq slab (by rw [hbq]; exact hs)
      have hqm : q ∈ (free' : Multiset Ptr) + p ::ₘ liveAt live p.block :=
        Multiset.mem_add.mpr (Or.inr (Multiset.mem_cons_of_mem (mem_liveAt.mpr ⟨hq, hbq⟩)))
      have hpq : p ≠ q := fun he => hnl (he ▸ hq)
      have hheld : Header alloc.mem slab₁ q := by
        refine ⟨hold.slab_ptr, ?_⟩
        rw [hold.data_size, ← hchunk]
      exact hheld.write hwide (hok'.apart hmem hqm hpq) hle

theorem freeItem_spec (h : SlabsOk alloc (p ::ₘ live)) :
    ∃ slab mem', alloc.slabs[p.block]? = some slab ∧
      slabAllocatorFreeItem alloc p = slabClassFreeItem { alloc with
        slabs := alloc.slabs.set p.block
          { slab with freeList := some p, freeCount := slab.freeCount + 1 }
        mem := mem' } slab.parentSlabClass p.block ∧
      SlabsOk { alloc with
        slabs := alloc.slabs.set p.block
          { slab with freeList := some p, freeCount := slab.freeCount + 1 }
        mem := mem' } live ∧
      SameOutside p 8 alloc.mem mem' := by
  obtain ⟨slab, carved, free, hs, hok, hpm⟩ := h.get (Multiset.mem_cons_self p live)
  have hlt := (List.getElem?_eq_some_iff.mp hs).1
  obtain ⟨-, hlo, hhi, -, -⟩ := hok.inside (hok.mem_live hpm)
  have hle := hok.link_le
  simp only [itemSize] at hle
  have hin : alloc.InMem p 8 := ⟨hlt, hlo, by omega⟩
  have hheader := h.header p (Multiset.mem_cons_self p live) slab hs
  have hload : alloc.loadPtr p = some (some ⟨p.block, 0⟩) := by
    simp only [SlabAllocator.loadPtr, SlabAllocator.load, if_pos hin, Option.bind_eq_bind,
      Option.bind_some]
    exact hheader.slab_ptr
  have hstore : alloc.store p (ptrCells slab.freeList) =
      some { alloc with mem := writeCells alloc.mem p (ptrCells slab.freeList) } :=
    store_eq (by rw [length_ptrCells]; exact hin)
  have hsame := sameOutside_writeCells alloc.mem p (ptrCells slab.freeList)
  have hread := readCells_writeCells alloc.mem p (ptrCells slab.freeList)
  rw [length_ptrCells] at hsame hread
  have hwide : SameOutside p slab.chunkSize alloc.mem
      (writeCells alloc.mem p (ptrCells slab.freeList)) :=
    SameOutside.widen (a := 0) hsame (by omega)
  refine ⟨slab, writeCells alloc.mem p (ptrCells slab.freeList), hs, ?_, ?_, hsame⟩
  · simp only [slabAllocatorFreeItem, hload, hs, hstore, Option.bind_eq_bind, Option.bind_some,
      ne_eq, not_true_eq_false, ↓reduceIte]
  · have hnd := h.live_nodup
    rw [Multiset.nodup_cons] at hnd
    have hfreed : SlabOk (writeCells alloc.mem p (ptrCells slab.freeList)) p.block
        { slab with freeList := some p, freeCount := slab.freeCount + 1 } carved (p :: free)
        (liveAt live p.block) := by
      rw [liveAt_cons_self] at hok
      refine hok.pushed hwide ?_
      rw [hread, toPtr_ptrCells]
    refine h.set hlt hsame hfreed (fun b hb => (liveAt_cons_ne hb).symm) fun q hq hbq => ?_
    have hpq : p ≠ q := fun he => hnd.1 (he ▸ hq)
    have hq' := Multiset.mem_cons_of_mem hq (b := p)
    have hqs : alloc.slabs[q.block]? = some slab := by rw [hbq]; exact hs
    have hold := h.header q hq' slab hqs
    have hheld : Header alloc.mem
        { slab with freeList := some p, freeCount := slab.freeCount + 1 } q :=
      ⟨hold.slab_ptr, hold.data_size⟩
    exact hheld.write hwide (h.apart (Multiset.mem_cons_self p live) hq' hpq hs hqs) hok.link_le

end Kvx.SlabAlloc
