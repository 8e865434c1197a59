import Kvx.SlabAlloc

/-!
# Chunks of a slab

The carved chunks of a slab are its live items and the chunks on its free list, each of
them once. The links of the free list lie in the chunks themselves, so a write disturbs
the list only if it hits a free chunk.
-/
namespace Kvx.SlabAlloc

open Kvx.Lib

variable {mem mem' : Ptr → Cell} {block : ℕ} {slab : Slab} {carved : ℕ} {free : List Ptr}
  {live : Multiset Ptr} {p q : Ptr}

def capacity (chunkSize : ℕ) : ℕ := (slabSize - sizeofSlab) / chunkSize

def chunkAt (block chunkSize k : ℕ) : Ptr := ⟨block, sizeofSlab + k * chunkSize⟩

/-- Following the links from `head` gives the chunks listed. -/
inductive Linked (mem : Ptr → Cell) : Option Ptr → List Ptr → Prop
  | nil : Linked mem none []
  | cons {p : Ptr} {next : Option Ptr} {rest : List Ptr}
      (link : toPtr (readCells mem p 8) = some next) (tail : Linked mem next rest) :
      Linked mem (some p) (p :: rest)

structure SlabOk (mem : Ptr → Cell) (block : ℕ) (slab : Slab) (carved : ℕ) (free : List Ptr)
    (live : Multiset Ptr) : Prop where
  chunk_min : minDataChunkSize ≤ slab.chunkSize
  chunk_max : slab.chunkSize ≤ maxDataChunkSize
  chunk_align : slab.chunkSize % alignofItem = 0
  bump : slab.bump = chunkAt block slab.chunkSize carved
  fits : carved ≤ capacity slab.chunkSize
  linked : Linked mem slab.freeList free
  part : (free : Multiset Ptr) + live = (Multiset.range carved).map (chunkAt block slab.chunkSize)
  count : slab.freeCount + live.card = capacity slab.chunkSize

/-- What `slab_alloc_item` writes into an item. -/
structure Header (mem : Ptr → Cell) (slab : Slab) (p : Ptr) : Prop where
  slab_ptr : toPtr (readCells mem p 8) = some (some ⟨p.block, 0⟩)
  data_size : toNat (readCells mem (p.add offDataSize) 4) = some (slab.chunkSize - itemSize)

theorem chunkAt_inj {chunkSize j k : ℕ} (hpos : 0 < chunkSize)
    (h : chunkAt block chunkSize j = chunkAt block chunkSize k) : j = k := by
  simp only [chunkAt, Ptr.mk.injEq, true_and] at h
  exact Nat.eq_of_mul_eq_mul_right hpos (by omega)

theorem chunkAt_apart {chunkSize j k : ℕ} (h : j ≠ k) :
    Apart (chunkAt block chunkSize j) chunkSize (chunkAt block chunkSize k) chunkSize := by
  right
  simp only [chunkAt]
  rcases Nat.lt_or_gt_of_ne h with hlt | hgt
  · left
    have := Nat.mul_le_mul_right chunkSize hlt
    rw [Nat.succ_mul] at this
    omega
  · right
    have := Nat.mul_le_mul_right chunkSize hgt
    rw [Nat.succ_mul] at this
    omega

theorem chunkAt_inside {chunkSize k : ℕ} (hpos : 0 < chunkSize) (hk : k < capacity chunkSize) :
    (chunkAt block chunkSize k).off + chunkSize ≤ slabSize := by
  have h := (Nat.le_div_iff_mul_le hpos).mp hk
  rw [Nat.succ_mul] at h
  simp only [chunkAt, sizeofSlab, slabSize] at *
  omega

theorem SlabOk.chunk_pos (h : SlabOk mem block slab carved free live) : 0 < slab.chunkSize :=
  Nat.lt_of_lt_of_le (by decide) h.chunk_min

theorem SlabOk.nodup (h : SlabOk mem block slab carved free live) :
    ((free : Multiset Ptr) + live).Nodup := by
  rw [h.part]
  apply Multiset.Nodup.map _ (Multiset.nodup_range carved)
  exact fun j k he => chunkAt_inj h.chunk_pos he

theorem SlabOk.chunk (h : SlabOk mem block slab carved free live)
    (hp : p ∈ (free : Multiset Ptr) + live) : ∃ k < carved, p = chunkAt block slab.chunkSize k := by
  rw [h.part] at hp
  obtain ⟨k, hk, rfl⟩ := Multiset.mem_map.mp hp
  exact ⟨k, Multiset.mem_range.mp hk, rfl⟩

theorem SlabOk.apart (h : SlabOk mem block slab carved free live)
    (hp : p ∈ (free : Multiset Ptr) + live) (hq : q ∈ (free : Multiset Ptr) + live) (hne : p ≠ q) :
    Apart p slab.chunkSize q slab.chunkSize := by
  obtain ⟨j, -, rfl⟩ := h.chunk hp
  obtain ⟨k, -, rfl⟩ := h.chunk hq
  exact chunkAt_apart fun he => hne (by rw [he])

theorem SlabOk.inside (h : SlabOk mem block slab carved free live)
    (hp : p ∈ (free : Multiset Ptr) + live) :
    p.block = block ∧ sizeofSlab ≤ p.off ∧ p.off + slab.chunkSize ≤ slabSize ∧
      (p.off - sizeofSlab) % slab.chunkSize = 0 ∧ p.off % alignofItem = 0 := by
  obtain ⟨k, hk, rfl⟩ := h.chunk hp
  refine ⟨rfl, Nat.le_add_right _ _, chunkAt_inside h.chunk_pos (hk.trans_le h.fits), ?_, ?_⟩
  · simp [chunkAt]
  · have hmul : k * slab.chunkSize % alignofItem = 0 := by
      rw [Nat.mul_mod, h.chunk_align, Nat.mul_zero, Nat.zero_mod]
    simp only [chunkAt, sizeofSlab, alignofItem] at *
    omega

theorem SlabOk.free_ne (h : SlabOk mem block slab carved free live) (hp : p ∈ live)
    (hq : q ∈ free) : p ≠ q := by
  rintro rfl
  exact Multiset.disjoint_left.mp (Multiset.nodup_add.mp h.nodup).2.2
    (Multiset.mem_coe.mpr hq) hp

theorem Linked.congr {head : Option Ptr} (h : Linked mem head free)
    (hsame : ∀ q ∈ free, readCells mem' q 8 = readCells mem q 8) : Linked mem' head free := by
  induction h with
  | nil => exact .nil
  | cons link tail ih =>
    refine .cons ?_ (ih fun q hq => hsame q (List.mem_cons_of_mem _ hq))
    rw [hsame _ (by simp)]
    exact link

theorem SlabOk.congr (h : SlabOk mem block slab carved free live)
    (hsame : ∀ q ∈ free, readCells mem' q 8 = readCells mem q 8) :
    SlabOk mem' block slab carved free live :=
  { h with linked := h.linked.congr hsame }

theorem SlabOk.link_le (h : SlabOk mem block slab carved free live) :
    itemSize ≤ slab.chunkSize := by
  have := h.chunk_min
  simp only [itemSize, minDataChunkSize] at *
  omega

theorem SlabOk.write_live (h : SlabOk mem block slab carved free live) (hp : p ∈ live)
    (hsame : SameOutside p slab.chunkSize mem mem') : SlabOk mem' block slab carved free live := by
  apply h.congr
  intro q hq
  have hp' := Multiset.mem_add.mpr (Or.inr hp : p ∈ (free : Multiset Ptr) ∨ p ∈ live)
  have hq' := Multiset.mem_add.mpr
    (Or.inl (Multiset.mem_coe.mpr hq) : q ∈ (free : Multiset Ptr) ∨ q ∈ live)
  apply hsame.read
  refine (h.apart hp' hq' (h.free_ne hp hq)).mono le_rfl ?_
  have := h.link_le
  simp only [itemSize] at this
  omega

theorem SlabOk.write_other {n : ℕ} (h : SlabOk mem block slab carved free live)
    (hne : p.block ≠ block) (hsame : SameOutside p n mem mem') :
    SlabOk mem' block slab carved free live := by
  apply h.congr
  intro q hq
  apply hsame.read
  left
  rw [(h.inside (Multiset.mem_add.mpr (Or.inl (Multiset.mem_coe.mpr hq)))).1]
  exact hne

/-- With an empty free list the next chunk is the one at `bump`. -/
theorem SlabOk.bumped (h : SlabOk mem block slab carved free live)
    (hfree : slab.freeList = none) (hcount : 0 < slab.freeCount) :
    slab.bump ∉ live ∧ SlabOk mem block { slab with
      bump := slab.bump.add slab.chunkSize
      freeCount := slab.freeCount - 1 } (carved + 1) [] (slab.bump ::ₘ live) := by
  have hlinked := h.linked
  rw [hfree] at hlinked
  cases hlinked
  have hpart := h.part
  rw [Multiset.coe_nil, zero_add] at hpart
  have hcard : live.card = carved := by rw [hpart, Multiset.card_map, Multiset.card_range]
  have hcnt := h.count
  constructor
  · rw [h.bump, hpart]
    intro hm
    obtain ⟨k, hk, he⟩ := Multiset.mem_map.mp hm
    have := chunkAt_inj h.chunk_pos he
    rw [Multiset.mem_range] at hk
    omega
  · exact { h with
      bump := by simp only [h.bump, chunkAt, Ptr.add, Nat.succ_mul, Nat.add_assoc]
      fits := by
        simp only
        omega
      linked := by
        simp only [hfree]
        exact .nil
      part := by
        rw [Multiset.coe_nil, zero_add, hpart, h.bump, Multiset.range_succ, Multiset.map_cons]
      count := by
        simp only [Multiset.card_cons]
        omega }

theorem SlabOk.popped {item : Ptr} {next : Option Ptr} {rest : List Ptr}
    (h : SlabOk mem block slab carved (item :: rest) live) (tail : Linked mem next rest)
    (hcount : 0 < slab.freeCount) :
    item ∉ live ∧ SlabOk mem block { slab with
      freeList := next
      freeCount := slab.freeCount - 1 } carved rest (item ::ₘ live) := by
  have hnd := h.nodup
  rw [← Multiset.cons_coe, Multiset.cons_add, Multiset.nodup_cons, Multiset.mem_add,
    not_or] at hnd
  have hcnt := h.count
  refine ⟨hnd.1.2, { h with linked := tail, part := ?_, count := ?_ }⟩
  · rw [← h.part, ← Multiset.cons_coe, Multiset.add_cons, Multiset.cons_add]
  · simp only [Multiset.card_cons]
    omega

/-- With a chunk left, `takeChunk` hands out a free chunk or carves the next one. -/
theorem takeChunk_spec {alloc : SlabAllocator}
    (h : SlabOk alloc.mem block slab carved free live) (hblock : block < alloc.slabs.length)
    (hcount : 0 < slab.freeCount) :
    ∃ p slab' carved' free', takeChunk alloc slab = some (p, slab') ∧
      slab'.chunkSize = slab.chunkSize ∧ slab'.parentSlabClass = slab.parentSlabClass ∧
      slab'.freeCount = slab.freeCount ∧ p ∉ live ∧
      SlabOk alloc.mem block { slab' with freeCount := slab'.freeCount - 1 } carved' free'
        (p ::ₘ live) := by
  cases hfree : slab.freeList with
  | none =>
    obtain ⟨hp, hok⟩ := h.bumped hfree hcount
    exact ⟨slab.bump, { slab with bump := slab.bump.add slab.chunkSize }, carved + 1, [],
      by simp only [takeChunk, hfree], rfl, rfl, rfl, hp, hok⟩
  | some item =>
    have hlinked := h.linked
    rw [hfree] at hlinked
    cases hlinked with
    | @cons _ next rest link tail =>
      have hmem : item ∈ ((item :: rest : List Ptr) : Multiset Ptr) + live :=
        Multiset.mem_add.mpr (Or.inl (by simp))
      obtain ⟨hb, hlo, hhi, -, -⟩ := h.inside hmem
      have hin : alloc.InMem item 8 := by
        refine ⟨by rw [hb]; exact hblock, hlo, ?_⟩
        have := h.link_le
        simp only [itemSize] at this
        omega
      have hload : alloc.loadPtr item = some next := by
        simp only [SlabAllocator.loadPtr, SlabAllocator.load, if_pos hin, Option.bind_eq_bind,
          Option.bind_some]
        exact link
      obtain ⟨hp, hok⟩ := h.popped tail hcount
      refine ⟨item, { slab with freeList := next }, carved, rest, ?_, rfl, rfl, rfl, hp, hok⟩
      simp only [takeChunk, hfree, hload, Option.bind_eq_bind, Option.bind_some]

/-- A live chunk whose first eight bytes link to the free list becomes its head. -/
theorem SlabOk.pushed (h : SlabOk mem block slab carved free (p ::ₘ live))
    (hsame : SameOutside p slab.chunkSize mem mem')
    (hlink : toPtr (readCells mem' p 8) = some slab.freeList) :
    SlabOk mem' block { slab with freeList := some p, freeCount := slab.freeCount + 1 } carved
      (p :: free) live := by
  have hw := h.write_live (Multiset.mem_cons_self p live) hsame
  have hcnt := h.count
  exact {
    chunk_min := h.chunk_min
    chunk_max := h.chunk_max
    chunk_align := h.chunk_align
    bump := h.bump
    fits := h.fits
    linked := .cons hlink hw.linked
    part := by
      rw [← h.part, ← Multiset.cons_coe, Multiset.cons_add, Multiset.add_cons]
    count := by
      rw [Multiset.card_cons] at hcnt
      simp only
      omega }

end Kvx.SlabAlloc
