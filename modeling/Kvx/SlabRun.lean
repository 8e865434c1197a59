import Kvx.SlabOps

/-!
# Runs of the allocator

In every state that allocations, frees and writes of item data can reach, the chunks of
the live items are disjoint and lie where they should, and no write of an item's data
reaches a free list or another item.
-/
namespace Kvx.SlabAlloc

open Kvx.Lib

variable {alloc alloc' : SlabAllocator} {live : Multiset Ptr} {p q : Ptr} {slab : Slab}

theorem store_spec (h : AllocInv alloc live) (hp : p ∈ live)
    (hs : alloc.slabs[p.block]? = some slab) {a : ℕ} (cells : List Cell) (hlo : 8 ≤ a)
    (hmid : a + cells.length ≤ offDataSize ∨ offDataSize + 4 ≤ a)
    (hhi : a + cells.length ≤ slab.chunkSize) :
    alloc.store (p.add a) cells =
        some { alloc with mem := writeCells alloc.mem (p.add a) cells } ∧
      AllocInv { alloc with mem := writeCells alloc.mem (p.add a) cells } live := by
  obtain ⟨slab₁, carved, free, hs₁, hok, hpm⟩ := h.slabs.get hp
  rw [hs, Option.some.injEq] at hs₁
  subst hs₁
  obtain ⟨-, hplo, hphi, -, -⟩ := hok.inside (hok.mem_live hpm)
  have hsame := sameOutside_writeCells alloc.mem (p.add a) cells
  have hwide := hsame.widen hhi
  refine ⟨store_eq ⟨h.slabs.block p hp, ?_, ?_⟩, ⟨fun b s hbs => ?_, h.slabs.block,
    fun q hq s hqs => ?_⟩, ⟨h.classes.cls, h.classes.parent, h.classes.sizes⟩⟩
  · simp only [Ptr.add_off]
    omega
  · simp only [Ptr.add_off]
    omega
  · obtain ⟨c, f, hsok⟩ := h.slabs.slab b s hbs
    by_cases hb : p.block = b
    · subst hb
      rw [hs, Option.some.injEq] at hbs
      subst hbs
      exact ⟨c, f, hsok.write_live hpm hwide⟩
    · exact ⟨c, f, hsok.write_other hb hwide⟩
  · have hold := h.slabs.header q hq s hqs
    by_cases hpq : p = q
    · subst hpq
      refine hold.congr (hsame.read ?_) (hsame.read ?_)
      · unfold Apart
        simp only [Ptr.add_off]
        omega
      · unfold Apart
        simp only [Ptr.add_off, offDataSize] at *
        omega
    · obtain ⟨s', c, f, hs', hsok, -⟩ := h.slabs.get hq
      have hle := hsok.link_le
      rw [hqs, Option.some.injEq] at hs'
      subst hs'
      exact hold.write hwide (h.slabs.apart hp hq hpq hs hqs) hle

/-- The chunks found by following at most `fuel` links. -/
def freeChunks (mem : Ptr → Cell) : ℕ → Option Ptr → List Ptr
  | fuel + 1, some p => p :: freeChunks mem fuel ((toPtr (readCells mem p 8)).getD none)
  | _, _ => []

def slabFreeList (alloc : SlabAllocator) (slab : Slab) : List Ptr :=
  freeChunks alloc.mem (capacity slab.chunkSize) slab.freeList

/-- A carved chunk that is not on the free list of its slab. -/
def SlabAllocator.Live (alloc : SlabAllocator) (p : Ptr) : Prop :=
  ∃ slab k, alloc.slabs[p.block]? = some slab ∧ p = chunkAt p.block slab.chunkSize k ∧
    p.off < slab.bump.off ∧ p ∉ slabFreeList alloc slab

theorem Linked.freeChunks_eq {mem : Ptr → Cell} {head : Option Ptr} {free : List Ptr}
    (h : Linked mem head free) {fuel : ℕ} (hf : free.length ≤ fuel) :
    freeChunks mem fuel head = free := by
  induction h generalizing fuel with
  | nil => cases fuel <;> rfl
  | cons link tail ih =>
    cases fuel with
    | zero => simp at hf
    | succ fuel =>
      simp only [freeChunks, link, Option.getD_some]
      rw [ih (by simpa using hf)]

theorem SlabOk.freeList_eq {block carved : ℕ} {free : List Ptr}
    (h : SlabOk alloc.mem block slab carved free live) : slabFreeList alloc slab = free := by
  apply h.linked.freeChunks_eq
  have hcard := congrArg Multiset.card h.part
  rw [Multiset.card_add, Multiset.coe_card, Multiset.card_map, Multiset.card_range] at hcard
  have := h.fits
  omega

theorem AllocInv.live_iff (h : AllocInv alloc live) (p : Ptr) : p ∈ live ↔ alloc.Live p := by
  constructor
  · intro hp
    obtain ⟨slab, carved, free, hs, hok, hpm⟩ := h.slabs.get hp
    obtain ⟨k, hk, hpk⟩ := hok.chunk (hok.mem_live hpm)
    refine ⟨slab, k, hs, hpk, ?_, ?_⟩
    · have hoff := congrArg Ptr.off hpk
      rw [hoff, hok.bump]
      have := Nat.mul_lt_mul_of_pos_right hk hok.chunk_pos
      simp only [chunkAt]
      omega
    · rw [hok.freeList_eq]
      exact fun hf => hok.free_ne hpm hf rfl
  · rintro ⟨slab, k, hs, hpk, hlt, hfree⟩
    obtain ⟨carved, free, hok⟩ := h.slabs.slab p.block slab hs
    rw [hok.freeList_eq] at hfree
    have hk : k < carved := by
      by_contra hge
      have hoff := congrArg Ptr.off hpk
      rw [hoff, hok.bump] at hlt
      have := Nat.mul_le_mul_right slab.chunkSize (not_lt.mp hge)
      simp only [chunkAt] at hlt
      omega
    have hmem : p ∈ (free : Multiset Ptr) + liveAt live p.block := by
      rw [hok.part, hpk]
      exact Multiset.mem_map.mpr ⟨k, Multiset.mem_range.mpr hk, by simp [chunkAt]⟩
    rcases Multiset.mem_add.mp hmem with hf | hl
    · exact absurd (Multiset.mem_coe.mp hf) hfree
    · exact (mem_liveAt.mp hl).1

def itemDataSize (alloc : SlabAllocator) (p : Ptr) : Option ℕ :=
  alloc.loadNat (p.add offDataSize) 4

/-- A write to `item->data + off`. -/
def itemWrite (alloc : SlabAllocator) (p : Ptr) (off : ℕ) (bytes : List UInt8) :
    Option SlabAllocator :=
  alloc.store (p.add (itemSize + off)) (byteCells bytes)

/-- The states reached from `slab_allocator_init`, with the live items and the sizes they were
allocated for. -/
inductive Reaches (leftover : Ptr → Cell) : SlabAllocator → List (Ptr × ℕ) → Prop
  | init : Reaches leftover (slabAllocatorInit leftover) []
  | alloc {alloc alloc' : SlabAllocator} {live : List (Ptr × ℕ)} {dataLen : ℕ} {r : Option Ptr}
      (before : Reaches leftover alloc live) (pos : 1 ≤ dataLen) (max : dataLen ≤ 2 ^ 19 - 24)
      (run : slabAllocatorAllocItem alloc dataLen = some (alloc', r)) :
      Reaches leftover alloc' (r.elim live fun p => (p, dataLen) :: live)
  | free {alloc alloc' : SlabAllocator} {live : List (Ptr × ℕ)} {p : Ptr} {dataLen : ℕ}
      (before : Reaches leftover alloc live) (item : (p, dataLen) ∈ live)
      (run : slabAllocatorFreeItem alloc p = some alloc') :
      Reaches leftover alloc' (live.erase (p, dataLen))
  | write {alloc alloc' : SlabAllocator} {live : List (Ptr × ℕ)} {p : Ptr} {dataLen off size : ℕ}
      {bytes : List UInt8} (before : Reaches leftover alloc live) (item : (p, dataLen) ∈ live)
      (data_size : itemDataSize alloc p = some size) (fits : off + bytes.length ≤ size)
      (run : itemWrite alloc p off bytes = some alloc') : Reaches leftover alloc' live

/-- The chunks of the live items. -/
structure Placed (alloc : SlabAllocator) (live : List (Ptr × ℕ)) : Prop where
  disjoint : live.Pairwise fun a b => ∀ s s', alloc.slabs[a.1.block]? = some s →
    alloc.slabs[b.1.block]? = some s' → Apart a.1 s.chunkSize b.1 s'.chunkSize
  inside : ∀ p dataLen, (p, dataLen) ∈ live → ∃ slab size, alloc.slabs[p.block]? = some slab ∧
    sizeofSlab ≤ p.off ∧ p.off + slab.chunkSize ≤ slabSize ∧
    (p.off - sizeofSlab) % slab.chunkSize = 0 ∧ p.off % alignofItem = 0 ∧
    itemDataSize alloc p = some size ∧ dataLen ≤ size ∧ itemSize + size = slab.chunkSize ∧
    alloc.loadPtr p = some (some ⟨p.block, 0⟩)

structure WritesOnly (alloc alloc' : SlabAllocator) (live : List (Ptr × ℕ)) (p : Ptr) : Prop where
  slabs : alloc'.slabs = alloc.slabs
  classes : alloc'.classes = alloc.classes
  freeLists : ∀ (block : ℕ) (slab : Slab), alloc.slabs[block]? = some slab →
    slabFreeList alloc' slab = slabFreeList alloc slab
  items : ∀ q dataLen slab i, (q, dataLen) ∈ live → q ≠ p → alloc.slabs[q.block]? = some slab →
    i < slab.chunkSize → alloc'.mem (q.add i) = alloc.mem (q.add i)

/-- The live items of a run, and that each has room for the size it was allocated for. -/
structure RunInv (alloc : SlabAllocator) (live : List (Ptr × ℕ)) : Prop where
  inv : AllocInv alloc (live.map Prod.fst : List Ptr)
  large : ∀ p dataLen, (p, dataLen) ∈ live →
    ∃ slab, alloc.slabs[p.block]? = some slab ∧ dataLen + itemSize ≤ slab.chunkSize

theorem mem_live {live : List (Ptr × ℕ)} {dataLen : ℕ} (h : (p, dataLen) ∈ live) :
    p ∈ ((live.map Prod.fst : List Ptr) : Multiset Ptr) :=
  Multiset.mem_coe.mpr (List.mem_map.mpr ⟨_, h, rfl⟩)

theorem AllocInv.header (h : AllocInv alloc live) (hp : p ∈ live) :
    ∃ slab, alloc.slabs[p.block]? = some slab ∧ itemSize ≤ slab.chunkSize ∧
      sizeofSlab ≤ p.off ∧ p.off + slab.chunkSize ≤ slabSize ∧
      (p.off - sizeofSlab) % slab.chunkSize = 0 ∧ p.off % alignofItem = 0 ∧
      itemDataSize alloc p = some (slab.chunkSize - itemSize) ∧
      alloc.loadPtr p = some (some ⟨p.block, 0⟩) := by
  obtain ⟨slab, carved, free, hs, hok, hpm⟩ := h.slabs.get hp
  obtain ⟨-, hlo, hhi, hmul, halign⟩ := hok.inside (hok.mem_live hpm)
  have hlt := h.slabs.block p hp
  have hle := hok.link_le
  have hheader := h.slabs.header p hp slab hs
  simp only [itemSize] at hle
  have hin₈ : alloc.InMem p 8 := ⟨hlt, hlo, by omega⟩
  have hin₄ : alloc.InMem (p.add offDataSize) 4 := by
    refine ⟨hlt, ?_, ?_⟩
    · exact hlo.trans (Nat.le_add_right _ _)
    · simp only [Ptr.add_off, offDataSize]
      omega
  refine ⟨slab, hs, hok.link_le, hlo, hhi, hmul, halign, ?_, ?_⟩
  · simp only [itemDataSize, SlabAllocator.loadNat, SlabAllocator.load, if_pos hin₄,
      Option.bind_eq_bind, Option.bind_some]
    exact hheader.data_size
  · simp only [SlabAllocator.loadPtr, SlabAllocator.load, if_pos hin₈, Option.bind_eq_bind,
      Option.bind_some]
    exact hheader.slab_ptr

theorem RunInv.placed {live : List (Ptr × ℕ)} (h : RunInv alloc live) : Placed alloc live := by
  refine ⟨?_, fun p dataLen hp => ?_⟩
  · have hnd := h.inv.slabs.live_nodup
    rw [Multiset.coe_nodup, List.Nodup, List.pairwise_map] at hnd
    refine hnd.imp_of_mem fun ha hb hne s s' hs hs' => ?_
    exact h.inv.slabs.apart (mem_live ha) (mem_live hb) hne hs hs'
  · obtain ⟨slab, hs, hle, hlo, hhi, hmul, halign, hsize, hptr⟩ := h.inv.header (mem_live hp)
    obtain ⟨slab', hs', hlarge⟩ := h.large p dataLen hp
    rw [hs, Option.some.injEq] at hs'
    subst hs'
    exact ⟨slab, _, hs, hlo, hhi, hmul, halign, hsize, by omega, by omega, hptr⟩

theorem RunInv.write {live : List (Ptr × ℕ)} (h : RunInv alloc live) {dataLen off size : ℕ}
    {bytes : List UInt8} (hp : (p, dataLen) ∈ live) (hsize : itemDataSize alloc p = some size)
    (hfit : off + bytes.length ≤ size) :
    ∃ alloc', itemWrite alloc p off bytes = some alloc' ∧ RunInv alloc' live ∧
      WritesOnly alloc alloc' live p := by
  obtain ⟨slab, hs, hle, -, -, -, -, hsize', -⟩ := h.inv.header (mem_live hp)
  rw [hsize, Option.some.injEq] at hsize'
  subst hsize'
  have hhi : itemSize + off + (byteCells bytes).length ≤ slab.chunkSize := by
    rw [length_byteCells]
    omega
  obtain ⟨hrun, hinv⟩ := store_spec h.inv (mem_live hp) hs (a := itemSize + off)
    (byteCells bytes) (by simp only [itemSize]; omega)
    (Or.inr (by simp only [itemSize, offDataSize]; omega)) hhi
  have hsame := (sameOutside_writeCells alloc.mem (p.add (itemSize + off))
    (byteCells bytes)).widen hhi
  refine ⟨_, hrun, ⟨hinv, h.large⟩, rfl, rfl, fun b s hbs => ?_, fun q n s i hq hne hqs hi => ?_⟩
  · obtain ⟨c, f, hok⟩ := h.inv.slabs.slab b s hbs
    obtain ⟨c', f', hok'⟩ := hinv.slabs.slab b s hbs
    rw [hok.freeList_eq, hok'.freeList_eq]
    by_cases hb : p.block = b
    · subst hb
      rw [hs, Option.some.injEq] at hbs
      subst hbs
      have hw := hok.write_live (mem_liveAt.mpr ⟨mem_live hp, rfl⟩) hsame
      exact hok'.freeList_eq.symm.trans hw.freeList_eq
    · have hw := hok.write_other hb hsame
      exact hok'.freeList_eq.symm.trans hw.freeList_eq
  · apply hsame
    have hd := h.inv.slabs.apart (mem_live hp) (mem_live hq) (Ne.symm hne) hs hqs
    unfold Outside Apart at *
    simp only [Ptr.add_block, Ptr.add_off]
    omega

theorem RunInv.allocItem {live : List (Ptr × ℕ)} (h : RunInv alloc live) {dataLen : ℕ}
    (hpos : 1 ≤ dataLen) (hmax : dataLen ≤ 2 ^ 19 - 24) :
    ∃ alloc' p, slabAllocatorAllocItem alloc dataLen = some (alloc', some p) ∧
      RunInv alloc' ((p, dataLen) :: live) := by
  obtain ⟨alloc', p, hrun, ha⟩ := alloc_spec h.inv hpos
    (by simp only [itemSize, maxDataChunkSize]; omega)
  refine ⟨alloc', p, hrun, ha.inv, fun q n hq => ?_⟩
  rcases List.mem_cons.mp hq with he | hq
  · obtain ⟨rfl, rfl⟩ := Prod.mk.inj he
    exact ha.large
  · obtain ⟨s, hs, hlarge⟩ := h.large q n hq
    obtain ⟨s', hs', hc⟩ := ha.kept q.block s hs
    exact ⟨s', hs', by rw [hc]; exact hlarge⟩

theorem RunInv.free {live : List (Ptr × ℕ)} (h : RunInv alloc live) {dataLen : ℕ}
    (hp : (p, dataLen) ∈ live) :
    ∃ alloc', slabAllocatorFreeItem alloc p = some alloc' ∧
      RunInv alloc' (live.erase (p, dataLen)) := by
  have hperm : ((live.map Prod.fst : List Ptr) : Multiset Ptr) =
      p ::ₘ ((live.erase (p, dataLen)).map Prod.fst : List Ptr) := by
    rw [Multiset.cons_coe, Multiset.coe_eq_coe]
    exact (List.perm_cons_erase hp).map Prod.fst
  have hinv := h.inv
  rw [hperm] at hinv
  obtain ⟨alloc', hrun, hinv', hkept, -⟩ := free_spec hinv
  refine ⟨alloc', hrun, hinv', fun q n hq => ?_⟩
  obtain ⟨s, hs, hlarge⟩ := h.large q n (List.mem_of_mem_erase hq)
  obtain ⟨s', hs', hc⟩ := hkept q.block s hs
  exact ⟨s', hs', by rw [hc]; exact hlarge⟩

theorem Reaches.runInv {leftover : Ptr → Cell} {live : List (Ptr × ℕ)}
    (h : Reaches leftover alloc live) : RunInv alloc live := by
  induction h with
  | init => exact ⟨init_inv leftover, by simp⟩
  | alloc _ pos max run ih =>
    obtain ⟨_, p, hrun, hinv⟩ := ih.allocItem pos max
    rw [run, Option.some.injEq, Prod.mk.injEq] at hrun
    obtain ⟨rfl, rfl⟩ := hrun
    exact hinv
  | free _ item run ih =>
    obtain ⟨_, hrun, hinv⟩ := ih.free item
    rw [run, Option.some.injEq] at hrun
    exact hrun ▸ hinv
  | write _ item data_size fits run ih =>
    obtain ⟨_, hrun, hinv, -⟩ := ih.write item data_size fits
    rw [run, Option.some.injEq] at hrun
    exact hrun ▸ hinv

/-- What holds of a state of a run, and of the next call. -/
structure Safe (alloc : SlabAllocator) (live : List (Ptr × ℕ)) : Prop where
  placed : Placed alloc live
  allocates : ∀ dataLen, 1 ≤ dataLen → dataLen ≤ 2 ^ 19 - 24 →
    ∃ alloc' p, slabAllocatorAllocItem alloc dataLen = some (alloc', some p)
  frees : ∀ p dataLen, (p, dataLen) ∈ live → ∃ alloc', slabAllocatorFreeItem alloc p = some alloc'
  writes : ∀ p dataLen size off bytes, (p, dataLen) ∈ live → itemDataSize alloc p = some size →
    off + bytes.length ≤ size →
    ∃ alloc', itemWrite alloc p off bytes = some alloc' ∧ WritesOnly alloc alloc' live p

theorem chunks_never_overlap {leftover : Ptr → Cell} {live : List (Ptr × ℕ)}
    (h : Reaches leftover alloc live) : Safe alloc live := by
  have hinv := h.runInv
  refine ⟨hinv.placed, fun dataLen hpos hmax => ?_, fun p dataLen hp => ?_,
    fun p dataLen size off bytes hp hsize hfit => ?_⟩
  · obtain ⟨alloc', p, hrun, -⟩ := hinv.allocItem hpos hmax
    exact ⟨alloc', p, hrun⟩
  · obtain ⟨alloc', hrun, -⟩ := hinv.free hp
    exact ⟨alloc', hrun⟩
  · obtain ⟨alloc', hrun, -, honly⟩ := hinv.write hp hsize hfit
    exact ⟨alloc', hrun, honly⟩

/-- An allocator after one allocation, after a second one, after the first item is freed, and after
a third allocation. -/
def oneItem : SlabAllocator × Option Ptr :=
  (slabAllocatorAllocItem (slabAllocatorInit fun _ => .byte 0) 10).get (by decide +kernel)

def twoItems : SlabAllocator × Option Ptr :=
  (slabAllocatorAllocItem oneItem.1 20).get (by decide +kernel)

def freedItem : SlabAllocator :=
  (slabAllocatorFreeItem twoItems.1 ⟨0, 40⟩).get (by decide +kernel)

def reusedItem : SlabAllocator × Option Ptr :=
  (slabAllocatorAllocItem freedItem 15).get (by decide +kernel)

theorem allocItem_get {alloc : SlabAllocator} {dataLen : ℕ} {p : Ptr}
    (h : (slabAllocatorAllocItem alloc dataLen).isSome)
    (hitem : ((slabAllocatorAllocItem alloc dataLen).get h).2 = some p) :
    slabAllocatorAllocItem alloc dataLen =
      some (((slabAllocatorAllocItem alloc dataLen).get h).1, some p) := by
  rw [← hitem, Prod.mk.eta, Option.some_get]

theorem oneItem_run : slabAllocatorAllocItem (slabAllocatorInit fun _ => .byte 0) 10 =
    some (oneItem.1, some ⟨0, 40⟩) :=
  allocItem_get _ (by decide +kernel)

theorem twoItems_run :
    slabAllocatorAllocItem oneItem.1 20 = some (twoItems.1, some ⟨0, 88⟩) :=
  allocItem_get _ (by decide +kernel)

theorem freedItem_run : slabAllocatorFreeItem twoItems.1 ⟨0, 40⟩ = some freedItem :=
  (Option.some_get _).symm

theorem reusedItem_run :
    slabAllocatorAllocItem freedItem 15 = some (reusedItem.1, some ⟨0, 40⟩) :=
  allocItem_get _ (by decide +kernel)

theorem chunks_never_overlap_reused : Safe reusedItem.1 [(⟨0, 40⟩, 15), (⟨0, 88⟩, 20)] := by
  have hone : Reaches (fun _ => .byte 0) oneItem.1 [(⟨0, 40⟩, 10)] :=
    .alloc .init (by decide) (by decide) oneItem_run
  have htwo : Reaches (fun _ => .byte 0) twoItems.1 [(⟨0, 88⟩, 20), (⟨0, 40⟩, 10)] :=
    .alloc hone (by decide) (by decide) twoItems_run
  have hfirst : ((⟨0, 40⟩ : Ptr), 10) ∈ [((⟨0, 88⟩ : Ptr), 20), (⟨0, 40⟩, 10)] := by decide
  have hfreed : Reaches (fun _ => .byte 0) freedItem [(⟨0, 88⟩, 20)] :=
    .free htwo hfirst freedItem_run
  exact chunks_never_overlap (.alloc hfreed (by decide) (by decide) reusedItem_run)

end Kvx.SlabAlloc
