import Kvx.SlabRun

/-!
# The books of the slab classes

In every state that allocations, frees and writes into live items can reach, the stack of
each class lists the slabs of the class that have a free chunk, each of them once, and
`free_count` counts the chunks of a slab that are not live. No call then writes past the
end of `slabs` or `free_stack`.
-/
namespace Kvx.SlabAlloc

open Kvx.Lib

variable {alloc : SlabAllocator} {leftover : Ptr → Cell} {live : List Ptr}

/-- The states reached from `slab_allocator_init`, with the live items. An owner writes where it
likes in its item, `slab_ptr` and `data_size` aside. -/
inductive ItemRun (leftover : Ptr → Cell) : SlabAllocator → List Ptr → Prop
  | init : ItemRun leftover (slabAllocatorInit leftover) []
  | alloc {alloc alloc' : SlabAllocator} {live : List Ptr} {dataLen : ℕ} {r : Option Ptr}
      (before : ItemRun leftover alloc live)
      (run : slabAllocatorAllocItem alloc dataLen = some (alloc', r)) :
      ItemRun leftover alloc' (r.toList ++ live)
  | free {alloc alloc' : SlabAllocator} {live : List Ptr} {p : Ptr}
      (before : ItemRun leftover alloc live) (item : p ∈ live)
      (run : slabAllocatorFreeItem alloc p = some alloc') :
      ItemRun leftover alloc' (live.erase p)
  | write {alloc alloc' : SlabAllocator} {live : List Ptr} {p : Ptr} {slab : Slab} {off : ℕ}
      {cells : List Cell} (before : ItemRun leftover alloc live) (item : p ∈ live)
      (slabOf : alloc.slabs[p.block]? = some slab) (lo : 8 ≤ off)
      (mid : off + cells.length ≤ offDataSize ∨ offDataSize + 4 ≤ off)
      (hi : off + cells.length ≤ slab.chunkSize)
      (run : alloc.store (p.add off) cells = some alloc') : ItemRun leftover alloc' live

theorem AllocInv.freeItem (h : AllocInv alloc live) {p : Ptr} (hp : p ∈ live) :
    ∃ alloc', slabAllocatorFreeItem alloc p = some alloc' ∧
      AllocInv alloc' (live.erase p : List Ptr) := by
  have hperm : (live : Multiset Ptr) = p ::ₘ (live.erase p : List Ptr) := by
    rw [Multiset.cons_coe, Multiset.coe_eq_coe]
    exact List.perm_cons_erase hp
  rw [hperm] at h
  obtain ⟨alloc', hrun, hinv, -⟩ := free_spec h
  exact ⟨alloc', hrun, hinv⟩

/-- Every request is answered, with a fresh chunk or with `NULL`. -/
theorem AllocInv.allocItem (h : AllocInv alloc live) (dataLen : ℕ) :
    ∃ alloc' r, slabAllocatorAllocItem alloc dataLen = some (alloc', r) ∧
      AllocInv alloc' (r.toList ++ live : List Ptr) := by
  rcases alloc_refused_or dataLen with hrefused | ⟨hpos, hmax⟩
  · exact ⟨alloc, none, hrefused alloc, h⟩
  · obtain ⟨alloc', p, hrun, ha⟩ := alloc_sizeT h hpos hmax
    refine ⟨alloc', some p, hrun, ?_⟩
    have hinv := ha.inv
    rwa [Multiset.cons_coe] at hinv

theorem ItemRun.inv (h : ItemRun leftover alloc live) : AllocInv alloc live := by
  induction h with
  | init => exact init_inv leftover
  | alloc _ run ih =>
    obtain ⟨alloc', r, hrun, hinv⟩ := ih.allocItem _
    rw [run, Option.some.injEq, Prod.mk.injEq] at hrun
    obtain ⟨rfl, rfl⟩ := hrun
    exact hinv
  | free _ item run ih =>
    obtain ⟨alloc', hrun, hinv⟩ := ih.freeItem item
    rw [run, Option.some.injEq] at hrun
    exact hrun ▸ hinv
  | write _ item slabOf lo mid hi run ih =>
    obtain ⟨hrun, hinv⟩ := store_spec ih (Multiset.mem_coe.mpr item) slabOf _ lo mid hi
    rw [run, Option.some.injEq] at hrun
    exact hrun ▸ hinv

def liveChunks (live : List Ptr) (block : ℕ) : ℕ := live.countP fun p => p.block = block

theorem card_liveAt (live : List Ptr) (block : ℕ) :
    (liveAt (live : Multiset Ptr) block).card = liveChunks live block := by
  rw [liveAt, Multiset.filter_coe, Multiset.coe_card, liveChunks, List.countP_eq_length_filter]

/-- The books of one class: `slabs` lists its slabs, `free_stack` those with a chunk left. -/
structure ClassBooks (alloc : SlabAllocator) (idx : ℕ) (sc : SlabClass) : Prop where
  slabs_nodup : sc.slabs.Nodup
  slabs : ∀ b, b ∈ sc.slabs ↔ ∃ slab, alloc.slabs[b]? = some slab ∧ slab.parentSlabClass = idx
  stack_nodup : sc.freeStack.Nodup
  stack : ∀ b, b ∈ sc.freeStack ↔
    b ∈ sc.slabs ∧ ∃ slab, alloc.slabs[b]? = some slab ∧ 0 < slab.freeCount
  stack_le : sc.freeStack.length ≤ sc.slabs.length
  slabs_le : sc.slabs.length ≤ sc.slabsCap

theorem ClassOk.books {idx : ℕ} {sc : SlabClass} (h : ClassOk alloc.slabs idx sc) :
    ClassBooks alloc idx sc := by
  have hsub : ∀ b ∈ sc.freeStack, b ∈ sc.slabs := by
    intro b hb
    obtain ⟨slab, hs, hp, -⟩ := (h.stack_mem b).mp hb
    exact (h.slabs_mem b).mpr ⟨slab, hs, hp⟩
  refine ⟨h.slabs_nodup, h.slabs_mem, h.stack_nodup, fun b => ⟨fun hb => ?_, ?_⟩,
    (List.subperm_of_subset h.stack_nodup hsub).length_le, h.cap⟩
  · obtain ⟨slab, hs, -, hc⟩ := (h.stack_mem b).mp hb
    exact ⟨hsub b hb, slab, hs, hc⟩
  · rintro ⟨hb, slab, hs, hc⟩
    obtain ⟨slab', hs', hp⟩ := (h.slabs_mem b).mp hb
    rw [hs, Option.some.injEq] at hs'
    exact (h.stack_mem b).mpr ⟨slab, hs, hs' ▸ hp, hc⟩

/-- `free_count` counts the chunks of a slab that are not live. -/
structure SlabBooks (slab : Slab) (block : ℕ) (live : List Ptr) : Prop where
  live_le : liveChunks live block ≤ capacity slab.chunkSize
  count : slab.freeCount = capacity slab.chunkSize - liveChunks live block

theorem AllocInv.slabBooks (h : AllocInv alloc live) {block : ℕ} {slab : Slab}
    (hs : alloc.slabs[block]? = some slab) : SlabBooks slab block live := by
  obtain ⟨carved, free, hok⟩ := h.slabs.slab block slab hs
  have hcount := hok.count
  rw [card_liveAt] at hcount
  exact ⟨by omega, by omega⟩

/-- What holds of a state of a run, and of the next call. -/
structure Books (alloc : SlabAllocator) (live : List Ptr) : Prop where
  live_nodup : live.Nodup
  classes : ∀ idx sc, alloc.classes[idx]? = some sc → ClassBooks alloc idx sc
  slabs : ∀ block slab, alloc.slabs[block]? = some slab → SlabBooks slab block live
  allocates : ∀ dataLen, ∃ result, slabAllocatorAllocItem alloc dataLen = some result
  frees : ∀ p ∈ live, ∃ alloc', slabAllocatorFreeItem alloc p = some alloc'
  serves : ∀ idx sc, alloc.classes[idx]? = some sc → ∃ alloc' p,
    slabClassAllocItem alloc idx = some (alloc', some p) ∧ FromTop alloc idx sc alloc' p

theorem slab_bookkeeping (h : ItemRun leftover alloc live) : Books alloc live := by
  have hinv := h.inv
  refine ⟨Multiset.coe_nodup.mp hinv.slabs.live_nodup,
    fun idx sc hsc => (hinv.classes.cls idx sc hsc).books, fun block slab hs => hinv.slabBooks hs,
    fun dataLen => ?_, fun p hp => ?_, fun idx sc hsc => ?_⟩
  · obtain ⟨alloc', r, hrun, -⟩ := hinv.allocItem dataLen
    exact ⟨(alloc', r), hrun⟩
  · obtain ⟨alloc', hrun, -⟩ := hinv.freeItem hp
    exact ⟨alloc', hrun⟩
  · obtain ⟨alloc', p, hrun, -, htop⟩ := classAlloc_spec hinv hsc
    exact ⟨alloc', p, hrun, htop⟩

/-- Allocations of the sizes listed, one after the other. -/
def allocItems (s : SlabAllocator × List Ptr) (sizes : List ℕ) :
    Option (SlabAllocator × List Ptr) :=
  sizes.foldlM (fun s dataLen => do
    let (alloc, r) ← slabAllocatorAllocItem s.1 dataLen
    some (alloc, r.toList ++ s.2)) s

theorem ItemRun.allocItems {s s' : SlabAllocator × List Ptr} {sizes : List ℕ}
    (h : ItemRun leftover s.1 s.2) (hrun : allocItems s sizes = some s') :
    ItemRun leftover s'.1 s'.2 := by
  induction sizes generalizing s with
  | nil =>
    rw [← Option.some.inj hrun]
    exact h
  | cons dataLen sizes ih =>
    rw [SlabAlloc.allocItems, List.foldlM_cons, Option.bind_eq_bind,
      Option.bind_eq_some_iff] at hrun
    obtain ⟨next, hnext, hrun⟩ := hrun
    obtain ⟨⟨alloc', r⟩, halloc, hnext⟩ := Option.bind_eq_some_iff.mp hnext
    rw [← Option.some.inj hnext] at hrun
    exact ih (.alloc h halloc) hrun

/-- All chunks of a slab of the largest class. -/
def usedUp : SlabAllocator × List Ptr :=
  (allocItems (slabAllocatorInit fun _ => .byte 0, []) (List.replicate 3 (2 ^ 19 - 24))).get
    (by decide +kernel)

/-- The slab after its second chunk was freed. -/
def givenBack : SlabAllocator :=
  (slabAllocatorFreeItem usedUp.1 (chunkAt 0 maxDataChunkSize 1)).get (by decide +kernel)

theorem slab_bookkeeping_givenBack :
    Books givenBack (usedUp.2.erase (chunkAt 0 maxDataChunkSize 1)) := by
  have hused : ItemRun (fun _ => .byte 0) usedUp.1 usedUp.2 :=
    ItemRun.allocItems .init (Option.some_get _).symm
  exact slab_bookkeeping (.free hused (by decide +kernel) (Option.some_get _).symm)

end Kvx.SlabAlloc
