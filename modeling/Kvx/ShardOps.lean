import Kvx.ShardInv

/-!
# The operations of a shard

A set stores its entry when the item it needs is not larger than the largest chunk. A
larger one is refused when the key is present, and faults when it is absent: the
rollback reads the slot that was claimed and never filled.
-/
namespace Kvx.Store

open Kvx.Lib Kvx.Hashtable Kvx.SlabAlloc Kvx.Item

variable {E : Env} {shard : KvShard} {key : List UInt8} {e : Entry} {M : EntryMap}

/-- The item of the entry is not larger than the largest chunk. -/
def Fits (key : List UInt8) (e : Entry) : Prop :=
  key.length + e.value.length ≤ 2 ^ 19 - 24

instance (key : List UInt8) (e : Entry) : Decidable (Fits key e) :=
  inferInstanceAs (Decidable (_ ≤ _))

/-- The keys and sizes of the calls: `proto_parse_key` lets 1 to 250 bytes through. -/
structure Valid (key : List UInt8) (e : Entry) : Prop where
  key_pos : 1 ≤ key.length
  key_max : key.length ≤ 250
  word : key.length + e.value.length + 24 < 2 ^ 64

theorem dataLen_eq (hword : key.length + e.value.length + 24 < 2 ^ 64) :
    Pages.sizeT (key.length + e.value.length) = key.length + e.value.length :=
  Nat.mod_eq_of_lt (by omega)

theorem Fits.dataLen (h : Fits key e) :
    Pages.sizeT (key.length + e.value.length) = key.length + e.value.length := by
  apply dataLen_eq
  unfold Fits at h
  omega

theorem Fits.size_le (h : Fits key e) :
    key.length + e.value.length + itemSize ≤ maxDataChunkSize := by
  simp only [Fits, itemSize, maxDataChunkSize] at *
  omega

theorem Valid.key_short (h : Valid key e) : key.length < 256 ^ 2 := by
  have := h.key_max
  omega

theorem Valid.pos (h : Valid key e) : 0 < key.length + e.value.length := by
  have := h.key_pos
  omega

theorem store_inPlace {table' : Table Ptr} {alloc : SlabAllocator} {slot : SlotRef}
    {found : Option Ptr} {rest : Multiset Ptr} {item : Ptr} {slab : Slab}
    (h : ShardInv E shard M)
    (hslot : SlotFor E (readKey shard.allocator) shard.table key table' slot found rest)
    (hheap : AllocInv alloc (item ::ₘ rest)) (hs : alloc.slabs[item.block]? = some slab)
    (hlarge : key.length + e.value.length ≤ slab.chunkSize - itemSize)
    (hchunk : itemSize ≤ slab.chunkSize) (hsize : itemDataSize alloc item = some (slab.chunkSize - itemSize))
    (hkeep : ∀ q ∈ rest, ∀ k e', Holds shard.allocator q k e' → Holds alloc q k e')
    (table : Table Ptr) (htable : table = table'.writeSlot slot (some item)) :
    ∃ shard', kvShardStore ⟨table, alloc⟩ slot item (key.length + e.value.length) key e =
        some (shard', .ok) ∧
      (key.length < 256 ^ 2 → ShardInv E shard' (Function.update M key (some e))) := by
  have hi := Multiset.mem_cons_self item rest
  have hroom : itemSize + key.length + e.value.length ≤ slab.chunkSize := by omega
  obtain ⟨mem', hfill, hinv, hsame, hold⟩ := fillItem_spec hheap hi hs hroom
  have hnd := hheap.slabs.live_nodup
  rw [Multiset.nodup_cons] at hnd
  refine ⟨⟨table, { alloc with mem := mem' }⟩, ?_, fun hkey => ?_⟩
  · simp only [kvShardStore, hsize, hfill, Option.bind_eq_bind, Option.bind_some]
    rw [if_neg (by omega)]
  · rw [htable]
    refine h.stored hslot hinv (hold hkey) fun q hq k e' hqk => ?_
    exact filled_keeps hheap hi (Multiset.mem_cons_of_mem hq) (fun he => hnd.1 (he ▸ hq)) hs hsame
      (hkeep q hq k e' hqk)

theorem store_fresh {table' : Table Ptr} {slot : SlotRef} {rest : Multiset Ptr} {item : Ptr}
    {slab : Slab} (h : ShardInv E shard M)
    (hslot : SlotFor E (readKey shard.allocator) shard.table key table' slot (some item) rest)
    (hheap : AllocInv shard.allocator (item ::ₘ rest)) (hfit : Fits key e)
    (hsize : itemDataSize shard.allocator item = some (slab.chunkSize - itemSize))
    (hsmall : slab.chunkSize - itemSize < key.length + e.value.length) :
    ∃ shard', kvShardStore ⟨table', shard.allocator⟩ slot item (key.length + e.value.length) key e =
        some (shard', .ok) ∧
      (key.length < 256 ^ 2 → ShardInv E shard' (Function.update M key (some e))) := by
  obtain ⟨alloc₁, p, halloc, ha⟩ := alloc_spec hheap (Nat.zero_lt_of_lt hsmall) hfit.size_le
  have hinv₁ := ha.inv
  rw [Multiset.cons_swap] at hinv₁
  obtain ⟨alloc₂, hfree, hinv₂, hkept₂, hsame₂⟩ := free_spec hinv₁
  have hp := Multiset.mem_cons_self p rest
  obtain ⟨slab₁, hs₁, hlarge₁⟩ := ha.large
  obtain ⟨slab₂, hs₂, hc₂⟩ := hkept₂ _ slab₁ hs₁
  have hroom : itemSize + key.length + e.value.length ≤ slab₂.chunkSize := by omega
  obtain ⟨mem', hfill, hinv₃, hsame₃, hold⟩ := fillItem_spec hinv₂ hp hs₂ hroom
  have hnd := hinv₂.slabs.live_nodup
  rw [Multiset.nodup_cons] at hnd
  refine ⟨⟨table'.writeSlot slot (some p), { alloc₂ with mem := mem' }⟩, ?_, fun hkey => ?_⟩
  · simp only [kvShardStore, hsize, halloc, hfree, hfill, Option.bind_eq_bind,
      Option.bind_some]
    rw [if_pos (by omega)]
  · refine h.stored hslot hinv₃ (hold hkey) fun q hq k e' hqk => ?_
    have hq₁ := allocated_keeps ha (Multiset.mem_cons_of_mem hq) hqk
    have hq₂ := freed_keeps hinv₁ hkept₂ hsame₂ (Multiset.mem_cons_of_mem hq) hq₁
    exact filled_keeps hinv₂ hp (Multiset.mem_cons_of_mem hq) (fun he => hnd.1 (he ▸ hq)) hs₂
      hsame₃ hq₂

/-- A set whose item is not too large returns. It stores its entry if the length of the key fits
its two bytes. -/
theorem shardSet_fits (h : ShardInv E shard M) (granted : Bool) (hfit : Fits key e)
    (hr : 0 < key.length + e.value.length ∨ M key ≠ none) :
    ∃ shard', kvShardSet E granted shard (E.xxh3 key) key e = some (shard', .ok) ∧
      (key.length < 256 ^ 2 → ShardInv E shard' (Function.update M key (some e))) := by
  obtain ⟨table', slot, found, rest, hrun, hslot⟩ := set_spec h.table granted key
  cases found with
  | none =>
    obtain ⟨rfl, hno⟩ := hslot.absent rfl
    obtain ⟨alloc', p, halloc, ha⟩ :=
      alloc_spec h.heap (hr.resolve_right (not_not.mpr (h.absent hno))) hfit.size_le
    obtain ⟨slab, hs, hle, -, -, -, -, hsize, -⟩ :=
      ha.inv.header (Multiset.mem_cons_self p _)
    obtain ⟨slab', hs', hlarge⟩ := ha.large
    rw [hs, Option.some.injEq] at hs'
    subst hs'
    obtain ⟨shard', hstore, hinv⟩ := store_inPlace (e := e) h hslot ha.inv hs (by omega) hle hsize
      (fun q hq k e' hold => allocated_keeps ha hq hold) _ rfl
    refine ⟨shard', ?_, hinv⟩
    simp -implicitDefEqProofs only [kvShardSet, hfit.dataLen, hrun, hslot.read, halloc,
      Option.bind_eq_bind, Option.bind_some]
    exact hstore
  | some item =>
    obtain ⟨-, hbag⟩ := hslot.present item rfl
    have hheap := h.heap
    rw [hbag] at hheap
    obtain ⟨slab, hs, hle, -, -, -, -, hsize, -⟩ := hheap.header (Multiset.mem_cons_self item rest)
    have hcall : kvShardSet E granted shard (E.xxh3 key) key e =
        kvShardStore ⟨table', shard.allocator⟩ slot item (key.length + e.value.length) key e := by
      simp -implicitDefEqProofs only [kvShardSet, hfit.dataLen, hrun, hslot.read,
        Option.bind_eq_bind, Option.bind_some]
    rw [hcall]
    by_cases hlarge : key.length + e.value.length ≤ slab.chunkSize - itemSize
    · exact store_inPlace h hslot hheap hs hlarge hle hsize (fun q _ k e' hold => hold) _
        (writeSlot_read hslot.read).symm
    · exact store_fresh h hslot hheap hfit hsize (not_le.mp hlarge)

theorem alloc_tooLarge {alloc : SlabAllocator} (hword : key.length + e.value.length + 24 < 2 ^ 64)
    (hbig : ¬ Fits key e) :
    slabAllocatorAllocItem alloc (key.length + e.value.length) = some (alloc, none) := by
  apply alloc_refused
  · simp only [Fits, maxDataChunkSize, itemSize] at *
    omega
  · exact hword

/-- A set of a present key whose item would be too large is refused and changes no entry. -/
theorem shardSet_refused (h : ShardInv E shard M) (granted : Bool)
    (hword : key.length + e.value.length + 24 < 2 ^ 64) (hbig : ¬ Fits key e)
    (hpresent : M key ≠ none) :
    ∃ shard', kvShardSet E granted shard (E.xxh3 key) key e = some (shard', .noMem) ∧
      ShardInv E shard' M ∧ shard'.table.bag = shard.table.bag := by
  obtain ⟨table', slot, found, rest, hrun, hslot⟩ := set_spec h.table granted key
  cases found with
  | none => exact absurd (h.absent (hslot.absent rfl).2) hpresent
  | some item =>
    obtain ⟨hk, hbag⟩ := hslot.present item rfl
    have hheap := h.heap
    rw [hbag] at hheap
    obtain ⟨slab, hs, hle, -, -, -, -, hsize, -⟩ := hheap.header (Multiset.mem_cons_self item rest)
    obtain ⟨slab₁, carved, free, hs₁, hok, -⟩ :=
      hheap.slabs.get (Multiset.mem_cons_self item rest)
    rw [hs, Option.some.injEq] at hs₁
    subst hs₁
    have hmax := hok.chunk_max
    have hsmall : slab.chunkSize - itemSize < key.length + e.value.length := by
      simp only [Fits, maxDataChunkSize, itemSize] at *
      omega
    refine ⟨⟨table', shard.allocator⟩, ?_, h.kept hslot⟩
    simp -implicitDefEqProofs only [kvShardSet, dataLen_eq hword, hrun, hslot.read, kvShardStore,
      hsize, alloc_tooLarge hword hbig, Option.bind_eq_bind, Option.bind_some]
    rw [if_pos hsmall]

/-- A set of an absent key for which no item is allocated reads through `NULL`. -/
theorem shardSet_faults (h : ShardInv E shard M) (granted : Bool)
    (hno : ∀ alloc, slabAllocatorAllocItem alloc (Pages.sizeT (key.length + e.value.length)) =
      some (alloc, none)) (habsent : M key = none) :
    kvShardSet E granted shard (E.xxh3 key) key e = none := by
  obtain ⟨table', slot, found, rest, hrun, hslot⟩ := set_spec h.table granted key
  cases found with
  | some item =>
    obtain ⟨hk, hbag⟩ := hslot.present item rfl
    obtain ⟨e', hM, -⟩ := h.found (by rw [hbag]; exact Multiset.mem_cons_self item rest) hk
    simp [habsent] at hM
  | none =>
    have hdelete := delete_holed (set_holed h.table hrun hslot.read)
    simp -implicitDefEqProofs only [kvShardSet, hrun, hslot.read, hno, hdelete,
      Option.bind_eq_bind, Option.bind_some, Option.bind_none]

theorem store_fits {alloc alloc' : SlabAllocator} {p : Ptr} {cells : List Cell}
    (h : alloc.store p cells = some alloc') : cells.length ≤ slabSize := by
  unfold SlabAllocator.store at h
  split_ifs at h with hin
  exact (Nat.le_add_left _ _).trans hin.2.2

theorem fillItem_faults (alloc : SlabAllocator) (item : Ptr) (key : List UInt8)
    (hbig : slabSize < e.value.length) : fillItem alloc item key e = none := by
  rw [Option.eq_none_iff_forall_ne_some]
  intro alloc' hrun
  simp only [fillItem, itemSetValue, Option.bind_eq_bind, Option.bind_eq_some_iff] at hrun
  obtain ⟨_, -, _, -, _, -, _, -, _, -, hstore⟩ := hrun
  have hle := store_fits hstore
  rw [length_byteCells] at hle
  omega

theorem shardStore_faults {alloc : SlabAllocator} {live : Multiset Ptr} {table : Table Ptr}
    {slot : SlotRef} {item : Ptr} {dataLen : ℕ} (h : AllocInv alloc live) (hpos : 0 < dataLen)
    (hmax : Pages.sizeT (dataLen + itemSize) ≤ maxDataChunkSize)
    (hbig : slabSize < e.value.length) :
    kvShardStore ⟨table, alloc⟩ slot item dataLen key e = none := by
  obtain ⟨alloc₁, p, halloc, -⟩ := alloc_sizeT h hpos hmax
  simp only [kvShardStore, halloc, fillItem_faults _ _ key hbig, Option.bind_eq_bind,
    Option.bind_some, Option.bind_none, Option.bind_fun_none, ite_self]

/-- Past `SIZE_MAX` a set that returns was refused, and changes no entry. -/
theorem shardSet_wraps {granted : Bool} {shard' : KvShard} {code : KvError}
    (h : ShardInv E shard M) (hkey : key.length < 256 ^ 2)
    (hword : 2 ^ 64 ≤ key.length + e.value.length + 24)
    (hrun : kvShardSet E granted shard (E.xxh3 key) key e = some (shard', code)) :
    code = .noMem ∧ ShardInv E shard' M := by
  have hbig : slabSize < e.value.length := by
    simp only [slabSize]
    omega
  obtain ⟨table', slot, found, rest, hset, hslot⟩ := set_spec h.table granted key
  simp -implicitDefEqProofs only [kvShardSet, hset, hslot.read, Option.bind_eq_bind,
    Option.bind_some] at hrun
  rcases alloc_refused_or (Pages.sizeT (key.length + e.value.length)) with hno | ⟨hpos, hmax⟩
  · cases found with
    | none =>
      have hdelete := delete_holed (set_holed h.table hset hslot.read)
      simp -implicitDefEqProofs only [hno, hdelete, Option.bind_some, Option.bind_none] at hrun
      simp at hrun
    | some item =>
      simp only [kvShardStore, hno, fillItem_faults _ _ key hbig, Option.bind_eq_bind,
        Option.bind_some, Option.bind_none, Option.bind_eq_some_iff] at hrun
      obtain ⟨size, -, hrun⟩ := hrun
      split_ifs at hrun
      simp only [Option.some.injEq, Prod.mk.injEq] at hrun
      obtain ⟨rfl, rfl⟩ := hrun
      exact ⟨rfl, (h.kept hslot).1⟩
  · cases found with
    | none =>
      obtain ⟨alloc₁, p, halloc, ha⟩ := alloc_sizeT h.heap hpos hmax
      rw [halloc, Option.bind_some] at hrun
      simp only [shardStore_faults ha.inv hpos hmax hbig] at hrun
      simp at hrun
    | some item =>
      simp only [shardStore_faults h.heap hpos hmax hbig] at hrun
      simp at hrun

theorem shardSet_returns {granted : Bool} {shard' : KvShard} {code : KvError}
    (h : ShardInv E shard M) (hkey : key.length < 256 ^ 2)
    (hrun : kvShardSet E granted shard (E.xxh3 key) key e = some (shard', code)) :
    code = .ok ∧ ShardInv E shard' (Function.update M key (some e)) ∨
      code = .noMem ∧ ShardInv E shard' M := by
  by_cases hword : key.length + e.value.length + 24 < 2 ^ 64
  · by_cases hfit : Fits key e
    · by_cases hr : 0 < key.length + e.value.length ∨ M key ≠ none
      · obtain ⟨_, hrun', hinv⟩ := shardSet_fits h granted hfit hr
        rw [hrun, Option.some.injEq, Prod.mk.injEq] at hrun'
        obtain ⟨rfl, rfl⟩ := hrun'
        exact Or.inl ⟨rfl, hinv hkey⟩
      · -- an empty item for an absent key
        obtain ⟨hzero, habsent⟩ := not_or.mp hr
        have hnone : Pages.sizeT (key.length + e.value.length) = 0 := by
          rw [hfit.dataLen]
          omega
        rw [shardSet_faults h granted (fun alloc => by
          simp only [slabAllocatorAllocItem, hnone, if_true]) (not_not.mp habsent)] at hrun
        simp at hrun
    · by_cases habsent : M key = none
      · rw [shardSet_faults h granted (fun alloc => by
          rw [dataLen_eq hword]; exact alloc_tooLarge hword hfit) habsent] at hrun
        simp at hrun
      · obtain ⟨_, hrun', hinv, -⟩ := shardSet_refused h granted hword hfit habsent
        rw [hrun, Option.some.injEq, Prod.mk.injEq] at hrun'
        obtain ⟨rfl, rfl⟩ := hrun'
        exact Or.inr ⟨rfl, hinv⟩
  · exact Or.inr (shardSet_wraps h hkey (not_lt.mp hword) hrun)

theorem shardDelete_spec (h : ShardInv E shard M) (key : List UInt8) :
    ∃ shard', kvShardDelete E shard (E.xxh3 key) key =
        some (shard', if M key = none then .notFound else .ok) ∧
      ShardInv E shard' (Function.update M key none) := by
  obtain ⟨table', r, hrun, hinv, hmiss, hhit⟩ := delete_spec h.table key
  cases r with
  | none =>
    obtain ⟨hbag, hno⟩ := hmiss rfl
    have hM := h.absent hno
    refine ⟨⟨table', shard.allocator⟩, ?_, ?_⟩
    · rw [if_pos hM]
      simp -implicitDefEqProofs only [kvShardDelete, hrun, Option.bind_eq_bind, Option.bind_some]
    · rw [Function.update_eq_self_iff.mpr hM.symm]
      exact ⟨hinv, by rw [hbag]; exact h.heap, by rw [hbag]; exact h.holds,
        by rw [hbag]; exact h.entries⟩
  | some item =>
    obtain ⟨hk, hbag⟩ := hhit item rfl
    have hmem : item ∈ shard.table.bag := by
      rw [hbag]
      exact Multiset.mem_cons_self _ _
    obtain ⟨e, hM, hold⟩ := h.found hmem hk
    have hheap := h.heap
    rw [hbag] at hheap
    obtain ⟨alloc', hfree, hheap', hkept, hsame⟩ := free_spec hheap
    have hnd := h.table.nodup
    rw [hbag, Multiset.map_cons, Multiset.nodup_cons, hk] at hnd
    have hin : ∀ q ∈ table'.bag, q ∈ shard.table.bag := fun q hq => by
      rw [hbag]
      exact Multiset.mem_cons_of_mem hq
    have hkeep : ∀ q ∈ table'.bag, ∀ k e', Holds shard.allocator q k e' → Holds alloc' q k e' :=
      fun q hq k e' hq' => freed_keeps hheap hkept hsame hq hq'
    have hread : ∀ q ∈ table'.bag, readKey alloc' q = readKey shard.allocator q :=
      fun q hq => h.readKey_kept hin hkeep hq
    refine ⟨⟨table', alloc'⟩, ?_, hinv.congr hread, hheap', fun q hq => ?_, fun k e' => ?_⟩
    · rw [if_neg (by simp [hM])]
      simp -implicitDefEqProofs only [kvShardDelete, hrun, hfree, Option.bind_eq_bind,
        Option.bind_some]
    · obtain ⟨k, e', hq'⟩ := h.holds q (hin q hq)
      exact ⟨k, e', hkeep q hq k e' hq'⟩
    · by_cases hkk : k = key
      · subst hkk
        rw [Function.update_self]
        simp only [reduceCtorEq, false_iff, not_exists, not_and]
        intro q hq hq'
        have hr := readKey_eq hq'
        rw [hread q hq] at hr
        exact hnd.1 (Multiset.mem_map.mpr ⟨q, hq, hr⟩)
      · rw [Function.update_of_ne hkk, h.entries]
        constructor
        · rintro ⟨q, hq, hq'⟩
          rw [hbag] at hq
          rcases Multiset.mem_cons.mp hq with rfl | hq
          · exact absurd (holds_unique hq' hold).1 hkk
          · exact ⟨q, hq, hkeep q hq k e' hq'⟩
        · rintro ⟨q, hq, hq'⟩
          exact ⟨q, hin q hq, (h.holds_iff hin hkeep hq).mp hq'⟩

theorem shardInit_spec {granted : Bool} {leftover : ℕ} {memory : Ptr → Cell}
    (h : kvShardInit E granted leftover memory = some shard) : ShardInv E shard fun _ => none := by
  simp only [kvShardInit, Option.bind_eq_bind, Option.bind_eq_some_iff, Option.some.injEq] at h
  obtain ⟨table, hinit, rfl⟩ := h
  obtain ⟨hinv, hbag⟩ := init_spec (by decide) (readKey (slabAllocatorInit memory)) hinit
  exact ⟨hinv, by rw [hbag]; exact init_inv memory, by simp [hbag], by simp [hbag]⟩

end Kvx.Store
