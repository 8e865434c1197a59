import Kvx.SlabRun

/-!
# Items

An item is a chunk with a header: the key and then the value follow it. The lengths are
stored in two and four bytes.
-/
namespace Kvx.Item

open Kvx.Lib Kvx.SlabAlloc

def offKeyLen : ℕ := 8
def offFlags : ℕ := 10
def offValueLen : ℕ := 16
def offExpireAt : ℕ := 20

def itemKeyLen (alloc : SlabAllocator) (item : Ptr) : Option ℕ :=
  alloc.loadNat (item.add offKeyLen) 2

def itemFlags (alloc : SlabAllocator) (item : Ptr) : Option UInt16 :=
  (alloc.loadNat (item.add offFlags) 2).map UInt16.ofNat

def itemValueLen (alloc : SlabAllocator) (item : Ptr) : Option ℕ :=
  alloc.loadNat (item.add offValueLen) 4

def itemExpireAt (alloc : SlabAllocator) (item : Ptr) : Option UInt32 :=
  (alloc.loadNat (item.add offExpireAt) 4).map UInt32.ofNat

def itemKey (alloc : SlabAllocator) (item : Ptr) : Option (List UInt8) := do
  let len ← itemKeyLen alloc item
  alloc.loadBytes (item.add itemSize) len

def itemValue (alloc : SlabAllocator) (item : Ptr) : Option (List UInt8) := do
  let keyLen ← itemKeyLen alloc item
  let len ← itemValueLen alloc item
  alloc.loadBytes (item.add (itemSize + keyLen)) len

def itemSetKey (alloc : SlabAllocator) (item : Ptr) (key : List UInt8) :
    Option SlabAllocator := do
  let alloc ← alloc.store (item.add offKeyLen) (natCells 2 key.length)
  alloc.store (item.add itemSize) (byteCells key)

def itemSetValue (alloc : SlabAllocator) (item : Ptr) (value : List UInt8) :
    Option SlabAllocator := do
  let alloc ← alloc.store (item.add offValueLen) (natCells 4 value.length)
  let keyLen ← itemKeyLen alloc item
  alloc.store (item.add (itemSize + keyLen)) (byteCells value)

/-- What is stored under a key. -/
structure Entry where
  value : List UInt8
  flags : UInt16
  exp : UInt32
  deriving DecidableEq, Repr

/-- The stores of `kv_shard_set` into an item that is large enough. -/
def fillItem (alloc : SlabAllocator) (item : Ptr) (key : List UInt8) (e : Entry) :
    Option SlabAllocator := do
  let alloc ← alloc.store (item.add offExpireAt) (natCells 4 e.exp.toNat)
  let alloc ← alloc.store (item.add offFlags) (natCells 2 e.flags.toNat)
  let alloc ← itemSetKey alloc item key
  itemSetValue alloc item e.value

structure Holds (alloc : SlabAllocator) (item : Ptr) (key : List UInt8) (e : Entry) : Prop where
  chunk : ∃ slab, alloc.slabs[item.block]? = some slab ∧ sizeofSlab ≤ item.off ∧
    item.off + slab.chunkSize ≤ slabSize ∧
    itemSize + key.length + e.value.length ≤ slab.chunkSize
  key_short : key.length < 256 ^ 2
  value_short : e.value.length < 256 ^ 4
  key_len : readCells alloc.mem (item.add offKeyLen) 2 = natCells 2 key.length
  flags : readCells alloc.mem (item.add offFlags) 2 = natCells 2 e.flags.toNat
  value_len : readCells alloc.mem (item.add offValueLen) 4 = natCells 4 e.value.length
  expire_at : readCells alloc.mem (item.add offExpireAt) 4 = natCells 4 e.exp.toNat
  key_bytes : readCells alloc.mem (item.add itemSize) key.length = byteCells key
  value_bytes : readCells alloc.mem (item.add (itemSize + key.length)) e.value.length =
    byteCells e.value

variable {alloc alloc' : SlabAllocator} {item p : Ptr} {key : List UInt8} {e : Entry}
  {live : Multiset Ptr}

theorem Holds.load (h : Holds alloc item key e) {a n : ℕ}
    (hle : a + n ≤ itemSize + key.length + e.value.length) :
    alloc.load (item.add a) n = some (readCells alloc.mem (item.add a) n) := by
  obtain ⟨slab, hs, hlo, hhi, hfit⟩ := h.chunk
  refine if_pos ⟨(List.getElem?_eq_some_iff.mp hs).1, ?_, ?_⟩
  · exact hlo.trans (Nat.le_add_right _ _)
  · simp only [Ptr.add_off]
    omega

theorem Holds.keyLen_eq (h : Holds alloc item key e) : itemKeyLen alloc item = some key.length := by
  rw [itemKeyLen, SlabAllocator.loadNat, h.load (by simp only [offKeyLen, itemSize]; omega)]
  simp only [Option.bind_eq_bind, Option.bind_some, h.key_len]
  exact toNat_natCells_of_lt h.key_short

theorem Holds.valueLen_eq (h : Holds alloc item key e) :
    itemValueLen alloc item = some e.value.length := by
  rw [itemValueLen, SlabAllocator.loadNat, h.load (by simp only [offValueLen, itemSize]; omega)]
  simp only [Option.bind_eq_bind, Option.bind_some, h.value_len]
  exact toNat_natCells_of_lt h.value_short

theorem Holds.flags_eq (h : Holds alloc item key e) : itemFlags alloc item = some e.flags := by
  rw [itemFlags, SlabAllocator.loadNat, h.load (by simp only [offFlags, itemSize]; omega)]
  have hlt : e.flags.toNat < 256 ^ 2 := Nat.lt_of_lt_of_le e.flags.toNat_lt (by decide)
  simp only [Option.bind_eq_bind, Option.bind_some, h.flags, toNat_natCells_of_lt hlt,
    Option.map_some, UInt16.ofNat_toNat]

theorem Holds.expireAt_eq (h : Holds alloc item key e) :
    itemExpireAt alloc item = some e.exp := by
  rw [itemExpireAt, SlabAllocator.loadNat, h.load (by simp only [offExpireAt, itemSize]; omega)]
  have hlt : e.exp.toNat < 256 ^ 4 := Nat.lt_of_lt_of_le e.exp.toNat_lt (by decide)
  simp only [Option.bind_eq_bind, Option.bind_some, h.expire_at, toNat_natCells_of_lt hlt,
    Option.map_some, UInt32.ofNat_toNat]

theorem Holds.key_eq (h : Holds alloc item key e) : itemKey alloc item = some key := by
  rw [itemKey, h.keyLen_eq]
  simp only [Option.bind_eq_bind, Option.bind_some, SlabAllocator.loadBytes]
  rw [h.load (by omega), Option.bind_some, h.key_bytes, toBytes_byteCells]

theorem Holds.value_eq (h : Holds alloc item key e) : itemValue alloc item = some e.value := by
  rw [itemValue, h.keyLen_eq, h.valueLen_eq]
  simp only [Option.bind_eq_bind, Option.bind_some, SlabAllocator.loadBytes]
  rw [h.load (by omega), Option.bind_some, h.value_bytes, toBytes_byteCells]

theorem Holds.frame (h : Holds alloc item key e) (hkept : ChunksKept alloc alloc')
    (hsame : ∀ slab, alloc.slabs[item.block]? = some slab →
      ∀ i < slab.chunkSize, alloc'.mem (item.add i) = alloc.mem (item.add i)) :
    Holds alloc' item key e := by
  obtain ⟨slab, hs, hlo, hhi, hfit⟩ := h.chunk
  obtain ⟨slab', hs', hc⟩ := hkept _ slab hs
  have hread : ∀ {a n : ℕ}, a + n ≤ itemSize + key.length + e.value.length →
      readCells alloc'.mem (item.add a) n = readCells alloc.mem (item.add a) n := by
    intro a n han
    apply readCells_congr
    intro i hi
    rw [Ptr.add_add]
    exact hsame slab hs _ (by omega)
  exact {
    chunk := ⟨slab', hs', hlo, by rw [hc]; exact hhi, by rw [hc]; exact hfit⟩
    key_short := h.key_short
    value_short := h.value_short
    key_len := (hread (by simp only [offKeyLen, itemSize]; omega)).trans h.key_len
    flags := (hread (by simp only [offFlags, itemSize]; omega)).trans h.flags
    value_len := (hread (by simp only [offValueLen, itemSize]; omega)).trans h.value_len
    expire_at := (hread (by simp only [offExpireAt, itemSize]; omega)).trans h.expire_at
    key_bytes := (hread (by omega)).trans h.key_bytes
    value_bytes := (hread (by omega)).trans h.value_bytes }

theorem other_same {n : ℕ} {slab : Slab} (h : AllocInv alloc live) (hi : item ∈ live)
    (hp : p ∈ live) (hne : item ≠ p) (hs : alloc.slabs[item.block]? = some slab)
    (hn : n ≤ slab.chunkSize) {mem mem' : Ptr → Cell} (hsame : SameOutside item n mem mem') :
    ∀ slab', alloc.slabs[p.block]? = some slab' →
      ∀ i < slab'.chunkSize, mem' (p.add i) = mem (p.add i) := by
  intro slab' hs' i hlt
  apply hsame
  have hd := h.slabs.apart hi hp hne hs hs'
  unfold Outside Apart at *
  simp only [Ptr.add_block, Ptr.add_off]
  omega

/-- The memory after the six stores, in the order of the source. The value goes where the stored
length of the key says. -/
def filled (mem : Ptr → Cell) (item : Ptr) (key : List UInt8) (e : Entry) : Ptr → Cell :=
  let mem := writeCells mem (item.add offExpireAt) (natCells 4 e.exp.toNat)
  let mem := writeCells mem (item.add offFlags) (natCells 2 e.flags.toNat)
  let mem := writeCells mem (item.add offKeyLen) (natCells 2 key.length)
  let mem := writeCells mem (item.add itemSize) (byteCells key)
  let mem := writeCells mem (item.add offValueLen) (natCells 4 e.value.length)
  writeCells mem (item.add (itemSize + key.length % 256 ^ 2)) (byteCells e.value)

theorem sameOutside_filled (mem : Ptr → Cell) (item : Ptr) {n : ℕ}
    (hfit : itemSize + key.length + e.value.length ≤ n) :
    SameOutside item n mem (filled mem item key e) := by
  have hmod := Nat.mod_le key.length (256 ^ 2)
  have hsize : itemSize = 24 := rfl
  have w : ∀ (mem : Ptr → Cell) (a : ℕ) (cells : List Cell), a + cells.length ≤ n →
      SameOutside item n mem (writeCells mem (item.add a) cells) :=
    fun mem a cells hle => (sameOutside_writeCells mem (item.add a) cells).widen hle
  refine (w _ offExpireAt _ ?_).trans <| (w _ offFlags _ ?_).trans <|
    (w _ offKeyLen _ ?_).trans <| (w _ itemSize _ ?_).trans <|
    (w _ offValueLen _ ?_).trans <| w _ (itemSize + key.length % 256 ^ 2) _ ?_
  · rw [length_natCells, offExpireAt]
    omega
  · rw [length_natCells, offFlags]
    omega
  · rw [length_natCells, offKeyLen]
    omega
  · rw [length_byteCells]
    omega
  · rw [length_natCells, offValueLen]
    omega
  · rw [length_byteCells]
    omega

/-- A key whose length fits its two bytes is stored, and its value right after it. -/
theorem filled_holds {slab : Slab} (hs : alloc.slabs[item.block]? = some slab)
    (hlo : sizeofSlab ≤ item.off) (hhi : item.off + slab.chunkSize ≤ slabSize)
    (hkey : key.length < 256 ^ 2)
    (hfit : itemSize + key.length + e.value.length ≤ slab.chunkSize) :
    Holds { alloc with mem := filled alloc.mem item key e } item key e := by
  have hmod : key.length % 256 ^ 2 = key.length := Nat.mod_eq_of_lt hkey
  have hmax : slab.chunkSize < 256 ^ 4 := by
    simp only [slabSize] at hhi
    omega
  exact {
    chunk := ⟨slab, hs, hlo, hhi, hfit⟩
    key_short := hkey
    value_short := by omega
    key_len := by
      simp only [filled]
      rw [read_write_off (Or.inl (by simp only [offKeyLen, itemSize]; omega)),
        read_write_off (by rw [length_natCells]; decide),
        read_write_off (Or.inl (by decide)), read_write_same (by rw [length_natCells])]
    flags := by
      simp only [filled]
      rw [read_write_off (Or.inl (by simp only [offFlags, itemSize]; omega)),
        read_write_off (Or.inl (by decide)), read_write_off (Or.inl (by decide)),
        read_write_off (by rw [length_natCells]; decide),
        read_write_same (by rw [length_natCells])]
    value_len := by
      simp only [filled]
      rw [read_write_off (Or.inl (by simp only [offValueLen, itemSize]; omega)),
        read_write_same (by rw [length_natCells])]
    expire_at := by
      simp only [filled]
      rw [read_write_off (Or.inl (by simp only [offExpireAt, itemSize]; omega)),
        read_write_off (by rw [length_natCells]; decide), read_write_off (Or.inl (by decide)),
        read_write_off (by rw [length_natCells]; decide),
        read_write_off (by rw [length_natCells]; decide),
        read_write_same (by rw [length_natCells])]
    key_bytes := by
      simp only [filled, hmod]
      rw [read_write_off (Or.inl le_rfl),
        read_write_off (Or.inr (by rw [length_natCells]; decide)),
        read_write_same (by rw [length_byteCells])]
    value_bytes := by
      simp only [filled, hmod]
      exact read_write_same (by rw [length_byteCells]) }

/-- The stores of `kv_shard_set` stay within an item that is large enough. -/
theorem fillItem_eq (h : AllocInv alloc live) (hi : item ∈ live) {slab : Slab}
    (hs : alloc.slabs[item.block]? = some slab) (key : List UInt8) (e : Entry)
    (hfit : itemSize + key.length + e.value.length ≤ slab.chunkSize) :
    fillItem alloc item key e = some { alloc with mem := filled alloc.mem item key e } ∧
      AllocInv { alloc with mem := filled alloc.mem item key e } live := by
  obtain ⟨slab₁, hs₁, -, hlo, hhi, -⟩ := h.header hi
  rw [hs, Option.some.injEq] at hs₁
  subst hs₁
  have hsize : itemSize = 24 := rfl
  have hmod := Nat.mod_le key.length (256 ^ 2)
  -- the six stores, in the order of the source
  obtain ⟨r₁, i₁⟩ := store_spec h hi hs (a := offExpireAt) (natCells 4 e.exp.toNat) (by decide)
    (by rw [length_natCells]; decide) (by rw [length_natCells, offExpireAt]; omega)
  obtain ⟨r₂, i₂⟩ := store_spec i₁ hi hs (a := offFlags) (natCells 2 e.flags.toNat) (by decide)
    (by rw [length_natCells]; decide) (by rw [length_natCells, offFlags]; omega)
  obtain ⟨r₃, i₃⟩ := store_spec i₂ hi hs (a := offKeyLen) (natCells 2 key.length) (by decide)
    (by rw [length_natCells]; decide) (by rw [length_natCells, offKeyLen]; omega)
  obtain ⟨r₄, i₄⟩ := store_spec i₃ hi hs (a := itemSize) (byteCells key) (by decide)
    (Or.inr (by decide)) (by rw [length_byteCells]; omega)
  obtain ⟨r₅, i₅⟩ := store_spec i₄ hi hs (a := offValueLen) (natCells 4 e.value.length) (by decide)
    (Or.inr (by decide)) (by rw [length_natCells, offValueLen]; omega)
  obtain ⟨r₆, i₆⟩ := store_spec i₅ hi hs (a := itemSize + key.length % 256 ^ 2)
    (byteCells e.value) (by omega) (Or.inr (by simp only [offDataSize]; omega))
    (by rw [length_byteCells]; omega)
  -- the length of the key is read back before the value is stored
  have hin : alloc.InMem (item.add offKeyLen) 2 := by
    refine ⟨h.slabs.block item hi, ?_, ?_⟩
    · exact hlo.trans (Nat.le_add_right _ _)
    · simp only [Ptr.add_off, offKeyLen]
      omega
  have hload : ∀ mem, readCells mem (item.add offKeyLen) 2 = natCells 2 key.length →
      itemKeyLen { alloc with mem := mem } item = some (key.length % 256 ^ 2) := by
    intro mem hread
    have hin' : SlabAllocator.InMem { alloc with mem := mem } (item.add offKeyLen) 2 := hin
    simp only [itemKeyLen, SlabAllocator.loadNat, SlabAllocator.load, if_pos hin',
      Option.bind_eq_bind, Option.bind_some]
    rw [hread, toNat_natCells]
  refine ⟨?_, i₆⟩
  simp only [fillItem, itemSetKey, itemSetValue, r₁, r₂, r₃, r₄, r₅, Option.bind_eq_bind,
    Option.bind_some]
  rw [hload, Option.bind_some]
  · exact r₆
  · rw [read_write_off (by rw [length_natCells]; decide),
      read_write_off (Or.inl (by decide)), read_write_same (by rw [length_natCells])]

theorem fillItem_spec (h : AllocInv alloc live) (hi : item ∈ live) {slab : Slab}
    (hs : alloc.slabs[item.block]? = some slab)
    (hfit : itemSize + key.length + e.value.length ≤ slab.chunkSize) :
    ∃ mem', fillItem alloc item key e = some { alloc with mem := mem' } ∧
      AllocInv { alloc with mem := mem' } live ∧ SameOutside item slab.chunkSize alloc.mem mem' ∧
      (key.length < 256 ^ 2 → Holds { alloc with mem := mem' } item key e) := by
  obtain ⟨slab₁, hs₁, -, hlo, hhi, -⟩ := h.header hi
  rw [hs, Option.some.injEq] at hs₁
  subst hs₁
  obtain ⟨hrun, hinv⟩ := fillItem_eq h hi hs key e hfit
  exact ⟨_, hrun, hinv, sameOutside_filled alloc.mem item hfit,
    fun hkey => filled_holds hs hlo hhi hkey hfit⟩

end Kvx.Item
