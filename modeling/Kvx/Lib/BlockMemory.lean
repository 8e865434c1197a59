import Mathlib

/-!
# Memory made of blocks

An address is a block and an offset in it. A cell holds a byte, or one of the eight
pieces of a stored pointer. Numbers are stored with the lowest byte first.
-/
namespace Kvx.Lib

structure Ptr where
  block : ℕ
  off : ℕ
  deriving DecidableEq, Repr

def Ptr.add (p : Ptr) (n : ℕ) : Ptr := ⟨p.block, p.off + n⟩

@[simp] theorem Ptr.add_block (p : Ptr) (n : ℕ) : (p.add n).block = p.block := rfl

@[simp] theorem Ptr.add_off (p : Ptr) (n : ℕ) : (p.add n).off = p.off + n := rfl

theorem Ptr.add_add (p : Ptr) (m n : ℕ) : (p.add m).add n = p.add (m + n) := by
  simp [Ptr.add, Nat.add_assoc]

/-- `none` is the null pointer. -/
inductive Cell
  | byte (b : UInt8)
  | frag (p : Option Ptr) (i : ℕ)
  deriving DecidableEq, Repr

def readCells (mem : Ptr → Cell) (p : Ptr) (n : ℕ) : List Cell :=
  (List.range n).map fun i => mem (p.add i)

def writeCells (mem : Ptr → Cell) (p : Ptr) (cells : List Cell) : Ptr → Cell := fun q =>
  if q.block = p.block ∧ p.off ≤ q.off then (cells[q.off - p.off]?).getD (mem q) else mem q

/-- `q` does not lie in the `n` cells from `p` on. -/
def Outside (p : Ptr) (n : ℕ) (q : Ptr) : Prop :=
  q.block ≠ p.block ∨ q.off < p.off ∨ p.off + n ≤ q.off

/-- The `m` cells from `p` on and the `n` cells from `q` on are disjoint. -/
def Apart (p : Ptr) (m : ℕ) (q : Ptr) (n : ℕ) : Prop :=
  p.block ≠ q.block ∨ p.off + m ≤ q.off ∨ q.off + n ≤ p.off

/-- Two memories agree but for the `n` cells from `p` on. -/
def SameOutside (p : Ptr) (n : ℕ) (mem mem' : Ptr → Cell) : Prop :=
  ∀ q, Outside p n q → mem' q = mem q

theorem Apart.symm {p q : Ptr} {m n : ℕ} (h : Apart p m q n) : Apart q n p m := by
  unfold Apart at *
  omega

theorem Apart.mono {p q : Ptr} {m n m' n' : ℕ} (h : Apart p m q n) (hm : m' ≤ m) (hn : n' ≤ n) :
    Apart p m' q n' := by
  unfold Apart at *
  omega

theorem Apart.shift {p q : Ptr} {m n a b m' n' : ℕ} (h : Apart p m q n) (hm : a + m' ≤ m)
    (hn : b + n' ≤ n) : Apart (p.add a) m' (q.add b) n' := by
  unfold Apart at *
  simp only [Ptr.add_block, Ptr.add_off]
  omega

variable {mem mem' mem'' : Ptr → Cell} {p q : Ptr} {m n : ℕ}

@[simp] theorem length_readCells (mem : Ptr → Cell) (p : Ptr) (n : ℕ) :
    (readCells mem p n).length = n := by
  simp [readCells]

theorem readCells_congr (h : ∀ i < n, mem' (q.add i) = mem (q.add i)) :
    readCells mem' q n = readCells mem q n :=
  List.map_congr_left fun i hi => h i (List.mem_range.mp hi)

theorem SameOutside.refl (p : Ptr) (n : ℕ) (mem : Ptr → Cell) : SameOutside p n mem mem :=
  fun _ _ => rfl

theorem SameOutside.trans (h : SameOutside p n mem mem') (h' : SameOutside p n mem' mem'') :
    SameOutside p n mem mem'' := fun q hq => (h' q hq).trans (h q hq)

theorem SameOutside.widen {a : ℕ} (h : SameOutside (p.add a) m mem mem') (hm : a + m ≤ n) :
    SameOutside p n mem mem' := by
  intro q hq
  apply h
  unfold Outside at *
  simp only [Ptr.add_block, Ptr.add_off]
  omega

theorem SameOutside.read (h : SameOutside p m mem mem') (hd : Apart p m q n) :
    readCells mem' q n = readCells mem q n := by
  apply readCells_congr
  intro i hi
  apply h
  unfold Outside Apart at *
  simp only [Ptr.add_block, Ptr.add_off]
  omega

theorem sameOutside_writeCells (mem : Ptr → Cell) (p : Ptr) (cells : List Cell) :
    SameOutside p cells.length mem (writeCells mem p cells) := by
  intro q hq
  unfold writeCells
  split_ifs with hin
  · rw [List.getElem?_eq_none, Option.getD_none]
    unfold Outside at hq
    omega
  · rfl

theorem readCells_writeCells (mem : Ptr → Cell) (p : Ptr) (cells : List Cell) :
    readCells (writeCells mem p cells) p cells.length = cells := by
  apply List.ext_getElem (length_readCells _ _ _)
  intro i hi hi'
  simp [readCells, writeCells, hi']

theorem read_write_same {cells : List Cell} (hn : n = cells.length) :
    readCells (writeCells mem p cells) p n = cells := by
  rw [hn]
  exact readCells_writeCells mem p cells

theorem read_write_off {a b : ℕ} {cells : List Cell} (h : a + n ≤ b ∨ b + cells.length ≤ a) :
    readCells (writeCells mem (p.add b) cells) (p.add a) n = readCells mem (p.add a) n := by
  apply (sameOutside_writeCells mem (p.add b) cells).read
  right
  simp only [Ptr.add_off]
  omega

def ptrCells (p : Option Ptr) : List Cell := (List.range 8).map (Cell.frag p)

def toPtr (cells : List Cell) : Option (Option Ptr) :=
  match cells with
  | .frag p _ :: _ => if cells = ptrCells p then some p else none
  | _ => none

@[simp] theorem length_ptrCells (p : Option Ptr) : (ptrCells p).length = 8 := by
  simp [ptrCells]

@[simp] theorem toPtr_ptrCells (p : Option Ptr) : toPtr (ptrCells p) = some p := by
  have h : ptrCells p = .frag p 0 :: (ptrCells p).tail := rfl
  unfold toPtr
  rw [h]
  simp only [← h, ↓reduceIte]

/-- The `k` low bytes of `n`. -/
def natCells : ℕ → ℕ → List Cell
  | 0, _ => []
  | k + 1, n => .byte (UInt8.ofNat n) :: natCells k (n / 256)

def toNat : List Cell → Option ℕ
  | [] => some 0
  | .byte b :: cells => (toNat cells).map fun n => b.toNat + 256 * n
  | .frag _ _ :: _ => none

@[simp] theorem length_natCells (k n : ℕ) : (natCells k n).length = k := by
  induction k generalizing n with
  | zero => rfl
  | succ k ih => simp [natCells, ih]

theorem toNat_natCells (k n : ℕ) : toNat (natCells k n) = some (n % 256 ^ k) := by
  induction k generalizing n with
  | zero => simp [natCells, toNat, Nat.mod_one]
  | succ k ih =>
    simp only [natCells, toNat, ih, Option.map_some, UInt8.toNat_ofNat']
    have hpow : 256 ^ (k + 1) = 256 * 256 ^ k := Nat.pow_succ'
    rw [hpow, Nat.mod_mul]

theorem toNat_natCells_of_lt {k n : ℕ} (h : n < 256 ^ k) : toNat (natCells k n) = some n := by
  rw [toNat_natCells, Nat.mod_eq_of_lt h]

theorem toNat_lt {cells : List Cell} (h : toNat cells = some n) : n < 256 ^ cells.length := by
  induction cells generalizing n with
  | nil =>
    rw [toNat, Option.some.injEq] at h
    simp [← h]
  | cons c cells ih =>
    cases c with
    | frag p i => simp [toNat] at h
    | byte b =>
      rw [toNat, Option.map_eq_some_iff] at h
      obtain ⟨m, hm, rfl⟩ := h
      have := ih hm
      have := b.toNat_lt
      rw [List.length_cons, Nat.pow_succ]
      omega

def byteCells (bytes : List UInt8) : List Cell := bytes.map Cell.byte

def Cell.toByte : Cell → Option UInt8
  | .byte b => some b
  | .frag _ _ => none

def toBytes (cells : List Cell) : Option (List UInt8) := cells.mapM Cell.toByte

@[simp] theorem length_byteCells (bytes : List UInt8) : (byteCells bytes).length = bytes.length :=
  List.length_map _

@[simp] theorem toBytes_byteCells (bytes : List UInt8) : toBytes (byteCells bytes) = some bytes := by
  induction bytes with
  | nil => rfl
  | cons b bytes ih =>
    simp only [byteCells, toBytes] at ih ⊢
    simp [Cell.toByte, ih]

end Kvx.Lib
