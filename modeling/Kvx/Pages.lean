import Mathlib

/-!
# Page mappings

`pages_map` rounds a request up to whole pages and asks `mmap` for it. Sizes are
`size_t`: arithmetic on them wraps at `2 ^ 64`.
-/
namespace Kvx.Pages

/-- A `size_t` computation keeps 64 bits of its result. -/
def sizeT (n : ℕ) : ℕ := n % 2 ^ 64

def pagesHuge : ℕ := 2 * 2 ^ 20

/-- `(v + align - 1) & ~(align - 1)`. -/
def alignUp (v align : ℕ) : ℕ := sizeT (v + align - 1) &&& (2 ^ 64 - 1 - (align - 1))

/-- Lengths `mmap` can grant: zero is `EINVAL`, and no address space has `2 ^ 60` bytes. -/
def mmapAccepts (bytes : ℕ) : Bool := decide (0 < bytes) && decide (bytes < 2 ^ 60)

/-- A request rounded up to whole pages. -/
def pagesLength (pageSize bytes : ℕ) : ℕ :=
  alignUp bytes (if pagesHuge ≤ bytes then pagesHuge else pageSize)

/-- The length written to `bytes_out`, or `none` for the result `NULL`. `granted` is the
kernel's answer to a request it could grant. -/
def pagesMap (pageSize : ℕ) (granted : Bool) (bytes : ℕ) : Option ℕ :=
  let huge := decide (pagesHuge ≤ bytes)
  let bytes := alignUp bytes (if huge then pagesHuge else pageSize)
  if granted && mmapAccepts bytes then some bytes else none

theorem pagesMap_length {pageSize bytes len : ℕ} {granted : Bool}
    (h : pagesMap pageSize granted bytes = some len) : len = pagesLength pageSize bytes := by
  simp only [pagesMap, decide_eq_true_eq, Option.ite_none_right_eq_some] at h
  exact (Option.some.inj h.2).symm

theorem and_high_bits {x k : ℕ} (hx : x < 2 ^ 64) (hk : k ≤ 64) :
    x &&& (2 ^ 64 - 1 - (2 ^ k - 1)) = x / 2 ^ k * 2 ^ k := by
  have hp : 0 < 2 ^ k := Nat.two_pow_pos k
  have hle : 2 ^ k ≤ 2 ^ 64 := Nat.pow_le_pow_right (by decide) hk
  have hmask : 2 ^ 64 - 1 - (2 ^ k - 1) = (2 ^ (64 - k) - 1) <<< k := by
    rw [Nat.shiftLeft_eq, Nat.sub_mul, ← Nat.pow_add, Nat.sub_add_cancel hk]
    omega
  rw [hmask, ← Nat.shiftLeft_eq, ← Nat.shiftRight_eq_div_pow]
  apply Nat.eq_of_testBit_eq
  intro i
  rw [Nat.testBit_and, Nat.testBit_shiftLeft, Nat.testBit_shiftLeft, Nat.testBit_two_pow_sub_one,
    Nat.testBit_shiftRight]
  by_cases hi : k ≤ i
  · rw [show k + (i - k) = i by omega]
    by_cases hi64 : i < 64
    · simp [hi, show i - k < 64 - k by omega]
    · have hbig : x.testBit i = false :=
        Nat.testBit_lt_two_pow (hx.trans_le (Nat.pow_le_pow_right (by decide) (by omega)))
      simp [hbig]
  · simp [hi]

/-- Rounding up to a power of two either wraps to zero or does not lose a byte. -/
theorem alignUp_cases {v k : ℕ} (hv : v < 2 ^ 64) (hk : k ≤ 64) :
    alignUp v (2 ^ k) = 0 ∨
      alignUp v (2 ^ k) = (v + 2 ^ k - 1) / 2 ^ k * 2 ^ k ∧ v ≤ alignUp v (2 ^ k) := by
  have hp : 0 < 2 ^ k := Nat.two_pow_pos k
  have hlt : sizeT (v + 2 ^ k - 1) < 2 ^ 64 := Nat.mod_lt _ (by decide)
  rw [alignUp, and_high_bits hlt hk]
  by_cases hw : v + 2 ^ k - 1 < 2 ^ 64
  · right
    rw [sizeT, Nat.mod_eq_of_lt hw]
    refine ⟨rfl, ?_⟩
    have hd := Nat.div_add_mod (v + 2 ^ k - 1) (2 ^ k)
    have hm := Nat.mod_lt (v + 2 ^ k - 1) hp
    rw [Nat.mul_comm]
    omega
  · left
    have hle : 2 ^ k ≤ 2 ^ 64 := Nat.pow_le_pow_right (by decide) hk
    have hsmall : sizeT (v + 2 ^ k - 1) < 2 ^ k := by
      rw [sizeT, Nat.mod_eq_sub_mod (by omega), Nat.mod_eq_of_lt (by omega)]
      omega
    simp [Nat.div_eq_of_lt hsmall]

theorem pagesMap_some {k bytes len : ℕ} {granted : Bool} (hk : k ≤ 64) (hb : bytes < 2 ^ 64)
    (h : pagesMap (2 ^ k) granted bytes = some len) : bytes ≤ len ∧ 0 < bytes ∧ len < 2 ^ 60 := by
  obtain ⟨j, hj, hsize⟩ : ∃ j ≤ 64,
      (if decide (pagesHuge ≤ bytes) = true then pagesHuge else 2 ^ k) = 2 ^ j := by
    split_ifs
    · exact ⟨21, by decide, by decide⟩
    · exact ⟨k, hk, rfl⟩
  simp only [pagesMap, hsize, mmapAccepts] at h
  split_ifs at h with hc
  simp only [Bool.and_eq_true, decide_eq_true_eq] at hc
  obtain ⟨-, hpos, hlt⟩ := hc
  simp only [Option.some.injEq] at h
  subst h
  rcases alignUp_cases hb hj with h0 | ⟨he, hle⟩
  · omega
  · refine ⟨hle, ?_, hlt⟩
    rcases Nat.eq_zero_or_pos bytes with h0 | hb0
    · subst h0
      have hp : 0 < 2 ^ j := Nat.two_pow_pos j
      rw [he, Nat.div_eq_of_lt (by omega)] at hpos
      omega
    · exact hb0

end Kvx.Pages
