import Mathlib

/-!
# Eight byte lanes in one 64-bit word

Byte-parallel search in a word: a subtraction flags the zero bytes, a
multiplication collects the flags, and the set bits of the result are visited
from the lowest.
-/
namespace Kvx.Lib.ByteLanes

instance neZeroEight : NeZero 8 := ⟨by decide⟩

/-- Byte `i` of the word, the lowest being byte 0. -/
def lane (x : BitVec 64) (i : Fin 8) : BitVec 8 := x.extractLsb' (8 * i) 8

@[simp] theorem lane_zero (i : Fin 8) : lane 0#64 i = 0#8 := by
  apply BitVec.eq_of_getLsbD_eq
  simp [lane]

theorem lane_xor (x y : BitVec 64) (i : Fin 8) : lane (x ^^^ y) i = lane x i ^^^ lane y i := by
  apply BitVec.eq_of_getLsbD_eq
  intro j hj
  simp [lane, hj]

theorem lane_repeat : ∀ (t : BitVec 8) (i : Fin 8),
    lane (0x0101010101010101#64 * t.setWidth 64) i = t := by
  decide +kernel

theorem lane_insert (x : BitVec 64) (t : BitVec 8) (i j : Fin 8) :
    lane ((x &&& ~~~(0xff#64 <<< (8 * i.val))) ||| (t.setWidth 64 <<< (8 * i.val))) j =
      if j = i then t else lane x j := by
  apply BitVec.eq_of_getLsbD_eq
  intro k hk
  have hff : ∀ m, (0xff#64).getLsbD m = decide (m < 8) := by
    intro m
    rw [show (0xff#64) = (BitVec.allOnes 8).setWidth 64 by decide, BitVec.getLsbD_setWidth,
      BitVec.getLsbD_allOnes]
    by_cases hm : m < 8
    · simp [hm, show m < 64 by omega]
    · simp [hm]
  have hij : j = i ↔ j.val = i.val := Fin.ext_iff
  simp only [lane, BitVec.getLsbD_extractLsb', BitVec.getLsbD_or, BitVec.getLsbD_and,
    BitVec.getLsbD_not, BitVec.getLsbD_shiftLeft, BitVec.getLsbD_setWidth, hff]
  by_cases h : j = i
  · subst h
    have h1 : 8 * j.val + k < 64 := by omega
    have h2 : ¬ 8 * j.val + k < 8 * j.val := by omega
    have h3 : 8 * j.val + k - 8 * j.val = k := by omega
    simp [hk, h1, h2, h3, show k < 64 by omega]
  · have hne : j.val ≠ i.val := fun he => h (Fin.ext he)
    have h1 : 8 * j.val + k < 64 := by omega
    rcases Nat.lt_or_gt_of_ne hne with hlt | hgt
    · have h2 : 8 * j.val + k < 8 * i.val := by omega
      simp [hk, h1, h2, h]
    · have h2 : ¬ 8 * j.val + k < 8 * i.val := by omega
      have h3 : ¬ 8 * j.val + k - 8 * i.val < 8 := by omega
      simp [hk, h1, h2, h3, h, BitVec.getLsbD_of_ge t _ (by omega : 8 ≤ 8 * j.val + k - 8 * i.val)]

theorem lane_eq_iff {x : BitVec 64} {i : Fin 8} {b : BitVec 8} :
    lane x i = b ↔ x.toNat / 256 ^ i.val % 256 = b.toNat := by
  rw [← BitVec.toNat_inj]
  simp [lane, Nat.shiftRight_eq_div_pow, Nat.pow_mul]

/-- Subtracting one from each byte borrows from byte `i`. -/
def Borrows (x : BitVec 64) (i : ℕ) : Prop := x.toNat % 256 ^ i < 0x0101010101010101 % 256 ^ i

theorem not_borrows_zero (x : BitVec 64) : ¬ Borrows x 0 := by
  rw [Borrows, pow_zero, Nat.mod_one, Nat.mod_one]
  exact Nat.lt_irrefl 0

theorem borrows_succ {x : BitVec 64} {i : Fin 8} :
    Borrows x (i + 1) ↔ lane x i = 0#8 ∨ lane x i = 1#8 ∧ Borrows x i := by
  rw [lane_eq_iff, lane_eq_iff]
  have hi := i.isLt
  unfold Borrows
  generalize i.val = n at hi
  generalize x.toNat = word
  interval_cases n <;> simp only [Nat.reducePow, Nat.reduceMod, Nat.reduceAdd,
    BitVec.toNat_ofNat] <;> omega

theorem borrows_iff {x : BitVec 64} {n : ℕ} (hn : n < 8) :
    Borrows x (n + 1) ↔ ∃ j : Fin 8, j.val ≤ n ∧ lane x j = 0#8 ∧
      ∀ k : Fin 8, j < k → k.val ≤ n → lane x k = 1#8 := by
  induction n with
  | zero =>
    refine (borrows_succ (i := 0)).trans ⟨?_, ?_⟩
    · rintro (hzero | ⟨-, hborrow⟩)
      · exact ⟨0, le_refl _, hzero, fun k hk hle => absurd hle (Nat.not_le.mpr hk)⟩
      · exact absurd hborrow (not_borrows_zero x)
    · rintro ⟨j, hj, hzero, -⟩
      obtain rfl : j = 0 := Fin.ext (Nat.le_zero.mp hj)
      exact .inl hzero
  | succ n ih =>
    have hbelow := ih (Nat.lt_of_succ_lt hn)
    refine (borrows_succ (i := ⟨n + 1, hn⟩)).trans ⟨?_, ?_⟩
    · rintro (hzero | ⟨hone, hborrow⟩)
      · exact ⟨⟨n + 1, hn⟩, le_refl _, hzero, fun k hk hle => absurd hle (Nat.not_le.mpr hk)⟩
      · obtain ⟨j, hj, hzero, hones⟩ := hbelow.mp hborrow
        refine ⟨j, Nat.le_succ_of_le hj, hzero, fun k hk hle => ?_⟩
        rcases Nat.le_or_eq_of_le_succ hle with hle | heq
        · exact hones k hk hle
        · obtain rfl : k = ⟨n + 1, hn⟩ := Fin.ext heq
          exact hone
    · rintro ⟨j, hj, hzero, hones⟩
      rcases Nat.le_or_eq_of_le_succ hj with hle | heq
      · exact .inr ⟨hones _ (Nat.lt_succ_of_le hle) (le_refl _),
          hbelow.mpr ⟨j, hle, hzero, fun k hk hle => hones k hk (Nat.le_succ_of_le hle)⟩⟩
      · obtain rfl : j = ⟨n + 1, hn⟩ := Fin.ext heq
        exact .inl hzero

theorem flag_iff {x : BitVec 64} {i : Fin 8} :
    ((x - 0x0101010101010101#64) &&& ~~~x &&& 0x8080808080808080#64).getLsbD (8 * i + 7) = true ↔
      Borrows x (i + 1) := by
  have hmsb : ∀ j : Fin 8, (0x8080808080808080#64).getLsbD (8 * j + 7) = true := by
    decide +kernel
  have hlt : 8 * i.val + 7 < 64 := by omega
  rw [BitVec.getLsbD_and, BitVec.getLsbD_and, BitVec.getLsbD_not, hmsb, decide_eq_true hlt,
    Bool.true_and, Bool.and_true, Bool.and_eq_true, Bool.not_eq_true', BitVec.getLsbD,
    BitVec.getLsbD, Nat.testBit_eq_decide_div_mod_eq, Nat.testBit_eq_decide_div_mod_eq,
    BitVec.toNat_sub, decide_eq_true_eq, decide_eq_false_iff_not]
  have hi := i.isLt
  have hword := x.isLt
  clear hmsb hlt
  unfold Borrows
  generalize i.val = n at hi
  generalize x.toNat = word at hword
  interval_cases n <;> simp only [Nat.reducePow, Nat.reduceMul, Nat.reduceAdd, Nat.reduceSub,
    BitVec.toNat_ofNat, Nat.reduceMod] at * <;> omega

/-- The word whose top bit of byte `i` is bit `i` of `e`. -/
def spread (e : BitVec 8) : BitVec 64 :=
  BitVec.ofFnLE fun k : Fin 64 => decide (k.val % 8 = 7) && e.getLsbD (k.val / 8)

theorem gather_spread : ∀ e : BitVec 8,
    ((spread e * 0x0002040810204081#64) >>> 56).setWidth 8 = e := by
  decide +kernel

/-- A word with flags in the top bits of its bytes only is the spread of those flags. -/
theorem spread_flags {z : BitVec 64} (h : z &&& 0x8080808080808080#64 = z) :
    spread (BitVec.ofFnLE fun i : Fin 8 => z.getLsbD (8 * i + 7)) = z := by
  have hmsb : ∀ k : Fin 64, (0x8080808080808080#64).getLsbD k = decide (k.val % 8 = 7) := by
    decide +kernel
  apply BitVec.eq_of_getLsbD_eq
  intro k hk
  have hz : z.getLsbD k = (z.getLsbD k && decide (k % 8 = 7)) := by
    conv_lhs => rw [← h, BitVec.getLsbD_and, hmsb ⟨k, hk⟩]
  by_cases hk7 : k % 8 = 7
  · have hpos : 8 * (k / 8) + 7 = k := by omega
    simp [spread, BitVec.getLsbD_ofFnLE, hk, hk7, hpos, show k / 8 < 8 by omega]
  · rw [hz]
    simp [spread, BitVec.getLsbD_ofFnLE, hk7]

theorem gather_flags {z : BitVec 64} (h : z &&& 0x8080808080808080#64 = z) (i : Fin 8) :
    (((z * 0x0002040810204081#64) >>> 56).setWidth 8).getLsbD i = z.getLsbD (8 * i + 7) := by
  rw [← spread_flags h, gather_spread, spread_flags h]
  simp

/-- The index of the lowest set bit; the code calls it on nonzero bytes only. -/
def lowestBit (c : BitVec 8) : Fin 8 :=
  ((List.finRange 8).find? fun i : Fin 8 => c.getLsbD i).getD 0

/-- Take the lowest set bit, clear it, and go on: `fuel` rounds at most. -/
def setBits : ℕ → BitVec 8 → List (Fin 8)
  | 0, _ => []
  | fuel + 1, c => if c = 0#8 then [] else lowestBit c :: setBits fuel (c &&& (c - 1#8))

theorem setBits_eq_filter : ∀ c : BitVec 8,
    setBits 8 c = (List.finRange 8).filter fun i : Fin 8 => c.getLsbD i := by
  decide +kernel

theorem mem_setBits {c : BitVec 8} {i : Fin 8} : i ∈ setBits 8 c ↔ c.getLsbD i = true := by
  simp [setBits_eq_filter]

theorem lowestBit_set : ∀ c : BitVec 8, c ≠ 0#8 → c.getLsbD (lowestBit c) = true := by
  decide +kernel

theorem lowestBit_least : ∀ (c : BitVec 8) (i : Fin 8), i < lowestBit c → c.getLsbD i = false := by
  decide +kernel

end Kvx.Lib.ByteLanes
