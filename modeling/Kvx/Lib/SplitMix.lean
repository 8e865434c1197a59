import Mathlib.Data.BitVec
import Mathlib.Data.List.Basic
import Mathlib.Tactic.Abel
import Mathlib.Tactic.LinearCombination

/-!
# Splitmix

A generator of 64-bit words, and bytes drawn from it a word at a time. Its state advances by an odd
step and each word is a bijection of the state, so that words drawn at different times differ.
-/
namespace Kvx.Lib

/-- The next state and the word drawn. -/
def splitmix64 (state : BitVec 64) : BitVec 64 × BitVec 64 :=
  let state := state + 0x9E3779B97F4A7C15#64
  let z := (state ^^^ (state >>> 30)) * 0xBF58476D1CE4E5B9#64
  let z := (z ^^^ (z >>> 27)) * 0x94D049BB133111EB#64
  (state, z ^^^ (z >>> 31))

/-- The bytes of a word in memory, the lowest first. -/
def wordBytes (r : BitVec 64) : List UInt8 :=
  (List.range 8).map fun i => UInt8.ofNat (r >>> (8 * i)).toNat

@[simp] theorem length_wordBytes (r : BitVec 64) : (wordBytes r).length = 8 := by simp [wordBytes]

def drawWords : ℕ → BitVec 64 → BitVec 64 × List UInt8
  | 0, state => (state, [])
  | n + 1, state =>
      let (state, r) := splitmix64 state
      let (state, bytes) := drawWords n state
      (state, wordBytes r ++ bytes)

theorem length_drawWords (n : ℕ) (state : BitVec 64) : (drawWords n state).2.length = 8 * n := by
  induction n generalizing state with
  | zero => rfl
  | succ n ih =>
    simp only [drawWords, List.length_append, length_wordBytes, ih]
    omega

/-- As many words as cover `len` bytes; the last one is cut. -/
def drawBytes (len : ℕ) (state : BitVec 64) : BitVec 64 × List UInt8 :=
  let (state, bytes) := drawWords ((len + 7) / 8) state
  (state, bytes.take len)

@[simp] theorem length_drawBytes (len : ℕ) (state : BitVec 64) :
    (drawBytes len state).2.length = len := by
  simp only [drawBytes, List.length_take, length_drawWords]
  omega

theorem xor_ushiftRight_inj {w n : ℕ} (hn : n ≠ 0) {x y : BitVec w} :
    x ^^^ (x >>> n) = y ^^^ (y >>> n) ↔ x = y := by
  refine ⟨fun h => ?_, fun h => h ▸ rfl⟩
  -- What the two differ in is its own shift, which only zero is.
  have hshift : x ^^^ y = (x ^^^ y) >>> n := by
    rw [BitVec.ushiftRight_xor_distrib]
    calc
      x ^^^ y = x ^^^ (x >>> n) ^^^ (x >>> n ^^^ y) := by
        rw [BitVec.xor_assoc, ← BitVec.xor_assoc (x >>> n), BitVec.xor_self, BitVec.zero_xor]
      _ = y ^^^ (y >>> n) ^^^ (y ^^^ x >>> n) := by rw [h, BitVec.xor_comm (x >>> n)]
      _ = y >>> n ^^^ x >>> n := by
        rw [BitVec.xor_comm y, BitVec.xor_assoc, ← BitVec.xor_assoc y, BitVec.xor_self,
          BitVec.zero_xor]
      _ = x >>> n ^^^ y >>> n := BitVec.xor_comm _ _
  have hzero : (x ^^^ y).toNat = 0 := by
    by_contra hpos
    have hlt := Nat.div_lt_self (Nat.pos_of_ne_zero hpos) (Nat.one_lt_two_pow hn)
    rw [← Nat.shiftRight_eq_div_pow, ← BitVec.toNat_ushiftRight, ← hshift] at hlt
    exact Nat.lt_irrefl _ hlt
  exact BitVec.xor_eq_zero_iff.mp (BitVec.eq_of_toNat_eq hzero)

theorem mul_inj_of_inverse {w : ℕ} {c c' : BitVec w} (hc : c * c' = 1#w) {x y : BitVec w} :
    x * c = y * c ↔ x = y := by
  refine ⟨fun h => ?_, fun h => h ▸ rfl⟩
  have hback := congrArg (· * c') h
  simpa only [BitVec.mul_assoc, hc, BitVec.mul_one] using hback

theorem splitmix64_word_inj {state state' : BitVec 64} :
    (splitmix64 state).2 = (splitmix64 state').2 ↔ state = state' := by
  have hfirst : 0xBF58476D1CE4E5B9#64 * 0x96DE1B173F119089#64 = 1#64 := by decide
  have hsecond : 0x94D049BB133111EB#64 * 0x319642B2D24D8EC3#64 = 1#64 := by decide
  simp only [splitmix64, xor_ushiftRight_inj (Nat.succ_ne_zero _), mul_inj_of_inverse hsecond,
    mul_inj_of_inverse hfirst, BitVec.add_left_inj]

theorem wordBytes_inj {r r' : BitVec 64} : wordBytes r = wordBytes r' ↔ r = r' := by
  refine ⟨fun h => ?_, fun h => h ▸ rfl⟩
  have hbyte (i : ℕ) (hi : i < 8) :
      r.toNat / 2 ^ (8 * i) % 256 = r'.toNat / 2 ^ (8 * i) % 256 := by
    have hat := congrArg (fun bytes => (bytes[i]?.map UInt8.toNat)) h
    simpa [wordBytes, hi, Nat.shiftRight_eq_div_pow] using hat
  have h0 := hbyte 0 (by omega)
  have h1 := hbyte 1 (by omega)
  have h2 := hbyte 2 (by omega)
  have h3 := hbyte 3 (by omega)
  have h4 := hbyte 4 (by omega)
  have h5 := hbyte 5 (by omega)
  have h6 := hbyte 6 (by omega)
  have h7 := hbyte 7 (by omega)
  norm_num at h0 h1 h2 h3 h4 h5 h6 h7
  have hr := r.isLt
  have hr' := r'.isLt
  exact BitVec.eq_of_toNat_eq (by omega)

def splitStep : BitVec 64 := 0x9E3779B97F4A7C15#64

def splitBack : BitVec 64 := 0xF1DE83E19937733D#64

theorem splitStep_mul_back : splitStep * splitBack = 1 := by decide

theorem drawWords_state (n : ℕ) (state : BitVec 64) :
    (drawWords n state).1 = state + n * splitStep := by
  induction n generalizing state with
  | zero => simp [drawWords]
  | succ n ih =>
    have hnext : (splitmix64 state).1 = state + splitStep := rfl
    simp only [drawWords, ih, hnext, Nat.cast_succ, add_mul, one_mul]
    abel

theorem take_drawBytes {len : ℕ} (hlen : 8 ≤ len) (state : BitVec 64) :
    (drawBytes len state).2.take 8 = wordBytes (splitmix64 state).2 := by
  obtain ⟨n, hn⟩ : ∃ n, (len + 7) / 8 = n + 1 := ⟨(len + 7) / 8 - 1, by omega⟩
  simp only [drawBytes, hn, drawWords, List.take_take, Nat.min_eq_left hlen]
  exact List.take_left' (length_wordBytes _)

theorem draws_apart {state state' a b : BitVec 64}
    (h : state + a * splitStep = state' + b * splitStep) : (state - state') * splitBack = b - a := by
  linear_combination splitBack * h + (b - a) * splitStep_mul_back

end Kvx.Lib
