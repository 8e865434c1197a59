import Mathlib.Algebra.Group.Int.Defs
import Mathlib.Algebra.Group.Nat.Defs
import Kvx.Lib.CString

/-!
# Numbers in C strings

The `strto` functions of the C standard, for base 10 and 64 bits: blanks, a sign and digits.
-/
namespace Kvx.Lib

/-- `isspace` in the C locale. -/
def isspace (ch : UInt8) : Bool := ch == 32 || (9 ≤ ch && ch ≤ 13)

def isdigit (ch : UInt8) : Bool := 48 ≤ ch && ch ≤ 57

def digitsValue (s : List UInt8) : ℕ := s.foldl (fun v ch => v * 10 + (ch.toNat - 48)) 0

/-- A number that was read, and the offset behind it. -/
structure Numeral where
  negative : Bool
  magnitude : ℕ
  stop : ℕ
  deriving DecidableEq, Repr

def plus : UInt8 := 43
def minus : UInt8 := 45

/-- What the `strto` functions read. `none`: there is no digit. -/
def scanNumeral (s : CString) : Option Numeral :=
  let blanks := s.bytes.takeWhile isspace
  let rest := s.bytes.drop blanks.length
  let signLen := if rest.head? = some plus ∨ rest.head? = some minus then 1 else 0
  let digits := (rest.drop signLen).takeWhile isdigit
  if digits = [] then none
  else some {
    negative := rest.head? = some minus
    magnitude := digitsValue digits
    stop := blanks.length + signLen + digits.length }

/-- The result of a `strto` function: the value, the offset of `end` and whether `errno` is
`ERANGE`. -/
structure StrTo (α : Type) where
  value : α
  stop : ℕ
  erange : Bool
  deriving DecidableEq, Repr

def ulongMax : ℕ := 2 ^ 64 - 1

/-- A minus sign negates modulo 2^64. -/
def strtoul (s : CString) : StrTo ℕ :=
  match scanNumeral s with
  | none => ⟨0, 0, false⟩
  | some n =>
      if n.magnitude > ulongMax then ⟨ulongMax, n.stop, true⟩
      else ⟨if n.negative then (2 ^ 64 - n.magnitude) % 2 ^ 64 else n.magnitude, n.stop, false⟩

/-- `uintmax_t` has the width of `unsigned long`. -/
def strtoumax (s : CString) : StrTo ℕ := strtoul s

def intmaxMax : ℕ := 2 ^ 63 - 1

def strtoimax (s : CString) : StrTo ℤ :=
  match scanNumeral s with
  | none => ⟨0, 0, false⟩
  | some n =>
      if n.negative then
        if n.magnitude > intmaxMax + 1 then ⟨-(intmaxMax + 1), n.stop, true⟩
        else ⟨-n.magnitude, n.stop, false⟩
      else if n.magnitude > intmaxMax then ⟨intmaxMax, n.stop, true⟩
      else ⟨n.magnitude, n.stop, false⟩

/-- `s` is blanks, a sign and digits. -/
structure Spelled (s blanks sign digits : List UInt8) : Prop where
  eq : s = blanks ++ (sign ++ digits)
  blank : ∀ ch ∈ blanks, isspace ch
  signed : sign = [] ∨ sign = [plus] ∨ sign = [minus]
  digit : ∀ ch ∈ digits, isdigit ch
  nonempty : digits ≠ []

theorem isdigit_not_isspace {ch : UInt8} (h : isdigit ch) : ¬ isspace ch := by
  simp only [isdigit, Bool.and_eq_true, decide_eq_true_eq, UInt8.le_iff_toNat_le] at h
  have hlow : 48 ≤ ch.toNat := h.1
  simp only [isspace, Bool.or_eq_true, Bool.and_eq_true, beq_iff_eq, decide_eq_true_eq,
    UInt8.le_iff_toNat_le]
  rintro (rfl | ⟨-, hhigh⟩)
  · exact absurd hlow (by decide)
  · have : ch.toNat ≤ 13 := hhigh
    omega

theorem isdigit_not_sign {ch : UInt8} (h : isdigit ch) : ch ≠ plus ∧ ch ≠ minus := by
  constructor
  · rintro rfl
    exact absurd h (by decide)
  · rintro rfl
    exact absurd h (by decide)

variable {s : CString} {blanks sign digits : List UInt8}

theorem Spelled.takeWhile_isspace (h : Spelled s.bytes blanks sign digits) :
    s.bytes.takeWhile isspace = blanks := by
  have hstop : (sign ++ digits).takeWhile isspace = [] := by
    obtain ⟨ch, rest, hdigits⟩ := List.exists_cons_of_ne_nil h.nonempty
    have hch := isdigit_not_isspace (h.digit ch (hdigits ▸ List.mem_cons_self))
    rcases h.signed with rfl | rfl | rfl
    · rw [List.nil_append, hdigits, List.takeWhile_cons, if_neg hch]
    · rfl
    · rfl
  rw [h.eq, List.takeWhile_append_of_pos h.blank, hstop, List.append_nil]

theorem Spelled.head (h : Spelled s.bytes blanks sign digits) :
    ((sign ++ digits).head? = some plus ↔ sign = [plus]) ∧
      ((sign ++ digits).head? = some minus ↔ sign = [minus]) := by
  obtain ⟨ch, rest, hdigits⟩ := List.exists_cons_of_ne_nil h.nonempty
  obtain ⟨hplus, hminus⟩ := isdigit_not_sign (h.digit ch (hdigits ▸ List.mem_cons_self))
  rcases h.signed with rfl | rfl | rfl
  · simp [hdigits, hplus, hminus]
  · simp [plus, minus]
  · simp [plus, minus]

theorem sign_length (h : sign = [] ∨ sign = [plus] ∨ sign = [minus]) :
    (if sign = [plus] ∨ sign = [minus] then 1 else 0) = sign.length := by
  rcases h with rfl | rfl | rfl
  · rfl
  · rfl
  · rfl

theorem Spelled.scan (h : Spelled s.bytes blanks sign digits) :
    scanNumeral s = some ⟨sign = [minus], digitsValue digits, s.bytes.length⟩ := by
  have hrest : s.bytes.drop blanks.length = sign ++ digits := by
    rw [h.eq, List.drop_left]
  obtain ⟨hplus, hminus⟩ := h.head
  have hdigits : digits.takeWhile isdigit = digits := List.takeWhile_eq_self_iff.mpr h.digit
  unfold scanNumeral
  simp only [h.takeWhile_isspace, hrest, hplus, hminus, sign_length h.signed, List.drop_left,
    hdigits, if_neg h.nonempty, Option.some.injEq, Numeral.mk.injEq, true_and]
  rw [h.eq, List.length_append, List.length_append, Nat.add_assoc]

theorem exists_sign (rest : List UInt8) : ∃ sign tail, rest = sign ++ tail ∧
    (sign = [] ∨ sign = [plus] ∨ sign = [minus]) ∧
    (rest.head? = some plus ↔ sign = [plus]) ∧ (rest.head? = some minus ↔ sign = [minus]) := by
  cases rest with
  | nil => exact ⟨[], [], rfl, .inl rfl, by simp, by simp⟩
  | cons ch tail =>
    by_cases hplus : ch = plus
    · subst hplus
      exact ⟨[plus], tail, rfl, .inr (.inl rfl), by simp, by simp [plus, minus]⟩
    by_cases hminus : ch = minus
    · subst hminus
      exact ⟨[minus], tail, rfl, .inr (.inr rfl), by simp [plus, minus], by simp⟩
    · exact ⟨[], ch :: tail, rfl, .inl rfl, by simp [hplus], by simp [hminus]⟩

theorem spelled_of_scan {n : Numeral} (h : scanNumeral s = some n)
    (hstop : s.bytes.length ≤ n.stop) :
    ∃ blanks sign digits, Spelled s.bytes blanks sign digits ∧
      n = ⟨sign = [minus], digitsValue digits, s.bytes.length⟩ := by
  have hblanks := List.takeWhile_append_dropWhile (p := isspace) (l := s.bytes)
  obtain ⟨sign, tail, hrest, hsigned, hplus, hminus⟩ := exists_sign (s.bytes.dropWhile isspace)
  have hdrop : s.bytes.drop (s.bytes.takeWhile isspace).length = s.bytes.dropWhile isspace :=
    calc
      _ = (s.bytes.takeWhile isspace ++ s.bytes.dropWhile isspace).drop
          (s.bytes.takeWhile isspace).length := by rw [hblanks]
      _ = s.bytes.dropWhile isspace := List.drop_left
  have hdigits := List.takeWhile_append_dropWhile (p := isdigit) (l := tail)
  unfold scanNumeral at h
  simp only [hdrop, hplus, hminus, sign_length hsigned] at h
  rw [hrest, List.drop_left] at h
  split_ifs at h with hnone
  rw [Option.some.injEq] at h
  have htailLength : (tail.takeWhile isdigit).length + (tail.dropWhile isdigit).length =
      tail.length := by rw [← List.length_append, hdigits]
  have hlength : s.bytes.length = (s.bytes.takeWhile isspace).length + sign.length +
      ((tail.takeWhile isdigit).length + (tail.dropWhile isdigit).length) := by
    rw [htailLength, Nat.add_assoc, ← List.length_append, ← hrest, ← List.length_append, hblanks]
  have htail : tail.dropWhile isdigit = [] := by
    rw [← h] at hstop
    rw [← List.length_eq_zero_iff]
    simp only at hstop
    omega
  rw [htail, List.append_nil] at hdigits
  refine ⟨s.bytes.takeWhile isspace, sign, tail, ⟨?_, ?_, hsigned, ?_, ?_⟩, ?_⟩
  · rw [← hrest, hblanks]
  · exact fun ch hch => List.mem_takeWhile_imp hch
  · exact fun ch hch => List.mem_takeWhile_imp (hdigits ▸ hch)
  · rw [← hdigits]
    exact hnone
  · rw [htail, List.length_nil, Nat.add_zero] at hlength
    rw [← h, hlength, hdigits]

theorem Spelled.bytes_ne_nil (h : Spelled s.bytes blanks sign digits) : s.bytes ≠ [] := by
  rw [h.eq]
  simp [h.nonempty]

theorem Spelled.of_digit {ch : UInt8} (h : Spelled s.bytes blanks sign digits)
    (hhead : s.bytes.head? = some ch) (hch : isdigit ch) : s.bytes = digits := by
  have heq := h.eq
  cases blanks with
  | cons blank blanks =>
    rw [heq, List.cons_append, List.head?_cons, Option.some.injEq] at hhead
    exact absurd (hhead ▸ h.blank blank List.mem_cons_self) (isdigit_not_isspace hch)
  | nil =>
    obtain ⟨hplus, hminus⟩ := isdigit_not_sign hch
    rcases h.signed with rfl | rfl | rfl
    · exact heq
    · rw [heq] at hhead
      exact absurd (Option.some.inj hhead).symm hplus
    · rw [heq] at hhead
      exact absurd (Option.some.inj hhead).symm hminus

theorem spelled_digits (hne : s.bytes ≠ []) (hdigit : ∀ ch ∈ s.bytes, isdigit ch) :
    Spelled s.bytes [] [] s.bytes :=
  ⟨rfl, by simp, .inl rfl, hdigit, hne⟩

theorem strtoul_spelled (h : Spelled s.bytes blanks sign digits) :
    strtoul s =
      if digitsValue digits > ulongMax then ⟨ulongMax, s.bytes.length, true⟩
      else ⟨if sign = [minus] then (2 ^ 64 - digitsValue digits) % 2 ^ 64 else digitsValue digits,
        s.bytes.length, false⟩ := by
  unfold strtoul
  rw [h.scan]
  simp only [decide_eq_true_eq]

theorem spelled_of_strtoul (hne : s.bytes ≠ []) (hstop : s.bytes.length ≤ (strtoul s).stop) :
    ∃ blanks sign digits, Spelled s.bytes blanks sign digits := by
  unfold strtoul at hstop
  cases hscan : scanNumeral s with
  | none =>
    rw [hscan] at hstop
    exact absurd (List.eq_nil_of_length_eq_zero (Nat.le_zero.mp hstop)) hne
  | some n =>
    have hend : s.bytes.length ≤ n.stop := by
      simp only [hscan] at hstop
      split_ifs at hstop
      · exact hstop
      · exact hstop
      · exact hstop
    obtain ⟨blanks, sign, digits, hspelled, -⟩ := spelled_of_scan hscan hend
    exact ⟨blanks, sign, digits, hspelled⟩

/-- The number that a sign and digits stand for. -/
def signedValue (sign digits : List UInt8) : ℤ :=
  if sign = [minus] then -(digitsValue digits) else digitsValue digits

theorem strtoimax_spelled (h : Spelled s.bytes blanks sign digits) :
    (strtoimax s).stop = s.bytes.length ∧
      ((strtoimax s).erange = false ↔
        -2 ^ 63 ≤ signedValue sign digits ∧ signedValue sign digits ≤ 2 ^ 63 - 1) ∧
      ((strtoimax s).erange = false → (strtoimax s).value = signedValue sign digits) := by
  have hmax : intmaxMax = 2 ^ 63 - 1 := rfl
  unfold strtoimax signedValue
  rw [h.scan]
  simp only [decide_eq_true_eq]
  by_cases hminus : sign = [minus]
  · rw [if_pos hminus, if_pos hminus]
    by_cases hlarge : digitsValue digits > intmaxMax + 1
    · rw [if_pos hlarge]
      refine ⟨rfl, ?_, by simp⟩
      simp only [Bool.true_eq_false, false_iff, not_and]
      omega
    · rw [if_neg hlarge]
      refine ⟨rfl, ?_, fun _ => rfl⟩
      simp only [true_iff]
      omega
  · rw [if_neg hminus, if_neg hminus]
    by_cases hlarge : digitsValue digits > intmaxMax
    · rw [if_pos hlarge]
      refine ⟨rfl, ?_, by simp⟩
      simp only [Bool.true_eq_false, false_iff, not_and]
      omega
    · rw [if_neg hlarge]
      refine ⟨rfl, ?_, fun _ => rfl⟩
      simp only [true_iff]
      omega

/-- A string that `strtoimax` reads to its end is a number. -/
theorem spelled_of_strtoimax (hstart : (strtoimax s).stop ≠ 0)
    (hstop : s.bytes.length ≤ (strtoimax s).stop) :
    ∃ blanks sign digits, Spelled s.bytes blanks sign digits := by
  unfold strtoimax at hstart hstop
  cases hscan : scanNumeral s with
  | none =>
    rw [hscan] at hstart
    exact absurd rfl hstart
  | some n =>
    have hend : s.bytes.length ≤ n.stop := by
      simp only [hscan] at hstop
      split_ifs at hstop
      · exact hstop
      · exact hstop
      · exact hstop
      · exact hstop
    obtain ⟨blanks, sign, digits, hspelled, -⟩ := spelled_of_scan hscan hend
    exact ⟨blanks, sign, digits, hspelled⟩

end Kvx.Lib
