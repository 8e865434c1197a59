import Mathlib.Data.List.Induction
import Mathlib.Data.Nat.Digits.Defs
import Kvx.ProtocolInside
import Kvx.ProtocolWrite

/-!
# Numbers in requests and responses

`proto_parse_uint` reads decimal numbers of any length up to a limit, without an intermediate
result that does not fit 64 bits. It reads back what `proto_format_uint` wrote.
-/
namespace Kvx.Protocol

open Kvx.Lib

/-- The number that the decimal digits spell. -/
def number (s : List UInt8) : ℕ := Nat.ofDigits 10 (s.reverse.map fun ch => ch.toNat - 48)

theorem number_concat (s : List UInt8) (ch : UInt8) :
    number (s ++ [ch]) = number s * 10 + (ch.toNat - 48) := by
  rw [number, List.reverse_append, List.reverse_singleton, List.singleton_append, List.map_cons,
    Nat.ofDigits_cons, Nat.add_comm, Nat.mul_comm, number]

theorem decimal_eq_number (s : List UInt8) : decimal s = number s := by
  induction s using List.reverseRecOn with
  | nil => rfl
  | append_singleton s ch ih =>
    rw [decimal, decimalFrom_concat, number_concat, ← ih, decimal]

/-- A nonempty string of decimal digits for a number of at most `limit`. -/
def SpellsUpTo (limit : ℕ) (s : List UInt8) : Prop :=
  s ≠ [] ∧ (∀ ch ∈ s, 48 ≤ ch ∧ ch ≤ 57) ∧ number s ≤ limit

instance (limit : ℕ) (s : List UInt8) : Decidable (SpellsUpTo limit s) :=
  inferInstanceAs (Decidable (_ ∧ (∀ ch ∈ s, _) ∧ _))

theorem isUint_iff {limit : ℕ} {s : List UInt8} : IsUint limit s ↔ SpellsUpTo limit s := by
  rw [IsUint, SpellsUpTo, decimal_eq_number]
  rfl

/-- The token of the bytes `s` behind `before`. -/
def tokenAt (before s : List UInt8) : Token := ⟨before.length, s.length⟩

theorem of_tokenAt (before s after : List UInt8) :
    (⟨before.length, s.length⟩ : Run).of (before ++ (s ++ after)) = s := by
  rw [Run.of, List.drop_left, List.take_left]

theorem protoParseUint_tokenAt (before s after : List UInt8) {limit : ℕ} (hlimit : limit < 2 ^ 64) :
    protoParseUint (before ++ (s ++ after)) (tokenAt before s) limit =
      .ok (if SpellsUpTo limit s then some (number s) else none) := by
  have hwithin : (⟨before.length, s.length⟩ : Run).start + (⟨before.length, s.length⟩ : Run).len ≤
      (before ++ (s ++ after)).length := by
    simp only [List.length_append]
    omega
  have hparse := protoParseUint_eq hlimit hwithin
  rw [of_tokenAt, decimal_eq_number] at hparse
  simp only [isUint_iff] at hparse
  exact hparse

/-- A token is read if it spells a number within the limit. On a buffer with a length that is a
`size_t` no sum and no product wraps: the parser that faults then does the same. -/
theorem protoParseUint_exact (before s after : List UInt8) (limit : UInt64) :
    protoParseUint (before ++ (s ++ after)) (tokenAt before s) limit.toNat =
        .ok (if SpellsUpTo limit.toNat s then some (number s) else none) ∧
      ((before ++ (s ++ after)).length ≤ sizeMax →
        Guarded.protoParseUint (before ++ (s ++ after)) (tokenAt before s) limit.toNat =
          .ok (if SpellsUpTo limit.toNat s then some (number s) else none)) := by
  have hlimit : limit.toNat < 2 ^ 64 := limit.toNat_lt
  have hparse := protoParseUint_tokenAt before s after hlimit
  refine ⟨hparse, fun hlength => ?_⟩
  rw [Guarded.protoParseUint_eq hlength _ (Nat.le_pred_of_lt hlimit)]
  exact hparse

/-- 2^64 + 4 -/
def wideText : List UInt8 :=
  text ['1', '8', '4', '4', '6', '7', '4', '4', '0', '7', '3', '7', '0', '9', '5', '5', '1', '6',
    '2', '0']

/-- A step that wraps would read 4. -/
theorem protoParseUint_exact_wide :
    Guarded.protoParseUint ([] ++ (wideText ++ [])) (tokenAt [] wideText)
      (UInt64.ofNat (2 ^ 64 - 1)).toNat = .ok none := by
  have hvalue : decimal wideText = 2 ^ 64 + 4 := by decide
  have hwide : ¬ SpellsUpTo (UInt64.ofNat (2 ^ 64 - 1)).toNat wideText := by
    rintro ⟨-, -, hle⟩
    rw [← decimal_eq_number, hvalue] at hle
    exact absurd hle (by decide)
  have hparse := (protoParseUint_exact [] wideText [] (UInt64.ofNat (2 ^ 64 - 1))).2 (by decide)
  rwa [if_neg hwide] at hparse

theorem decimalText_head (value : ℕ) (hpos : 0 < value) :
    (decimalText value).head? ≠ some 48 := by
  induction value using decimalText.induct with
  | case1 value h =>
    rw [decimalText, if_pos h, List.head?_cons]
    intro hzero
    have hdigit := congrArg UInt8.toNat (Option.some.inj hzero)
    rw [digit_toNat] at hdigit
    have : 48 + value % 10 = 48 := hdigit
    omega
  | case2 value h ih =>
    have hhigh : 0 < value / 10 := by omega
    have hne : decimalText (value / 10) ≠ [] :=
      List.ne_nil_of_length_pos (decimalText_length_pos _)
    rw [decimalText, if_neg h, List.head?_append_of_ne_nil _ hne]
    exact ih hhigh

theorem spellsUpTo_decimalText {value limit : ℕ} (h : value ≤ limit) :
    SpellsUpTo limit (decimalText value) := by
  refine ⟨List.ne_nil_of_length_pos (decimalText_length_pos _), decimalText_digits value, ?_⟩
  rwa [← decimal_eq_number, decimal_decimalText]

/-- `proto_format_uint` stays in a scratch space with a byte for each digit. -/
theorem protoFormatUint_fits {value digits room : ℕ} (hdigits : 0 < digits)
    (hvalue : value < 10 ^ digits) (hroom : digits ≤ room) :
    protoFormatUint room value [] = .ok (decimalText value) := by
  rw [protoFormatUint_eq, if_pos ((decimalText_length_le hdigits hvalue).trans hroom),
    List.append_nil]

/-- What `proto_format_uint` writes for a number is read back as this number, wherever it stands.
It has no leading zero, and it fits the scratch spaces of `protocol_write_get_result`. -/
structure RoundTrips (value limit : UInt64) (written : List UInt8) : Prop where
  read : ∀ before after, protoParseUint (before ++ (written ++ after)) (tokenAt before written)
    limit.toNat = .ok (some value.toNat)
  leading : written.head? = some 48 → value = 0
  length : written.length ≤ 20
  short : value.toNat < 2 ^ 32 → written.length ≤ 10
  lengthBuf : protoFormatUint 24 value.toNat [] = .ok written
  flagsBuf : value.toNat < 2 ^ 32 → protoFormatUint 10 value.toNat [] = .ok written

theorem protoFormatUint_roundTrips (value limit : UInt64) (h : value ≤ limit) :
    ∃ written, protoFormatUint 20 value.toNat [] = .ok written ∧
      RoundTrips value limit written := by
  have hvalue : value.toNat < 10 ^ 20 := value.toNat_lt.trans (by decide)
  have hshort : value.toNat < 2 ^ 32 → value.toNat < 10 ^ 10 := fun hsmall =>
    hsmall.trans (by decide)
  refine ⟨decimalText value.toNat, protoFormatUint_fits (by decide) hvalue (le_refl _), ?_⟩
  constructor
  · intro before after
    have hspells := spellsUpTo_decimalText (UInt64.le_iff_toNat_le.mp h)
    rw [protoParseUint_tokenAt before _ after limit.toNat_lt, if_pos hspells,
      ← decimal_eq_number, decimal_decimalText]
  · intro hhead
    by_contra hne
    have hpos : 0 < value.toNat := Nat.pos_of_ne_zero fun hzero => hne (UInt64.toNat_inj.mp hzero)
    exact decimalText_head _ hpos hhead
  · exact decimalText_length_le (by decide) hvalue
  · exact fun hsmall => decimalText_length_le (by decide) (hshort hsmall)
  · exact protoFormatUint_fits (by decide) hvalue (by decide)
  · exact fun hsmall => protoFormatUint_fits (by decide) (hshort hsmall) (le_refl _)

/-- 2^64 − 1 -/
theorem protoFormatUint_largest : ∃ written,
    protoFormatUint 20 (UInt64.ofNat (2 ^ 64 - 1)).toNat [] = .ok written ∧
      RoundTrips (UInt64.ofNat (2 ^ 64 - 1)) (UInt64.ofNat (2 ^ 64 - 1)) written :=
  protoFormatUint_roundTrips _ _ (by decide)

end Kvx.Protocol
