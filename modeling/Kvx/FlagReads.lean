import Kvx.Flag

/-!
# The value of a flag

The texts that are a value of each type, and the value that `set_value` takes from them.
-/
namespace Kvx.Cli

open Kvx.Lib

theorem noNul_trueText : 0 ∉ trueText := by decide

def trueString : CString := ⟨trueText, noNul_trueText⟩

/-- A flag of the type may have the text, and it stands for the value. -/
inductive Reads : FlagType → CString → FlagValue → Prop
  | i64 {text : CString} {blanks sign digits : List UInt8}
      (spelled : Spelled text.bytes blanks sign digits)
      (above : -2 ^ 63 ≤ signedValue sign digits) (below : signedValue sign digits ≤ 2 ^ 63 - 1) :
      Reads .i64 text (.i64 (signedValue sign digits))
  | u64 {text : CString} (nonempty : text.bytes ≠ []) (digit : ∀ ch ∈ text.bytes, isdigit ch)
      (below : digitsValue text.bytes ≤ 2 ^ 64 - 1) : Reads .u64 text (.u64 (digitsValue text.bytes))
  | yes {text : CString} (spelled : text.bytes = trueText) : Reads .bool text (.bool true)
  | no {text : CString} (spelled : text.bytes = falseText) : Reads .bool text (.bool false)
  | str {text : CString} : Reads .str text (.str (some text))

variable {text : CString}

theorem parseI64_spelled {blanks sign digits : List UInt8}
    (h : Spelled text.bytes blanks sign digits) (habove : -2 ^ 63 ≤ signedValue sign digits)
    (hbelow : signedValue sign digits ≤ 2 ^ 63 - 1) :
    parseI64 text = .ok (signedValue sign digits) := by
  obtain ⟨hstop, hrange, hvalue⟩ := strtoimax_spelled h
  have herange := hrange.mpr ⟨habove, hbelow⟩
  have hend : ¬ ((strtoimax text).stop = 0 ∨ text.get (strtoimax text).stop ≠ 0) := by
    rw [hstop, not_or, not_not, CString.get_eq_zero]
    exact ⟨fun hzero => h.bytes_ne_nil (List.eq_nil_of_length_eq_zero hzero), le_refl _⟩
  unfold parseI64
  simp only [if_neg hend, herange, hvalue herange]
  rw [if_neg Bool.false_ne_true, if_neg (by omega)]

theorem parseI64_ok {x : ℤ} (h : parseI64 text = .ok x) : Reads .i64 text (.i64 x) := by
  unfold parseI64 at h
  simp only at h
  split_ifs at h with hend herange hwide
  obtain ⟨hstart, hend⟩ := not_or.mp hend
  rw [not_not, CString.get_eq_zero] at hend
  obtain ⟨blanks, sign, digits, hspelled⟩ := spelled_of_strtoimax hstart hend
  obtain ⟨-, hrange, hvalue⟩ := strtoimax_spelled hspelled
  have hfalse : (strtoimax text).erange = false := Bool.eq_false_iff.mpr herange
  obtain ⟨habove, hbelow⟩ := hrange.mp hfalse
  rw [← Except.ok.inj h, hvalue hfalse]
  exact .i64 hspelled habove hbelow

theorem parseI64_error {err : FlagErr} (h : parseI64 text = .error err) : err = .invalidValue := by
  unfold parseI64 at h
  simp only at h
  split_ifs at h
  · exact (Except.error.inj h).symm
  · exact (Except.error.inj h).symm
  · exact (Except.error.inj h).symm

theorem parseU64_digits (hne : text.bytes ≠ []) (hdigit : ∀ ch ∈ text.bytes, isdigit ch) :
    parseU64 text =
      if digitsValue text.bytes ≤ 2 ^ 64 - 1 then .ok (digitsValue text.bytes)
      else .error .invalidValue := by
  have hfirst : isdigit (text.get 0) := by
    obtain ⟨ch, rest, hbytes⟩ := List.exists_cons_of_ne_nil hne
    rw [CString.get, hbytes]
    exact hdigit ch (hbytes ▸ List.mem_cons_self)
  have hrun := strtoul_spelled (spelled_digits hne hdigit)
  rw [if_neg (show ¬ ([] : List UInt8) = [minus] by decide)] at hrun
  have hend : text.get text.bytes.length = 0 := CString.get_eq_zero.mpr (le_refl _)
  unfold parseU64 strtoumax
  rw [if_neg (not_not.mpr hfirst), hrun]
  by_cases hbelow : digitsValue text.bytes ≤ 2 ^ 64 - 1
  · have hfits : ¬ digitsValue text.bytes > ulongMax := Nat.not_lt.mpr hbelow
    rw [if_neg hfits, if_pos hbelow]
    simp only [hend]
    rw [if_neg (by simp), if_neg (by simpa using hbelow)]
  · have hlarge : digitsValue text.bytes > ulongMax := Nat.not_le.mp hbelow
    rw [if_pos hlarge, if_neg hbelow]
    simp [hend]

theorem parseU64_ok {x : ℕ} (h : parseU64 text = .ok x) : Reads .u64 text (.u64 x) := by
  have hall : text.bytes ≠ [] ∧ ∀ ch ∈ text.bytes, isdigit ch := by
    unfold parseU64 at h
    split_ifs at h with hfirst
    have hhead : text.bytes.head? = some (text.get 0) := by
      cases hbytes : text.bytes with
      | nil =>
        rw [CString.get, hbytes] at hfirst
        exact absurd hfirst (by decide)
      | cons ch rest => rw [CString.get, hbytes, List.head?_cons, List.getD_cons_zero]
    simp only at h
    split_ifs at h with hend
    rw [not_not, CString.get_eq_zero] at hend
    have hne : text.bytes ≠ [] := by
      intro hnil
      rw [hnil] at hhead
      cases hhead
    obtain ⟨blanks, sign, digits, hspelled⟩ := spelled_of_strtoul hne hend
    rw [hspelled.of_digit hhead hfirst]
    exact ⟨hspelled.nonempty, hspelled.digit⟩
  obtain ⟨hne, hdigit⟩ := hall
  rw [parseU64_digits hne hdigit] at h
  split_ifs at h with hbelow
  rw [← Except.ok.inj h]
  exact .u64 hne hdigit hbelow

theorem parseU64_error {err : FlagErr} (h : parseU64 text = .error err) : err = .invalidValue := by
  unfold parseU64 at h
  simp only at h
  split_ifs at h
  · exact (Except.error.inj h).symm
  · exact (Except.error.inj h).symm
  · exact (Except.error.inj h).symm

theorem parseBool_ok {x : Bool} (h : parseBool text = .ok x) : Reads .bool text (.bool x) := by
  unfold parseBool at h
  split_ifs at h with htrue hfalse
  · rw [← Except.ok.inj h]
    exact .yes htrue
  · rw [← Except.ok.inj h]
    exact .no hfalse

theorem parseBool_error {err : FlagErr} (h : parseBool text = .error err) :
    err = .invalidValue := by
  unfold parseBool at h
  split_ifs at h
  exact (Except.error.inj h).symm

variable {f : Flag} {v v' : FlagValue} {vars vars' : Vars}

theorem Reads.set (h : Reads f.type text v) (vars : Vars) :
    setValue f text vars = .ok (Function.update vars f.dst v) := by
  obtain ⟨type, shortName, longName, dst⟩ := f
  simp only at h
  unfold setValue
  cases h with
  | i64 hspelled habove hbelow => simp only [parseI64_spelled hspelled habove hbelow, Except.map]
  | u64 hne hdigit hbelow =>
    simp only [parseU64_digits hne hdigit, if_pos hbelow, Except.map]
  | yes htext =>
    have hparse : parseBool text = .ok true := if_pos htext
    simp only [hparse, Except.map]
  | no htext =>
    have hparse : parseBool text = .ok false := by
      rw [parseBool, htext]
      decide
    simp only [hparse, Except.map]
  | str => rfl

theorem setValue_invalid (h : ¬ ∃ v, Reads f.type text v) (vars : Vars) :
    setValue f text vars = .error .invalidValue := by
  obtain ⟨type, shortName, longName, dst⟩ := f
  simp only at h
  unfold setValue
  cases type with
  | i64 =>
    cases hparse : parseI64 text with
    | ok x => exact absurd ⟨_, parseI64_ok hparse⟩ h
    | error err => simp only [Except.map, parseI64_error hparse]
  | u64 =>
    cases hparse : parseU64 text with
    | ok x => exact absurd ⟨_, parseU64_ok hparse⟩ h
    | error err => simp only [Except.map, parseU64_error hparse]
  | bool =>
    cases hparse : parseBool text with
    | ok x => exact absurd ⟨_, parseBool_ok hparse⟩ h
    | error err => simp only [Except.map, parseBool_error hparse]
  | str => exact absurd ⟨_, .str⟩ h

theorem Reads.unique (h : Reads f.type text v) (h' : Reads f.type text v') : v = v' := by
  have hsame := Except.ok.inj ((h.set fun _ => v).symm.trans (h'.set fun _ => v))
  have hdst := congrFun hsame f.dst
  rwa [Function.update_self, Function.update_self] at hdst

end Kvx.Cli
