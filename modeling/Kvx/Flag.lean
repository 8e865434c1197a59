import Mathlib.Logic.Function.Basic
import Kvx.Lib.Numeral

/-!
# Command-line flags

A flag is declared with the variable that it sets. An argument is read as it stands in `argv`,
and the value of a flag is what follows its `=` or the next argument. What is printed for an
error is left out.
-/
namespace Kvx.Cli

open Kvx.Lib

def flagMax : ℕ := 64

/-- The error codes of `flag_err_t`. -/
inductive FlagErr
  | malformed
  | unknownFlag
  | missingValue
  | invalidValue
  deriving DecidableEq, Repr

inductive FlagType
  | i64
  | u64
  | bool
  | str
  deriving DecidableEq, Repr

inductive FlagValue
  | i64 (value : ℤ)
  | u64 (value : ℕ)
  | bool (value : Bool)
  | str (value : Option CString)
  deriving DecidableEq, Repr

/-- `flag_t`, where `dst` is the number of the variable. -/
structure Flag where
  type : FlagType
  shortName : Option CString
  longName : Option CString
  dst : ℕ
  deriving DecidableEq, Repr

abbrev Vars := ℕ → FlagValue

/-- `arg_t` -/
structure Arg where
  isLong : Bool
  name : CString
  nameLen : ℕ
  value : Option CString
  deriving DecidableEq, Repr

/-- `bind`; `none`: it aborts. -/
def bind (flags : List Flag) (f : Flag) : Option (List Flag) :=
  if flags.length = flagMax then none else some (flags ++ [f])

def flagI64 (flags : List Flag) (shortName longName : Option CString) (dst : ℕ) :
    Option (List Flag) := bind flags ⟨.i64, shortName, longName, dst⟩

def flagU64 (flags : List Flag) (shortName longName : Option CString) (dst : ℕ) :
    Option (List Flag) := bind flags ⟨.u64, shortName, longName, dst⟩

def flagBool (flags : List Flag) (shortName longName : Option CString) (dst : ℕ) :
    Option (List Flag) := bind flags ⟨.bool, shortName, longName, dst⟩

def flagStr (flags : List Flag) (shortName longName : Option CString) (dst : ℕ) :
    Option (List Flag) := bind flags ⟨.str, shortName, longName, dst⟩

def parseI64 (v : CString) : Except FlagErr ℤ :=
  let x := strtoimax v
  if x.stop = 0 ∨ v.get x.stop ≠ 0 then .error .invalidValue
  else if x.erange then .error .invalidValue
  else if x.value < -2 ^ 63 ∨ x.value > 2 ^ 63 - 1 then .error .invalidValue
  else .ok x.value

def parseU64 (v : CString) : Except FlagErr ℕ :=
  if ¬ isdigit (v.get 0) then .error .invalidValue
  else
    let x := strtoumax v
    if v.get x.stop ≠ 0 then .error .invalidValue
    else if x.erange ∨ x.value > 2 ^ 64 - 1 then .error .invalidValue
    else .ok x.value

def trueText : List UInt8 := ['t', 'r', 'u', 'e'].map Char.toUInt8
def falseText : List UInt8 := ['f', 'a', 'l', 's', 'e'].map Char.toUInt8

def parseBool (v : CString) : Except FlagErr Bool :=
  if v.bytes = trueText then .ok true
  else if v.bytes = falseText then .ok false
  else .error .invalidValue

def setValue (f : Flag) (v : CString) (vars : Vars) : Except FlagErr Vars :=
  match f.type with
  | .i64 => (parseI64 v).map fun x => Function.update vars f.dst (.i64 x)
  | .u64 => (parseU64 v).map fun x => Function.update vars f.dst (.u64 x)
  | .bool => (parseBool v).map fun x => Function.update vars f.dst (.bool x)
  | .str => .ok (Function.update vars f.dst (.str (some v)))

/-- `=` -/
def equals : UInt8 := 61

def splitArg (raw : CString) : Except FlagErr Arg :=
  let dashes := strspn raw [minus]
  if dashes ≠ 1 ∧ dashes ≠ 2 then .error .malformed
  else
    let name := raw.drop dashes
    let arg : Arg :=
      match strchr name equals with
      | some i => ⟨dashes = 2, name, i, some (name.drop (i + 1))⟩
      | none => ⟨dashes = 2, name, strlen name, none⟩
    if arg.nameLen = 0 then .error .malformed else .ok arg

def nameMatches (declared : Option CString) (arg : Arg) : Bool :=
  match declared with
  | none => false
  | some declared =>
      if strncmp declared arg.name arg.nameLen ≠ 0 then false
      else declared.get arg.nameLen == 0

def lookup (flags : List Flag) (arg : Arg) : Option Flag :=
  flags.find? fun f => nameMatches (if arg.isLong then f.longName else f.shortName) arg

/-- The part of `consume_flag` after `split_arg`, where `next` is the next argument: the variables,
and whether it took `next` for the value. -/
def consumeArg (flags : List Flag) (arg : Arg) (next : Option CString) (vars : Vars) :
    Except FlagErr (Vars × Bool) :=
  match lookup flags arg with
  | none => .error .unknownFlag
  | some f =>
      match arg.value with
      | some value => (setValue f value vars).map (·, false)
      | none =>
          if f.type = .bool then (setValue f ⟨trueText, by decide⟩ vars).map (·, false)
          else
            match next with
            | none => .error .missingValue
            | some value => (setValue f value vars).map (·, true)

def consumeFlag (flags : List Flag) (raw : CString) (next : Option CString) (vars : Vars) :
    Except FlagErr (Vars × Bool) :=
  match splitArg raw with
  | .error err => .error err
  | .ok arg => consumeArg flags arg next vars

/-- The loop of `flag_parse` over the arguments left: the variables, and the error if there is
one. -/
def flagParseFrom (flags : List Flag) : List CString → Vars → Vars × Option FlagErr
  | [], vars => (vars, none)
  | [raw], vars =>
      match consumeFlag flags raw none vars with
      | .error err => (vars, some err)
      | .ok (vars, _) => (vars, none)
  | raw :: next :: rest, vars =>
      match consumeFlag flags raw (some next) vars with
      | .error err => (vars, some err)
      | .ok (vars, true) => flagParseFrom flags rest vars
      | .ok (vars, false) => flagParseFrom flags (next :: rest) vars

def flagParse (flags : List Flag) (argv : List CString) (vars : Vars) : Vars × Option FlagErr :=
  flagParseFrom flags argv.tail vars

def dashes (isLong : Bool) : List UInt8 := if isLong then [minus, minus] else [minus]

def valueText : Option (List UInt8) → List UInt8
  | none => []
  | some value => equals :: value

/-- `raw` is `-name` or `--name`, with or without `=value`. -/
structure ArgText (raw : List UInt8) (isLong : Bool) (name : List UInt8)
    (value : Option (List UInt8)) : Prop where
  text : raw = dashes isLong ++ (name ++ valueText value)
  nonempty : name ≠ []
  start : name.head? ≠ some minus
  noEquals : equals ∉ name

/-- `arg` has these parts. -/
structure Arg.Has (arg : Arg) (isLong : Bool) (name : List UInt8) (value : Option (List UInt8)) :
    Prop where
  isLong : arg.isLong = isLong
  nameLen : arg.nameLen = name.length
  name : arg.name.bytes.take name.length = name
  value : arg.value.map CString.bytes = value

variable {raw : CString} {arg : Arg}

theorem dashes_mem (isLong : Bool) : ∀ ch ∈ dashes isLong, ch ∈ [minus] := by
  cases isLong with
  | false => simp [dashes]
  | true => simp [dashes]

theorem dashes_of_length {front : List UInt8} (hfront : ∀ ch ∈ front, ch ∈ [minus])
    (hlen : front.length = 1 ∨ front.length = 2) :
    front = dashes (decide (front.length = 2)) := by
  simp only [List.mem_singleton] at hfront
  rw [List.eq_replicate_of_mem hfront]
  rcases hlen with hlen | hlen
  · rw [hlen]
    rfl
  · rw [hlen]
    rfl

theorem ArgText.split {isLong : Bool} {name : List UInt8} {value : Option (List UInt8)}
    (h : ArgText raw.bytes isLong name value) :
    ∃ arg, splitArg raw = .ok arg ∧ arg.Has isLong name value := by
  have hhead : ∀ ch, (name ++ valueText value).head? = some ch → ch ∉ [minus] := by
    intro ch hch
    obtain ⟨first, more, hname⟩ := List.exists_cons_of_ne_nil h.nonempty
    have hstart := h.start
    rw [hname] at hch hstart
    rw [List.mem_singleton]
    rintro rfl
    exact hstart hch
  have hspan : strspn raw [minus] = (dashes isLong).length :=
    strspn_eq h.text (dashes_mem isLong) hhead
  have hname : (raw.drop (dashes isLong).length).bytes = name ++ valueText value := by
    rw [CString.bytes_drop, h.text, List.drop_left]
  have hlong : (dashes isLong).length = 2 ↔ isLong = true := by cases isLong <;> simp [dashes]
  have hcount : ¬ ((dashes isLong).length ≠ 1 ∧ (dashes isLong).length ≠ 2) := by
    cases isLong <;> simp [dashes]
  have hlen : name.length ≠ 0 := fun hzero => h.nonempty (List.eq_nil_of_length_eq_zero hzero)
  unfold splitArg
  simp only [hspan, if_neg hcount, hlong]
  cases value with
  | none =>
    rw [valueText, List.append_nil] at hname
    have hnone : strchr (raw.drop (dashes isLong).length) equals = none :=
      strchr_eq_none.mpr (hname ▸ h.noEquals)
    simp only [hnone, strlen, hname, if_neg hlen]
    exact ⟨_, rfl, by simp, rfl, by rw [hname, List.take_length], rfl⟩
  | some value =>
    have hsome : strchr (raw.drop (dashes isLong).length) equals = some name.length :=
      strchr_split hname h.noEquals
    simp only [hsome, if_neg hlen]
    refine ⟨_, rfl, by simp, rfl, by rw [hname, List.take_left], ?_⟩
    have hdrop : name ++ valueText (some value) = (name ++ [equals]) ++ value := by
      rw [valueText, List.append_assoc, List.singleton_append]
    have hbehind : (name ++ [equals]).length = name.length + 1 := by
      rw [List.length_append, List.length_singleton]
    rw [Option.map_some, CString.bytes_drop, hname, hdrop, ← hbehind, List.drop_left]

theorem argText_of_split (h : splitArg raw = .ok arg) :
    ∃ name value, ArgText raw.bytes arg.isLong name value := by
  obtain ⟨front, rest, hraw, hfront, hrest, hspan⟩ := strspn_split raw [minus]
  have hname : (raw.drop front.length).bytes = rest := by
    rw [CString.bytes_drop, hraw, List.drop_left]
  have hstart : ∀ name more, rest = name ++ more → name ≠ [] → name.head? ≠ some minus := by
    rintro name more rfl hne hhead
    obtain ⟨first, others, rfl⟩ := List.exists_cons_of_ne_nil hne
    exact hrest minus hhead (List.mem_singleton_self minus)
  unfold splitArg at h
  simp only [hspan] at h
  by_cases hcount : front.length ≠ 1 ∧ front.length ≠ 2
  · rw [if_pos hcount] at h
    simp at h
  have hdashes : front = dashes (decide (front.length = 2)) :=
    dashes_of_length hfront (by omega)
  rw [if_neg hcount] at h
  cases hfind : strchr (raw.drop front.length) equals with
  | none =>
    simp only [hfind, strlen, hname] at h
    split_ifs at h with hempty
    obtain rfl := Except.ok.inj h
    have hne : rest ≠ [] := fun hnil => hempty (hnil ▸ rfl)
    refine ⟨rest, none, ⟨?_, hne, hstart rest [] (List.append_nil rest).symm hne, ?_⟩⟩
    · rw [hraw, valueText, List.append_nil, ← hdashes]
    · exact hname ▸ strchr_eq_none.mp hfind
  | some i =>
    obtain ⟨name, value, hbytes, hnot, rfl⟩ := strchr_eq_some hfind
    simp only [hfind] at h
    split_ifs at h with hempty
    obtain rfl := Except.ok.inj h
    have hne : name ≠ [] := fun hnil => hempty (hnil ▸ rfl)
    rw [hname] at hbytes
    refine ⟨name, some value, ⟨?_, hne, hstart name _ hbytes hne, hnot⟩⟩
    rw [hraw, hbytes, valueText, ← hdashes]

theorem nameMatches_iff {isLong : Bool} {name : List UInt8} {value : Option (List UInt8)}
    (h : arg.Has isLong name value) (declared : Option CString) :
    nameMatches declared arg = true ↔ declared.map CString.bytes = some name := by
  cases declared with
  | none => simp [nameMatches]
  | some declared =>
    unfold nameMatches
    simp only [h.nameLen]
    have hcmp : strncmp declared arg.name name.length = 0 ↔
        declared.bytes.take name.length = name := by rw [strncmp_eq_zero, h.name]
    have hend : (declared.get name.length == 0) = true ↔ declared.bytes.length ≤ name.length := by
      rw [beq_iff_eq, CString.get_eq_zero]
    rw [Option.map_some, Option.some.injEq]
    by_cases hequal : strncmp declared arg.name name.length = 0
    · rw [if_neg (not_not.mpr hequal), hend]
      constructor
      · intro hle
        rw [← hcmp.mp hequal, List.take_of_length_le hle]
      · intro heq
        rw [heq]
    · rw [if_pos hequal]
      constructor
      · intro hfalse
        exact absurd hfalse Bool.false_ne_true
      · intro heq
        rw [hcmp, heq, List.take_length] at hequal
        exact absurd rfl hequal

/-- `f` is declared under the name. -/
def Flag.Declares (f : Flag) (isLong : Bool) (name : List UInt8) : Prop :=
  (if isLong then f.longName else f.shortName).map CString.bytes = some name

instance (f : Flag) (isLong : Bool) (name : List UInt8) : Decidable (f.Declares isLong name) :=
  inferInstanceAs (Decidable (_ = _))

theorem lookup_eq {isLong : Bool} {name : List UInt8} {value : Option (List UInt8)}
    (h : arg.Has isLong name value) (flags : List Flag) :
    lookup flags arg = flags.find? fun f => f.Declares isLong name := by
  unfold lookup
  congr 1
  funext f
  rw [Bool.eq_iff_iff, nameMatches_iff h, h.isLong, decide_eq_true_iff, Flag.Declares]

end Kvx.Cli
