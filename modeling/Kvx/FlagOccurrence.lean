import Mathlib.Data.List.Nodup
import Mathlib.Data.List.Pairwise
import Kvx.FlagReads

/-!
# The occurrences of flags in a command line

The arguments split from the left into occurrences of declared flags. Where there is none or its
value is not valid, the command line fails, and what stands before has set its variables.
-/
namespace Kvx.Cli

open Kvx.Lib

structure NameOk (name : CString) : Prop where
  nonempty : name.bytes ≠ []
  start : name.bytes.head? ≠ some minus
  noEquals : equals ∉ name.bytes

instance (name : CString) : Decidable (NameOk name) :=
  decidable_of_iff
    (name.bytes ≠ [] ∧ name.bytes.head? ≠ some minus ∧ equals ∉ name.bytes)
    ⟨fun h => ⟨h.1, h.2.1, h.2.2⟩, fun h => ⟨h.nonempty, h.start, h.noEquals⟩⟩

/-- The declared flags, each with a variable and names of its own. -/
structure FlagTable (flags : List Flag) : Prop where
  length : flags.length ≤ flagMax
  dst : (flags.map Flag.dst).Nodup
  shortNames : (flags.filterMap Flag.shortName).Nodup
  longNames : (flags.filterMap Flag.longName).Nodup
  shortOk : ∀ f ∈ flags, ∀ name ∈ f.shortName, NameOk name
  longOk : ∀ f ∈ flags, ∀ name ∈ f.longName, NameOk name

structure Occurrence where
  flag : Flag
  text : CString
  deriving DecidableEq, Repr

def Occurrence.Valid (o : Occurrence) : Prop := ∃ v, Reads o.flag.type o.text v

inductive Spells (flags : List Flag) : List CString → Occurrence → Prop
  | joined {isLong : Bool} {name : List UInt8} {raw text : CString} {f : Flag} (declared : f ∈ flags)
      (named : f.Declares isLong name)
      (spelled : raw.bytes = dashes isLong ++ (name ++ equals :: text.bytes)) :
      Spells flags [raw] ⟨f, text⟩
  | alone {isLong : Bool} {name : List UInt8} {raw : CString} {f : Flag} (declared : f ∈ flags)
      (named : f.Declares isLong name) (spelled : raw.bytes = dashes isLong ++ name)
      (isBool : f.type = .bool) : Spells flags [raw] ⟨f, trueString⟩
  | next {isLong : Bool} {name : List UInt8} {raw text : CString} {f : Flag} (declared : f ∈ flags)
      (named : f.Declares isLong name) (spelled : raw.bytes = dashes isLong ++ name)
      (notBool : f.type ≠ .bool) : Spells flags [raw, text] ⟨f, text⟩

inductive Splits (flags : List Flag) : List CString → List Occurrence → Prop
  | done : Splits flags [] []
  | more {args rest : List CString} {o : Occurrence} {os : List Occurrence}
      (first : Spells flags args o) (later : Splits flags rest os) :
      Splits flags (args ++ rest) (o :: os)

/-- No valid occurrence stands at the start of the arguments. -/
inductive Fails (flags : List Flag) : List CString → FlagErr → Prop
  | malformed {raw : CString} {rest : List CString}
      (noParts : ¬ ∃ isLong name value, ArgText raw.bytes isLong name value) :
      Fails flags (raw :: rest) .malformed
  | unknownFlag {isLong : Bool} {name : List UInt8} {value : Option (List UInt8)} {raw : CString}
      {rest : List CString} (parts : ArgText raw.bytes isLong name value)
      (undeclared : ∀ f ∈ flags, ¬ f.Declares isLong name) :
      Fails flags (raw :: rest) .unknownFlag
  | missingValue {isLong : Bool} {name : List UInt8} {raw : CString} {f : Flag}
      (declared : f ∈ flags) (named : f.Declares isLong name)
      (spelled : raw.bytes = dashes isLong ++ name) (notBool : f.type ≠ .bool) :
      Fails flags [raw] .missingValue
  | invalidValue {args rest : List CString} {o : Occurrence} (spelled : Spells flags args o)
      (invalid : ¬ o.Valid) : Fails flags (args ++ rest) .invalidValue

/-- The variables after the occurrences: the last one of a flag decides. -/
structure LastWins (os : List Occurrence) (vars vars' : Vars) : Prop where
  unmentioned : ∀ dst, (∀ o ∈ os, o.flag.dst ≠ dst) → vars' dst = vars dst
  last : ∀ before o after v, os = before ++ o :: after → (∀ o' ∈ after, o'.flag ≠ o.flag) →
    Reads o.flag.type o.text v → vars' o.flag.dst = v

variable {flags : List Flag} {f g : Flag} {isLong : Bool} {name : List UInt8} {raw : CString}
  {args rest : List CString} {o : Occurrence} {os : List Occurrence} {err : FlagErr}
  {vars vars' : Vars} {v : FlagValue}

theorem eq_of_nodup_filterMap {α β : Type} {field : α → Option β} {l : List α}
    (hl : (l.filterMap field).Nodup) {a b : α} {x : β} (ha : a ∈ l) (hb : b ∈ l)
    (hax : field a = some x) (hbx : field b = some x) : a = b := by
  let Apart (a b : α) : Prop := ∀ x, field a = some x → ∀ y, field b = some y → x ≠ y
  have hsymm : Std.Symm Apart := ⟨fun _ _ h x hx y hy => (h y hy x hx).symm⟩
  have hpair : l.Pairwise Apart := List.pairwise_filterMap.mp hl
  by_contra hne
  exact hpair.forall ha hb hne x hax x hbx rfl

theorem FlagTable.nameOk (table : FlagTable flags) (declared : f ∈ flags)
    (named : f.Declares isLong name) : name ≠ [] ∧ name.head? ≠ some minus ∧ equals ∉ name := by
  unfold Flag.Declares at named
  obtain ⟨string, hstring, rfl⟩ := Option.map_eq_some_iff.mp named
  have hok : NameOk string := by
    cases isLong with
    | false => exact table.shortOk f declared string hstring
    | true => exact table.longOk f declared string hstring
  exact ⟨hok.nonempty, hok.start, hok.noEquals⟩

theorem FlagTable.unique (table : FlagTable flags) (declared : f ∈ flags)
    (named : f.Declares isLong name) (declared' : g ∈ flags) (named' : g.Declares isLong name) :
    f = g := by
  unfold Flag.Declares at named named'
  obtain ⟨string, hstring, rfl⟩ := Option.map_eq_some_iff.mp named
  obtain ⟨string', hstring', hbytes⟩ := Option.map_eq_some_iff.mp named'
  obtain rfl : string' = string := CString.ext hbytes
  cases isLong with
  | false => exact eq_of_nodup_filterMap table.shortNames declared declared' hstring hstring'
  | true => exact eq_of_nodup_filterMap table.longNames declared declared' hstring hstring'

theorem FlagTable.find (table : FlagTable flags) (declared : f ∈ flags)
    (named : f.Declares isLong name) :
    flags.find? (fun f => f.Declares isLong name) = some f := by
  cases hfind : flags.find? fun f => f.Declares isLong name with
  | none => exact absurd (decide_eq_true named) (List.find?_eq_none.mp hfind f declared)
  | some g =>
    have hfound := List.find?_some hfind
    have hnamed : g.Declares isLong name := of_decide_eq_true hfound
    rw [table.unique (List.mem_of_find?_eq_some hfind) hnamed declared named]

theorem FlagTable.eq_of_dst (table : FlagTable flags) (declared : f ∈ flags)
    (declared' : g ∈ flags) (hdst : f.dst = g.dst) : f = g :=
  List.inj_on_of_nodup_map table.dst declared declared' hdst

theorem consumeFlag_parts (value : Option CString)
    (parts : ArgText raw.bytes isLong name (value.map CString.bytes)) (flags : List Flag)
    (next : Option CString) (vars : Vars) :
    ∃ arg, consumeFlag flags raw next vars = consumeArg flags arg next vars ∧
      arg.value = value ∧ lookup flags arg = flags.find? fun f => f.Declares isLong name := by
  obtain ⟨arg, hsplit, hhas⟩ := parts.split
  refine ⟨arg, ?_, ?_, lookup_eq hhas flags⟩
  · unfold consumeFlag
    rw [hsplit]
  · exact Option.map_injective (fun _ _ => CString.ext) hhas.value

theorem FlagTable.parts (table : FlagTable flags) (declared : f ∈ flags)
    (named : f.Declares isLong name) {value : Option (List UInt8)}
    (spelled : raw.bytes = dashes isLong ++ (name ++ valueText value)) :
    ArgText raw.bytes isLong name value := by
  obtain ⟨hne, hstart, hnot⟩ := table.nameOk declared named
  exact ⟨spelled, hne, hstart, hnot⟩

theorem FlagTable.consume (table : FlagTable flags) (declared : f ∈ flags)
    (named : f.Declares isLong name) (value : Option CString)
    (spelled : raw.bytes = dashes isLong ++ (name ++ valueText (value.map CString.bytes)))
    (next : Option CString) (vars : Vars) :
    ∃ arg, consumeFlag flags raw next vars = consumeArg flags arg next vars ∧
      arg.value = value ∧ lookup flags arg = some f := by
  obtain ⟨arg, hrun, hvalue, hlookup⟩ :=
    consumeFlag_parts value (table.parts declared named spelled) flags next vars
  exact ⟨arg, hrun, hvalue, hlookup.trans (table.find declared named)⟩

/-- The arguments left after a flag that set its variable from `result`. -/
def proceed (flags : List Flag) (rest : List CString) (vars : Vars) :
    Except FlagErr Vars → Vars × Option FlagErr
  | .error err => (vars, some err)
  | .ok vars => flagParseFrom flags rest vars

theorem flagParseFrom_one {result : Except FlagErr Vars}
    (h : consumeFlag flags raw rest.head? vars = result.map (·, false)) :
    flagParseFrom flags (raw :: rest) vars = proceed flags rest vars result := by
  cases rest with
  | nil =>
    rw [List.head?_nil] at h
    cases result with
    | error err => simp only [flagParseFrom, h, Except.map, proceed]
    | ok vars' => simp only [flagParseFrom, h, Except.map, proceed]
  | cons next rest =>
    rw [List.head?_cons] at h
    cases result with
    | error err => simp only [flagParseFrom, h, Except.map, proceed]
    | ok vars' => simp only [flagParseFrom, h, Except.map, proceed]

theorem flagParseFrom_two {next : CString} {result : Except FlagErr Vars}
    (h : consumeFlag flags raw (some next) vars = result.map (·, true)) :
    flagParseFrom flags (raw :: next :: rest) vars = proceed flags rest vars result := by
  cases result with
  | error err => simp only [flagParseFrom, h, Except.map, proceed]
  | ok vars' => simp only [flagParseFrom, h, Except.map, proceed]

theorem flagParseFrom_error (h : consumeFlag flags raw rest.head? vars = .error err) :
    flagParseFrom flags (raw :: rest) vars = (vars, some err) := by
  cases rest with
  | nil =>
    rw [List.head?_nil] at h
    simp only [flagParseFrom, h]
  | cons next rest =>
    rw [List.head?_cons] at h
    simp only [flagParseFrom, h]

theorem Spells.consume (h : Spells flags args o) (table : FlagTable flags) (rest : List CString)
    (vars : Vars) :
    flagParseFrom flags (args ++ rest) vars =
      proceed flags rest vars (setValue o.flag o.text vars) := by
  cases h with
  | @joined isLong name raw text f declared named spelled =>
    rw [List.singleton_append]
    apply flagParseFrom_one
    obtain ⟨arg, hrun, hvalue, hlookup⟩ :=
      table.consume declared named (some text) spelled rest.head? vars
    rw [hrun]
    unfold consumeArg
    simp only [hlookup, hvalue]
  | @alone isLong name raw f declared named spelled isBool =>
    have hparts : raw.bytes = dashes isLong ++ (name ++ valueText none) := by
      rw [spelled, valueText, List.append_nil]
    rw [List.singleton_append]
    apply flagParseFrom_one
    obtain ⟨arg, hrun, hvalue, hlookup⟩ :=
      table.consume declared named none hparts rest.head? vars
    rw [hrun]
    unfold consumeArg
    simp only [hlookup, hvalue, if_pos isBool]
    rfl
  | @next isLong name raw text f declared named spelled notBool =>
    have hparts : raw.bytes = dashes isLong ++ (name ++ valueText none) := by
      rw [spelled, valueText, List.append_nil]
    apply flagParseFrom_two
    obtain ⟨arg, hrun, hvalue, hlookup⟩ :=
      table.consume declared named none hparts (some text) vars
    rw [hrun]
    unfold consumeArg
    simp only [hlookup, hvalue, if_neg notBool]

theorem Spells.parse (h : Spells flags args o) (table : FlagTable flags)
    (hv : Reads o.flag.type o.text v) (rest : List CString) (vars : Vars) :
    flagParseFrom flags (args ++ rest) vars =
      flagParseFrom flags rest (Function.update vars o.flag.dst v) := by
  rw [h.consume table, hv.set, proceed]

theorem splitArg_error (h : splitArg raw = .error err) : err = .malformed := by
  unfold splitArg at h
  simp only at h
  split_ifs at h
  · exact (Except.error.inj h).symm
  · exact (Except.error.inj h).symm

theorem Fails.parse (h : Fails flags args err) (table : FlagTable flags) (vars : Vars) :
    flagParseFrom flags args vars = (vars, some err) := by
  cases h with
  | @malformed raw rest noParts =>
    apply flagParseFrom_error
    unfold consumeFlag
    cases hsplit : splitArg raw with
    | ok arg =>
      obtain ⟨name, value, hparts⟩ := argText_of_split hsplit
      exact absurd ⟨_, name, value, hparts⟩ noParts
    | error err => rw [splitArg_error hsplit]
  | @unknownFlag isLong name value raw rest parts undeclared =>
    apply flagParseFrom_error
    obtain ⟨arg, hsplit, hhas⟩ := parts.split
    have hfind : flags.find? (fun f => f.Declares isLong name) = none :=
      List.find?_eq_none.mpr fun f hf hnamed => undeclared f hf (of_decide_eq_true hnamed)
    unfold consumeFlag consumeArg
    simp only [hsplit, lookup_eq hhas, hfind]
  | @missingValue isLong name raw f declared named spelled notBool =>
    have hparts : raw.bytes = dashes isLong ++ (name ++ valueText none) := by
      rw [spelled, valueText, List.append_nil]
    apply flagParseFrom_error
    obtain ⟨arg, hrun, hvalue, hlookup⟩ := table.consume declared named none hparts none vars
    rw [List.head?_nil, hrun]
    unfold consumeArg
    simp only [hlookup, hvalue, if_neg notBool]
  | @invalidValue args rest o spelled invalid =>
    rw [spelled.consume table, setValue_invalid invalid, proceed]

theorem Spells.ne_nil (h : Spells flags args o) : args ≠ [] := by
  cases h <;> simp

/-- At the start of the arguments stands a valid occurrence, or they fail. -/
theorem spells_or_fails (flags : List Flag) (raw : CString) (rest : List CString) :
    (∃ err, Fails flags (raw :: rest) err) ∨
      ∃ args more o, raw :: rest = args ++ more ∧ Spells flags args o ∧ o.Valid := by
  have hspelled : ∀ args more o, raw :: rest = args ++ more → Spells flags args o →
      (∃ err, Fails flags (raw :: rest) err) ∨
        ∃ args more o, raw :: rest = args ++ more ∧ Spells flags args o ∧ o.Valid := by
    intro args more o hargs hspells
    by_cases hvalid : o.Valid
    · exact .inr ⟨args, more, o, hargs, hspells, hvalid⟩
    · rw [hargs]
      exact .inl ⟨_, .invalidValue hspells hvalid⟩
  by_cases hparts : ∃ isLong name value, ArgText raw.bytes isLong name value
  · obtain ⟨isLong, name, value, hparts⟩ := hparts
    by_cases hdeclared : ∃ f ∈ flags, f.Declares isLong name
    · obtain ⟨f, hf, hnamed⟩ := hdeclared
      cases value with
      | some value =>
        have hnoNul : 0 ∉ value := by
          intro hmem
          apply raw.noNul
          rw [hparts.text, valueText]
          simp [hmem]
        exact hspelled [raw] rest ⟨f, ⟨value, hnoNul⟩⟩ rfl (.joined hf hnamed hparts.text)
      | none =>
        have htext : raw.bytes = dashes isLong ++ name := by
          rw [hparts.text, valueText, List.append_nil]
        by_cases hbool : f.type = .bool
        · exact hspelled [raw] rest _ rfl (.alone hf hnamed htext hbool)
        cases rest with
        | nil => exact .inl ⟨_, .missingValue hf hnamed htext hbool⟩
        | cons text rest => exact hspelled [raw, text] rest _ rfl (.next hf hnamed htext hbool)
    · simp only [not_exists, not_and] at hdeclared
      exact .inl ⟨_, .unknownFlag hparts hdeclared⟩
  · exact .inl ⟨_, .malformed hparts⟩

theorem exists_splits (flags : List Flag) (args : List CString) :
    ∃ before os after, args = before ++ after ∧ Splits flags before os ∧ (∀ o ∈ os, o.Valid) ∧
      (after = [] ∨ ∃ err, Fails flags after err) := by
  induction hlen : args.length using Nat.strong_induction_on generalizing args with
  | _ n ih =>
    cases args with
    | nil => exact ⟨[], [], [], rfl, .done, by simp, .inl rfl⟩
    | cons raw rest =>
      rcases spells_or_fails flags raw rest with hfails | ⟨first, more, o, hargs, hspells, hvalid⟩
      · exact ⟨[], [], raw :: rest, rfl, .done, by simp, .inr hfails⟩
      · have hless : more.length < n := by
          have hfirst := List.length_pos_iff.mpr hspells.ne_nil
          rw [← hlen, hargs, List.length_append]
          omega
        obtain ⟨before, os, after, hmore, hsplits, hall, hstop⟩ := ih more.length hless more rfl
        refine ⟨first ++ before, o :: os, after, ?_, .more hspells hsplits, ?_, hstop⟩
        · rw [hargs, hmore, List.append_assoc]
        · exact List.forall_mem_cons.mpr ⟨hvalid, hall⟩

theorem Spells.declared (h : Spells flags args o) : o.flag ∈ flags := by
  cases h with
  | joined declared => exact declared
  | alone declared => exact declared
  | next declared => exact declared

theorem Splits.declared (h : Splits flags args os) : ∀ o ∈ os, o.flag ∈ flags := by
  induction h with
  | done => simp
  | more first later ih => exact List.forall_mem_cons.mpr ⟨first.declared, ih⟩

theorem LastWins.cons (table : FlagTable flags) (ho : o.flag ∈ flags)
    (hos : ∀ o' ∈ os, o'.flag ∈ flags) (hv : Reads o.flag.type o.text v)
    (h : LastWins os (Function.update vars o.flag.dst v) vars') : LastWins (o :: os) vars vars' := by
  constructor
  · intro dst hdst
    obtain ⟨hfirst, hlater⟩ := List.forall_mem_cons.mp hdst
    rw [h.unmentioned dst hlater, Function.update_of_ne hfirst.symm]
  · intro before last after v' hsplit hafter hv'
    cases before with
    | nil =>
      obtain ⟨rfl, rfl⟩ := List.cons.inj hsplit
      have hother : ∀ o' ∈ os, o'.flag.dst ≠ o.flag.dst := fun o' ho' hdst =>
        hafter o' ho' (table.eq_of_dst (hos o' ho') ho hdst)
      rw [h.unmentioned _ hother, Function.update_self, hv.unique hv']
    | cons first before =>
      exact h.last before last after v' (List.cons.inj hsplit).2 hafter hv'

theorem Splits.parse (h : Splits flags args os) (table : FlagTable flags)
    (hvalid : ∀ o ∈ os, o.Valid) (vars : Vars) :
    ∃ vars', LastWins os vars vars' ∧
      ∀ rest, flagParseFrom flags (args ++ rest) vars = flagParseFrom flags rest vars' := by
  induction h generalizing vars with
  | done => exact ⟨vars, ⟨fun _ _ => rfl, by simp⟩, fun rest => rfl⟩
  | @more first rest o os hspells hsplits ih =>
    obtain ⟨⟨v, hv⟩, hlater⟩ := List.forall_mem_cons.mp hvalid
    obtain ⟨vars', hlast, hparse⟩ := ih hlater (Function.update vars o.flag.dst v)
    refine ⟨vars', hlast.cons table hspells.declared hsplits.declared hv, fun more => ?_⟩
    rw [List.append_assoc, hspells.parse table hv, hparse]

theorem Splits.accepted {argv : List CString} (h : Splits flags argv.tail os)
    (table : FlagTable flags) (hvalid : ∀ o ∈ os, o.Valid) (vars : Vars) :
    (flagParse flags argv vars).2 = none ∧ LastWins os vars (flagParse flags argv vars).1 := by
  obtain ⟨vars', hlast, hparse⟩ := h.parse table hvalid vars
  have hrun : flagParse flags argv vars = (vars', none) := by
    have hend := hparse []
    rwa [List.append_nil] at hend
  rw [hrun]
  exact ⟨rfl, hlast⟩

/-- A command line with valid occurrences before what fails is refused behind them. -/
theorem Splits.refused {argv before after : List CString} (h : Splits flags before os)
    (table : FlagTable flags) (hargs : argv.tail = before ++ after) (hvalid : ∀ o ∈ os, o.Valid)
    (hfails : Fails flags after err) (vars : Vars) :
    (flagParse flags argv vars).2 = some err ∧ LastWins os vars (flagParse flags argv vars).1 := by
  obtain ⟨vars', hlast, hparse⟩ := h.parse table hvalid vars
  have hrun : flagParse flags argv vars = (vars', some err) := by
    rw [flagParse, hargs, hparse, hfails.parse table]
  rw [hrun]
  exact ⟨rfl, hlast⟩

/-- What follows `before` is not the value of a flag at its end. -/
def Complete (flags : List Flag) (before : List CString) : Prop :=
  ∀ first os last, before = first ++ last → Splits flags first os → (∀ o ∈ os, o.Valid) →
    ¬ Fails flags last .missingValue

theorem Fails.append (h : Fails flags args err) (herr : err ≠ .missingValue)
    (rest : List CString) : Fails flags (args ++ rest) err := by
  cases h with
  | malformed noParts => exact .malformed noParts
  | unknownFlag parts undeclared => exact .unknownFlag parts undeclared
  | missingValue => exact absurd rfl herr
  | @invalidValue args more o spelled invalid =>
    rw [List.append_assoc]
    exact .invalidValue spelled invalid

theorem flagParseFrom_respelled {before : List CString} {joined alone text : CString}
    (table : FlagTable flags) (hbefore : Complete flags before) (declared : f ∈ flags)
    (named : f.Declares isLong name) (notBool : f.type ≠ .bool)
    (hjoined : joined.bytes = dashes isLong ++ (name ++ equals :: text.bytes))
    (halone : alone.bytes = dashes isLong ++ name) (after : List CString) (vars : Vars) :
    flagParseFrom flags (before ++ joined :: after) vars =
      flagParseFrom flags (before ++ alone :: text :: after) vars := by
  obtain ⟨first, os, last, rfl, hsplits, hvalid, hlast⟩ := exists_splits flags before
  obtain ⟨vars', -, hparse⟩ := hsplits.parse table hvalid vars
  rw [List.append_assoc, List.append_assoc, hparse, hparse]
  rcases hlast with rfl | ⟨err, hfails⟩
  · have hone := (Spells.joined declared named hjoined).consume table after vars'
    have hspells : Spells flags [alone, text] ⟨f, text⟩ := .next declared named halone notBool
    exact hone.trans (hspells.consume table after vars').symm
  · have herr : err ≠ .missingValue := by
      rintro rfl
      exact hbefore first os last rfl hsplits hvalid hfails
    rw [(hfails.append herr _).parse table, (hfails.append herr _).parse table]

/-- `flag_parse` accepts the command lines of valid occurrences, the last one of a flag decides,
and it does not depend on how an occurrence is spelled. -/
structure ParsesExactly (flags : List Flag) (argv : List CString) (vars : Vars) : Prop where
  accepts : (flagParse flags argv vars).2 = none ↔
    ∃ os, Splits flags argv.tail os ∧ ∀ o ∈ os, o.Valid
  accepted : ∀ os, Splits flags argv.tail os → (∀ o ∈ os, o.Valid) →
    LastWins os vars (flagParse flags argv vars).1
  refused : ∀ err, (flagParse flags argv vars).2 = some err →
    ∃ before os after, argv.tail = before ++ after ∧ Splits flags before os ∧
      (∀ o ∈ os, o.Valid) ∧ Fails flags after err ∧ LastWins os vars (flagParse flags argv vars).1
  respelled : ∀ prog before joined after, argv = prog :: (before ++ joined :: after) →
    Complete flags before → ∀ f ∈ flags, ∀ isLong name, f.Declares isLong name → f.type ≠ .bool →
    ∀ alone text : CString, joined.bytes = dashes isLong ++ (name ++ equals :: text.bytes) →
      alone.bytes = dashes isLong ++ name →
      flagParse flags argv vars = flagParse flags (prog :: (before ++ alone :: text :: after)) vars

theorem flagParse_exact (table : FlagTable flags) (argv : List CString) (vars : Vars) :
    ParsesExactly flags argv vars := by
  obtain ⟨before, os, after, hargs, hsplits, hvalid, hafter⟩ := exists_splits flags argv.tail
  constructor
  · constructor
    · intro hok
      rcases hafter with rfl | ⟨err, hfails⟩
      · rw [List.append_nil] at hargs
        exact ⟨os, hargs ▸ hsplits, hvalid⟩
      · rw [(hsplits.refused table hargs hvalid hfails vars).1] at hok
        cases hok
    · rintro ⟨os, hsplits, hvalid⟩
      exact (hsplits.accepted table hvalid vars).1
  · exact fun os hsplits hvalid => (hsplits.accepted table hvalid vars).2
  · intro err herr
    rcases hafter with rfl | ⟨err', hfails⟩
    · rw [List.append_nil] at hargs
      rw [(Splits.accepted (hargs ▸ hsplits) table hvalid vars).1] at herr
      cases herr
    · obtain ⟨herr', hlast⟩ := hsplits.refused table hargs hvalid hfails vars
      obtain rfl : err = err' := Option.some.inj (herr.symm.trans herr')
      exact ⟨before, os, after, hargs, hsplits, hvalid, hfails, hlast⟩
  · rintro prog before joined after rfl hbefore f declared isLong name named notBool alone text
      hjoined halone
    exact flagParseFrom_respelled table hbefore declared named notBool hjoined halone after vars

/-- `-n` and `--number`, `-v` and `--verbose`, `--name` -/
def sampleFlags : List Flag :=
  [⟨.i64, some ⟨['n'].map Char.toUInt8, by decide⟩,
      some ⟨['n', 'u', 'm', 'b', 'e', 'r'].map Char.toUInt8, by decide⟩, 0⟩,
    ⟨.bool, some ⟨['v'].map Char.toUInt8, by decide⟩,
      some ⟨['v', 'e', 'r', 'b', 'o', 's', 'e'].map Char.toUInt8, by decide⟩, 1⟩,
    ⟨.str, none, some ⟨['n', 'a', 'm', 'e'].map Char.toUInt8, by decide⟩, 2⟩]

/-- `sample -n=5 -v --name -n -n -7` -/
def sampleArgv : List CString :=
  [⟨['s', 'a', 'm', 'p', 'l', 'e'].map Char.toUInt8, by decide⟩,
    ⟨['-', 'n', '=', '5'].map Char.toUInt8, by decide⟩, ⟨['-', 'v'].map Char.toUInt8, by decide⟩,
    ⟨['-', '-', 'n', 'a', 'm', 'e'].map Char.toUInt8, by decide⟩,
    ⟨['-', 'n'].map Char.toUInt8, by decide⟩, ⟨['-', 'n'].map Char.toUInt8, by decide⟩,
    ⟨['-', '7'].map Char.toUInt8, by decide⟩]

theorem sampleFlags_table : FlagTable sampleFlags :=
  ⟨by decide, by decide, by decide, by decide, by decide, by decide⟩

theorem flagParse_sample : ParsesExactly sampleFlags sampleArgv (fun _ => .str none) ∧
    (flagParse sampleFlags sampleArgv fun _ => .str none).2 = none ∧
    (flagParse sampleFlags sampleArgv fun _ => .str none).1 0 = .i64 (-7) :=
  ⟨flagParse_exact sampleFlags_table sampleArgv fun _ => .str none, by decide, by decide⟩

end Kvx.Cli
