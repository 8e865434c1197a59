import Kvx.ProtocolNumber
import Kvx.Workload

/-!
# What the parser reads of a told command

A header line is a name and fields with single spaces between them. The parser accepts it wherever
it stands, and the checks find the fields that the expectation has.
-/
namespace Kvx.ProtocolBench

open Kvx.Lib Kvx.Protocol Kvx.Net

def Plain (f : List UInt8) : Prop := f ≠ [] ∧ ∀ ch ∈ f, 0x20 < ch

theorem isWordByte_of_lt {ch : UInt8} (h : 0x20 < ch) : isWordByte ch = true := by
  rw [UInt8.lt_iff_toNat_lt] at h
  have hspace : ch ≠ space := by
    rintro rfl
    exact absurd h (by decide)
  have htab : ch ≠ tab := by
    rintro rfl
    exact absurd h (by decide)
  simp [isWordByte, protoIsSeparator, hspace, htab]

theorem noBreak_joined {fields : List (List UInt8)} (h : ∀ f ∈ fields, Plain f) :
    NoBreak (joined space fields) := by
  intro ch hch
  rcases mem_joined hch with rfl | ⟨f, hf, hch⟩
  · decide
  · have hlt := UInt8.lt_iff_toNat_lt.mp ((h f hf).2 ch hch)
    constructor
    · rintro rfl
      exact absurd hlt (by decide)
    · rintro rfl
      exact absurd hlt (by decide)

theorem words_joined {fields : List (List UInt8)} (h : ∀ f ∈ fields, Plain f) :
    (words (joined space fields)).map (fun r => r.of (joined space fields)) = fields :=
  runs_joined (p := isWordByte) rfl
    (fun f hf => ⟨(h f hf).1, fun ch hch => isWordByte_of_lt ((h f hf).2 ch hch)⟩) []

theorem KeyOk.plain {key : List UInt8} (h : KeyOk key) : Plain key :=
  ⟨List.ne_nil_of_length_pos h.1, fun ch hch => (h.2.2 ch hch).1⟩

theorem Plain.of_all {f : List UInt8} (hne : f ≠ []) (h : f.all (fun ch => 0x20 < ch) = true) :
    Plain f := ⟨hne, fun ch hch => of_decide_eq_true (List.all_eq_true.mp h ch hch)⟩

theorem plain_commandName (type : CommandType) : Plain (commandName type) := by
  cases type <;> exact .of_all (by decide) (by decide)

theorem plain_decimalText (value : ℕ) : Plain (decimalText value) := by
  refine ⟨List.ne_nil_of_length_pos (decimalText_length_pos value), fun ch hch => ?_⟩
  have hdigit := UInt8.le_iff_toNat_le.mp (decimalText_digits value ch hch).1
  exact UInt8.lt_iff_toNat_lt.mpr (Nat.lt_of_lt_of_le (by decide) hdigit)

def noreplyField (noreply : Bool) : List (List UInt8) := if noreply then [noreplyName] else []

theorem plain_noreplyField (noreply : Bool) : ∀ f ∈ noreplyField noreply, Plain f := by
  cases noreply with
  | false => simp [noreplyField]
  | true =>
    rintro f hf
    rw [List.mem_singleton.mp hf]
    exact .of_all (by decide) (by decide)

theorem noreplyTail_field {line : List UInt8} {more : List Run} {noreply : Bool}
    (h : more.map (fun r => r.of line) = noreplyField noreply) : NoreplyTail line more noreply := by
  cases noreply with
  | false =>
    rw [noreplyField, if_neg (by simp), List.map_eq_nil_iff] at h
    exact h ▸ .absent
  | true =>
    rw [noreplyField, if_pos rfl] at h
    obtain ⟨r, rest, rfl, hr, hrest⟩ := List.map_eq_cons_iff.mp h
    rw [List.map_eq_nil_iff.mp hrest]
    exact .present r hr

theorem isUint_decimalText {value limit : ℕ} (h : value ≤ limit) :
    IsUint limit (decimalText value) := isUint_iff.mpr (spellsUpTo_decimalText h)

theorem isUint_uint32 (value : UInt32) : IsUint uint32Max (decimalText value.toNat) :=
  isUint_decimalText (Nat.le_pred_of_lt value.toNat_lt)

theorem loadBytes_word {line f : List UInt8} {r : Run} (hr : r ∈ words line)
    (hof : r.of line = f) : r.len = f.length ∧ loadBytes line r.start f.length = some f := by
  have hwithin := (words_within hr).2
  have hlen : r.len = f.length := by rw [← hof, of_length hwithin]
  refine ⟨hlen, ?_⟩
  rw [← hlen, loadBytes_eq hwithin]
  exact congrArg some hof

/-- The line of the command in which the key is the second field. -/
structure HeaderFor (line : List UInt8) (key : List UInt8) (cmd : Command) : Prop where
  noBreak : NoBreak line
  header : Header line cmd
  key_len : cmd.keyLen = key.length
  key_at : ∃ k, cmd.key = some k ∧ loadBytes line k key.length = some key

section Headers

variable {key : List UInt8} (hkey : KeyOk key)

include hkey

theorem header_get : ∃ cmd, cmd.type = .get ∧
    HeaderFor (joined space [commandName .get, key]) key cmd := by
  have hplain : ∀ f ∈ [commandName .get, key], Plain f := by
    simp [plain_commandName, KeyOk.plain hkey]
  have hwords := words_joined hplain
  obtain ⟨name, ws, hws, hname, hrest⟩ := List.map_eq_cons_iff.mp hwords
  obtain ⟨k, ks, rfl, hk, hnil⟩ := List.map_eq_cons_iff.mp hrest
  obtain rfl := List.map_eq_nil_iff.mp hnil
  obtain ⟨hlen, hload⟩ := loadBytes_word (hws ▸ by simp) hk
  exact ⟨_, rfl, noBreak_joined hplain, .get hws hname (by simpa [hk] using hkey), hlen, _, rfl,
    hload⟩

theorem header_delete (noreply : Bool) : ∃ cmd, cmd.type = .delete ∧ cmd.noreply = noreply ∧
    HeaderFor (joined space (commandName .delete :: key :: noreplyField noreply)) key cmd := by
  have hplain : ∀ f ∈ commandName .delete :: key :: noreplyField noreply, Plain f := by
    simpa [plain_commandName, KeyOk.plain hkey] using plain_noreplyField noreply
  have hwords := words_joined hplain
  obtain ⟨name, ws, hws, hname, hrest⟩ := List.map_eq_cons_iff.mp hwords
  obtain ⟨k, more, rfl, hk, htail⟩ := List.map_eq_cons_iff.mp hrest
  obtain ⟨hlen, hload⟩ := loadBytes_word (hws ▸ by simp) hk
  exact ⟨_, rfl, rfl, noBreak_joined hplain,
    .delete hws hname (by rwa [hk]) (noreplyTail_field htail), hlen, _, rfl, hload⟩

theorem header_touch (exptime : UInt32) (noreply : Bool) : ∃ cmd, cmd.type = .touch ∧
    cmd.exptime = exptime ∧ cmd.noreply = noreply ∧
    HeaderFor (joined space (commandName .touch :: key :: decimalText exptime.toNat ::
      noreplyField noreply)) key cmd := by
  have hplain : ∀ f ∈ commandName .touch :: key :: decimalText exptime.toNat ::
      noreplyField noreply, Plain f := by
    simpa [plain_commandName, KeyOk.plain hkey, plain_decimalText] using plain_noreplyField noreply
  have hwords := words_joined hplain
  obtain ⟨name, ws, hws, hname, hrest⟩ := List.map_eq_cons_iff.mp hwords
  obtain ⟨k, ws, rfl, hk, hrest⟩ := List.map_eq_cons_iff.mp hrest
  obtain ⟨x, more, rfl, hx, htail⟩ := List.map_eq_cons_iff.mp hrest
  obtain ⟨hlen, hload⟩ := loadBytes_word (hws ▸ by simp) hk
  refine ⟨_, rfl, ?_, rfl, noBreak_joined hplain,
    .touch hws hname (by rwa [hk]) (hx.symm ▸ isUint_uint32 exptime) (noreplyTail_field htail),
    hlen, _, rfl, hload⟩
  rw [hx, decimal_decimalText, UInt32.ofNat_toNat]

theorem header_set (flags exptime : UInt32) {valueLen : ℕ} (hvalue : valueLen ≤ sizeMax)
    (noreply : Bool) : ∃ cmd, cmd.type = .set ∧ cmd.flags = flags ∧ cmd.exptime = exptime ∧
    cmd.valueLen = valueLen ∧ cmd.noreply = noreply ∧
    HeaderFor (joined space (commandName .set :: key :: decimalText flags.toNat ::
      decimalText exptime.toNat :: decimalText valueLen :: noreplyField noreply)) key cmd := by
  have hplain : ∀ f ∈ commandName .set :: key :: decimalText flags.toNat ::
      decimalText exptime.toNat :: decimalText valueLen :: noreplyField noreply, Plain f := by
    simpa [plain_commandName, KeyOk.plain hkey, plain_decimalText] using plain_noreplyField noreply
  have hwords := words_joined hplain
  obtain ⟨name, ws, hws, hname, hrest⟩ := List.map_eq_cons_iff.mp hwords
  obtain ⟨k, ws, rfl, hk, hrest⟩ := List.map_eq_cons_iff.mp hrest
  obtain ⟨f, ws, rfl, hf, hrest⟩ := List.map_eq_cons_iff.mp hrest
  obtain ⟨x, ws, rfl, hx, hrest⟩ := List.map_eq_cons_iff.mp hrest
  obtain ⟨n, more, rfl, hn, htail⟩ := List.map_eq_cons_iff.mp hrest
  obtain ⟨hlen, hload⟩ := loadBytes_word (hws ▸ by simp) hk
  refine ⟨_, rfl, ?_, ?_, ?_, rfl, noBreak_joined hplain,
    .set hws hname (by rwa [hk]) (hf.symm ▸ isUint_uint32 flags) (hx.symm ▸ isUint_uint32 exptime)
      (hn.symm ▸ isUint_decimalText hvalue) (noreplyTail_field htail), hlen, _, rfl, hload⟩
  · rw [hf, decimal_decimalText, UInt32.ofNat_toNat]
  · rw [hx, decimal_decimalText, UInt32.ofNat_toNat]
  · rw [hn, decimal_decimalText]

end Headers

theorem loadBytes_middle (before bytes after : List UInt8) :
    loadBytes (before ++ (bytes ++ after)) before.length bytes.length = some bytes := by
  rw [loadBytes_eq (by simp only [List.length_append]; omega), List.drop_left, List.take_left]

theorem loadBytes_within {line : List UInt8} {k n : ℕ} {bytes : List UInt8}
    (h : loadBytes line k n = some bytes) (before after : List UInt8) :
    loadBytes (before ++ (line ++ after)) (before.length + k) n = some bytes := by
  unfold loadBytes at h
  split_ifs at h with hle
  rw [Option.some.injEq] at h
  rw [loadBytes_eq (by simp only [List.length_append]; omega), ← List.drop_drop, List.drop_left,
    List.drop_append_of_le_length (by omega),
    List.take_append_of_le_length (by rw [List.length_drop]; omega), h]

/-- The text of a command, and that it is what the expectation says. -/
structure Told (start : ℕ) (e : Expect) (told : List UInt8) : Prop where
  start_eq : e.start = start
  parsed : ∃ cmd, (∀ rest, protocolParseCommand (told ++ rest) {} = some (.ok, cmd, told.length)) ∧
    ∀ (s : Stream) (before rest : List UInt8), s.data = before ++ (told ++ rest) →
      before.length = start → checkFields s start e cmd = some true

/-- The expectation names the place of the key in the line. -/
structure KeyTold (start : ℕ) (e : Expect) (line key : List UInt8) : Prop where
  key_len : e.keyLen = key.length
  key_at : ∃ before after, line = before ++ (key ++ after) ∧ e.keyOff = start + before.length

theorem checkKey_told {start : ℕ} {e : Expect} {line key : List UInt8} {cmd : Command}
    (h : HeaderFor line key cmd) (he : KeyTold start e line key) {s : Stream}
    {before rest : List UInt8} (hdata : s.data = before ++ (line ++ rest))
    (hstart : before.length = start) : checkKey s start e cmd = some true := by
  obtain ⟨k, hk, hload⟩ := h.key_at
  obtain ⟨front, back, hline, hoff⟩ := he.key_at
  have hgot := loadBytes_within hload before rest
  have hwant := loadBytes_middle (before ++ front) key (back ++ rest)
  have hsame : before ++ front ++ (key ++ (back ++ rest)) = s.data := by
    rw [hdata, hline]
    simp only [List.append_assoc]
  rw [hsame, List.length_append] at hwant
  rw [← hdata] at hgot
  simp only [checkKey, h.key_len, he.key_len, hk, hoff, ← hstart, hgot, hwant, ne_eq,
    not_true_eq_false, if_false, Option.bind_eq_bind, Option.bind_some, decide_true]

theorem told_line {start : ℕ} {e : Expect} {line key : List UInt8} {cmd : Command}
    (h : HeaderFor line key cmd) (he : KeyTold start e line key) (hstart : e.start = start)
    (hset : cmd.type ≠ .set) (htype : cmd.type = e.type)
    (hexptime : e.type = .touch → cmd.exptime = e.exptime)
    (hnoreply : e.type ≠ .get → cmd.noreply = e.noreply) : Told start e (line ++ crlf) := by
  refine ⟨hstart, cmd, fun rest => ?_, fun s before rest hdata hbefore => ?_⟩
  · rw [List.length_append]
    exact (parse_accepts_iff _ _ _ _).mpr (.line h.noBreak h.header hset)
  · rw [List.append_assoc] at hdata
    have hkey := checkKey_told h he hdata hbefore
    simp only [checkFields, htype, hkey, ne_eq, not_true_eq_false, if_false, Option.bind_eq_bind,
      Option.bind_some]
    cases htype' : e.type with
    | set => exact absurd (htype.trans htype') hset
    | touch => simp [checkTouch, hexptime htype', hnoreply (by simp [htype'])]
    | delete => simp [hnoreply (by simp [htype'])]
    | get => rfl
    | version => rfl
    | quit => rfl

theorem told_set {start : ℕ} {e : Expect} {line key value : List UInt8} {cmd : Command}
    (h : HeaderFor line key cmd) (he : KeyTold start e line key) (hstart : e.start = start)
    (hset : cmd.type = .set) (htype : e.type = .set) (hflags : cmd.flags = e.flags)
    (hexptime : cmd.exptime = e.exptime) (hnoreply : cmd.noreply = e.noreply)
    (hlen : cmd.valueLen = e.valueLen) (hvalue : value.length = e.valueLen)
    (hoff : e.valueOff = start + (line ++ crlf).length)
    (hfits : line.length + 2 + value.length + 2 ≤ sizeMax) :
    Told start e (line ++ crlf ++ (value ++ crlf)) := by
  have hblock : (line ++ crlf ++ (value ++ crlf)).length = line.length + 2 + value.length + 2 := by
    simp only [List.length_append, crlf, List.length_cons, List.length_nil]
    omega
  have hline : (line ++ crlf).length = line.length + 2 := List.length_append
  refine ⟨hstart, { cmd with value := some (line.length + 2) }, fun rest => ?_,
    fun s before rest hdata hbefore => ?_⟩
  · rw [hblock, parse_accepts_iff]
    simp only [List.append_assoc]
    rw [← List.append_assoc line]
    have hframe : Frame (line ++ crlf ++ (value ++ crlf ++ rest)) _ _ :=
      .data h.noBreak h.header hset (hvalue.trans hlen.symm) hfits
    rwa [List.append_assoc value] at hframe
  · have hkey : checkKey s start e { cmd with value := some (line.length + 2) } = some true := by
      have hdata' : s.data = before ++ (line ++ (crlf ++ (value ++ crlf) ++ rest)) := by
        simpa only [List.append_assoc] using hdata
      exact checkKey_told ⟨h.noBreak, h.header, h.key_len, h.key_at⟩ he hdata' hbefore
    have hload := loadBytes_middle (before ++ (line ++ crlf)) value (crlf ++ rest)
    have hsame : before ++ (line ++ crlf) ++ (value ++ (crlf ++ rest)) = s.data := by
      rw [hdata]
      simp only [List.append_assoc]
    rw [hsame, List.length_append, hbefore, hvalue, hline] at hload
    rw [hline] at hoff
    rw [checkFields, if_neg (not_not.mpr (hset.trans htype.symm)), hkey]
    simp only [htype, checkSet, checkValue, hlen, hoff, hload, hflags, hexptime, hnoreply, ne_eq,
      not_true_eq_false, if_false, Option.bind_eq_bind, Option.bind_some, decide_true]

end Kvx.ProtocolBench
