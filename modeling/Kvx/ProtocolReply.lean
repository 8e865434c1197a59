import Kvx.ProtocolWrite

/-!
# All or nothing

A response writer leaves its whole reply in front of the old bytes of the destination, or it
leaves the destination as it was. A reply that is one line ends with it, whatever text the caller
passes.
-/
namespace Kvx.Protocol

open Kvx.Lib

/-- `response_type_t`. An `enum` can hold a value that names none of its constants. -/
inductive ResponseType
  | stored
  | notStored
  | deleted
  | notFound
  | touched
  | error
  | clientError
  | serverError
  | other (value : ℕ) (unnamed : 8 ≤ value)
  deriving DecidableEq, Repr

/-- `(unsigned)type` -/
def ResponseType.value : ResponseType → ℕ
  | .stored => 0
  | .notStored => 1
  | .deleted => 2
  | .notFound => 3
  | .touched => 4
  | .error => 5
  | .clientError => 6
  | .serverError => 7
  | .other value _ => value

/-- A row of `responses` has 13 bytes, the last ones zero. -/
def responseRow (chars : List Char) : List UInt8 :=
  (text chars ++ [cr, lf] ++ List.replicate 13 0).take 13

def responses : List (List UInt8) :=
  [responseRow ['S', 'T', 'O', 'R', 'E', 'D'],
    responseRow ['N', 'O', 'T', '_', 'S', 'T', 'O', 'R', 'E', 'D'],
    responseRow ['D', 'E', 'L', 'E', 'T', 'E', 'D'],
    responseRow ['N', 'O', 'T', '_', 'F', 'O', 'U', 'N', 'D'],
    responseRow ['T', 'O', 'U', 'C', 'H', 'E', 'D'],
    responseRow ['E', 'R', 'R', 'O', 'R']]

/-- The table `lengths`. -/
def responseLengths : List ℕ := [8, 12, 9, 11, 9, 7]

/-- `protocol_write_response` up to its outputs. -/
def writeResponse (b : Slice) (type : ResponseType) : Parse (List UInt8 × ℕ) :=
  if type.value ≥ responses.length then .error .invalidArguments
  else do
    let row ← readAt responses type.value
    let len ← readAt responseLengths type.value
    let bytes ← readSlice row 0 len
    writeBytes b bytes

def protocolWriteResponse (b : Slice) (type : ResponseType) : Option (ProtoCode × Slice × ℕ) :=
  written b (writeResponse b type)

/-- Addition of `size_t`. -/
def sizeAdd (m n : ℕ) : ℕ := (m + n) % 2 ^ 64

/-- Subtraction of `size_t`. -/
def sizeSub (m n : ℕ) : ℕ := (m + 2 ^ 64 - n) % 2 ^ 64

/-- The loop of `proto_write_text_line`. -/
def checkLine : List UInt8 → Parse Unit
  | [] => .ok ()
  | ch :: rest =>
      if ch = cr ∨ ch = lf ∨ ch = 0 then .error .invalidArguments else checkLine rest

/-- `proto_write_text_line` up to its outputs. -/
def writeTextLine (b : Slice) (start : List UInt8) (line : Slice) : Parse (List UInt8 × ℕ) :=
  if line.isNull ∨ line.len = 0 ∨ line.len > sizeSub (sizeSub sizeMax start.length) 2 then
    .error .invalidArguments
  else
    let total := sizeAdd (sizeAdd start.length line.len) 2
    if b.len < total then .error .bufferTooSmall
    else if b.isNull then .error .invalidArguments
    else do
      checkLine line.data
      let w ← put (b.data, 0) start
      let w ← put w line.data
      let w ← put w [cr, lf]
      .ok (w.1, total)

def protoWriteTextLine (b : Slice) (start : List UInt8) (line : Slice) :
    Option (ProtoCode × Slice × ℕ) := written b (writeTextLine b start line)

def versionStart : List UInt8 := text ['V', 'E', 'R', 'S', 'I', 'O', 'N', ' ']

def clientStart : List UInt8 :=
  text ['C', 'L', 'I', 'E', 'N', 'T', '_', 'E', 'R', 'R', 'O', 'R', ' ']

def serverStart : List UInt8 :=
  text ['S', 'E', 'R', 'V', 'E', 'R', '_', 'E', 'R', 'R', 'O', 'R', ' ']

def protocolWriteVersion (b version : Slice) : Option (ProtoCode × Slice × ℕ) :=
  protoWriteTextLine b versionStart version

def protocolWriteError (b : Slice) (type : ResponseType) (message : Slice) :
    Option (ProtoCode × Slice × ℕ) :=
  if type = .clientError then protoWriteTextLine b clientStart message
  else if type = .serverError then protoWriteTextLine b serverStart message
  else written b (.error .invalidArguments)

/-- `protocol_write_get_result` up to its outputs, with its lengths in `size_t`. -/
def writeGetResultSized (b key : Slice) (flags : UInt32) (value : Slice) :
    Parse (List UInt8 × ℕ) :=
  if key.isNull ∨ key.len = 0 ∨ (value.isNull ∧ value.len ≠ 0) then .error .invalidArguments
  else if key.len > protoMaxKeyLength then .error .keyTooLong
  else do
    let flagsText ← protoFormatUint 10 flags.toNat []
    let lengthText ← protoFormatUint 24 value.len []
    let headerLen := sizeAdd (sizeAdd (sizeAdd (sizeAdd (sizeAdd (sizeAdd 6 key.len) 1)
      flagsText.length) 1) lengthText.length) 2
    if value.len > sizeSub (sizeSub sizeMax headerLen) 2 then .error .invalidValueLength
    else
      let total := sizeAdd (sizeAdd headerLen value.len) 2
      if b.len < total then .error .bufferTooSmall
      else if b.isNull then .error .invalidArguments
      else do
        let w ← putGetResult b.data key.data flagsText lengthText value
        .ok (w.1, total)

def protocolWriteGetResultSized (b key : Slice) (flags : UInt32) (value : Slice) :
    Option (ProtoCode × Slice × ℕ) := written b (writeGetResultSized b key flags value)

theorem writeGetResultSized_eq (b key : Slice) (flags : UInt32) {value : Slice}
    (hvalue : value.len ≤ sizeMax) :
    writeGetResultSized b key flags value = writeGetResult b key flags value := by
  have hmax : sizeMax = 2 ^ 64 - 1 := rfl
  have hflags := flagsText_length flags
  have hlength := lengthText_length hvalue
  unfold writeGetResultSized writeGetResult
  by_cases hargs : key.isNull ∨ key.len = 0 ∨ (value.isNull ∧ value.len ≠ 0)
  · rw [if_pos hargs, if_pos hargs]
  · rw [if_neg hargs, if_neg hargs]
    by_cases hkey : key.len > protoMaxKeyLength
    · rw [if_pos hkey, if_pos hkey]
    rw [if_neg hkey, if_neg hkey, protoFormatUint_eq, if_pos hflags, ok_bind, ok_bind,
      protoFormatUint_eq, if_pos hlength, ok_bind, ok_bind]
    simp only [List.append_nil]
    obtain ⟨f, hf⟩ : ∃ f, (decimalText flags.toNat).length = f := ⟨_, rfl⟩
    obtain ⟨l, hl⟩ : ∃ l, (decimalText value.len).length = l := ⟨_, rfl⟩
    rw [hf] at hflags ⊢
    rw [hl] at hlength ⊢
    have hkey' : key.len ≤ 250 := Nat.not_lt.mp hkey
    have hheader : sizeAdd (sizeAdd (sizeAdd (sizeAdd (sizeAdd (sizeAdd 6 key.len) 1) f) 1) l) 2 =
        6 + key.len + 1 + f + 1 + l + 2 := by
      unfold sizeAdd
      omega
    have hlimit : sizeSub (sizeSub sizeMax (6 + key.len + 1 + f + 1 + l + 2)) 2 =
        sizeMax - (6 + key.len + 1 + f + 1 + l + 2) - 2 := by
      unfold sizeSub
      omega
    rw [hheader, hlimit]
    by_cases hbig : value.len > sizeMax - (6 + key.len + 1 + f + 1 + l + 2) - 2
    · rw [if_pos hbig, if_pos hbig]
    · have htotal : sizeAdd (sizeAdd (6 + key.len + 1 + f + 1 + l + 2) value.len) 2 =
          6 + key.len + 1 + f + 1 + l + 2 + value.len + 2 := by
        unfold sizeAdd
        omega
      rw [if_neg hbig, if_neg hbig, htotal]

/-- The outputs of a writer whose reply to valid arguments is `reply`. -/
inductive AllOrNothing (b : Slice) (valid : Prop) (reply : List UInt8) :
    Option (ProtoCode × Slice × ℕ) → Prop
  | whole {dst : List UInt8} (destination : b = .bytes dst) (args : valid)
      (room : reply.length ≤ dst.length) :
      AllOrNothing b valid reply
        (some (.ok, .bytes (reply ++ dst.drop reply.length), reply.length))
  | nothing (err : ProtoError) (refused : ¬ (valid ∧ b.isNull = false ∧ reply.length ≤ b.len)) :
      AllOrNothing b valid reply (some (.err err, b, 0))

variable {b : Slice} {valid : Prop} {reply : List UInt8}

theorem AllOrNothing.congr {valid' : Prop} {out : Option (ProtoCode × Slice × ℕ)}
    (h : AllOrNothing b valid reply out) (hvalid : valid ↔ valid') :
    AllOrNothing b valid' reply out := by
  cases h with
  | whole destination args room => exact .whole destination (hvalid.mp args) room
  | nothing err refused => exact .nothing err fun hall => refused ⟨hvalid.mpr hall.1, hall.2⟩

theorem AllOrNothing.done {dst : List UInt8} (args : valid) (room : reply.length ≤ dst.length) :
    AllOrNothing (.bytes dst) valid reply (written (.bytes dst) (.ok (wrote dst reply))) :=
  .whole rfl args room

theorem AllOrNothing.too_small (err : ProtoError) (h : b.len < reply.length) :
    AllOrNothing b valid reply (written b (.error err)) :=
  .nothing err fun hall => absurd hall.2.2 (Nat.not_le.mpr h)

theorem AllOrNothing.null (err : ProtoError) (h : b.isNull = true) :
    AllOrNothing b valid reply (written b (.error err)) :=
  .nothing err fun hall => absurd (h.symm.trans hall.2.1) Bool.true_eq_false.mp

theorem AllOrNothing.invalid (err : ProtoError) (h : ¬ valid) :
    AllOrNothing b valid reply (written b (.error err)) :=
  .nothing err fun hall => h hall.1

theorem Slice.eq_bytes {s : Slice} (h : ¬ s.isNull = true) : ∃ data, s = .bytes data := by
  cases s with
  | null len => exact absurd rfl h
  | bytes data => exact ⟨data, rfl⟩

/-- Every writer checks the capacity, then the pointer, and `x` is what it does after that. -/
theorem AllOrNothing.checked {x : Parse (List UInt8 × ℕ)}
    (h : ∀ dst, b = .bytes dst → reply.length ≤ dst.length →
      AllOrNothing b valid reply (written b x)) :
    AllOrNothing b valid reply (written b
      (if b.len < reply.length then .error .bufferTooSmall
      else if b.isNull then .error .invalidArguments
      else x)) := by
  by_cases hsmall : b.len < reply.length
  · rw [if_pos hsmall]
    exact .too_small _ hsmall
  rw [if_neg hsmall]
  by_cases hnull : b.isNull = true
  · rw [if_pos hnull]
    exact .null _ hnull
  rw [if_neg hnull]
  obtain ⟨dst, hdst⟩ := Slice.eq_bytes hnull
  refine h dst hdst ?_
  rw [hdst] at hsmall
  exact Nat.not_lt.mp hsmall

structure GetResultArgs (key value : Slice) : Prop where
  keyGiven : key.isNull = false
  keyNonempty : key.len ≠ 0
  keyShort : key.len ≤ protoMaxKeyLength
  valueGiven : value.isNull → value.len = 0

theorem writeGetResult_whole {b key : Slice} {flags : UInt32} {value : Slice}
    (hb : b.len ≤ sizeMax) (hvalue : value.len ≤ sizeMax) :
    AllOrNothing b (GetResultArgs key value) (getResultText key.data flags value.data)
      (protocolWriteGetResultSized b key flags value) := by
  have hflags := flagsText_length flags
  have hlength := lengthText_length hvalue
  unfold protocolWriteGetResultSized
  rw [writeGetResultSized_eq b key flags hvalue]
  unfold writeGetResult
  by_cases hargs : key.isNull ∨ key.len = 0 ∨ (value.isNull ∧ value.len ≠ 0)
  · rw [if_pos hargs]
    refine .invalid _ fun hvalid => ?_
    rcases hargs with hnull | hzero | ⟨hnull, hne⟩
    · exact absurd hnull (by simp [hvalid.keyGiven])
    · exact hvalid.keyNonempty hzero
    · exact hne (hvalid.valueGiven hnull)
  rw [if_neg hargs]
  by_cases hkey : key.len > protoMaxKeyLength
  · rw [if_pos hkey]
    exact .invalid _ fun hvalid => absurd hvalid.keyShort (Nat.not_le.mpr hkey)
  rw [if_neg hkey, protoFormatUint_eq, if_pos hflags, ok_bind, protoFormatUint_eq, if_pos hlength,
    ok_bind]
  obtain ⟨hgiven, hnonempty, hempty⟩ : ¬ key.isNull = true ∧ key.len ≠ 0 ∧
      (value.isNull → value.len = 0) :=
    ⟨fun h => hargs (.inl h), fun h => hargs (.inr (.inl h)),
      fun h => by_contra fun hne => hargs (.inr (.inr ⟨h, hne⟩))⟩
  obtain ⟨key, rfl⟩ := Slice.eq_bytes hgiven
  have hvalid : GetResultArgs (.bytes key) value :=
    ⟨rfl, hnonempty, Nat.not_lt.mp hkey, hempty⟩
  have hdata := Slice.length_data hempty
  have htotal := getResultText_length key flags value.data
  rw [hdata] at htotal
  simp only [List.append_nil, Slice.len_bytes, Slice.data_bytes]
  rw [← htotal]
  by_cases hbig : value.len > sizeMax - (6 + key.length + 1 + (decimalText flags.toNat).length + 1 +
      (decimalText value.len).length + 2) - 2
  · rw [if_pos hbig]
    rw [Slice.len_bytes, protoMaxKeyLength] at hkey
    have hmax : sizeMax = 2 ^ 64 - 1 := rfl
    exact .too_small _ (by omega)
  rw [if_neg hbig]
  refine .checked fun dst hdst hroom => ?_
  subst hdst
  rw [Slice.data_bytes, putGetResult_eq hempty hroom, ok_bind]
  exact .done hvalid hroom

/-- A reply to valid arguments has CR and LF only at its end. -/
structure OneLine (b : Slice) (valid : Prop) (reply : List UInt8)
    (out : Option (ProtoCode × Slice × ℕ)) : Prop where
  outcome : AllOrNothing b valid reply out
  line : valid → ∃ line, reply = line ++ [cr, lf] ∧ cr ∉ line ∧ lf ∉ line

theorem protoWriteBytes_whole (b : Slice) (bytes : List UInt8) :
    AllOrNothing b True bytes (protoWriteBytes b bytes) := by
  unfold protoWriteBytes writeBytes
  refine .checked fun dst hdst hroom => ?_
  subst hdst
  have hput : put (wrote dst []) bytes = .ok (wrote dst ([] ++ bytes)) := put_wrote hroom
  change put (dst, 0) bytes = .ok (wrote dst bytes) at hput
  rw [Slice.data_bytes, hput]
  exact .done trivial hroom

theorem protocolWriteGetEnd_line (b : Slice) : OneLine b True endText (protocolWriteGetEnd b) :=
  ⟨protoWriteBytes_whole b endText, fun _ => ⟨text ['E', 'N', 'D'], rfl, by decide, by decide⟩⟩

/-- The text of a type. The other types have none. -/
def ResponseType.fixedText : ResponseType → List UInt8
  | .stored => text ['S', 'T', 'O', 'R', 'E', 'D']
  | .notStored => text ['N', 'O', 'T', '_', 'S', 'T', 'O', 'R', 'E', 'D']
  | .deleted => text ['D', 'E', 'L', 'E', 'T', 'E', 'D']
  | .notFound => text ['N', 'O', 'T', '_', 'F', 'O', 'U', 'N', 'D']
  | .touched => text ['T', 'O', 'U', 'C', 'H', 'E', 'D']
  | .error => text ['E', 'R', 'R', 'O', 'R']
  | _ => []

theorem writeResponse_eq (b : Slice) (type : ResponseType) :
    writeResponse b type =
      if type.fixedText = [] then .error .invalidArguments
      else writeBytes b (type.fixedText ++ [cr, lf]) := by
  cases type with
  | stored => rfl
  | notStored => rfl
  | deleted => rfl
  | notFound => rfl
  | touched => rfl
  | error => rfl
  | clientError => rfl
  | serverError => rfl
  | other value unnamed =>
    have hnone : (ResponseType.other value unnamed).fixedText = [] := rfl
    have hindex : (ResponseType.other value unnamed).value ≥ responses.length :=
      (show 6 ≤ 8 by decide).trans unnamed
    rw [if_pos hnone, writeResponse, if_pos hindex]

theorem ResponseType.fixedText_line (type : ResponseType) :
    cr ∉ type.fixedText ∧ lf ∉ type.fixedText := by
  cases type with
  | other value unnamed => exact ⟨List.not_mem_nil, List.not_mem_nil⟩
  | _ => exact ⟨by decide, by decide⟩

theorem protocolWriteResponse_line (b : Slice) (type : ResponseType) :
    OneLine b (type.fixedText ≠ []) (type.fixedText ++ [cr, lf]) (protocolWriteResponse b type) := by
  refine ⟨?_, fun _ => ⟨_, rfl, type.fixedText_line⟩⟩
  unfold protocolWriteResponse
  rw [writeResponse_eq]
  by_cases htext : type.fixedText = []
  · rw [if_pos htext]
    exact .invalid _ (not_not.mpr htext)
  rw [if_neg htext]
  have hwhole := protoWriteBytes_whole b (type.fixedText ++ [cr, lf])
  unfold protoWriteBytes at hwhole
  exact hwhole.congr (by simp [htext])

structure LineArgs (line : Slice) : Prop where
  given : line.isNull = false
  nonempty : line.len ≠ 0
  text : ∀ ch ∈ line.data, ch ≠ cr ∧ ch ≠ lf ∧ ch ≠ 0

theorem checkLine_eq_ok {line : List UInt8} (h : ∀ ch ∈ line, ch ≠ cr ∧ ch ≠ lf ∧ ch ≠ 0) :
    checkLine line = .ok () := by
  induction line with
  | nil => rfl
  | cons ch rest ih =>
    obtain ⟨hcr, hlf, hnul⟩ := h ch List.mem_cons_self
    rw [checkLine, if_neg (by simp [hcr, hlf, hnul])]
    exact ih fun ch hch => h ch (List.mem_cons_of_mem _ hch)

theorem checkLine_eq_error {line : List UInt8} (h : ¬ ∀ ch ∈ line, ch ≠ cr ∧ ch ≠ lf ∧ ch ≠ 0) :
    checkLine line = .error .invalidArguments := by
  induction line with
  | nil => exact absurd (by simp) h
  | cons ch rest ih =>
    rw [checkLine]
    split_ifs with hch
    · rfl
    · refine ih fun hrest => h ?_
      intro c hc
      rcases List.mem_cons.mp hc with rfl | hc
      · simpa only [not_or] using hch
      · exact hrest c hc

theorem protoWriteTextLine_whole {b : Slice} (hb : b.len ≤ sizeMax) {start : List UInt8}
    (hstart : start.length ≤ 13) (line : Slice) :
    AllOrNothing b (LineArgs line) (start ++ line.data ++ [cr, lf])
      (protoWriteTextLine b start line) := by
  unfold protoWriteTextLine writeTextLine
  have hmax : sizeMax = 2 ^ 64 - 1 := rfl
  have hlimit : sizeSub (sizeSub sizeMax start.length) 2 = sizeMax - start.length - 2 := by
    unfold sizeSub
    omega
  rw [hlimit]
  by_cases hargs : line.isNull = true ∨ line.len = 0 ∨ line.len > sizeMax - start.length - 2
  · rw [if_pos hargs]
    rcases hargs with hnull | hempty | hbig
    · exact .invalid _ fun hvalid => absurd hnull (by simp [hvalid.given])
    · exact .invalid _ fun hvalid => hvalid.nonempty hempty
    · by_cases hnull : line.isNull = true
      · exact .invalid _ fun hvalid => absurd hnull (by simp [hvalid.given])
      · have hdata := Slice.length_data fun h => absurd h hnull
        refine .too_small _ ?_
        simp only [List.length_append, List.length_cons, List.length_nil]
        omega
  rw [if_neg hargs]
  obtain ⟨hnull, hempty, hbig⟩ : ¬ line.isNull = true ∧ line.len ≠ 0 ∧
      ¬ line.len > sizeMax - start.length - 2 := by simpa only [not_or] using hargs
  have hdata := Slice.length_data fun h => absurd h hnull
  have hreply : (start ++ line.data ++ [cr, lf]).length = start.length + line.len + 2 := by
    simp only [List.length_append, List.length_cons, List.length_nil, hdata]
  have htotal : sizeAdd (sizeAdd start.length line.len) 2 =
      (start ++ line.data ++ [cr, lf]).length := by
    unfold sizeAdd
    omega
  rw [htotal]
  refine .checked fun dst hdst hroom => ?_
  subst hdst
  rw [Slice.data_bytes]
  by_cases htext : ∀ ch ∈ line.data, ch ≠ cr ∧ ch ≠ lf ∧ ch ≠ 0
  · have hfirst : (dst, 0) = wrote dst [] := rfl
    rw [checkLine_eq_ok htext, ok_bind, hfirst, put_wrote, ok_bind, put_wrote, ok_bind,
      put_wrote, ok_bind, List.nil_append]
    · exact .done ⟨by simpa using hnull, hempty, htext⟩ hroom
    all_goals
      simp only [List.length_append, List.length_nil] at hroom ⊢
      omega
  · rw [checkLine_eq_error htext, error_bind]
    exact .invalid _ fun hvalid => htext hvalid.text

theorem protoWriteTextLine_line {b : Slice} (hb : b.len ≤ sizeMax) {start : List UInt8}
    (hstart : start.length ≤ 13) (hclean : cr ∉ start ∧ lf ∉ start) (line : Slice) :
    OneLine b (LineArgs line) (start ++ line.data ++ [cr, lf])
      (protoWriteTextLine b start line) := by
  refine ⟨protoWriteTextLine_whole hb hstart line, fun hvalid => ?_⟩
  refine ⟨start ++ line.data, rfl, ?_, ?_⟩
  · rw [List.mem_append]
    exact not_or.mpr ⟨hclean.1, fun hcr => (hvalid.text cr hcr).1 rfl⟩
  · rw [List.mem_append]
    exact not_or.mpr ⟨hclean.2, fun hlf => (hvalid.text lf hlf).2.1 rfl⟩

def errorStart : ResponseType → List UInt8
  | .serverError => serverStart
  | _ => clientStart

theorem protocolWriteError_line {b : Slice} (hb : b.len ≤ sizeMax) (type : ResponseType)
    (message : Slice) :
    OneLine b ((type = .clientError ∨ type = .serverError) ∧ LineArgs message)
      (errorStart type ++ message.data ++ [cr, lf]) (protocolWriteError b type message) := by
  unfold protocolWriteError
  by_cases hclient : type = .clientError
  · subst hclient
    have h := protoWriteTextLine_line hb (show clientStart.length ≤ 13 by decide) (by decide)
      message
    rw [if_pos rfl]
    exact ⟨h.outcome.congr (by simp), fun hvalid => h.line hvalid.2⟩
  rw [if_neg hclient]
  by_cases hserver : type = .serverError
  · subst hserver
    have h := protoWriteTextLine_line hb (show serverStart.length ≤ 13 by decide) (by decide)
      message
    rw [if_pos rfl]
    exact ⟨h.outcome.congr (by simp), fun hvalid => h.line hvalid.2⟩
  rw [if_neg hserver]
  have hinvalid : ¬ ((type = .clientError ∨ type = .serverError) ∧ LineArgs message) :=
    fun h => h.1.elim hclient hserver
  exact ⟨.invalid _ hinvalid, fun hvalid => absurd hvalid hinvalid⟩

/-- Every response writer leaves its whole reply or nothing, and succeeds exactly when its arguments
are valid and the reply fits. A reply of one line has its only line end at its end. -/
theorem replies_all_or_nothing (b : Slice) (hb : b.len ≤ sizeMax) :
    (∀ key flags value, value.len ≤ sizeMax →
      AllOrNothing b (GetResultArgs key value) (getResultText key.data flags value.data)
        (protocolWriteGetResultSized b key flags value)) ∧
    OneLine b True endText (protocolWriteGetEnd b) ∧
    (∀ type, OneLine b (type.fixedText ≠ []) (type.fixedText ++ [cr, lf])
      (protocolWriteResponse b type)) ∧
    (∀ version, OneLine b (LineArgs version) (versionStart ++ version.data ++ [cr, lf])
      (protocolWriteVersion b version)) ∧
    ∀ type message, OneLine b ((type = .clientError ∨ type = .serverError) ∧ LineArgs message)
      (errorStart type ++ message.data ++ [cr, lf]) (protocolWriteError b type message) :=
  ⟨fun _ _ _ hvalue => writeGetResult_whole hb hvalue, protocolWriteGetEnd_line b,
    protocolWriteResponse_line b,
    protoWriteTextLine_line hb (show versionStart.length ≤ 13 by decide) (by decide),
    protocolWriteError_line hb⟩

/-- A destination one byte short of the reply `END`. -/
theorem replies_all_or_nothing_short :
    AllOrNothing (.bytes [1, 2, 3, 4]) (GetResultArgs (.bytes [107]) (.null 0))
        (getResultText [107] 7 []) (protocolWriteGetResultSized (.bytes [1, 2, 3, 4])
          (.bytes [107]) 7 (.null 0)) ∧
      OneLine (.bytes [1, 2, 3, 4]) True endText (protocolWriteGetEnd (.bytes [1, 2, 3, 4])) := by
  obtain ⟨hentry, hend, -⟩ := replies_all_or_nothing (.bytes [1, 2, 3, 4]) (by decide)
  exact ⟨hentry (.bytes [107]) 7 (.null 0) (by decide), hend⟩

end Kvx.Protocol
