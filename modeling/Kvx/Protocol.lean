import Mathlib.Algebra.Group.Nat.Defs
import Kvx.Lib.CheckedRead

/-!
# The command parser

Tokens, keys and values are named by their offsets in the buffer, as the slices that
`protocol_parse_command` hands out. A read outside of the buffer or of the token array
is a fault.
-/
namespace Kvx.Protocol

open Kvx.Lib

def protoMaxTokens : ℕ := 6
def protoMaxKeyLength : ℕ := 250
def uint32Max : ℕ := 2 ^ 32 - 1
def sizeMax : ℕ := 2 ^ 64 - 1

def tab : UInt8 := 9
def lf : UInt8 := 10
def cr : UInt8 := 13
def space : UInt8 := 32

def text (chars : List Char) : List UInt8 := chars.map Char.toUInt8

/-- The `PROTO_ERR` codes. -/
inductive ProtoError
  | incomplete
  | invalidCommand
  | invalidArguments
  | keyTooLong
  | invalidFlags
  | invalidExptime
  | invalidValueLength
  | invalidCas
  | expectedCrlf
  | invalidDataBlock
  | bufferTooSmall
  deriving DecidableEq, Repr

/-- `proto_error_t`. -/
inductive ProtoCode
  | ok
  | err (err : ProtoError)
  deriving DecidableEq, Repr

inductive CommandType
  | get
  | set
  | delete
  | touch
  | version
  | quit
  deriving DecidableEq, Repr

/-- `command_t`; its default is what `= {0}` makes. -/
structure Command where
  key : Option ℕ := none
  keyLen : ℕ := 0
  keysEnd : Option ℕ := none
  value : Option ℕ := none
  valueLen : ℕ := 0
  flags : UInt32 := 0
  exptime : UInt32 := 0
  cas : UInt64 := 0
  noreply : Bool := false
  type : CommandType := .get
  deriving DecidableEq, Repr

structure Token where
  data : ℕ
  len : ℕ
  deriving DecidableEq, Repr

structure CommandSpec where
  type : CommandType
  tokenCount : ℕ
  allowsNoreply : Bool

def protoCommands : CommandType → CommandSpec
  | .get => ⟨.get, 2, false⟩
  | .set => ⟨.set, 5, true⟩
  | .delete => ⟨.delete, 2, true⟩
  | .touch => ⟨.touch, 3, true⟩
  | .version => ⟨.version, 1, false⟩
  | .quit => ⟨.quit, 1, false⟩

abbrev Parse := Checked ProtoError

def protoIsSeparator (ch : UInt8) : Bool := ch == space || ch == tab

/-- `while (pos < len && accept(b[pos])) pos++`, where `n` is `len - pos`. -/
def advanceWhile (accept : UInt8 → Bool) (b : List UInt8) : ℕ → ℕ → Parse ℕ
  | 0, pos => .ok pos
  | n + 1, pos => do
      let ch ← readAt b pos
      if accept ch then advanceWhile accept b n (pos + 1) else .ok pos

/-- The loop of `proto_find_line` from `i` on, where `n` is `len - i`. -/
def protoFindLineFrom (b : List UInt8) : ℕ → ℕ → Parse ℕ
  | 0, _ => .error .incomplete
  | n + 1, i => do
      let ch ← readAt b i
      if ch = lf then .error .expectedCrlf
      else if ch ≠ cr then protoFindLineFrom b n (i + 1)
      else if n + 1 < 2 then .error .incomplete
      else
        let next ← readAt b (i + 1)
        if next ≠ lf then .error .expectedCrlf else .ok i

def protoFindLine (b : List UInt8) : Parse ℕ := protoFindLineFrom b b.length 0

/-- The loop of `proto_tokenize`. Every step passes a token, so `fuel` does not run out. -/
def protoTokenizeFrom (b : List UInt8) (len capacity : ℕ) :
    ℕ → ℕ → List Token → Parse (List Token)
  | 0, _, _ => .fault
  | fuel + 1, pos, tokens =>
      if pos < len then do
        let start ← advanceWhile protoIsSeparator b (len - pos) pos
        if start = len then .ok tokens
        else if tokens.length = capacity then .error .invalidArguments
        else
          let stop ← advanceWhile (fun ch => !protoIsSeparator ch) b (len - start) start
          protoTokenizeFrom b len capacity fuel stop (tokens ++ [⟨start, stop - start⟩])
      else .ok tokens

def protoTokenize (b : List UInt8) (len capacity : ℕ) : Parse (List Token) :=
  protoTokenizeFrom b len capacity (len + 1) 0 []

/-- The loop of `proto_parse_uint`, where `n` bytes of the token remain. `none`: it returns
false. -/
def protoParseUintFrom (b : List UInt8) (limit : ℕ) : ℕ → ℕ → ℕ → Parse (Option ℕ)
  | 0, _, value => .ok (some value)
  | n + 1, pos, value => do
      let ch ← readAt b pos
      if ch < 48 ∨ ch > 57 then .ok none
      else
        let digit := ch.toNat - 48
        if value > limit / 10 ∨ (value = limit / 10 ∧ digit > limit % 10) then .ok none
        else protoParseUintFrom b limit n (pos + 1) ((value * 10 + digit) % 2 ^ 64)

def protoParseUint (b : List UInt8) (token : Token) (limit : ℕ) : Parse (Option ℕ) :=
  if token.len = 0 then .ok none else protoParseUintFrom b limit token.len token.data 0

def protoFindCommand (b : List UInt8) (name : Token) : Parse (Option CommandSpec) := do
  if name.len = 3 then
    let bytes ← readSlice b name.data 3
    if bytes = text ['g', 'e', 't'] then .ok (some (protoCommands .get))
    else if bytes = text ['s', 'e', 't'] then .ok (some (protoCommands .set))
    else .ok none
  else if name.len = 4 then
    let bytes ← readSlice b name.data 4
    if bytes = text ['q', 'u', 'i', 't'] then .ok (some (protoCommands .quit)) else .ok none
  else if name.len = 5 then
    let bytes ← readSlice b name.data 5
    if bytes = text ['t', 'o', 'u', 'c', 'h'] then .ok (some (protoCommands .touch)) else .ok none
  else if name.len = 6 then
    let bytes ← readSlice b name.data 6
    if bytes = text ['d', 'e', 'l', 'e', 't', 'e'] then .ok (some (protoCommands .delete))
    else .ok none
  else if name.len = 7 then
    let bytes ← readSlice b name.data 7
    if bytes = text ['v', 'e', 'r', 's', 'i', 'o', 'n'] then .ok (some (protoCommands .version))
    else .ok none
  else .ok none

def protoParseNoreply (b : List UInt8) (spec : CommandSpec) (tokens : List Token)
    (cmd : Command) : Parse Command :=
  if tokens.length = spec.tokenCount then .ok cmd
  else if spec.allowsNoreply = false ∨ tokens.length ≠ spec.tokenCount + 1 then
    .error .invalidArguments
  else do
    let last ← readAt tokens (tokens.length - 1)
    if last.len ≠ 7 then .error .invalidArguments
    else
      let bytes ← readSlice b last.data 7
      if bytes ≠ text ['n', 'o', 'r', 'e', 'p', 'l', 'y'] then .error .invalidArguments
      else .ok { cmd with noreply := true }

/-- The loop of `proto_parse_key`, where `n` bytes of the token remain. -/
def protoCheckKey (b : List UInt8) : ℕ → ℕ → Parse Unit
  | 0, _ => .ok ()
  | n + 1, pos => do
      let ch ← readAt b pos
      if ch ≤ 0x20 ∨ ch = 0x7f then .error .invalidArguments else protoCheckKey b n (pos + 1)

def protoParseKey (b : List UInt8) (token : Token) (cmd : Command) : Parse Command :=
  if token.len = 0 then .error .invalidArguments
  else if token.len > protoMaxKeyLength then .error .keyTooLong
  else do
    protoCheckKey b token.len token.data
    .ok { cmd with
      key := some token.data
      keyLen := token.len
      keysEnd := some (token.data + token.len) }

def protoParseExptime (b : List UInt8) (token : Token) (cmd : Command) : Parse Command := do
  match ← protoParseUint b token uint32Max with
  | none => .error .invalidExptime
  | some value => .ok { cmd with exptime := UInt32.ofNat value }

def protoParseSetFields (b : List UInt8) (tokens : List Token) (cmd : Command) :
    Parse Command := do
  match ← protoParseUint b (← readAt tokens 2) uint32Max with
  | none => .error .invalidFlags
  | some value =>
      let cmd ← protoParseExptime b (← readAt tokens 3) { cmd with flags := UInt32.ofNat value }
      match ← protoParseUint b (← readAt tokens 4) sizeMax with
      | none => .error .invalidValueLength
      | some value => .ok { cmd with valueLen := value }

/-- The loop of `proto_parse_get_keys`; positions are offsets in the buffer. -/
def protoParseGetKeysFrom (b : List UInt8) (stop : ℕ) : ℕ → ℕ → Command → Parse Command
  | 0, _, _ => .fault
  | fuel + 1, pos, cmd =>
      if pos < stop then do
        let start ← advanceWhile protoIsSeparator b (stop - pos) pos
        if start = stop then .ok cmd
        else
          let pos ← advanceWhile (fun ch => !protoIsSeparator ch) b (stop - start) start
          let current ← protoParseKey b ⟨start, pos - start⟩ {}
          protoParseGetKeysFrom b stop fuel pos
            (if cmd.key = none then { cmd with key := current.key, keyLen := current.keyLen }
            else cmd)
      else .ok cmd

def protoParseGetKeys (b : List UInt8) (pos len : ℕ) (cmd : Command) : Parse Command := do
  let cmd ← protoParseGetKeysFrom b (pos + len) (len + 1) pos cmd
  if cmd.key = none then .error .invalidArguments
  else .ok { cmd with type := .get, keysEnd := some (pos + len) }

/-- The condition under which `proto_parse_header` bypasses the token array. -/
def protoIsGet (b : List UInt8) (len start : ℕ) : Parse Bool :=
  if len - start < 3 then .ok false
  else do
    let bytes ← readSlice b start 3
    if bytes ≠ text ['g', 'e', 't'] then .ok false
    else if len - start = 3 then .ok true
    else
      let ch ← readAt b (start + 3)
      .ok (protoIsSeparator ch)

/-- `proto_parse_header` once the line is split into tokens. -/
def protoParseTokens (b : List UInt8) (tokens : List Token) (cmd : Command) : Parse Command :=
  if tokens.length = 0 then .error .invalidCommand
  else do
    match ← protoFindCommand b (← readAt tokens 0) with
    | none => .error .invalidCommand
    | some spec =>
        let cmd ← protoParseNoreply b spec tokens { cmd with type := spec.type }
        if cmd.type = .version ∨ cmd.type = .quit then .ok cmd
        else
          let cmd ← protoParseKey b (← readAt tokens 1) cmd
          match cmd.type with
          | .set => protoParseSetFields b tokens cmd
          | .touch => protoParseExptime b (← readAt tokens 2) cmd
          | _ => .ok cmd

def protoParseHeader (b : List UInt8) (len : ℕ) (cmd : Command) : Parse Command := do
  let start ← advanceWhile protoIsSeparator b len 0
  if ← protoIsGet b len start then protoParseGetKeys b (start + 3) (len - start - 3) cmd
  else
    let tokens ← protoTokenize b len protoMaxTokens
    protoParseTokens b tokens cmd

def protoParseBody (b : List UInt8) (cmd : Command) (offset : ℕ) : Parse (Command × ℕ) :=
  if sizeMax - offset < 2 ∨ cmd.valueLen > sizeMax - offset - 2 then .error .invalidValueLength
  else
    let remaining := b.length - offset
    if remaining < cmd.valueLen then .error .incomplete
    else
      let valueEnd := offset + cmd.valueLen
      let trailing := remaining - cmd.valueLen
      if trailing = 0 then .error .incomplete
      else do
        let ch ← readAt b valueEnd
        if ch ≠ cr then .error .invalidDataBlock
        else if trailing = 1 then .error .incomplete
        else
          let next ← readAt b (valueEnd + 1)
          if next ≠ lf then .error .invalidDataBlock
          else .ok ({ cmd with value := some offset }, valueEnd + 2)

/-- `protocol_parse_command` up to the stores through its output pointers. -/
def parseFrame (b : List UInt8) : Parse (Command × ℕ) := do
  let lineLen ← protoFindLine b
  let parsed ← protoParseHeader b lineLen {}
  if parsed.type = .set then protoParseBody b parsed (lineLen + 2)
  else .ok (parsed, lineLen + 2)

/-- The code, the command and the count after the call. `none`: a read was out of bounds. -/
def protocolParseCommand (b : List UInt8) (cmd : Command) : Option (ProtoCode × Command × ℕ) :=
  match parseFrame b with
  | .ok (parsed, consumed) => some (.ok, parsed, consumed)
  | .error err => some (.err err, cmd, 0)
  | .fault => none

end Kvx.Protocol
