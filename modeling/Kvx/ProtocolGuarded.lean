import Kvx.Protocol

/-!
# The parser with its arithmetic checked

The same functions once more, closer to their words. Every sum, product and difference of
two sizes is a fault if it does not fit a `size_t`, and so is every access of the token
array that is not to one of its six places, or reads a place that was not written.
-/
namespace Kvx.Protocol.Guarded

open Kvx.Lib

def add (m n : ℕ) : Parse ℕ := if m + n ≤ sizeMax then .ok (m + n) else .fault

def mul (m n : ℕ) : Parse ℕ := if m * n ≤ sizeMax then .ok (m * n) else .fault

def sub (m n : ℕ) : Parse ℕ := if n ≤ m then .ok (m - n) else .fault

/-- `proto_token_t tokens[PROTO_MAX_TOKENS]`; `none` is a place not written in this call. -/
def noTokens : List (Option Token) := List.replicate protoMaxTokens none

def readToken (tokens : List (Option Token)) (i : ℕ) : Parse Token :=
  if i < protoMaxTokens then
    match tokens[i]? with
    | some (some token) => .ok token
    | _ => .fault
  else .fault

def writeToken (tokens : List (Option Token)) (i : ℕ) (token : Token) :
    Parse (List (Option Token)) :=
  if i < protoMaxTokens then .ok (tokens.set i (some token)) else .fault

/-- `while (pos < len && accept(b[base + pos])) pos++`. -/
def advanceWhile (accept : UInt8 → Bool) (b : List UInt8) (base len : ℕ) : ℕ → ℕ → Parse ℕ
  | 0, _ => .fault
  | fuel + 1, pos =>
      if pos < len then do
        let ch ← readAt b (base + pos)
        if accept ch then do
          let pos ← add pos 1
          advanceWhile accept b base len fuel pos
        else .ok pos
      else .ok pos

def protoFindLineFrom (b : List UInt8) (len : ℕ) : ℕ → ℕ → Parse ℕ
  | 0, _ => .fault
  | fuel + 1, i =>
      if i < len then do
        let ch ← readAt b i
        if ch = lf then .error .expectedCrlf
        else if ch ≠ cr then do
          let i ← add i 1
          protoFindLineFrom b len fuel i
        else do
          let left ← sub len i
          if left < 2 then .error .incomplete
          else do
            let second ← add i 1
            let next ← readAt b second
            if next ≠ lf then .error .expectedCrlf else .ok i
      else .error .incomplete

def protoFindLine (b : List UInt8) (len : ℕ) : Parse ℕ := protoFindLineFrom b len (len + 1) 0

def protoTokenizeFrom (line : List UInt8) (len capacity : ℕ) :
    ℕ → ℕ → ℕ → List (Option Token) → Parse (List (Option Token) × ℕ)
  | 0, _, _, _ => .fault
  | fuel + 1, pos, count, tokens =>
      if pos < len then do
        let start ← advanceWhile protoIsSeparator line 0 len (len + 1) pos
        if start = len then .ok (tokens, count)
        else if count = capacity then .error .invalidArguments
        else do
          let pos ← advanceWhile (fun ch => !protoIsSeparator ch) line 0 len (len + 1) start
          let tokenLen ← sub pos start
          let tokens ← writeToken tokens count ⟨start, tokenLen⟩
          let count ← add count 1
          protoTokenizeFrom line len capacity fuel pos count tokens
      else .ok (tokens, count)

def protoTokenize (line : List UInt8) (len : ℕ) (tokens : List (Option Token)) (capacity : ℕ) :
    Parse (List (Option Token) × ℕ) := protoTokenizeFrom line len capacity (len + 1) 0 0 tokens

def protoParseUintFrom (b : List UInt8) (token : Token) (limit : ℕ) :
    ℕ → ℕ → ℕ → Parse (Option ℕ)
  | 0, _, _ => .fault
  | fuel + 1, i, value =>
      if i < token.len then do
        let ch ← readAt b (token.data + i)
        if ch < 48 ∨ ch > 57 then .ok none
        else do
          let digit ← sub ch.toNat 48
          if value > limit / 10 ∨ (value = limit / 10 ∧ digit > limit % 10) then .ok none
          else do
            let shifted ← mul value 10
            let value ← add shifted digit
            let i ← add i 1
            protoParseUintFrom b token limit fuel i value
      else .ok (some value)

def protoParseUint (b : List UInt8) (token : Token) (limit : ℕ) : Parse (Option ℕ) :=
  if token.len = 0 then .ok none else protoParseUintFrom b token limit (token.len + 1) 0 0

def protoParseNoreply (b : List UInt8) (spec : CommandSpec) (tokens : List (Option Token))
    (count : ℕ) (cmd : Command) : Parse Command :=
  if count = spec.tokenCount then .ok cmd
  else if spec.allowsNoreply = false then .error .invalidArguments
  else do
    let full ← add spec.tokenCount 1
    if count ≠ full then .error .invalidArguments
    else do
      let i ← sub count 1
      let last ← readToken tokens i
      if last.len ≠ 7 then .error .invalidArguments
      else do
        let bytes ← readSlice b last.data 7
        if bytes ≠ text ['n', 'o', 'r', 'e', 'p', 'l', 'y'] then .error .invalidArguments
        else .ok { cmd with noreply := true }

def protoCheckKey (b : List UInt8) (token : Token) : ℕ → ℕ → Parse Unit
  | 0, _ => .fault
  | fuel + 1, i =>
      if i < token.len then do
        let ch ← readAt b (token.data + i)
        if ch ≤ 0x20 ∨ ch = 0x7f then .error .invalidArguments
        else do
          let i ← add i 1
          protoCheckKey b token fuel i
      else .ok ()

def protoParseKey (b : List UInt8) (token : Token) (cmd : Command) : Parse Command :=
  if token.len = 0 then .error .invalidArguments
  else if token.len > protoMaxKeyLength then .error .keyTooLong
  else do
    protoCheckKey b token (token.len + 1) 0
    .ok { cmd with
      key := some token.data
      keyLen := token.len
      keysEnd := some (token.data + token.len) }

def protoParseExptime (b : List UInt8) (token : Token) (cmd : Command) : Parse Command := do
  match ← protoParseUint b token uint32Max with
  | none => .error .invalidExptime
  | some value => .ok { cmd with exptime := UInt32.ofNat value }

def protoParseSetFields (b : List UInt8) (tokens : List (Option Token)) (cmd : Command) :
    Parse Command := do
  match ← protoParseUint b (← readToken tokens 2) uint32Max with
  | none => .error .invalidFlags
  | some value =>
      let cmd ← protoParseExptime b (← readToken tokens 3) { cmd with flags := UInt32.ofNat value }
      match ← protoParseUint b (← readToken tokens 4) sizeMax with
      | none => .error .invalidValueLength
      | some value => .ok { cmd with valueLen := value }

/-- The loop of `proto_parse_get_keys` on the `len` bytes from `base` on. -/
def protoParseGetKeysFrom (b : List UInt8) (base len : ℕ) : ℕ → ℕ → Command → Parse Command
  | 0, _, _ => .fault
  | fuel + 1, pos, cmd =>
      if pos < len then do
        let start ← advanceWhile protoIsSeparator b base len (len + 1) pos
        if start = len then .ok cmd
        else do
          let pos ← advanceWhile (fun ch => !protoIsSeparator ch) b base len (len + 1) start
          let tokenLen ← sub pos start
          let current ← protoParseKey b ⟨base + start, tokenLen⟩ {}
          protoParseGetKeysFrom b base len fuel pos
            (if cmd.key = none then { cmd with key := current.key, keyLen := current.keyLen }
            else cmd)
      else .ok cmd

def protoParseGetKeys (b : List UInt8) (base len : ℕ) (cmd : Command) : Parse Command := do
  let cmd ← protoParseGetKeysFrom b base len (len + 1) 0 cmd
  if cmd.key = none then .error .invalidArguments
  else .ok { cmd with type := .get, keysEnd := some (base + len) }

def protoIsGet (b : List UInt8) (len start : ℕ) : Parse Bool := do
  let left ← sub len start
  if left < 3 then .ok false
  else do
    let bytes ← readSlice b start 3
    if bytes ≠ text ['g', 'e', 't'] then .ok false
    else if left = 3 then .ok true
    else do
      let fourth ← add start 3
      let ch ← readAt b fourth
      .ok (protoIsSeparator ch)

def protoParseTokens (b : List UInt8) (tokens : List (Option Token)) (count : ℕ)
    (cmd : Command) : Parse Command :=
  if count = 0 then .error .invalidCommand
  else do
    match ← protoFindCommand b (← readToken tokens 0) with
    | none => .error .invalidCommand
    | some spec =>
        let cmd ← protoParseNoreply b spec tokens count { cmd with type := spec.type }
        if cmd.type = .version ∨ cmd.type = .quit then .ok cmd
        else do
          let cmd ← protoParseKey b (← readToken tokens 1) cmd
          match cmd.type with
          | .set => protoParseSetFields b tokens cmd
          | .touch => protoParseExptime b (← readToken tokens 2) cmd
          | _ => .ok cmd

def protoParseHeader (line : List UInt8) (len : ℕ) (cmd : Command) : Parse Command := do
  let start ← advanceWhile protoIsSeparator line 0 len (len + 1) 0
  if ← protoIsGet line len start then do
    let left ← sub len start
    let keysLen ← sub left 3
    let base ← add start 3
    protoParseGetKeys line base keysLen cmd
  else do
    let (tokens, count) ← protoTokenize line len noTokens protoMaxTokens
    protoParseTokens line tokens count cmd

def protoParseBody (b : List UInt8) (len : ℕ) (cmd : Command) (offset : ℕ) :
    Parse (Command × ℕ) := do
  let room ← sub sizeMax offset
  if room < 2 then .error .invalidValueLength
  else do
    let valueRoom ← sub room 2
    if cmd.valueLen > valueRoom then .error .invalidValueLength
    else do
      let remaining ← sub len offset
      if remaining < cmd.valueLen then .error .incomplete
      else do
        let valueEnd ← add offset cmd.valueLen
        let trailing ← sub remaining cmd.valueLen
        if trailing = 0 then .error .incomplete
        else do
          let ch ← readAt b valueEnd
          if ch ≠ cr then .error .invalidDataBlock
          else if trailing = 1 then .error .incomplete
          else do
            let second ← add valueEnd 1
            let next ← readAt b second
            if next ≠ lf then .error .invalidDataBlock
            else do
              let consumed ← add valueEnd 2
              .ok ({ cmd with value := some offset }, consumed)

def parseFrame (b : List UInt8) : Parse (Command × ℕ) := do
  let lineLen ← protoFindLine b b.length
  let parsed ← protoParseHeader b lineLen {}
  let consumed ← add lineLen 2
  if parsed.type = .set then protoParseBody b b.length parsed consumed
  else .ok (parsed, consumed)

/-- The code, the command and the count after the call. `none`: an access or a result was out of
bounds. -/
def protocolParseCommand (b : List UInt8) (cmd : Command) : Option (ProtoCode × Command × ℕ) :=
  match parseFrame b with
  | .ok (parsed, consumed) => some (.ok, parsed, consumed)
  | .error err => some (.err err, cmd, 0)
  | .fault => none

end Kvx.Protocol.Guarded
