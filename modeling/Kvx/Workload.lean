import Kvx.Lib.CountLoop
import Kvx.Lib.SplitMix
import Kvx.ProtocolBench

/-!
# The workloads of the parser's benchmark

A stream of random commands is written into a buffer, with what the parser must report for each of
them. The checks parse the stream and compare. A write behind the end of the buffer, and a read
outside of it, have the result `none`.
-/
namespace Kvx.ProtocolBench

open Kvx.Lib Kvx.Protocol Kvx.Net

/-- `writer_t`: what was written, and how much its buffer holds. -/
structure Writer where
  written : List UInt8
  cap : ℕ
  fits : written.length ≤ cap

def Writer.pos (w : Writer) : ℕ := w.written.length

def Writer.empty (cap : ℕ) : Writer := ⟨[], cap, Nat.zero_le cap⟩

def Writer.putBytes (w : Writer) (src : List UInt8) : Option Writer :=
  if h : (w.written ++ src).length ≤ w.cap then some ⟨w.written ++ src, w.cap, h⟩ else none

def Writer.putChar (w : Writer) (c : UInt8) : Option Writer := w.putBytes [c]

/-- The digits of `put_u64`, the lowest first, in an array with room for `room` of them. -/
def collectDigits : (room v : ℕ) → Option (List UInt8)
  | 0, _ => none
  | room + 1, v =>
      let digit := UInt8.ofNat (48 + v % 10)
      if v / 10 = 0 then some [digit]
      else (collectDigits room (v / 10)).map fun digits => digit :: digits

def Writer.putU64 (w : Writer) (v : ℕ) : Option Writer := do
  let digits ← collectDigits 20 v
  digits.reverse.foldlM putChar w

def keyAlphabet : List UInt8 := text ['a', 'b', 'c', 'd', 'e', 'f', 'g', 'h', 'i', 'j', 'k', 'l',
  'm', 'n', 'o', 'p', 'q', 'r', 's', 't', 'u', 'v', 'w', 'x', 'y', 'z', 'A', 'B', 'C', 'D', 'E',
  'F', 'G', 'H', 'I', 'J', 'K', 'L', 'M', 'N', 'O', 'P', 'Q', 'R', 'S', 'T', 'U', 'V', 'W', 'X',
  'Y', 'Z', '0', '1', '2', '3', '4', '5', '6', '7', '8', '9', '_', ':']

def fillKey : ℕ → BitVec 64 → Option (BitVec 64 × List UInt8)
  | 0, state => some (state, [])
  | len + 1, state => do
      let (state, r) := splitmix64 state
      let ch ← keyAlphabet[(r &&& 63#64).toNat]?
      let (state, key) ← fillKey len state
      some (state, ch :: key)

/-- Random bytes, with a line end in their middle. -/
def fillValue (len : ℕ) (state : BitVec 64) : BitVec 64 × List UInt8 :=
  let (state, bytes) := drawBytes len state
  (state, if len ≥ 4 then (bytes.set (len / 2) cr).set (len / 2 + 1) lf else bytes)

inductive OpKind
  | get
  | set
  | delete
  | touch
  deriving DecidableEq, Repr

/-- `workload_t`, without its name. -/
structure Workload where
  kind : OpKind
  setPct : ℕ
  keyLen : ℕ
  valueLen : ℕ
  noreply : Bool
  deriving DecidableEq, Repr

/-- `expect_t`; its default is what `memset` leaves. -/
structure Expect where
  type : CommandType := .get
  start : ℕ := 0
  len : ℕ := 0
  keyOff : ℕ := 0
  keyLen : ℕ := 0
  valueOff : ℕ := 0
  valueLen : ℕ := 0
  flags : UInt32 := 0
  exptime : UInt32 := 0
  noreply : Bool := false
  deriving DecidableEq, Repr

/-- What the `emit` functions work on: the writer, the expectation and the generator. -/
structure Emit where
  w : Writer
  e : Expect
  state : BitVec 64

def Emit.put (s : Emit) (src : List UInt8) : Option Emit :=
  (s.w.putBytes src).map fun w => { s with w := w }

def Emit.putU64 (s : Emit) (v : ℕ) : Option Emit :=
  (s.w.putU64 v).map fun w => { s with w := w }

def emitKey (keyLen : ℕ) (s : Emit) : Option Emit := do
  let e := { s.e with keyOff := s.w.pos, keyLen := keyLen }
  let (state, key) ← fillKey keyLen s.state
  Emit.put ⟨s.w, e, state⟩ key

def emitNoreply (noreply : Bool) (s : Emit) : Option Emit :=
  let s := { s with e := { s.e with noreply := noreply } }
  if noreply then s.put (text [' ', 'n', 'o', 'r', 'e', 'p', 'l', 'y']) else some s

def emitGet (wl : Workload) (s : Emit) : Option Emit := do
  let s ← Emit.put { s with e := { s.e with type := .get } } (text ['g', 'e', 't', ' '])
  let s ← emitKey wl.keyLen s
  s.put (text ['\r', '\n'])

def emitSet (wl : Workload) (s : Emit) : Option Emit := do
  let (state, r) := splitmix64 s.state
  let flags := UInt32.ofNat (r &&& 0xFFFF#64).toNat
  let (state, r) := splitmix64 state
  let exptime := UInt32.ofNat (r.toNat % 86400)
  let e := { s.e with type := .set, flags := flags, exptime := exptime, valueLen := wl.valueLen }
  let s ← Emit.put ⟨s.w, e, state⟩ (text ['s', 'e', 't', ' '])
  let s ← emitKey wl.keyLen s
  let s ← s.put (text [' '])
  let s ← s.putU64 s.e.flags.toNat
  let s ← s.put (text [' '])
  let s ← s.putU64 s.e.exptime.toNat
  let s ← s.put (text [' '])
  let s ← s.putU64 s.e.valueLen
  let s ← emitNoreply wl.noreply s
  let s ← s.put (text ['\r', '\n'])
  let (state, value) := fillValue s.e.valueLen s.state
  let s ← Emit.put ⟨s.w, { s.e with valueOff := s.w.pos }, state⟩ value
  s.put (text ['\r', '\n'])

def emitDelete (wl : Workload) (s : Emit) : Option Emit := do
  let s ← Emit.put { s with e := { s.e with type := .delete } }
    (text ['d', 'e', 'l', 'e', 't', 'e', ' '])
  let s ← emitKey wl.keyLen s
  let s ← emitNoreply wl.noreply s
  s.put (text ['\r', '\n'])

def emitTouch (wl : Workload) (s : Emit) : Option Emit := do
  let (state, r) := splitmix64 s.state
  let exptime := UInt32.ofNat (r.toNat % 86400)
  let s ← Emit.put ⟨s.w, { s.e with type := .touch, exptime := exptime }, state⟩
    (text ['t', 'o', 'u', 'c', 'h', ' '])
  let s ← emitKey wl.keyLen s
  let s ← s.put (text [' '])
  let s ← s.putU64 s.e.exptime.toNat
  let s ← emitNoreply wl.noreply s
  s.put (text ['\r', '\n'])

def pickKind (wl : Workload) (state : BitVec 64) : BitVec 64 × OpKind :=
  if wl.setPct = 0 then (state, wl.kind)
  else
    let (state, r) := splitmix64 state
    if r.toNat % 100 < wl.setPct then (state, .set) else (state, .get)

def emitOne (wl : Workload) (s : Emit) : Option Emit :=
  let (state, kind) := pickKind wl s.state
  let s := { s with state := state }
  match kind with
  | .get => emitGet wl s
  | .set => emitSet wl s
  | .delete => emitDelete wl s
  | .touch => emitTouch wl s

structure Stream where
  data : List UInt8
  count : ℕ
  expect : List Expect

/-- `STREAM_BUDGET` -/
def streamBudget : ℕ := 256 * 2 ^ 20

def cmdMaxLen (wl : Workload) : ℕ := (96 + wl.keyLen + wl.valueLen) % 2 ^ 64

/-- A round of `build_stream`. -/
def buildRound (wl : Workload) (s : Writer × List Expect × BitVec 64) :
    Option (Writer × List Expect × BitVec 64) := do
  let (w, expect, state) := s
  let s ← emitOne wl ⟨w, { start := w.pos }, state⟩
  some (s.w, expect ++ [{ s.e with len := s.w.pos - s.e.start }], s.state)

def buildStream (wl : Workload) (wanted : ℕ) (seed : BitVec 64) : Option Stream := do
  let perCmd := cmdMaxLen wl
  guard (perCmd ≠ 0)
  let count := min wanted (streamBudget / perCmd)
  let (w, expect, _) ←
    countTo count (fun _ => buildRound wl) (Writer.empty (count * perCmd), [], seed)
  some ⟨w.written, count, expect⟩

-- The slices of a command are named by their offsets from `pos`, where the command starts. The
-- parser does not write into its buffer, so that the stream is the pristine one.
def checkKey (s : Stream) (pos : ℕ) (e : Expect) (cmd : Command) : Option Bool :=
  if cmd.keyLen ≠ e.keyLen then some false
  else do
    let key ← cmd.key
    let got ← loadBytes s.data (pos + key) e.keyLen
    let want ← loadBytes s.data e.keyOff e.keyLen
    some (got = want)

def checkValue (s : Stream) (pos : ℕ) (e : Expect) (cmd : Command) : Option Bool :=
  if cmd.valueLen ≠ e.valueLen then some false
  else do
    let value ← cmd.value
    let got ← loadBytes s.data (pos + value) e.valueLen
    let want ← loadBytes s.data e.valueOff e.valueLen
    some (got = want)

def checkSet (s : Stream) (pos : ℕ) (e : Expect) (cmd : Command) : Option Bool := do
  if ¬ (← checkValue s pos e cmd) then some false
  else if cmd.flags ≠ e.flags then some false
  else if cmd.exptime ≠ e.exptime then some false
  else some (cmd.noreply = e.noreply)

def checkTouch (e : Expect) (cmd : Command) : Bool :=
  if cmd.exptime ≠ e.exptime then false else cmd.noreply = e.noreply

def checkFields (s : Stream) (pos : ℕ) (e : Expect) (cmd : Command) : Option Bool := do
  if cmd.type ≠ e.type then some false
  else if ¬ (← checkKey s pos e cmd) then some false
  else
    match e.type with
    | .set => checkSet s pos e cmd
    | .touch => some (checkTouch e cmd)
    | .delete => some (cmd.noreply = e.noreply)
    | _ => some true

/-- The loop of `verify_stream`, with the expectations that are left. -/
def verifyFrom (s : Stream) : List Expect → ℕ → Option Bool
  | [], _ => some true
  | e :: rest, pos => do
      let (code, cmd, consumed) ←
        protocolParseCommand (← loadBytes s.data pos (s.data.length - pos)) {}
      if code ≠ .ok then some false
      else if consumed ≠ e.len then some false
      else if ¬ (← checkFields s pos e cmd) then some false
      else verifyFrom s rest (pos + consumed)

def verifyStream (s : Stream) : Option Bool := verifyFrom s s.expect 0

/-- The loop of `check_prefixes` from `cut` on. -/
def prefixesFrom (buf : List UInt8) : ℕ → ℕ → Option Bool
  | 0, _ => some true
  | left + 1, cut => do
      let (code, _, _) ← protocolParseCommand (buf.take cut) {}
      if code ≠ .err .incomplete then some false else prefixesFrom buf left (cut + 1)

def checkPrefixes (s : Stream) : Option Bool := do
  let e ← s.expect[0]?
  let buf ← loadBytes s.data e.start e.len
  prefixesFrom buf e.len 0

end Kvx.ProtocolBench
