import Kvx.ConnRecv
import Kvx.Lib.Framing
import Kvx.ProtocolGrammar

/-!
# A stream of commands

A caller of `protocol_parse_command` goes on after the bytes that a command consumed. What it
sees of a command are its fields and the bytes of its slices.
-/
namespace Kvx.Protocol

open Kvx.Lib Kvx.Net

/-- What a command says; `keys` are the bytes from its first key to `keys_end`. -/
structure Seen where
  type : CommandType
  key : Option (List UInt8)
  keys : Option (List UInt8)
  value : Option (List UInt8)
  flags : UInt32
  exptime : UInt32
  noreply : Bool
  deriving DecidableEq, Repr

/-- The bytes of a slice, which may be `NULL`. -/
def slice (b : List UInt8) (data : Option ℕ) (len : ℕ) : Option (Option (List UInt8)) :=
  match data with
  | none => some none
  | some pos => (loadBytes b pos len).map some

/-- A read outside of the buffer has the result `none`. -/
def see (b : List UInt8) (cmd : Command) : Option Seen := do
  let key ← slice b cmd.key cmd.keyLen
  let keys ← slice b cmd.key (cmd.keysEnd.getD 0 - cmd.key.getD 0)
  let value ← slice b cmd.value cmd.valueLen
  some {
    type := cmd.type
    key := key
    keys := keys
    value := value
    flags := cmd.flags
    exptime := cmd.exptime
    noreply := cmd.noreply }

/-- The loop that parses a stream in one buffer: the commands, and the error that ends it. -/
def parseStreamFrom : ℕ → List UInt8 → Option (List Seen × Option ProtoError)
  | 0, _ => none
  | fuel + 1, b => do
      let (code, cmd, consumed) ← protocolParseCommand b {}
      match code with
      | .err err => some ([], if err = .incomplete then none else some err)
      | .ok =>
          let command ← see b cmd
          let (commands, err) ← parseStreamFrom fuel (b.drop consumed)
          some (command :: commands, err)

def parseStream (b : List UInt8) : Option (List Seen × Option ProtoError) :=
  parseStreamFrom (b.length + 1) b

/-- The slices of a command lie in the first `n` bytes. -/
structure Command.Inside (cmd : Command) (n : ℕ) : Prop where
  key : ∀ k, cmd.key = some k → k + cmd.keyLen ≤ n
  keys : ∀ stop, cmd.keysEnd = some stop → stop ≤ n
  value : ∀ v, cmd.value = some v → v + cmd.valueLen ≤ n

theorem slice_some {b : List UInt8} {data : Option ℕ} {len : ℕ}
    (h : ∀ pos, data = some pos → pos + len ≤ b.length) (c : List UInt8) :
    ∃ bytes, slice b data len = some bytes ∧ slice (b ++ c) data len = some bytes := by
  cases data with
  | none => exact ⟨none, rfl, rfl⟩
  | some pos =>
    have hle := h pos rfl
    have hlong : pos + len ≤ (b ++ c).length := by
      rw [List.length_append]
      omega
    refine ⟨some ((b.drop pos).take len), ?_, ?_⟩
    · rw [slice, loadBytes_eq hle]
      rfl
    · rw [slice, loadBytes_eq hlong, List.drop_append_of_le_length (by omega),
        List.take_append_of_le_length (by rw [List.length_drop]; omega)]
      rfl

theorem see_some {b : List UInt8} {cmd : Command} (h : cmd.Inside b.length) (c : List UInt8) :
    ∃ command, see b cmd = some command ∧ see (b ++ c) cmd = some command := by
  have hspan : ∀ k, cmd.key = some k →
      k + (cmd.keysEnd.getD 0 - cmd.key.getD 0) ≤ b.length := by
    intro k hk
    have hkey := h.key k hk
    rw [hk, Option.getD_some]
    cases hend : cmd.keysEnd with
    | none => simp only [Option.getD_none]; omega
    | some stop =>
      have hkeys := h.keys stop hend
      simp only [Option.getD_some]
      omega
  obtain ⟨key, hkey, hkey'⟩ := slice_some h.key c
  obtain ⟨keys, hkeys, hkeys'⟩ := slice_some hspan c
  obtain ⟨value, hvalue, hvalue'⟩ := slice_some h.value c
  unfold see
  rw [hkey, hkeys, hvalue, hkey', hkeys', hvalue']
  exact ⟨_, rfl, rfl⟩

theorem Header.inside {line : List UInt8} {cmd : Command} (h : Header line cmd) :
    cmd.value = none ∧ cmd.Inside line.length := by
  have hw := words_all_within line
  cases h with
  | @get name k ks hws =>
    have hk := hw k (by simp [hws])
    exact ⟨rfl, by simpa using hk, by simp, by simp⟩
  | @set name k f x n more noreply hws =>
    have hk := hw k (by simp [hws])
    exact ⟨rfl, by simpa using hk, by simpa using hk, by simp⟩
  | @delete name k more noreply hws =>
    have hk := hw k (by simp [hws])
    exact ⟨rfl, by simpa using hk, by simpa using hk, by simp⟩
  | @touch name k x more noreply hws =>
    have hk := hw k (by simp [hws])
    exact ⟨rfl, by simpa using hk, by simpa using hk, by simp⟩
  | version => exact ⟨rfl, by simp, by simp, by simp⟩
  | quit => exact ⟨rfl, by simp, by simp, by simp⟩

theorem Frame.inside {b : List UInt8} {cmd : Command} {n : ℕ} (h : Frame b cmd n) :
    cmd.Inside n := by
  cases h with
  | @line line rest cmd hline hheader hset =>
    obtain ⟨hvalue, hin⟩ := hheader.inside
    refine ⟨fun k hk => ?_, fun stop hend => ?_, by simp [hvalue]⟩
    · have := hin.key k hk
      omega
    · have := hin.keys stop hend
      omega
  | @data line data rest cmd hline hheader hset hdata hfits =>
    obtain ⟨hvalue, hin⟩ := hheader.inside
    refine ⟨fun k hk => ?_, fun stop hend => ?_, fun v hv => ?_⟩
    · have hle := hin.key k hk
      simp only at hle ⊢
      omega
    · have := hin.keys stop hend
      omega
    · injection hv with hv
      simp only
      omega

def nextCommand (b : List UInt8) : Verdict (Command × Seen) ProtoError :=
  match protocolParseCommand b {} with
  | some (.ok, cmd, consumed) =>
      match see b cmd with
      | some command => .accept (cmd, command) consumed
      | none => .more
  | some (.err err, _, _) => if err = .incomplete then .more else .reject err
  | none => .more

inductive ParseResult (b : List UInt8) : Prop
  | incomplete : protocolParseCommand b {} = some (.err .incomplete, {}, 0) →
      nextCommand b = .more → ParseResult b
  | rejected {err : ProtoError} : protocolParseCommand b {} = some (.err err, {}, 0) →
      err ≠ .incomplete → nextCommand b = .reject err → ParseResult b
  | parsed {cmd : Command} {command : Seen} {n : ℕ} :
      protocolParseCommand b {} = some (.ok, cmd, n) → see b cmd = some command → 0 < n →
      n ≤ b.length → (∀ c, see (b ++ c) cmd = some command) →
      nextCommand b = .accept (cmd, command) n → ParseResult b

theorem parseResult (b : List UInt8) : ParseResult b := by
  cases hrun : parseFrame b with
  | fault => exact absurd hrun (parseFrame_ne_fault b)
  | error err =>
    have hcall : protocolParseCommand b {} = some (.err err, {}, 0) := by
      rw [protocolParseCommand, hrun]
    by_cases herr : err = .incomplete
    · subst herr
      exact .incomplete hcall (by rw [nextCommand, hcall]; rfl)
    · refine .rejected hcall herr ?_
      simp only [nextCommand, hcall, if_neg herr]
  | ok result =>
    obtain ⟨cmd, n⟩ := result
    have hcall : protocolParseCommand b {} = some (.ok, cmd, n) := by
      rw [protocolParseCommand, hrun]
    obtain ⟨hpos, hle, -⟩ := parseFrame_ok_prefix hrun
    have hin := (parseFrame_eq_ok_iff.mp hrun).inside
    have hin' : cmd.Inside b.length := ⟨fun k hk => (hin.key k hk).trans hle,
      fun stop hend => (hin.keys stop hend).trans hle, fun v hv => (hin.value v hv).trans hle⟩
    obtain ⟨command, hsee, -⟩ := see_some hin' []
    refine .parsed hcall hsee (by omega) hle (fun c => ?_) ?_
    · obtain ⟨command', hsee', hlong⟩ := see_some hin' c
      rw [hlong, ← hsee', hsee]
    · simp only [nextCommand, hcall, hsee]

/-- What the parser decided it decides on a longer buffer too. -/
theorem protocolParseCommand_append {b : List UInt8} {cmd out : Command} {code : ProtoCode}
    {n : ℕ} (h : protocolParseCommand b cmd = some (code, out, n))
    (hcode : code ≠ .err .incomplete) (c : List UInt8) :
    protocolParseCommand (b ++ c) cmd = some (code, out, n) := by
  have hdecided : parseFrame b ≠ .error .incomplete := by
    intro hmore
    rw [protocolParseCommand, hmore] at h
    injection h with h
    exact hcode (Prod.mk.inj h).1.symm
  rw [protocolParseCommand, parseFrame_stable b c hdecided]
  exact h

theorem nextCommand_append (b c : List UInt8) (h : nextCommand b ≠ .more) :
    nextCommand (b ++ c) = nextCommand b := by
  cases parseResult b with
  | incomplete hcall hnext => exact absurd hnext h
  | rejected hcall herr hnext =>
    have hlong := protocolParseCommand_append hcall (by simpa using herr) c
    rw [hnext, nextCommand, hlong]
    exact if_neg herr
  | parsed hcall hsee hpos hle hlater hnext =>
    have hlong := protocolParseCommand_append hcall (by simp) c
    rw [hnext, nextCommand, hlong]
    simp only [hlater c]

theorem nextCommand_bounds {b : List UInt8} {frame : Command × Seen} {n : ℕ}
    (h : nextCommand b = .accept frame n) : 0 < n ∧ n ≤ b.length := by
  cases parseResult b with
  | incomplete hcall hnext => simp [hnext] at h
  | rejected hcall herr hnext => simp [hnext] at h
  | parsed hcall hsee hpos hle hlater hnext =>
    rw [hnext] at h
    injection h with hframe hn
    exact hn ▸ ⟨hpos, hle⟩

def commands : Framer UInt8 (Command × Seen) ProtoError where
  next := nextCommand
  stable := nextCommand_append
  bounds := nextCommand_bounds

/-- The loop cuts its buffer until the parser is stuck. -/
theorem parseStreamFrom_spec {fuel : ℕ} {b : List UInt8} (hfuel : b.length < fuel) :
    ∃ frames t err, commands.Cut b frames t ∧ commands.Stuck t err ∧
      parseStreamFrom fuel b = some (frames.map Prod.snd, err) := by
  induction fuel generalizing b with
  | zero => omega
  | succ fuel ih =>
    unfold parseStreamFrom
    cases parseResult b with
    | incomplete hcall hnext =>
      rw [hcall]
      exact ⟨[], b, none, .nil b, .more hnext, rfl⟩
    | @rejected err hcall herr hnext =>
      rw [hcall]
      refine ⟨[], b, some err, .nil b, .reject hnext, ?_⟩
      exact congrArg (fun e => some ([], e)) (if_neg herr)
    | @parsed cmd command n hcall hsee hpos hle hlater hnext =>
      have hrest : (b.drop n).length < fuel := by
        rw [List.length_drop]
        omega
      obtain ⟨frames, t, err, hcut, hstuck, hrun⟩ := ih hrest
      refine ⟨(cmd, command) :: frames, t, err, .cons hnext hcut, hstuck, ?_⟩
      simp only [hcall, hsee, hrun, Option.bind_eq_bind, Option.bind_some, List.map_cons]

end Kvx.Protocol
