import Kvx.ProtocolStable

/-!
# What more input can change

The header parser does not ask for more bytes: a line that it gets is complete. The body
parser asks for more only while what it has begins a data block of the declared length.
-/
namespace Kvx.Protocol

open Kvx.Lib

abbrev Decides {α : Type} (x : Parse α) : Prop := x.Avoids .incomplete

variable {b : List UInt8}

theorem advanceWhile_decides (accept : UInt8 → Bool) (b : List UInt8) (n pos : ℕ) :
    Decides (advanceWhile accept b n pos) := by
  induction n generalizing pos with
  | zero => exact .ok pos
  | succ n ih =>
    unfold advanceWhile
    exact .bind (readAt_avoids b pos) fun ch => .ite (ih (pos + 1)) (.ok pos)

theorem protoTokenizeFrom_decides (b : List UInt8) (len capacity fuel pos : ℕ)
    (tokens : List Token) : Decides (protoTokenizeFrom b len capacity fuel pos tokens) := by
  induction fuel generalizing pos tokens with
  | zero => exact .fault
  | succ fuel ih =>
    unfold protoTokenizeFrom
    refine .ite (.bind (advanceWhile_decides _ b _ _) fun start => ?_) (.ok tokens)
    refine .ite (.ok tokens) (.ite (.error (by simp)) ?_)
    exact .bind (advanceWhile_decides _ b _ _) fun stop => ih stop _

theorem protoParseUintFrom_decides (b : List UInt8) (limit n pos value : ℕ) :
    Decides (protoParseUintFrom b limit n pos value) := by
  induction n generalizing pos value with
  | zero => exact .ok _
  | succ n ih =>
    unfold protoParseUintFrom
    exact .bind (readAt_avoids b pos) fun ch => .ite (.ok none) (.ite (.ok none) (ih _ _))

theorem protoParseUint_decides (b : List UInt8) (token : Token) (limit : ℕ) :
    Decides (protoParseUint b token limit) := by
  unfold protoParseUint
  exact .ite (.ok none) (protoParseUintFrom_decides b limit _ _ _)

theorem protoFindCommand_decides (b : List UInt8) (name : Token) :
    Decides (protoFindCommand b name) := by
  unfold protoFindCommand
  refine .ite (.bind (readSlice_avoids b _ _) fun bytes => .ite (.ok _) (.ite (.ok _) (.ok _))) ?_
  refine .ite (.bind (readSlice_avoids b _ _) fun bytes => .ite (.ok _) (.ok _)) ?_
  refine .ite (.bind (readSlice_avoids b _ _) fun bytes => .ite (.ok _) (.ok _)) ?_
  refine .ite (.bind (readSlice_avoids b _ _) fun bytes => .ite (.ok _) (.ok _)) ?_
  exact .ite (.bind (readSlice_avoids b _ _) fun bytes => .ite (.ok _) (.ok _)) (.ok none)

theorem protoParseNoreply_decides (b : List UInt8) (spec : CommandSpec) (tokens : List Token)
    (cmd : Command) : Decides (protoParseNoreply b spec tokens cmd) := by
  unfold protoParseNoreply
  refine .ite (.ok cmd) (.ite (.error (by simp)) (.bind (readAt_avoids tokens _) fun last => ?_))
  refine .ite (.error (by simp)) (.bind (readSlice_avoids b _ _) fun bytes => ?_)
  exact .ite (.error (by simp)) (.ok _)

theorem protoCheckKey_decides (b : List UInt8) (n pos : ℕ) : Decides (protoCheckKey b n pos) := by
  induction n generalizing pos with
  | zero => exact .ok ()
  | succ n ih =>
    unfold protoCheckKey
    exact .bind (readAt_avoids b pos) fun ch => .ite (.error (by simp)) (ih (pos + 1))

theorem protoParseKey_decides (b : List UInt8) (token : Token) (cmd : Command) :
    Decides (protoParseKey b token cmd) := by
  unfold protoParseKey
  refine .ite (.error (by simp)) (.ite (.error (by simp)) ?_)
  exact .bind (protoCheckKey_decides b _ _) fun _ => .ok _

theorem protoParseExptime_decides (b : List UInt8) (token : Token) (cmd : Command) :
    Decides (protoParseExptime b token cmd) := by
  unfold protoParseExptime
  refine .bind (protoParseUint_decides b token _) fun value => ?_
  cases value with
  | none => exact .error (by simp)
  | some value => exact .ok _

theorem protoParseSetFields_decides (b : List UInt8) (tokens : List Token) (cmd : Command) :
    Decides (protoParseSetFields b tokens cmd) := by
  unfold protoParseSetFields
  refine .bind (readAt_avoids tokens 2) fun f => .bind (protoParseUint_decides b f _) fun flags => ?_
  cases flags with
  | none => exact .error (by simp)
  | some flags =>
    refine .bind (readAt_avoids tokens 3) fun x => ?_
    refine .bind (protoParseExptime_decides b x _) fun cmd => ?_
    refine .bind (readAt_avoids tokens 4) fun n => .bind (protoParseUint_decides b n _) fun len => ?_
    cases len with
    | none => exact .error (by simp)
    | some len => exact .ok _

theorem protoParseGetKeysFrom_decides (b : List UInt8) (stop fuel pos : ℕ) (cmd : Command) :
    Decides (protoParseGetKeysFrom b stop fuel pos cmd) := by
  induction fuel generalizing pos cmd with
  | zero => exact .fault
  | succ fuel ih =>
    unfold protoParseGetKeysFrom
    refine .ite (.bind (advanceWhile_decides _ b _ _) fun start => ?_) (.ok cmd)
    refine .ite (.ok cmd) (.bind (advanceWhile_decides _ b _ _) fun pos => ?_)
    exact .bind (protoParseKey_decides b _ _) fun current => ih pos _

theorem protoParseGetKeys_decides (b : List UInt8) (pos len : ℕ) (cmd : Command) :
    Decides (protoParseGetKeys b pos len cmd) := by
  unfold protoParseGetKeys
  exact .bind (protoParseGetKeysFrom_decides b _ _ _ _) fun cmd => .ite (.error (by simp)) (.ok _)

theorem protoIsGet_decides (b : List UInt8) (len start : ℕ) : Decides (protoIsGet b len start) := by
  unfold protoIsGet
  refine .ite (.ok false) (.bind (readSlice_avoids b _ _) fun bytes => ?_)
  exact .ite (.ok false) (.ite (.ok true) (.bind (readAt_avoids b _) fun ch => .ok _))

theorem protoParseTokens_decides (b : List UInt8) (tokens : List Token) (cmd : Command) :
    Decides (protoParseTokens b tokens cmd) := by
  unfold protoParseTokens
  refine .ite (.error (by simp)) (.bind (readAt_avoids tokens 0) fun name => ?_)
  refine .bind (protoFindCommand_decides b name) fun spec => ?_
  cases spec with
  | none => exact .error (by simp)
  | some spec =>
    refine .bind (protoParseNoreply_decides b spec tokens _) fun cmd => .ite (.ok cmd) ?_
    refine .bind (readAt_avoids tokens 1) fun k => .bind (protoParseKey_decides b k cmd) fun cmd => ?_
    cases cmd.type with
    | set => exact protoParseSetFields_decides b tokens cmd
    | touch =>
      exact .bind (readAt_avoids tokens 2) fun x => protoParseExptime_decides b x cmd
    | get => exact .ok cmd
    | delete => exact .ok cmd
    | version => exact .ok cmd
    | quit => exact .ok cmd

theorem protoParseHeader_decides (b : List UInt8) (len : ℕ) (cmd : Command) :
    Decides (protoParseHeader b len cmd) := by
  unfold protoParseHeader
  refine .bind (advanceWhile_decides _ b _ _) fun start => ?_
  refine .bind (protoIsGet_decides b len start) fun isGet => ?_
  refine .ite (protoParseGetKeys_decides b _ _ cmd) ?_
  exact .bind (protoTokenizeFrom_decides b _ _ _ _ _) fun tokens =>
    protoParseTokens_decides b tokens cmd

/-- What a waiting body parser has begins a data block with a length that is a `size_t`. -/
theorem protoParseBody_completable {pre rest : List UInt8} {cmd : Command}
    (h : protoParseBody (pre ++ rest) cmd pre.length = .error .incomplete) :
    ∃ c data, rest ++ c = data ++ crlf ∧ data.length = cmd.valueLen ∧
      pre.length + data.length + 2 ≤ sizeMax := by
  cases bodyBytes pre.length cmd.valueLen rest with
  | tooLong long =>
    rw [protoParseBody_tooLong long] at h
    simp at h
  | short fits len =>
    have hfits := tooLong_iff.mp fits
    refine ⟨List.replicate (cmd.valueLen - rest.length) 0 ++ crlf,
      rest ++ List.replicate (cmd.valueLen - rest.length) 0, (List.append_assoc _ _ _).symm, ?_, ?_⟩
    all_goals
      rw [List.length_append, List.length_replicate]
      omega
  | @last data ch fits len =>
    -- The carriage return is there: only the line feed is missing.
    have hfits := tooLong_iff.mp fits
    rw [protoParseBody_last fits len] at h
    have hch : ch = cr := by
      by_contra hch
      simp [hch] at h
    refine ⟨[lf], data, ?_, len, by omega⟩
    rw [hch, List.append_assoc]
    rfl
  | more fits len =>
    rw [protoParseBody_cons fits len] at h
    split_ifs at h <;> simp at h

theorem parseFrame_completable {n : ℕ} (hline : protoFindLine b = .ok n)
    (h : parseFrame b = .error .incomplete) :
    ∃ c, (b ++ c).length ≤ sizeMax ∧ ∃ out m, parseFrame (b ++ c) = .ok (out, m) := by
  cases lineForm b with
  | unbroken line hb => simp [protoFindLine_unbroken hb] at hline
  | halfBroken line hb => simp [protoFindLine_halfBroken hb] at hline
  | bareLf line rest hb => simp [protoFindLine_bareLf hb] at hline
  | bareCr line ch rest hb hch => simp [protoFindLine_cr hb, hch] at hline
  | ended line rest hb =>
    rw [parseFrame_ended hb] at h
    cases hheader : protoParseHeader line line.length {} with
    | error err =>
      rw [hheader, error_bind] at h
      injection h with h
      exact absurd (h ▸ hheader) (protoParseHeader_decides line _ _)
    | fault => simp [hheader] at h
    | ok parsed =>
      rw [hheader, ok_bind] at h
      split_ifs at h with hset
      obtain ⟨c, data, hrest, hdata, hfits⟩ := protoParseBody_completable h
      refine ⟨c, ?_, { parsed with value := some (line ++ crlf).length },
        (line ++ crlf).length + data.length + 2, ?_⟩
      · have hblock : (data ++ crlf).length = data.length + 2 := List.length_append
        rw [List.append_assoc, hrest, List.length_append, hblock]
        exact hfits
      · rw [List.append_assoc, hrest, parseFrame_ended hb, hheader, ok_bind, if_pos hset]
        exact protoParseBody_eq_ok.mpr
          ⟨data, [], (List.append_nil _).symm, hdata, hfits, rfl, rfl⟩

/-- A buffer with a whole first line that is not accepted is asked to wait if and only if more
bytes can make it a frame. -/
theorem waits_iff_completable (b : List UInt8) (cmd : Command) {n : ℕ}
    (hline : protoFindLine b = .ok n) :
    ∃ code out m, protocolParseCommand b cmd = some (code, out, m) ∧
      (code ≠ .ok → (code = .err .incomplete ↔ ∃ c, (b ++ c).length ≤ sizeMax ∧
        ∃ out m, protocolParseCommand (b ++ c) cmd = some (.ok, out, m))) := by
  have hstable := parseFrame_stable b
  have hwaits := parseFrame_completable hline
  unfold protocolParseCommand
  cases hrun : parseFrame b with
  | fault => exact absurd hrun (parseFrame_ne_fault b)
  | ok result => exact ⟨.ok, result.1, result.2, rfl, fun hcode => absurd rfl hcode⟩
  | error err =>
    refine ⟨.err err, cmd, 0, rfl, fun _ => ⟨fun hcode => ?_, ?_⟩⟩
    · injection hcode with hcode
      obtain ⟨c, hlen, out, m, hdone⟩ := hwaits (hcode ▸ hrun)
      exact ⟨c, hlen, out, m, by rw [hdone]⟩
    · rintro ⟨c, -, out, m, hdone⟩
      by_contra hcode
      have hfinal : parseFrame (b ++ c) = .error err := by
        rw [← hrun]
        refine hstable c fun hwait => hcode ?_
        rw [hrun, Checked.error.injEq] at hwait
        rw [hwait]
      simp [hfinal] at hdone

/-- `set k 0 0 2` and one byte of its value. -/
theorem waits_iff_completable_set : ∃ c out m,
    protocolParseCommand (text ['s', 'e', 't', ' ', 'k', ' ', '0', ' ', '0', ' ', '2', '\r', '\n',
      'a'] ++ c) {} = some (.ok, out, m) := by
  have hline : protoFindLine (text ['s', 'e', 't', ' ', 'k', ' ', '0', ' ', '0', ' ', '2', '\r',
      '\n', 'a']) = .ok 11 := by decide +kernel
  have hcall : protocolParseCommand (text ['s', 'e', 't', ' ', 'k', ' ', '0', ' ', '0', ' ', '2',
      '\r', '\n', 'a']) {} = some (.err .incomplete, {}, 0) := by decide +kernel
  obtain ⟨code, out, m, hrun, hiff⟩ := waits_iff_completable _ {} hline
  rw [hcall, Option.some.injEq, Prod.mk.injEq] at hrun
  obtain ⟨rfl, -⟩ := hrun
  obtain ⟨c, -, hdone⟩ := (hiff (by simp)).mp rfl
  exact ⟨c, hdone⟩

end Kvx.Protocol
