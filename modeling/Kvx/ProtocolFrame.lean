import Kvx.ProtocolLine

/-!
# The header in a longer buffer

`proto_parse_header` reads its line only, so what follows the line in the buffer does not
matter to it.
-/
namespace Kvx.Protocol

open Kvx.Lib

variable {b r : List UInt8}

theorem advanceWhile_agrees (accept : UInt8 → Bool) (b r : List UInt8) (n pos : ℕ) :
    (advanceWhile accept b n pos).Agrees (advanceWhile accept (b ++ r) n pos) := by
  induction n generalizing pos with
  | zero => exact .refl _
  | succ n ih =>
    unfold advanceWhile
    exact .bind (readAt_agrees b r pos) fun ch => .ite (ih (pos + 1)) (.refl _)

theorem protoTokenizeFrom_agrees (b r : List UInt8) (len capacity fuel pos : ℕ)
    (tokens : List Token) :
    (protoTokenizeFrom b len capacity fuel pos tokens).Agrees
      (protoTokenizeFrom (b ++ r) len capacity fuel pos tokens) := by
  induction fuel generalizing pos tokens with
  | zero => exact .refl _
  | succ fuel ih =>
    unfold protoTokenizeFrom
    refine .ite (.bind (advanceWhile_agrees _ b r _ _) fun start => ?_) (.refl _)
    refine .ite (.refl _) (.ite (.refl _) ?_)
    exact .bind (advanceWhile_agrees _ b r _ _) fun stop => ih stop _

theorem protoParseUintFrom_agrees (b r : List UInt8) (limit n pos value : ℕ) :
    (protoParseUintFrom b limit n pos value).Agrees
      (protoParseUintFrom (b ++ r) limit n pos value) := by
  induction n generalizing pos value with
  | zero => exact .refl _
  | succ n ih =>
    unfold protoParseUintFrom
    exact .bind (readAt_agrees b r pos) fun ch => .ite (.refl _) (.ite (.refl _) (ih _ _))

theorem protoParseUint_agrees (b r : List UInt8) (token : Token) (limit : ℕ) :
    (protoParseUint b token limit).Agrees (protoParseUint (b ++ r) token limit) := by
  unfold protoParseUint
  exact .ite (.refl _) (protoParseUintFrom_agrees b r limit _ _ _)

theorem protoFindCommand_agrees (b r : List UInt8) (name : Token) :
    (protoFindCommand b name).Agrees (protoFindCommand (b ++ r) name) := by
  unfold protoFindCommand
  refine .ite (.bind (readSlice_agrees b r _ _) fun bytes => .refl _) ?_
  refine .ite (.bind (readSlice_agrees b r _ _) fun bytes => .refl _) ?_
  refine .ite (.bind (readSlice_agrees b r _ _) fun bytes => .refl _) ?_
  refine .ite (.bind (readSlice_agrees b r _ _) fun bytes => .refl _) ?_
  exact .ite (.bind (readSlice_agrees b r _ _) fun bytes => .refl _) (.refl _)

theorem protoParseNoreply_agrees (b r : List UInt8) (spec : CommandSpec) (tokens : List Token)
    (cmd : Command) :
    (protoParseNoreply b spec tokens cmd).Agrees (protoParseNoreply (b ++ r) spec tokens cmd) := by
  unfold protoParseNoreply
  refine .ite (.refl _) (.ite (.refl _) (.bind (.refl _) fun last => ?_))
  exact .ite (.refl _) (.bind (readSlice_agrees b r _ _) fun bytes => .refl _)

theorem protoCheckKey_agrees (b r : List UInt8) (n pos : ℕ) :
    (protoCheckKey b n pos).Agrees (protoCheckKey (b ++ r) n pos) := by
  induction n generalizing pos with
  | zero => exact .refl _
  | succ n ih =>
    unfold protoCheckKey
    exact .bind (readAt_agrees b r pos) fun ch => .ite (.refl _) (ih (pos + 1))

theorem protoParseKey_agrees (b r : List UInt8) (token : Token) (cmd : Command) :
    (protoParseKey b token cmd).Agrees (protoParseKey (b ++ r) token cmd) := by
  unfold protoParseKey
  refine .ite (.refl _) (.ite (.refl _) ?_)
  exact .bind (protoCheckKey_agrees b r _ _) fun _ => .refl _

theorem protoParseExptime_agrees (b r : List UInt8) (token : Token) (cmd : Command) :
    (protoParseExptime b token cmd).Agrees (protoParseExptime (b ++ r) token cmd) := by
  unfold protoParseExptime
  exact .bind (protoParseUint_agrees b r token _) fun value => .refl _

theorem protoParseSetFields_agrees (b r : List UInt8) (tokens : List Token) (cmd : Command) :
    (protoParseSetFields b tokens cmd).Agrees (protoParseSetFields (b ++ r) tokens cmd) := by
  unfold protoParseSetFields
  refine .bind (.refl _) fun f => .bind (protoParseUint_agrees b r f _) fun flags => ?_
  cases flags with
  | none => exact .refl _
  | some flags =>
    refine .bind (.refl _) fun x => .bind (protoParseExptime_agrees b r x _) fun cmd => ?_
    exact .bind (.refl _) fun n => .bind (protoParseUint_agrees b r n _) fun len => .refl _

theorem protoParseGetKeysFrom_agrees (b r : List UInt8) (stop fuel pos : ℕ) (cmd : Command) :
    (protoParseGetKeysFrom b stop fuel pos cmd).Agrees
      (protoParseGetKeysFrom (b ++ r) stop fuel pos cmd) := by
  induction fuel generalizing pos cmd with
  | zero => exact .refl _
  | succ fuel ih =>
    unfold protoParseGetKeysFrom
    refine .ite (.bind (advanceWhile_agrees _ b r _ _) fun start => ?_) (.refl _)
    refine .ite (.refl _) (.bind (advanceWhile_agrees _ b r _ _) fun pos => ?_)
    exact .bind (protoParseKey_agrees b r _ _) fun current => ih pos _

theorem protoParseGetKeys_agrees (b r : List UInt8) (pos len : ℕ) (cmd : Command) :
    (protoParseGetKeys b pos len cmd).Agrees (protoParseGetKeys (b ++ r) pos len cmd) := by
  unfold protoParseGetKeys
  exact .bind (protoParseGetKeysFrom_agrees b r _ _ _ _) fun cmd => .refl _

theorem protoIsGet_agrees (b r : List UInt8) (len start : ℕ) :
    (protoIsGet b len start).Agrees (protoIsGet (b ++ r) len start) := by
  unfold protoIsGet
  refine .ite (.refl _) (.bind (readSlice_agrees b r _ _) fun bytes => ?_)
  exact .ite (.refl _) (.ite (.refl _) (.bind (readAt_agrees b r _) fun ch => .refl _))

theorem protoParseTokens_agrees (b r : List UInt8) (tokens : List Token) (cmd : Command) :
    (protoParseTokens b tokens cmd).Agrees (protoParseTokens (b ++ r) tokens cmd) := by
  unfold protoParseTokens
  refine .ite (.refl _) (.bind (.refl _) fun name => ?_)
  refine .bind (protoFindCommand_agrees b r name) fun spec => ?_
  cases spec with
  | none => exact .refl _
  | some spec =>
    refine .bind (protoParseNoreply_agrees b r spec tokens _) fun cmd => .ite (.refl _) ?_
    refine .bind (.refl _) fun k => .bind (protoParseKey_agrees b r k cmd) fun cmd => ?_
    cases cmd.type with
    | set => exact protoParseSetFields_agrees b r tokens cmd
    | touch => exact .bind (.refl _) fun x => protoParseExptime_agrees b r x cmd
    | get => exact .refl _
    | delete => exact .refl _
    | version => exact .refl _
    | quit => exact .refl _

theorem protoParseHeader_agrees (b r : List UInt8) (len : ℕ) (cmd : Command) :
    (protoParseHeader b len cmd).Agrees (protoParseHeader (b ++ r) len cmd) := by
  unfold protoParseHeader
  refine .bind (advanceWhile_agrees _ b r _ _) fun start => ?_
  refine .bind (protoIsGet_agrees b r len start) fun isGet => ?_
  refine .ite (protoParseGetKeys_agrees b r _ _ cmd) ?_
  exact .bind (protoTokenizeFrom_agrees b r _ _ _ _ _) fun tokens =>
    protoParseTokens_agrees b r tokens cmd

theorem protoParseHeader_append (line r : List UInt8) :
    protoParseHeader (line ++ r) line.length {} = protoParseHeader line line.length {} :=
  (protoParseHeader_agrees line r _ _).eq (protoParseHeader_ne_fault line)

def NoBreak (line : List UInt8) : Prop := ∀ ch ∈ line, ch ≠ cr ∧ ch ≠ lf

def crlf : List UInt8 := [cr, lf]

/-- How the first line of a buffer ends, or that it does not end yet. -/
inductive LineForm : List UInt8 → Prop
  | unbroken (line : List UInt8) : NoBreak line → LineForm line
  | halfBroken (line : List UInt8) : NoBreak line → LineForm (line ++ [cr])
  | bareLf (line rest : List UInt8) : NoBreak line → LineForm (line ++ lf :: rest)
  | bareCr (line : List UInt8) (ch : UInt8) (rest : List UInt8) :
      NoBreak line → ch ≠ lf → LineForm (line ++ cr :: ch :: rest)
  | ended (line rest : List UInt8) : NoBreak line → LineForm (line ++ crlf ++ rest)

theorem lineForm (b : List UInt8) : LineForm b := by
  induction b with
  | nil => exact .unbroken [] (by simp [NoBreak])
  | cons ch b ih =>
    have hnil : NoBreak [] := by simp [NoBreak]
    by_cases hlf : ch = lf
    · exact hlf ▸ .bareLf [] b hnil
    by_cases hcr : ch = cr
    · subst hcr
      rcases b with _ | ⟨next, b⟩
      · exact .halfBroken [] hnil
      · by_cases hnext : next = lf
        · exact hnext ▸ .ended [] b hnil
        · exact .bareCr [] next b hnil hnext
    · have hcons : ∀ {line}, NoBreak line → NoBreak (ch :: line) := fun h =>
        List.forall_mem_cons.mpr ⟨⟨hcr, hlf⟩, h⟩
      cases ih with
      | unbroken line h => exact .unbroken _ (hcons h)
      | halfBroken line h => exact .halfBroken _ (hcons h)
      | bareLf line rest h => exact .bareLf _ rest (hcons h)
      | bareCr line next rest h hne => exact .bareCr _ next rest (hcons h) hne
      | ended line rest h => exact .ended _ rest (hcons h)

theorem protoFindLineFrom_skip {line : List UInt8} (h : NoBreak line) (pre s : List UInt8) :
    protoFindLineFrom (pre ++ (line ++ s)) (line.length + s.length) pre.length =
      protoFindLineFrom (pre ++ (line ++ s)) s.length (pre.length + line.length) := by
  induction line generalizing pre with
  | nil => simp
  | cons ch line ih =>
    obtain ⟨⟨hcr, hlf⟩, hline⟩ := List.forall_mem_cons.mp h
    have hread : (readAt (pre ++ (ch :: line ++ s)) pre.length : Parse UInt8) = .ok ch :=
      readAt_eq (by simp)
    have hstep := ih hline (pre ++ [ch])
    rw [List.append_assoc, List.singleton_append, List.length_append, List.length_singleton,
      Nat.add_assoc, Nat.add_comm 1] at hstep
    rw [List.length_cons, Nat.add_right_comm, protoFindLineFrom, hread, ok_bind, if_neg hlf,
      if_pos hcr]
    exact hstep

theorem protoFindLine_skip {line : List UInt8} (h : NoBreak line) (s : List UInt8) :
    protoFindLine (line ++ s) = protoFindLineFrom (line ++ s) s.length line.length := by
  have hskip := protoFindLineFrom_skip h [] s
  rw [List.nil_append, List.length_nil, Nat.zero_add] at hskip
  rw [protoFindLine, List.length_append, hskip]

section Lines

variable {line : List UInt8} (h : NoBreak line)
include h

theorem protoFindLine_unbroken : protoFindLine line = .error .incomplete := by
  have hskip := protoFindLine_skip h []
  rwa [List.append_nil] at hskip

theorem protoFindLine_halfBroken : protoFindLine (line ++ [cr]) = .error .incomplete := by
  have hread : (readAt (line ++ [cr]) line.length : Parse UInt8) = .ok cr := readAt_eq (by simp)
  rw [protoFindLine_skip h, List.length_singleton, protoFindLineFrom, hread]
  rfl

theorem protoFindLine_bareLf (rest : List UInt8) :
    protoFindLine (line ++ lf :: rest) = .error .expectedCrlf := by
  have hread : (readAt (line ++ lf :: rest) line.length : Parse UInt8) = .ok lf :=
    readAt_eq (by simp)
  rw [protoFindLine_skip h, List.length_cons, protoFindLineFrom, hread]
  rfl

theorem protoFindLine_cr (ch : UInt8) (rest : List UInt8) :
    protoFindLine (line ++ cr :: ch :: rest) =
      if ch ≠ lf then .error .expectedCrlf else .ok line.length := by
  have hread : (readAt (line ++ cr :: ch :: rest) line.length : Parse UInt8) = .ok cr :=
    readAt_eq (by simp)
  have hnext : (readAt (line ++ cr :: ch :: rest) (line.length + 1) : Parse UInt8) = .ok ch :=
    readAt_eq (by simp)
  rw [protoFindLine_skip h, List.length_cons, List.length_cons, protoFindLineFrom, hread, ok_bind,
    if_neg (by decide), if_neg (by simp), if_neg (by omega), hnext, ok_bind]

end Lines

end Kvx.Protocol
