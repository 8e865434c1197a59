import Kvx.ProtocolStable

/-!
# The grammar of commands

A command is a header line, ended by CRLF, whose words are a command name and its
arguments; a `set` has a data block after it. The parser accepts just these and hands out
their fields.
-/
namespace Kvx.Protocol

open Kvx.Lib

/-- The header lines, and what their commands say. -/
inductive Header (line : List UInt8) : Command → Prop
  | get {name k : Run} {ks : List Run} : words line = name :: k :: ks →
      name.of line = commandName .get → (∀ r ∈ k :: ks, KeyOk (r.of line)) →
      Header line {
        type := .get
        key := some k.start
        keyLen := k.len
        keysEnd := some line.length }
  | set {name k f x n : Run} {more : List Run} {noreply : Bool} :
      words line = name :: k :: f :: x :: n :: more → name.of line = commandName .set →
      KeyOk (k.of line) → IsUint uint32Max (f.of line) → IsUint uint32Max (x.of line) →
      IsUint sizeMax (n.of line) → NoreplyTail line more noreply →
      Header line {
        type := .set
        key := some k.start
        keyLen := k.len
        keysEnd := some (k.start + k.len)
        flags := UInt32.ofNat (decimal (f.of line))
        exptime := UInt32.ofNat (decimal (x.of line))
        valueLen := decimal (n.of line)
        noreply := noreply }
  | delete {name k : Run} {more : List Run} {noreply : Bool} : words line = name :: k :: more →
      name.of line = commandName .delete → KeyOk (k.of line) → NoreplyTail line more noreply →
      Header line {
        type := .delete
        key := some k.start
        keyLen := k.len
        keysEnd := some (k.start + k.len)
        noreply := noreply }
  | touch {name k x : Run} {more : List Run} {noreply : Bool} :
      words line = name :: k :: x :: more → name.of line = commandName .touch →
      KeyOk (k.of line) → IsUint uint32Max (x.of line) → NoreplyTail line more noreply →
      Header line {
        type := .touch
        key := some k.start
        keyLen := k.len
        keysEnd := some (k.start + k.len)
        exptime := UInt32.ofNat (decimal (x.of line))
        noreply := noreply }
  | version {name : Run} : words line = [name] → name.of line = commandName .version →
      Header line { type := .version }
  | quit {name : Run} : words line = [name] → name.of line = commandName .quit →
      Header line { type := .quit }

/-- The buffer begins with a frame of `n` bytes for the command. -/
inductive Frame : List UInt8 → Command → ℕ → Prop
  | line {line rest : List UInt8} {cmd : Command} : NoBreak line → Header line cmd →
      cmd.type ≠ .set → Frame (line ++ crlf ++ rest) cmd (line.length + 2)
  | data {line data rest : List UInt8} {cmd : Command} : NoBreak line → Header line cmd →
      cmd.type = .set → data.length = cmd.valueLen →
      line.length + 2 + data.length + 2 ≤ sizeMax →
      Frame (line ++ crlf ++ (data ++ crlf ++ rest)) { cmd with value := some (line.length + 2) }
        (line.length + 2 + data.length + 2)

variable {line : List UInt8} {cmd cmd' : Command}

theorem parseArguments_set_eq_ok {name k f x n : Run} {more : List Run}
    (hw : Within line (name :: k :: f :: x :: n :: more)) (htype : cmd.type = .set) :
    parseArguments line ((name :: k :: f :: x :: n :: more).map Token.ofRun) cmd = .ok cmd' ↔
      KeyOk (k.of line) ∧ IsUint uint32Max (f.of line) ∧ IsUint uint32Max (x.of line) ∧
        IsUint sizeMax (n.of line) ∧ cmd' = { cmd with
          key := some k.start
          keyLen := k.len
          keysEnd := some (k.start + k.len)
          flags := UInt32.ofNat (decimal (f.of line))
          exptime := UInt32.ofNat (decimal (x.of line))
          valueLen := decimal (n.of line) } := by
  rw [parseArguments_set hw htype, bind_eq_ok]
  simp only [protoParseKey_eq_ok (hw k (by simp)), protoParseSetFields_eq hw]
  constructor
  · rintro ⟨cmd₁, ⟨hkey, rfl⟩, hrun⟩
    split_ifs at hrun with hf hx hn
    injection hrun with hrun
    exact ⟨hkey, hf, hx, hn, hrun.symm⟩
  · rintro ⟨hkey, hf, hx, hn, rfl⟩
    refine ⟨_, ⟨hkey, rfl⟩, ?_⟩
    rw [if_neg (not_not.mpr hf), if_neg (not_not.mpr hx), if_neg (not_not.mpr hn)]

theorem parseArguments_touch_eq_ok {name k x : Run} {more : List Run}
    (hw : Within line (name :: k :: x :: more)) (htype : cmd.type = .touch) :
    parseArguments line ((name :: k :: x :: more).map Token.ofRun) cmd = .ok cmd' ↔
      KeyOk (k.of line) ∧ IsUint uint32Max (x.of line) ∧ cmd' = { cmd with
        key := some k.start
        keyLen := k.len
        keysEnd := some (k.start + k.len)
        exptime := UInt32.ofNat (decimal (x.of line)) } := by
  rw [parseArguments_touch hw htype, bind_eq_ok]
  simp only [protoParseKey_eq_ok (hw k (by simp)), protoParseExptime_eq (hw x (by simp))]
  constructor
  · rintro ⟨cmd₁, ⟨hkey, rfl⟩, hrun⟩
    split_ifs at hrun with hx
    injection hrun with hrun
    exact ⟨hkey, hx, hrun.symm⟩
  · rintro ⟨hkey, hx, rfl⟩
    exact ⟨_, ⟨hkey, rfl⟩, if_pos hx⟩

theorem noreplyTail_length {more : List Run} {noreply : Bool}
    (h : NoreplyTail line more noreply) : more.length ≤ 1 := by
  cases h <;> simp

/-- A command without `noreply` has no more words than its arguments. -/
theorem noreplyTail_of_not {more : List Run} {noreply : Bool} (h : NoreplyTail line more noreply)
    (hno : noreply = true → False) : more = [] ∧ noreply = false := by
  cases h with
  | absent => exact ⟨rfl, rfl⟩
  | present r hname => exact absurd rfl hno

theorem header_of_tokens {name : Run} {ws : List Run} {type : CommandType}
    (hws : words line = name :: ws) (hname : name.of line = commandName type)
    (hget : type ≠ .get)
    (hrun : protoParseTokens line ((words line).map Token.ofRun) {} = .ok cmd) :
    Header line cmd := by
  have hw := words_all_within line
  rw [hws] at hw hrun
  obtain ⟨args, more, noreply, ⟨hsplit, hcount, htail, hallows⟩, hargs⟩ :=
    (protoParseTokens_eq_ok hw hname).mp hrun
  rw [hsplit] at hws hw hargs
  cases type with
  | get => exact absurd rfl hget
  | version =>
    obtain ⟨name', rfl⟩ := List.length_eq_one_iff.mp hcount
    obtain ⟨rfl, rfl⟩ := noreplyTail_of_not htail fun h => by simpa [protoCommands] using hallows h
    obtain ⟨rfl, -⟩ := List.cons.inj hsplit
    simp only [parseArguments, true_or, if_true] at hargs
    injection hargs with hargs
    exact hargs ▸ .version hws hname
  | quit =>
    obtain ⟨name', rfl⟩ := List.length_eq_one_iff.mp hcount
    obtain ⟨rfl, rfl⟩ := noreplyTail_of_not htail fun h => by simpa [protoCommands] using hallows h
    obtain ⟨rfl, -⟩ := List.cons.inj hsplit
    simp only [parseArguments, or_true, if_true] at hargs
    injection hargs with hargs
    exact hargs ▸ .quit hws hname
  | delete =>
    obtain ⟨name', k, rfl⟩ := List.length_eq_two.mp hcount
    obtain ⟨rfl, -⟩ := List.cons.inj hsplit
    rw [List.cons_append, List.cons_append, List.nil_append] at hargs hw hws
    rw [parseArguments_delete hw rfl, protoParseKey_eq_ok (hw k (by simp))] at hargs
    exact hargs.2 ▸ .delete hws hname hargs.1 htail
  | touch =>
    obtain ⟨name', k, x, rfl⟩ := List.length_eq_three.mp hcount
    obtain ⟨rfl, -⟩ := List.cons.inj hsplit
    obtain ⟨hkey, hx, rfl⟩ := (parseArguments_touch_eq_ok hw rfl).mp hargs
    exact .touch hws hname hkey hx htail
  | set =>
    obtain _ | ⟨name', _ | ⟨k, _ | ⟨f, _ | ⟨x, _ | ⟨n, _ | ⟨_, _⟩⟩⟩⟩⟩⟩ := args
    all_goals simp only [protoCommands, List.length_cons, List.length_nil] at hcount
    case cons.cons.cons.cons.cons.nil =>
      obtain ⟨rfl, -⟩ := List.cons.inj hsplit
      obtain ⟨hkey, hf, hx, hn, rfl⟩ := (parseArguments_set_eq_ok hw rfl).mp hargs
      exact .set hws hname hkey hf hx hn htail
    all_goals omega

theorem protoParseHeader_named {name : Run} {ws more : List Run} {type : CommandType}
    {noreply : Bool} (args : List Run) (hws : words line = name :: ws) (hname : name.of line = commandName type)
    (hget : type ≠ .get) (hargs : Arguments line type (name :: ws) args more noreply)
    (hrun : parseArguments line ((name :: ws).map Token.ofRun)
      { type := type, noreply := noreply } = .ok cmd) :
    protoParseHeader line line.length {} = .ok cmd := by
  have hw := words_all_within line
  have hfirst : ∀ name' ws', words line = name' :: ws' → name'.of line ≠ commandName .get := by
    intro name' ws' hws' he
    rw [hws, List.cons.injEq] at hws'
    rw [← hws'.1, hname] at he
    revert he hget
    cases type <;> decide
  have hroom : (words line).length ≤ protoMaxTokens := by
    have hmore := noreplyTail_length hargs.tail
    have hcount : (protoCommands type).tokenCount ≤ 5 := by cases type <;> decide
    rw [hws, hargs.split, List.length_append, hargs.count]
    simp only [protoMaxTokens]
    omega
  rw [protoParseHeader_tokens hfirst, if_pos hroom]
  rw [hws] at hw ⊢
  exact (protoParseTokens_eq_ok hw hname).mpr ⟨args, more, noreply, hargs, hrun⟩

theorem protoParseHeader_of_header (h : Header line cmd) :
    protoParseHeader line line.length {} = .ok cmd := by
  have hw := words_all_within line
  cases h with
  | get hws hname hkeys =>
    rw [hws] at hw
    have hkw := fun r hr => hw r (List.mem_cons_of_mem _ hr)
    rw [protoParseHeader_get hws hname, ((parseKeys_eq hkw {}).2 _).mpr ⟨hkeys, rfl⟩]
    rfl
  | @set name k f x n more noreply hws hname hkey hf hx hn htail =>
    rw [hws] at hw
    exact protoParseHeader_named [name, k, f, x, n] hws hname (by simp)
      ⟨rfl, rfl, htail, fun _ => rfl⟩
      ((parseArguments_set_eq_ok hw rfl).mpr ⟨hkey, hf, hx, hn, rfl⟩)
  | @delete name k more noreply hws hname hkey htail =>
    rw [hws] at hw
    refine protoParseHeader_named [name, k] hws hname (by simp)
      ⟨rfl, rfl, htail, fun _ => rfl⟩ ?_
    rw [parseArguments_delete hw rfl]
    exact protoParseKey_ok (hw k (by simp)) hkey _
  | @touch name k x more noreply hws hname hkey hx htail =>
    rw [hws] at hw
    exact protoParseHeader_named [name, k, x] hws hname (by simp)
      ⟨rfl, rfl, htail, fun _ => rfl⟩
      ((parseArguments_touch_eq_ok hw rfl).mpr ⟨hkey, hx, rfl⟩)
  | @version name hws hname =>
    exact protoParseHeader_named [name] hws hname (by simp)
      ⟨rfl, rfl, .absent, by simp⟩ rfl
  | @quit name hws hname =>
    exact protoParseHeader_named [name] hws hname (by simp)
      ⟨rfl, rfl, .absent, by simp⟩ rfl

theorem protoParseHeader_eq_ok :
    protoParseHeader line line.length {} = .ok cmd ↔ Header line cmd := by
  refine ⟨fun hrun => ?_, protoParseHeader_of_header⟩
  have hw := words_all_within line
  by_cases hget : ∃ name ws, words line = name :: ws ∧ name.of line = commandName .get
  · obtain ⟨name, ws, hws, hname⟩ := hget
    rw [hws] at hw
    have hkw : Within line ws := fun r hr => hw r (List.mem_cons_of_mem _ hr)
    rw [protoParseHeader_get hws hname, bind_eq_ok] at hrun
    obtain ⟨cmd', hkeys, hrun⟩ := hrun
    obtain ⟨hok, rfl⟩ := ((parseKeys_eq hkw {}).2 cmd').mp hkeys
    cases ws with
    | nil => simp [keysFound] at hrun
    | cons k ks =>
      simp only [keysFound, if_true, reduceCtorEq, if_false] at hrun
      injection hrun with hrun
      exact hrun ▸ .get hws hname hok
  · have hfirst : ∀ name ws, words line = name :: ws → name.of line ≠ commandName .get :=
      fun name ws hws hname => hget ⟨name, ws, hws, hname⟩
    rw [protoParseHeader_tokens hfirst] at hrun
    split_ifs at hrun with hroom
    cases hws : words line with
    | nil =>
      rw [hws, List.map_nil, protoParseTokens_nil] at hrun
      simp at hrun
    | cons name ws =>
      by_cases hname : ∃ type, name.of line = commandName type
      · obtain ⟨type, hname⟩ := hname
        exact header_of_tokens hws hname (fun he => hfirst name ws hws (he ▸ hname)) hrun
      · rw [hws] at hw hrun
        rw [protoParseTokens_unknown (hw name List.mem_cons_self)
          fun type he => hname ⟨type, he⟩] at hrun
        simp at hrun

theorem parseFrame_eq_ok_iff {b : List UInt8} {n : ℕ} :
    parseFrame b = .ok (cmd, n) ↔ Frame b cmd n := by
  rw [parseFrame_eq_ok]
  constructor
  · rintro ⟨line, parsed, rest, h, hheader, rfl, ⟨hset, rfl, rfl⟩ |
      ⟨hset, data, tail, rfl, hdata, hfits, rfl, rfl⟩⟩
    · rw [List.length_append]
      exact .line h (protoParseHeader_eq_ok.mp hheader) hset
    · rw [List.length_append] at hfits ⊢
      exact .data h (protoParseHeader_eq_ok.mp hheader) hset hdata hfits
  · intro h
    cases h with
    | @line line rest cmd h hheader hset =>
      have hlen : (line ++ crlf).length = line.length + 2 := List.length_append
      exact ⟨line, cmd, rest, h, protoParseHeader_eq_ok.mpr hheader, rfl,
        Or.inl ⟨hset, rfl, hlen.symm⟩⟩
    | @data line data rest cmd h hheader hset hdata hfits =>
      have hlen : (line ++ crlf).length = line.length + 2 := List.length_append
      exact ⟨line, cmd, _, h, protoParseHeader_eq_ok.mpr hheader, rfl,
        Or.inr ⟨hset, data, rest, rfl, hdata, by rw [hlen]; exact hfits, by rw [hlen],
          by rw [hlen]⟩⟩

theorem protocolParseCommand_frame {b : List UInt8} {out : Command} {n : ℕ}
    (h : protocolParseCommand b cmd = some (.ok, out, n)) : Frame b out n := by
  rw [← parseFrame_eq_ok_iff]
  unfold protocolParseCommand at h
  cases hrun : parseFrame b with
  | ok result =>
    simp only [hrun, Option.some.injEq, Prod.mk.injEq, true_and] at h
    rw [← h.1, ← h.2]
  | error err => simp [hrun] at h
  | fault => simp [hrun] at h

/-- The parser accepts the frames, and hands out their commands and lengths. -/
theorem parse_accepts_iff (b : List UInt8) (cmd out : Command) (n : ℕ) :
    protocolParseCommand b cmd = some (.ok, out, n) ↔ Frame b out n := by
  rw [← parseFrame_eq_ok_iff, protocolParseCommand]
  cases hrun : parseFrame b with
  | ok result =>
    obtain ⟨parsed, consumed⟩ := result
    simp
  | error err => simp
  | fault => simp

/-- The key of this command is called `noreply`, and its value has a line end in it. -/
example : protocolParseCommand (text ['s', 'e', 't', ' ', 'n', 'o', 'r', 'e', 'p', 'l', 'y', ' ',
      '0', '7', ' ', '0', ' ', '2'] ++ crlf ++ crlf ++ crlf) {} =
    some (.ok, {
      type := .set
      key := some 4
      keyLen := 7
      keysEnd := some 11
      value := some 20
      valueLen := 2
      flags := 7 }, 24) := by
  decide

end Kvx.Protocol
