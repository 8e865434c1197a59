import Kvx.ProtocolScan

/-!
# What the header parser accepts

A line whose first word is `get` goes to the key loop, every other line to the token
array. Each step is stated on the words of the line.
-/
namespace Kvx.Protocol

open Kvx.Lib

variable {line : List UInt8} {r : Run} {ws : List Run} {cmd cmd' : Command} {pos : ℕ}

def Within (line : List UInt8) (ws : List Run) : Prop :=
  ∀ r ∈ ws, r.start + r.len ≤ line.length

theorem words_all_within (line : List UInt8) : Within line (words line) :=
  fun _ hr => (words_within hr).2

def commandName : CommandType → List UInt8
  | .get => text ['g', 'e', 't']
  | .set => text ['s', 'e', 't']
  | .delete => text ['d', 'e', 'l', 'e', 't', 'e']
  | .touch => text ['t', 'o', 'u', 'c', 'h']
  | .version => text ['v', 'e', 'r', 's', 'i', 'o', 'n']
  | .quit => text ['q', 'u', 'i', 't']

def noreplyName : List UInt8 := text ['n', 'o', 'r', 'e', 'p', 'l', 'y']

theorem protoParseKey_eq_ok (h : r.start + r.len ≤ line.length) :
    protoParseKey line (Token.ofRun r) cmd = .ok cmd' ↔
      KeyOk (r.of line) ∧ cmd' = { cmd with
        key := some r.start
        keyLen := r.len
        keysEnd := some (r.start + r.len) } := by
  by_cases hk : KeyOk (r.of line)
  · rw [protoParseKey_ok h hk]
    simp [hk, eq_comm]
  · obtain ⟨err, herr⟩ := protoParseKey_error h hk cmd
    rw [herr]
    simp [hk]

theorem protoParseKey_ne_fault (h : r.start + r.len ≤ line.length) (cmd : Command) :
    protoParseKey line (Token.ofRun r) cmd ≠ .fault := by
  by_cases hk : KeyOk (r.of line)
  · rw [protoParseKey_ok h hk]
    simp
  · obtain ⟨err, herr⟩ := protoParseKey_error h hk cmd
    rw [herr]
    simp

theorem protoParseExptime_eq (h : r.start + r.len ≤ line.length) (cmd : Command) :
    protoParseExptime line (Token.ofRun r) cmd =
      if IsUint uint32Max (r.of line) then
        .ok { cmd with exptime := UInt32.ofNat (decimal (r.of line)) }
      else .error .invalidExptime := by
  have hvalue := protoParseUint_eq (show uint32Max < 2 ^ 64 by decide) h
  simp only [protoParseExptime, hvalue, ok_bind]
  split_ifs <;> rfl

theorem protoParseSetFields_eq {name k f x n : Run} {more : List Run}
    (hw : Within line (name :: k :: f :: x :: n :: more)) (cmd : Command) :
    protoParseSetFields line ((name :: k :: f :: x :: n :: more).map Token.ofRun) cmd =
      if ¬ IsUint uint32Max (f.of line) then .error .invalidFlags
      else if ¬ IsUint uint32Max (x.of line) then .error .invalidExptime
      else if ¬ IsUint sizeMax (n.of line) then .error .invalidValueLength
      else .ok { cmd with
        flags := UInt32.ofNat (decimal (f.of line))
        exptime := UInt32.ofNat (decimal (x.of line))
        valueLen := decimal (n.of line) } := by
  have hf : f.start + f.len ≤ line.length := hw f (by simp)
  have hx : x.start + x.len ≤ line.length := hw x (by simp)
  have hn : n.start + n.len ≤ line.length := hw n (by simp)
  have h2 : (readAt ((name :: k :: f :: x :: n :: more).map Token.ofRun) 2 : Parse Token) =
      .ok (Token.ofRun f) := rfl
  have h3 : (readAt ((name :: k :: f :: x :: n :: more).map Token.ofRun) 3 : Parse Token) =
      .ok (Token.ofRun x) := rfl
  have h4 : (readAt ((name :: k :: f :: x :: n :: more).map Token.ofRun) 4 : Parse Token) =
      .ok (Token.ofRun n) := rfl
  unfold protoParseSetFields
  rw [h2, ok_bind, protoParseUint_eq (by decide) hf, ok_bind]
  by_cases hfo : IsUint uint32Max (f.of line)
  · rw [if_pos hfo, if_neg (not_not.mpr hfo)]
    simp only [h3, h4, ok_bind, protoParseExptime_eq hx]
    by_cases hxo : IsUint uint32Max (x.of line)
    · rw [if_pos hxo, if_neg (not_not.mpr hxo)]
      have hvalue := protoParseUint_eq (show sizeMax < 2 ^ 64 by decide) hn
      simp only [ok_bind, hvalue]
      by_cases hno : IsUint sizeMax (n.of line)
      · rw [if_pos hno, if_neg (not_not.mpr hno)]
      · rw [if_neg hno, if_pos hno]
    · rw [if_neg hxo, if_pos hxo, error_bind]
  · rw [if_neg hfo, if_pos hfo]

theorem readSlice_of (h : r.start + r.len ≤ line.length) {n : ℕ} (hn : r.len = n) :
    (readSlice line r.start n : Parse (List UInt8)) = .ok (r.of line) := by
  subst hn
  exact readSlice_eq h

theorem protoFindCommand_named (h : r.start + r.len ≤ line.length) {type : CommandType}
    (hname : r.of line = commandName type) :
    protoFindCommand line (Token.ofRun r) = .ok (some (protoCommands type)) := by
  have hlen := of_length h
  rw [hname] at hlen
  have hread := readSlice_of h hlen.symm
  rw [hname] at hread
  unfold protoFindCommand Token.ofRun
  simp only [← hlen]
  cases type
  case set =>
    have hne : commandName .set ≠ text ['g', 'e', 't'] := by decide
    simp only [commandName, text, List.length_map, List.length_cons, List.length_nil] at hread hne
    simp only [commandName, text, List.length_map, List.length_cons, List.length_nil, if_true,
      hread, ok_bind, if_neg hne]
  all_goals
    simp only [commandName, text, List.length_map, List.length_cons, List.length_nil] at hread
    simp [hread, commandName, text]

theorem protoFindCommand_unknown (h : r.start + r.len ≤ line.length)
    (hname : ∀ type, r.of line ≠ commandName type) :
    protoFindCommand line (Token.ofRun r) = .ok none := by
  have hget := hname .get
  have hset := hname .set
  have hdelete := hname .delete
  have htouch := hname .touch
  have hversion := hname .version
  have hquit := hname .quit
  simp only [commandName] at hget hset hdelete htouch hversion hquit
  unfold protoFindCommand Token.ofRun
  by_cases h3 : r.len = 3
  · rw [if_pos h3, readSlice_of h h3, ok_bind, if_neg hget, if_neg hset]
  by_cases h4 : r.len = 4
  · rw [if_neg h3, if_pos h4, readSlice_of h h4, ok_bind, if_neg hquit]
  by_cases h5 : r.len = 5
  · rw [if_neg h3, if_neg h4, if_pos h5, readSlice_of h h5, ok_bind, if_neg htouch]
  by_cases h6 : r.len = 6
  · rw [if_neg h3, if_neg h4, if_neg h5, if_pos h6, readSlice_of h h6, ok_bind, if_neg hdelete]
  by_cases h7 : r.len = 7
  · rw [if_neg h3, if_neg h4, if_neg h5, if_neg h6, if_pos h7, readSlice_of h h7, ok_bind,
      if_neg hversion]
  · rw [if_neg h3, if_neg h4, if_neg h5, if_neg h6, if_neg h7]

/-- What may follow the arguments of a command that allows `noreply`. -/
inductive NoreplyTail (line : List UInt8) : List Run → Bool → Prop
  | absent : NoreplyTail line [] false
  | present (r : Run) : r.of line = noreplyName → NoreplyTail line [r] true

theorem noreplyTail_single {noreply : Bool} :
    NoreplyTail line [r] noreply ↔ r.of line = noreplyName ∧ noreply = true := by
  constructor
  · intro h
    cases h with
    | present _ hname => exact ⟨hname, rfl⟩
  · rintro ⟨hname, rfl⟩
    exact .present r hname

theorem protoParseNoreply_short {spec : CommandSpec} {tokens : List Token}
    (h : tokens.length < spec.tokenCount) (cmd : Command) :
    protoParseNoreply line spec tokens cmd = .error .invalidArguments := by
  unfold protoParseNoreply
  rw [if_neg (by omega), if_pos (Or.inr (by omega))]

theorem protoParseNoreply_single {spec : CommandSpec} {args : List Run}
    (hw : Within line (args ++ [r])) (hargs : args.length = spec.tokenCount) (cmd : Command) :
    protoParseNoreply line spec ((args ++ [r]).map Token.ofRun) cmd =
      if spec.allowsNoreply = true ∧ r.of line = noreplyName then .ok { cmd with noreply := true }
      else .error .invalidArguments := by
  have hr : r.start + r.len ≤ line.length := hw r (by simp)
  have hlen : ((args ++ [r]).map Token.ofRun).length = spec.tokenCount + 1 := by simp [hargs]
  have hlast : (readAt ((args ++ [r]).map Token.ofRun) (spec.tokenCount + 1 - 1) : Parse Token) =
      .ok (Token.ofRun r) := by
    apply readAt_eq
    simp [← hargs]
  have hfold : text ['n', 'o', 'r', 'e', 'p', 'l', 'y'] = noreplyName := rfl
  unfold protoParseNoreply
  rw [if_neg (by omega), hlen, hlast]
  simp only [ne_eq, not_true_eq_false, or_false, ok_bind, hfold]
  cases hallows : spec.allowsNoreply with
  | false => simp
  | true =>
    simp only [Bool.true_eq_false, if_false, true_and]
    by_cases h7 : r.len = 7
    · rw [if_neg (by simpa [Token.ofRun] using h7)]
      simp only [Token.ofRun, readSlice_of hr h7, ok_bind]
      by_cases hname : r.of line = noreplyName
      · rw [if_neg (not_not.mpr hname), if_pos hname]
      · rw [if_pos hname, if_neg hname]
    · have hname : r.of line ≠ noreplyName := by
        intro he
        have hl := of_length hr
        rw [he] at hl
        exact h7 hl.symm
      rw [if_pos (by simpa [Token.ofRun] using h7), if_neg hname]

theorem protoParseNoreply_eq {spec : CommandSpec} {args more : List Run}
    (hw : Within line (args ++ more)) (hargs : args.length = spec.tokenCount) (cmd : Command) :
    protoParseNoreply line spec ((args ++ more).map Token.ofRun) cmd ≠ .fault ∧
      ∀ cmd', protoParseNoreply line spec ((args ++ more).map Token.ofRun) cmd = .ok cmd' ↔
        ∃ noreply, NoreplyTail line more noreply ∧ (noreply = true → spec.allowsNoreply = true) ∧
          cmd' = { cmd with noreply := noreply || cmd.noreply } := by
  rcases more with _ | ⟨r, _ | ⟨r', more⟩⟩
  · have hrun : protoParseNoreply line spec ((args ++ []).map Token.ofRun) cmd = .ok cmd :=
      if_pos (by simp [hargs])
    rw [hrun]
    refine ⟨by simp, fun cmd' => ⟨fun h => ?_, ?_⟩⟩
    · injection h with h
      exact ⟨false, .absent, by simp, by rw [← h]; rfl⟩
    · rintro ⟨noreply, htail, -, rfl⟩
      cases htail
      rfl
  · rw [protoParseNoreply_single hw hargs]
    refine ⟨by split_ifs <;> simp, fun cmd' => ?_⟩
    simp only [noreplyTail_single]
    by_cases hok : spec.allowsNoreply = true ∧ r.of line = noreplyName
    · rw [if_pos hok]
      simp [hok, eq_comm]
    · rw [if_neg hok]
      constructor
      · intro h
        simp at h
      · rintro ⟨_, ⟨hname, rfl⟩, hallows, -⟩
        exact absurd ⟨hallows rfl, hname⟩ hok
  · have hrun : protoParseNoreply line spec ((args ++ r :: r' :: more).map Token.ofRun) cmd =
        .error .invalidArguments := by
      have hlen : ((args ++ r :: r' :: more).map Token.ofRun).length ≠ spec.tokenCount + 1 := by
        simp [← hargs]
      unfold protoParseNoreply
      rw [if_neg (by simp [← hargs]), if_pos (Or.inr hlen)]
    rw [hrun]
    refine ⟨by simp, fun cmd' => ⟨fun h => ?_, ?_⟩⟩
    · simp at h
    · rintro ⟨noreply, htail, -⟩
      cases htail

theorem protoParseTokens_nil : protoParseTokens line [] cmd = .error .invalidCommand := rfl

theorem protoParseTokens_unknown {name : Run} (h : name.start + name.len ≤ line.length)
    (hname : ∀ type, name.of line ≠ commandName type) :
    protoParseTokens line ((name :: ws).map Token.ofRun) cmd = .error .invalidCommand := by
  have hread : (readAt ((name :: ws).map Token.ofRun) 0 : Parse Token) = .ok (Token.ofRun name) :=
    rfl
  unfold protoParseTokens
  rw [if_neg (by simp), hread, ok_bind, protoFindCommand_unknown h hname, ok_bind]

/-- What `proto_parse_header` does once the command is known. -/
def parseArguments (line : List UInt8) (tokens : List Token) (cmd : Command) : Parse Command :=
  if cmd.type = .version ∨ cmd.type = .quit then .ok cmd
  else do
    let cmd ← protoParseKey line (← readAt tokens 1) cmd
    match cmd.type with
    | .set => protoParseSetFields line tokens cmd
    | .touch => protoParseExptime line (← readAt tokens 2) cmd
    | _ => .ok cmd

theorem protoParseTokens_named {name : Run} {type : CommandType}
    (h : name.start + name.len ≤ line.length) (hname : name.of line = commandName type) :
    protoParseTokens line ((name :: ws).map Token.ofRun) cmd =
      protoParseNoreply line (protoCommands type) ((name :: ws).map Token.ofRun)
        { cmd with type := type } >>= parseArguments line ((name :: ws).map Token.ofRun) := by
  have hread : (readAt ((name :: ws).map Token.ofRun) 0 : Parse Token) = .ok (Token.ofRun name) :=
    rfl
  have htype : (protoCommands type).type = type := by cases type <;> rfl
  unfold protoParseTokens
  rw [if_neg (by simp), hread, ok_bind, protoFindCommand_named h hname, ok_bind]
  simp only [htype]
  rfl

/-- The arguments of the command, and after them what `noreply` allows. -/
structure Arguments (line : List UInt8) (type : CommandType) (ws args more : List Run)
    (noreply : Bool) : Prop where
  split : ws = args ++ more
  count : args.length = (protoCommands type).tokenCount
  tail : NoreplyTail line more noreply
  allows : noreply = true → (protoCommands type).allowsNoreply = true

theorem protoParseTokens_eq_ok {name : Run} {type : CommandType}
    (hw : Within line (name :: ws)) (hname : name.of line = commandName type) :
    protoParseTokens line ((name :: ws).map Token.ofRun) {} = .ok cmd ↔
      ∃ args more noreply, Arguments line type (name :: ws) args more noreply ∧
        parseArguments line ((name :: ws).map Token.ofRun) { type := type, noreply := noreply } =
          .ok cmd := by
  rw [protoParseTokens_named (hw name List.mem_cons_self) hname, bind_eq_ok]
  constructor
  · rintro ⟨cmd₁, hnoreply, hargs⟩
    have hcount : (protoCommands type).tokenCount ≤ (name :: ws).length := by
      by_contra hlt
      rw [protoParseNoreply_short (by rw [List.length_map]; omega)] at hnoreply
      simp at hnoreply
    have hsplit := List.take_append_drop (protoCommands type).tokenCount (name :: ws)
    have hlen : ((name :: ws).take (protoCommands type).tokenCount).length =
        (protoCommands type).tokenCount := by
      rw [List.length_take]
      omega
    rw [← hsplit] at hw hnoreply
    obtain ⟨noreply, htail, hallows, rfl⟩ :=
      ((protoParseNoreply_eq hw hlen { type := type }).2 cmd₁).mp hnoreply
    exact ⟨_, _, noreply, ⟨hsplit.symm, hlen, htail, hallows⟩, by simpa using hargs⟩
  · rintro ⟨args, more, noreply, hargs, hrun⟩
    rw [hargs.split] at hw ⊢
    refine ⟨_, ((protoParseNoreply_eq hw hargs.count { type := type }).2 _).mpr
      ⟨noreply, hargs.tail, hargs.allows, rfl⟩, ?_⟩
    rw [← hargs.split]
    simpa using hrun

theorem parseArguments_key {name k : Run} {more : List Run} (hw : Within line (name :: k :: more))
    (htype : ¬ (cmd.type = .version ∨ cmd.type = .quit)) :
    parseArguments line ((name :: k :: more).map Token.ofRun) cmd =
      protoParseKey line (Token.ofRun k) cmd >>= fun cmd' =>
        match cmd.type with
        | .set => protoParseSetFields line ((name :: k :: more).map Token.ofRun) cmd'
        | .touch => do
            protoParseExptime line (← readAt ((name :: k :: more).map Token.ofRun) 2) cmd'
        | _ => .ok cmd' := by
  have hread : (readAt ((name :: k :: more).map Token.ofRun) 1 : Parse Token) =
      .ok (Token.ofRun k) := rfl
  unfold parseArguments
  rw [if_neg htype, hread, ok_bind]
  refine bind_congr_ok fun cmd' hkey => ?_
  rw [protoParseKey_eq_ok (hw k (by simp))] at hkey
  rw [hkey.2]

theorem parseArguments_delete {name k : Run} {more : List Run}
    (hw : Within line (name :: k :: more)) (htype : cmd.type = .delete) :
    parseArguments line ((name :: k :: more).map Token.ofRun) cmd =
      protoParseKey line (Token.ofRun k) cmd := by
  rw [parseArguments_key hw (by simp [htype])]
  simp only [htype]
  cases protoParseKey line (Token.ofRun k) cmd <;> rfl

theorem parseArguments_touch {name k x : Run} {more : List Run}
    (hw : Within line (name :: k :: x :: more)) (htype : cmd.type = .touch) :
    parseArguments line ((name :: k :: x :: more).map Token.ofRun) cmd =
      protoParseKey line (Token.ofRun k) cmd >>= protoParseExptime line (Token.ofRun x) := by
  rw [parseArguments_key hw (by simp [htype])]
  simp only [htype]
  rfl

theorem parseArguments_set {name k : Run} {more : List Run}
    (hw : Within line (name :: k :: more)) (htype : cmd.type = .set) :
    parseArguments line ((name :: k :: more).map Token.ofRun) cmd =
      protoParseKey line (Token.ofRun k) cmd >>=
        protoParseSetFields line ((name :: k :: more).map Token.ofRun) := by
  rw [parseArguments_key hw (by simp [htype])]
  simp only [htype]

theorem parseArguments_ne_fault {args more : List Run} {name : Run} {type : CommandType}
    {noreply : Bool} (h : Arguments line type (name :: ws) args more noreply)
    (hw : Within line (name :: ws)) (htype : cmd.type = type) :
    parseArguments line ((name :: ws).map Token.ofRun) cmd ≠ .fault := by
  have hlen : (protoCommands type).tokenCount ≤ (name :: ws).length := by
    rw [h.split, List.length_append, h.count]
    omega
  have hkey : ∀ {k : Run} {rest : List Run}, ws = k :: rest → ∀ cmd : Command,
      protoParseKey line (Token.ofRun k) cmd ≠ .fault := fun {k} _ hk cmd =>
    protoParseKey_ne_fault (hw k (by simp [hk])) cmd
  cases type with
  | version => simp [parseArguments, htype]
  | quit => simp [parseArguments, htype]
  | get =>
    obtain _ | ⟨k, rest⟩ := ws
    · simp [protoCommands] at hlen
    · rw [parseArguments_key hw (by simp [htype])]
      refine bind_ne_fault (hkey rfl cmd) fun cmd' _ => ?_
      simp [htype]
  | delete =>
    obtain _ | ⟨k, rest⟩ := ws
    · simp [protoCommands] at hlen
    · rw [parseArguments_delete hw htype]
      exact hkey rfl cmd
  | touch =>
    obtain _ | ⟨k, _ | ⟨x, rest⟩⟩ := ws
    · simp [protoCommands] at hlen
    · simp [protoCommands] at hlen
    · rw [parseArguments_touch hw htype]
      refine bind_ne_fault (hkey rfl cmd) fun cmd' _ => ?_
      rw [protoParseExptime_eq (hw x (by simp))]
      split_ifs <;> simp
  | set =>
    obtain _ | ⟨k, _ | ⟨f, _ | ⟨x, _ | ⟨n, rest⟩⟩⟩⟩ := ws
    · simp [protoCommands] at hlen
    · simp [protoCommands] at hlen
    · simp [protoCommands] at hlen
    · simp [protoCommands] at hlen
    · rw [parseArguments_set hw htype]
      refine bind_ne_fault (hkey rfl cmd) fun cmd' _ => ?_
      rw [protoParseSetFields_eq hw]
      split_ifs <;> simp

theorem protoParseTokens_ne_fault (hw : Within line ws) :
    protoParseTokens line (ws.map Token.ofRun) {} ≠ .fault := by
  obtain _ | ⟨name, ws⟩ := ws
  · rw [List.map_nil, protoParseTokens_nil]
    simp
  have hn := hw name List.mem_cons_self
  by_cases hname : ∃ type, name.of line = commandName type
  · obtain ⟨type, hname⟩ := hname
    rw [protoParseTokens_named hn hname]
    by_cases hshort : (name :: ws).length < (protoCommands type).tokenCount
    · rw [protoParseNoreply_short (by rw [List.length_map]; exact hshort)]
      simp
    have hsplit := List.take_append_drop (protoCommands type).tokenCount (name :: ws)
    have hlen : ((name :: ws).take (protoCommands type).tokenCount).length =
        (protoCommands type).tokenCount := by
      rw [List.length_take]
      omega
    have hw' := hw
    rw [← hsplit] at hw'
    obtain ⟨hsafe, hok⟩ := protoParseNoreply_eq hw' hlen { type := type }
    rw [hsplit] at hsafe hok
    refine bind_ne_fault hsafe fun cmd' hrun => ?_
    obtain ⟨noreply, htail, hallows, rfl⟩ := (hok cmd').mp hrun
    exact parseArguments_ne_fault ⟨hsplit.symm, hlen, htail, hallows⟩ hw rfl
  · rw [protoParseTokens_unknown hn fun type he => hname ⟨type, he⟩]
    simp

end Kvx.Protocol
