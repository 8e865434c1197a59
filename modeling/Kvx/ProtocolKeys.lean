import Kvx.ProtocolGrammar

/-!
# The keys of a command

`protocol_next_key` splits the line again behind the key that the command points to. It finds
the words that the parser checked.
-/
namespace Kvx.Protocol

open Kvx.Lib

/-- `protocol_next_key`: its result, and the command after the call. -/
def protocolNextKey (b : List UInt8) (cmd : Command) : Parse (Bool × Command) :=
  match cmd.key, cmd.keysEnd with
  | some key, some keysEnd => do
      let p := key + cmd.keyLen
      let start ← advanceWhile protoIsSeparator b (keysEnd - p) p
      if start = keysEnd then .ok (false, cmd)
      else
        let stop ← advanceWhile (fun ch => !protoIsSeparator ch) b (keysEnd - start) start
        .ok (true, { cmd with
          key := some start
          keyLen := stop - start })
  | _, _ => .ok (false, cmd)

/-- The keys that the calls up to the first false one hand out, and the command after it. A
loop that takes more than `fuel` calls is a fault. -/
def protocolKeysFrom (b : List UInt8) : ℕ → Command → Parse (List (Option ℕ × ℕ) × Command)
  | 0, _ => .fault
  | fuel + 1, cmd => do
      let (found, cmd) ← protocolNextKey b cmd
      if found then
        let (keys, last) ← protocolKeysFrom b fuel cmd
        .ok ((cmd.key, cmd.keyLen) :: keys, last)
      else .ok ([], cmd)

/-- The command with its key moved to a word. -/
def Command.atKey (cmd : Command) (r : Run) : Command :=
  { cmd with
    key := some r.start
    keyLen := r.len }

def asKey (r : Run) : Option ℕ × ℕ := (some r.start, r.len)

variable {line : List UInt8} {cmd : Command} {pos : ℕ} {r : Run} {rs : List Run}

theorem wordsFrom_tail (hpos : pos ≤ line.length) (h : wordsFrom line pos = r :: rs) :
    wordsFrom line (r.start + r.len) = rs := by
  obtain ⟨start, -, -, ⟨-, hnil⟩ | ⟨-, stop, -, -, -, hcons⟩⟩ := words_step hpos
  · rw [hnil] at h
    cases h
  · have hrange := wordsFrom_within (h ▸ List.mem_cons_self) hpos
    rw [hcons, List.cons.injEq] at h
    obtain ⟨rfl, rfl⟩ := h
    simp only at hrange ⊢
    rw [show start + (stop - start) = stop by omega]

theorem words_behind_key {name k : Run} {ks : List Run} (h : words line = name :: k :: ks) :
    wordsFrom line (k.start + k.len) = ks := by
  have hname := words_within (h ▸ List.mem_cons_self)
  exact wordsFrom_tail hname.2 (wordsFrom_tail (Nat.zero_le _) h)

theorem advanceWhile_append {accept : UInt8 → Bool} {n p : ℕ} (tail : List UInt8)
    (h : advanceWhile accept line n pos = .ok p) :
    advanceWhile accept (line ++ tail) n pos = .ok p := by
  rw [← h]
  exact (advanceWhile_agrees accept line tail n pos).eq (by simp [h])

section Call

variable (hkey : cmd.key = some r.start) (hlen : cmd.keyLen = r.len)
  (hstop : cmd.keysEnd = some line.length) (hr : r.start + r.len ≤ line.length)
include hkey hlen hstop hr

/-- A call moves to the next word of the line; behind the last word it changes nothing. -/
theorem protocolNextKey_eq (tail : List UInt8) :
    protocolNextKey (line ++ tail) cmd =
      match wordsFrom line (r.start + r.len) with
      | [] => .ok (false, cmd)
      | next :: _ => .ok (true, cmd.atKey next) := by
  obtain ⟨start, hskip, -, ⟨hend, hnil⟩ | ⟨hlt, stop, hword, -, -, hcons⟩⟩ := words_step hr
  · rw [hnil]
    simp only [protocolNextKey, hkey, hlen, hstop, advanceWhile_append tail hskip, ok_bind]
    rw [if_pos hend]
  · rw [hcons]
    have hstep := advanceWhile_append tail hword
    unfold isWordByte at hstep
    simp only [protocolNextKey, hkey, hlen, hstop, advanceWhile_append tail hskip, ok_bind]
    rw [if_neg hlt.ne, hstep, ok_bind, Command.atKey, hstop]

end Call

/-- The calls go through the words behind the key and stop at the last one. -/
theorem protocolKeysFrom_eq (hkey : cmd.key = some r.start) (hlen : cmd.keyLen = r.len)
    (hstop : cmd.keysEnd = some line.length) (hr : r.start + r.len ≤ line.length)
    (hrs : wordsFrom line (r.start + r.len) = rs) (tail : List UInt8) {fuel : ℕ}
    (hfuel : rs.length < fuel) :
    protocolKeysFrom (line ++ tail) fuel cmd =
        .ok (rs.map asKey, cmd.atKey ((r :: rs).getLast (List.cons_ne_nil r rs))) ∧
      protocolNextKey (line ++ tail) (cmd.atKey ((r :: rs).getLast (List.cons_ne_nil r rs))) =
        .ok (false, cmd.atKey ((r :: rs).getLast (List.cons_ne_nil r rs))) := by
  have hcall := protocolNextKey_eq hkey hlen hstop hr tail
  rw [hrs] at hcall
  induction rs generalizing r cmd fuel with
  | nil =>
    rw [List.length_nil] at hfuel
    obtain ⟨fuel, rfl⟩ : ∃ n, fuel = n + 1 := ⟨fuel - 1, by omega⟩
    have hsame : cmd.atKey r = cmd := by
      rw [Command.atKey, ← hkey, ← hlen]
    rw [List.getLast_singleton, hsame]
    refine ⟨?_, hcall⟩
    rw [protocolKeysFrom, hcall]
    rfl
  | cons next rs ih =>
    rw [List.length_cons] at hfuel
    obtain ⟨fuel, rfl⟩ : ∃ n, fuel = n + 1 := ⟨fuel - 1, by omega⟩
    have hnext := (wordsFrom_within (hrs ▸ List.mem_cons_self) hr).2
    have hrest := wordsFrom_tail hr hrs
    have hkey' : (cmd.atKey next).key = some next.start := rfl
    have hlen' : (cmd.atKey next).keyLen = next.len := rfl
    have hmoved := protocolNextKey_eq hkey' hlen' hstop hnext tail
    rw [hrest] at hmoved
    have hroom : rs.length < fuel := by omega
    obtain ⟨hkeys, hlast⟩ := ih hkey' hlen' hstop hnext hrest hroom hmoved
    rw [List.getLast_cons_cons]
    refine ⟨?_, hlast⟩
    simp only [protocolKeysFrom, hcall, ok_bind, if_true, hkeys]
    rfl

theorem of_append (hr : r.start + r.len ≤ line.length) (tail : List UInt8) :
    r.of (line ++ tail) = r.of line := by
  rw [Run.of, Run.of, List.drop_append_of_le_length (by omega),
    List.take_append_of_le_length (by rw [List.length_drop]; omega)]

/-- There are no bytes between the key and `keys_end`. -/
def Command.OneKey (cmd : Command) : Prop :=
  cmd.key = none ∨ ∃ k, cmd.key = some k ∧ cmd.keysEnd = some (k + cmd.keyLen)

theorem Header.oneKey (h : Header line cmd) (hget : cmd.type ≠ .get) : cmd.OneKey := by
  cases h with
  | get => exact absurd rfl hget
  | set => exact Or.inr ⟨_, rfl, rfl⟩
  | delete => exact Or.inr ⟨_, rfl, rfl⟩
  | touch => exact Or.inr ⟨_, rfl, rfl⟩
  | version => exact Or.inl rfl
  | quit => exact Or.inl rfl

theorem Frame.oneKey {b : List UInt8} {n : ℕ} (h : Frame b cmd n) (hget : cmd.type ≠ .get) :
    cmd.OneKey := by
  cases h with
  | line hline hheader hset => exact hheader.oneKey hget
  | data hline hheader hset => exact hheader.oneKey hget

theorem protocolNextKey_oneKey (h : cmd.OneKey) (b : List UInt8) :
    protocolNextKey b cmd = .ok (false, cmd) := by
  unfold protocolNextKey
  rcases h with hkey | ⟨k, hkey, hstop⟩
  · rw [hkey]
  · rw [hkey, hstop]
    simp only [Nat.sub_self, advanceWhile, ok_bind, if_true]

/-- The command and the calls of `protocol_next_key` hand out the words of the line after `get`,
and look at no byte behind the line. After other commands there is no further key. -/
theorem next_key_parsed {b : List UInt8} {out : Command} {n : ℕ}
    (h : protocolParseCommand b cmd = some (.ok, out, n)) :
    (out.type = .get → ∃ line rest name k ks, b = line ++ crlf ++ rest ∧ NoBreak line ∧
      words line = name :: k :: ks ∧ name.of line = commandName .get ∧
      (out.key, out.keyLen) = asKey k ∧ out.keysEnd = some line.length ∧
      (∀ r ∈ k :: ks, r.start + r.len ≤ line.length ∧ KeyOk (r.of b)) ∧
      ∃ last, last = out.atKey ((k :: ks).getLast (List.cons_ne_nil k ks)) ∧
        ∀ b', line <+: b' →
          (∀ fuel, ks.length < fuel → protocolKeysFrom b' fuel out = .ok (ks.map asKey, last)) ∧
          protocolNextKey b' last = .ok (false, last)) ∧
    (out.type ≠ .get → ∀ b', protocolNextKey b' out = .ok (false, out)) := by
  have hframe := protocolParseCommand_frame h
  refine ⟨fun hget => ?_, fun hget b' => protocolNextKey_oneKey (hframe.oneKey hget) b'⟩
  cases hframe with
  | @line line rest cmd hline hheader hset =>
    have hw := words_all_within line
    cases hheader with
    | @get name k ks hws hname hkeys =>
      rw [hws] at hw
      have hk := hw k (by simp)
      have hbehind := words_behind_key hws
      refine ⟨line, rest, name, k, ks, rfl, hline, hws, hname, rfl, rfl, fun r hr => ?_, _, rfl,
        fun b' hb' => ?_⟩
      · have hin := hw r (List.mem_cons_of_mem name hr)
        rw [List.append_assoc, of_append hin]
        exact ⟨hin, hkeys r hr⟩
      · obtain ⟨tail, rfl⟩ := hb'
        refine ⟨fun fuel hfuel => (protocolKeysFrom_eq rfl rfl rfl hk hbehind tail hfuel).1, ?_⟩
        exact (protocolKeysFrom_eq rfl rfl rfl hk hbehind tail (Nat.lt_succ_self _)).2
    | set => simp at hset
    | delete => simp at hget
    | touch => simp at hget
    | version => simp at hget
    | quit => simp at hget
  | data hline hheader hset => exact absurd (hset.symm.trans hget) (by simp)

/-- The line `get a  bc ` has two keys. -/
theorem next_key_parsed_two :
    protocolKeysFrom (text ['g', 'e', 't', ' ', 'a', ' ', ' ', 'b', 'c', ' '] ++ crlf) 2 {
        key := some 4
        keyLen := 1
        keysEnd := some 10 } = .ok ([(some 7, 2)], {
      key := some 7
      keyLen := 2
      keysEnd := some 10 }) := by
  have hcall : protocolParseCommand
      (text ['g', 'e', 't', ' ', 'a', ' ', ' ', 'b', 'c', ' '] ++ crlf) {} =
      some (.ok, {
        key := some 4
        keyLen := 1
        keysEnd := some 10 }, 12) := by decide +kernel
  obtain ⟨line, rest, name, k, ks, hb, -, hws, -, -, hstop, -, last, hlast, hkeys⟩ :=
    (next_key_parsed hcall).1 rfl
  have hlen : 10 = line.length := Option.some.inj hstop
  have hline : line = text ['g', 'e', 't', ' ', 'a', ' ', ' ', 'b', 'c', ' '] := by
    have htake := congrArg (List.take 10) hb
    rw [List.append_assoc line, List.take_left' hlen.symm] at htake
    exact htake.symm
  subst hline
  have hwords : words (text ['g', 'e', 't', ' ', 'a', ' ', ' ', 'b', 'c', ' ']) =
      [⟨0, 3⟩, ⟨4, 1⟩, ⟨7, 2⟩] := by decide +kernel
  rw [hwords, List.cons.injEq, List.cons.injEq] at hws
  obtain ⟨-, rfl, rfl⟩ := hws
  rw [(hkeys _ (List.prefix_append _ crlf)).1 2 (by decide), hlast]
  rfl

end Kvx.Protocol
