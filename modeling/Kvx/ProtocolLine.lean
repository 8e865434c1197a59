import Kvx.ProtocolHeader

/-!
# The header line

`proto_parse_header` takes the key loop exactly if the first word of the line is `get`,
and never reads past the line.
-/
namespace Kvx.Protocol

open Kvx.Lib

variable {line : List UInt8} {r : Run} {ws : List Run} {cmd cmd' : Command} {pos start : ℕ}

def parseKeys (line : List UInt8) : List Run → Command → Parse Command
  | [], cmd => .ok cmd
  | r :: ws, cmd => do
      let current ← protoParseKey line (Token.ofRun r) {}
      parseKeys line ws
        (if cmd.key = none then { cmd with key := current.key, keyLen := current.keyLen } else cmd)

theorem protoParseGetKeysFrom_eq {fuel : ℕ} (h : pos ≤ line.length)
    (hfuel : line.length - pos < fuel) (cmd : Command) :
    protoParseGetKeysFrom line line.length fuel pos cmd =
      parseKeys line (wordsFrom line pos) cmd := by
  induction fuel generalizing pos cmd with
  | zero => omega
  | succ fuel ih =>
    unfold protoParseGetKeysFrom
    by_cases hlt : pos < line.length
    · rw [if_pos hlt]
      obtain ⟨start, hskip, hle, ⟨hend, hnil⟩ | ⟨hstart, stop, hword, hpos, hstop, hcons⟩⟩ :=
        words_step h
      · rw [hskip, ok_bind, if_pos hend, hnil]
        rfl
      · have hunfold : (fun ch => !protoIsSeparator ch) = isWordByte := rfl
        rw [hskip, ok_bind, if_neg hstart.ne, hunfold, hword, ok_bind, hcons]
        exact bind_congr_ok fun current _ => ih hstop (by omega) _
    · have hnil : wordsFrom line pos = [] := by
        rw [wordsFrom, List.drop_of_length_le (by omega), runs]
      rw [if_neg hlt, hnil]
      rfl

def keysFound (cmd : Command) : List Run → Command
  | [] => cmd
  | r :: _ => if cmd.key = none then { cmd with key := some r.start, keyLen := r.len } else cmd

theorem parseKeys_eq (hw : Within line ws) (cmd : Command) :
    parseKeys line ws cmd ≠ .fault ∧
      ∀ cmd', parseKeys line ws cmd = .ok cmd' ↔
        (∀ r ∈ ws, KeyOk (r.of line)) ∧ cmd' = keysFound cmd ws := by
  induction ws generalizing cmd with
  | nil =>
    refine ⟨by simp [parseKeys], fun cmd' => ?_⟩
    simp [parseKeys, keysFound, eq_comm]
  | cons r ws ih =>
    have hr := hw r List.mem_cons_self
    have hws : Within line ws := fun r hr => hw r (List.mem_cons_of_mem _ hr)
    unfold parseKeys
    by_cases hk : KeyOk (r.of line)
    · rw [protoParseKey_ok hr hk, ok_bind]
      have hstep := ih hws (keysFound cmd (r :: ws))
      have hsame : keysFound (keysFound cmd (r :: ws)) ws = keysFound cmd (r :: ws) := by
        cases hkey : cmd.key with
        | none => cases ws <;> simp [keysFound, hkey]
        | some k => cases ws <;> simp [keysFound, hkey]
      rw [hsame] at hstep
      simpa [keysFound, hk] using hstep
    · obtain ⟨err, herr⟩ := protoParseKey_error hr hk {}
      rw [herr]
      refine ⟨by simp, fun cmd' => ?_⟩
      simp [hk]

theorem wordByte_iff {ch : UInt8} : isWordByte ch = false ↔ protoIsSeparator ch = true := by
  simp [isWordByte]

theorem takeWhile_get {rest : List UInt8} :
    rest.takeWhile isWordByte = commandName .get ↔
      ∃ tail, rest = commandName .get ++ tail ∧
        ∀ ch, tail.head? = some ch → protoIsSeparator ch = true := by
  constructor
  · intro h
    refine ⟨rest.dropWhile isWordByte, ?_, fun ch hch => ?_⟩
    · rw [← h, List.takeWhile_append_dropWhile]
    · have hd := List.head?_dropWhile_not isWordByte rest
      rw [hch] at hd
      exact wordByte_iff.mp hd
  · rintro ⟨tail, rfl, htail⟩
    rw [List.takeWhile_append_of_pos (List.all_eq_true.mp rfl)]
    cases tail with
    | nil => rfl
    | cons ch tail =>
      have hch := wordByte_iff.mpr (htail ch rfl)
      rw [List.takeWhile_cons_of_neg (by simp [hch]), List.append_nil]

theorem protoIsGet_true (h : start ≤ line.length)
    (hget : (line.drop start).takeWhile isWordByte = commandName .get) :
    protoIsGet line line.length start = .ok true := by
  obtain ⟨tail, hrest, htail⟩ := takeWhile_get.mp hget
  have hlen : line.length - start = 3 + tail.length := by
    rw [← List.length_drop, hrest, List.length_append]
    rfl
  have hread : (readSlice line start 3 : Parse (List UInt8)) = .ok (commandName .get) := by
    have htake : (commandName .get ++ tail).take 3 = commandName .get := List.take_left' rfl
    rw [readSlice_eq (by omega), hrest, htake]
  unfold protoIsGet
  have hfold : text ['g', 'e', 't'] = commandName .get := rfl
  rw [if_neg (by omega), hread, ok_bind, hfold, if_neg (not_not.mpr rfl)]
  by_cases h3 : line.length - start = 3
  · rw [if_pos h3]
  · cases tail with
    | nil => simp at hlen; omega
    | cons ch tail =>
      have hch : (readAt line (start + 3) : Parse UInt8) = .ok ch := by
        apply readAt_eq
        rw [← List.getElem?_drop, hrest]
        rfl
      rw [if_neg h3, hch, ok_bind, htail ch rfl]

theorem protoIsGet_false (h : start ≤ line.length)
    (hget : (line.drop start).takeWhile isWordByte ≠ commandName .get) :
    protoIsGet line line.length start = .ok false := by
  unfold protoIsGet
  by_cases hshort : line.length - start < 3
  · rw [if_pos hshort]
  rw [if_neg hshort, readSlice_eq (by omega), ok_bind]
  by_cases hname : (line.drop start).take 3 = text ['g', 'e', 't']
  · have hsplit : line.drop start = commandName .get ++ line.drop (start + 3) := by
      conv_lhs => rw [← List.take_append_drop 3 (line.drop start), hname, List.drop_drop]
      rfl
    rw [if_neg (not_not.mpr hname)]
    by_cases h3 : line.length - start = 3
    · refine absurd (takeWhile_get.mpr ⟨_, hsplit, ?_⟩) hget
      rw [List.drop_of_length_le (by omega)]
      simp
    · have hlt : start + 3 < line.length := by omega
      rw [if_neg h3, readAt_eq (List.getElem?_eq_getElem hlt), ok_bind]
      congr 1
      by_contra hsep
      refine hget (takeWhile_get.mpr ⟨_, hsplit, ?_⟩)
      rw [List.drop_eq_getElem_cons hlt, List.head?_cons]
      simpa using hsep
  · rw [if_pos hname]

/-- Where the skipped separators of a line end, and the word that starts there. -/
theorem words_first (line : List UInt8) :
    ∃ start, advanceWhile protoIsSeparator line line.length 0 = .ok start ∧
      start ≤ line.length ∧
      ((start = line.length ∧ words line = []) ∨
        ∃ name : Run, words line = name :: wordsFrom line (start + name.len) ∧
          start + name.len ≤ line.length ∧
          name.of line = (line.drop start).takeWhile isWordByte) := by
  obtain ⟨start, hskip, hle, hnil | ⟨hstart, stop, hword, -, hstop, hcons⟩⟩ :=
    words_step (Nat.zero_le line.length)
  · exact ⟨start, hskip, hle, Or.inl hnil⟩
  · have hlen := advanceWhile_eq isWordByte hle
    rw [hword] at hlen
    injection hlen with hlen
    have htake := List.prefix_iff_eq_take.mp
      (List.takeWhile_prefix isWordByte (l := line.drop start))
    refine ⟨start, hskip, hle, Or.inr ⟨⟨start, stop - start⟩, ?_, by simp only; omega, ?_⟩⟩
    · rw [← wordsFrom_zero, hcons]
      simp only [show start + (stop - start) = stop by omega]
    · rw [htake, Run.of]
      simp only [show stop - start = ((line.drop start).takeWhile isWordByte).length by omega]

theorem protoParseHeader_get {name : Run} (hws : words line = name :: ws)
    (hname : name.of line = commandName .get) (cmd : Command) :
    protoParseHeader line line.length cmd =
      parseKeys line ws cmd >>= fun cmd =>
        if cmd.key = none then .error .invalidArguments
        else .ok { cmd with type := .get, keysEnd := some line.length } := by
  obtain ⟨start, hskip, hle, ⟨-, hnil⟩ | ⟨name', hcons, hstop, htext⟩⟩ := words_first line
  · simp [hws] at hnil
  · rw [hws, List.cons.injEq] at hcons
    obtain ⟨rfl, hrest⟩ := hcons
    have hlen : name.len = 3 := by
      have hmem : name ∈ words line := hws ▸ List.mem_cons_self
      have hl := of_length (words_within hmem).2
      rw [hname] at hl
      exact hl.symm
    rw [hlen] at hstop hrest
    have hend : start + 3 + (line.length - start - 3) = line.length := by omega
    unfold protoParseHeader protoParseGetKeys
    rw [hskip, ok_bind, protoIsGet_true hle (htext.symm.trans hname), ok_bind, if_pos rfl, hend,
      protoParseGetKeysFrom_eq hstop (by omega), hrest]

theorem protoParseHeader_tokens
    (hname : ∀ name ws, words line = name :: ws → name.of line ≠ commandName .get)
    (cmd : Command) :
    protoParseHeader line line.length cmd =
      if (words line).length ≤ protoMaxTokens then
        protoParseTokens line ((words line).map Token.ofRun) cmd
      else .error .invalidArguments := by
  obtain ⟨start, hskip, hle, hfirst⟩ := words_first line
  have hget : (line.drop start).takeWhile isWordByte ≠ commandName .get := by
    rcases hfirst with ⟨hend, -⟩ | ⟨name, hcons, -, htext⟩
    · rw [List.drop_of_length_le (by omega)]
      decide
    · rw [← htext]
      exact hname name _ hcons
  unfold protoParseHeader
  rw [hskip, ok_bind, protoIsGet_false hle hget, ok_bind, if_neg (by decide), protoTokenize_eq]
  split_ifs <;> rfl

theorem protoParseHeader_ne_fault (line : List UInt8) :
    protoParseHeader line line.length {} ≠ .fault := by
  have hw := words_all_within line
  by_cases hget : ∃ name ws, words line = name :: ws ∧ name.of line = commandName .get
  · obtain ⟨name, ws, hws, hname⟩ := hget
    rw [hws] at hw
    rw [protoParseHeader_get hws hname]
    refine bind_ne_fault (parseKeys_eq (fun r hr => hw r (List.mem_cons_of_mem _ hr)) {}).1
      fun cmd _ => ?_
    split_ifs <;> simp
  · rw [protoParseHeader_tokens fun name ws hws hname => hget ⟨name, ws, hws, hname⟩]
    split_ifs
    · exact protoParseTokens_ne_fault hw
    · simp

end Kvx.Protocol
