import Kvx.CommandStream

/-!
# The streams of the parser's benchmark

`parse_all` has the whole stream at once, and `parse_chunked` a window that grows by a chunk
whenever the command in it is incomplete.
-/
namespace Kvx.Protocol

open Kvx.Lib Kvx.Net

/-- The number of a type in `command_type_t`. -/
def CommandType.number : CommandType → UInt64
  | .get => 0
  | .set => 1
  | .delete => 2
  | .touch => 3
  | .version => 4
  | .quit => 5

def consume (cmd : Command) : UInt64 :=
  UInt64.ofNat cmd.keyLen + UInt64.ofNat cmd.valueLen + cmd.type.number

/-- The loop of `parse_all`. A command is not empty, so `fuel` does not run out. -/
def parseAllFrom (data : List UInt8) : ℕ → ℕ → ℕ → UInt64 → Option (ℕ × UInt64)
  | 0, _, _, _ => none
  | fuel + 1, pos, count, acc =>
      if pos < data.length then do
        let (code, cmd, consumed) ←
          protocolParseCommand (← loadBytes data pos (data.length - pos)) {}
        if code ≠ .ok then some (count, acc)
        else parseAllFrom data fuel (pos + consumed) (count + 1) (acc + consume cmd)
      else some (count, acc)

def parseAll (data : List UInt8) : Option (ℕ × UInt64) :=
  parseAllFrom data (data.length + 1) 0 0 0

/-- `chunk_stats_t`. -/
structure ChunkStats where
  count : ℕ := 0
  retries : ℕ := 0
  acc : UInt64 := 0
  ok : Bool := true
  deriving DecidableEq, Repr

def growWindow (filled chunk len : ℕ) : ℕ := min ((filled + chunk) % 2 ^ 64) len

/-- The loop of `parse_chunked`. A step passes a command or makes the window larger. -/
def parseChunkedFrom (data : List UInt8) (chunk : ℕ) :
    ℕ → ℕ → ℕ → ChunkStats → Option ChunkStats
  | 0, _, _, _ => none
  | fuel + 1, pos, filled, st =>
      if pos < data.length then do
        let (code, cmd, consumed) ← protocolParseCommand (← loadBytes data pos (filled - pos)) {}
        if code = .ok then
          parseChunkedFrom data chunk fuel (pos + consumed) filled
            { st with acc := st.acc + consume cmd, count := st.count + 1 }
        else if code ≠ .err .incomplete then some { st with ok := false }
        else if filled = data.length then some { st with ok := false }
        else
          parseChunkedFrom data chunk fuel pos (growWindow filled chunk data.length)
            { st with retries := st.retries + 1 }
      else some st

def parseChunked (data : List UInt8) (chunk : ℕ) : Option ChunkStats :=
  parseChunkedFrom data chunk (2 * data.length + 1) 0 0 {}

def accumulate (acc : UInt64) (frames : List (Command × Seen)) : UInt64 :=
  frames.foldl (fun acc frame => acc + consume frame.1) acc

variable {data : List UInt8}

theorem stuck_end {pos : ℕ} (h : ¬ pos < data.length) :
    commands.Stuck (data.drop pos) none := by
  rw [List.drop_of_length_le (not_lt.mp h)]
  exact .more rfl

theorem parseAllFrom_spec {fuel pos : ℕ} (hle : pos ≤ data.length)
    (hfuel : data.length < pos + fuel) (count : ℕ) (acc : UInt64) :
    ∃ frames t err, commands.Cut (data.drop pos) frames t ∧ commands.Stuck t err ∧
      parseAllFrom data fuel pos count acc =
        some (count + frames.length, accumulate acc frames) := by
  induction fuel generalizing pos count acc with
  | zero => omega
  | succ fuel ih =>
    unfold parseAllFrom
    by_cases hpos : pos < data.length
    · have hload : loadBytes data pos (data.length - pos) = some (data.drop pos) := by
        rw [loadBytes_eq (by omega), List.take_of_length_le (by rw [List.length_drop])]
      rw [if_pos hpos, hload, Option.bind_eq_bind, Option.bind_some]
      cases parseResult (data.drop pos) with
      | incomplete hcall hnext =>
        rw [hcall]
        exact ⟨[], _, none, .nil _, .more hnext, rfl⟩
      | rejected hcall herr hnext =>
        rw [hcall]
        exact ⟨[], _, _, .nil _, .reject hnext, rfl⟩
      | @parsed cmd command n hcall hsee hn hlen hlater hnext =>
        rw [List.length_drop] at hlen
        obtain ⟨frames, t, err, hcut, hstuck, hrun⟩ :=
          ih (show pos + n ≤ data.length by omega) (by omega) (count + 1) (acc + consume cmd)
        rw [← List.drop_drop] at hcut
        refine ⟨(cmd, command) :: frames, t, err, .cons hnext hcut, hstuck, ?_⟩
        rw [hcall, Option.bind_eq_bind, Option.bind_some]
        simp only [ne_eq, not_true_eq_false, if_false]
        rw [hrun, List.length_cons, Nat.add_right_comm, Nat.add_assoc]
        rfl
    · rw [if_neg hpos]
      exact ⟨[], _, none, .nil _, stuck_end hpos, rfl⟩

theorem growWindow_spec {filled chunk len : ℕ} (hlen : len ≤ ssizeMax) (hchunk : 0 < chunk)
    (hfilled : filled < len) (hwrap : filled + chunk < 2 ^ 64) :
    filled < growWindow filled chunk len ∧ growWindow filled chunk len ≤ len ∧
      (growWindow filled chunk len = len ∨ growWindow filled chunk len + chunk < 2 ^ 64) := by
  unfold growWindow
  rw [Nat.mod_eq_of_lt hwrap]
  unfold ssizeMax at hlen
  omega

theorem parseChunkedFrom_spec {chunk fuel pos filled : ℕ} (hsize : data.length ≤ ssizeMax)
    (hchunk : 0 < chunk) (hpos : pos ≤ filled) (hfilled : filled ≤ data.length)
    (hwrap : filled = data.length ∨ filled + chunk < 2 ^ 64)
    (hfuel : 2 * data.length < pos + filled + fuel) (st : ChunkStats) :
    ∃ frames t err st', commands.Cut (data.drop pos) frames t ∧ commands.Stuck t err ∧
      parseChunkedFrom data chunk fuel pos filled st = some st' ∧
      st'.count = st.count + frames.length ∧ st'.acc = accumulate st.acc frames := by
  induction fuel generalizing pos filled st with
  | zero => omega
  | succ fuel ih =>
    unfold parseChunkedFrom
    by_cases hlt : pos < data.length
    · obtain ⟨w, hw⟩ : ∃ w, (data.drop pos).take (filled - pos) = w := ⟨_, rfl⟩
      have hload : loadBytes data pos (filled - pos) = some w := by
        rw [loadBytes_eq (by omega), hw]
      have hsplit : data.drop pos = w ++ data.drop filled := by
        rw [← hw, show data.drop filled = (data.drop pos).drop (filled - pos) by
          rw [List.drop_drop, Nat.add_sub_cancel' hpos], List.take_append_drop]
      have hlen : w.length = filled - pos := by
        rw [← hw, List.length_take, List.length_drop]
        omega
      rw [if_pos hlt, hload, Option.bind_eq_bind, Option.bind_some]
      cases parseResult w with
      | incomplete hcall hnext =>
        rw [hcall, Option.bind_eq_bind, Option.bind_some]
        simp only [reduceCtorEq, if_false, ne_eq, not_true_eq_false]
        by_cases hend : filled = data.length
        · rw [if_pos hend]
          have hwhole : data.drop pos = w := by
            rw [hsplit, hend, List.drop_length, List.append_nil]
          exact ⟨[], _, none, _, .nil _, .more (hwhole ▸ hnext), rfl, rfl, rfl⟩
        · rw [if_neg hend]
          obtain ⟨hgrow, hwindow, hwrap'⟩ := growWindow_spec hsize hchunk
            (lt_of_le_of_ne hfilled hend) (hwrap.resolve_left hend)
          exact ih (by omega) hwindow hwrap' (by omega) _
      | @rejected err hcall herr hnext =>
        have hstuck : commands.Stuck (data.drop pos) (some err) :=
          .reject (hsplit ▸ commands.next_append hnext (by simp) _)
        rw [hcall, Option.bind_eq_bind, Option.bind_some]
        simp only [reduceCtorEq, if_false, ne_eq, ProtoCode.err.injEq, herr, not_false_eq_true,
          if_true]
        exact ⟨[], _, _, _, .nil _, hstuck, rfl, rfl, rfl⟩
      | @parsed cmd command n hcall hsee hn hle hlater hnext =>
        obtain ⟨frames, t, err, st', hcut, hstuck, hrun, hcount, hacc⟩ :=
          ih (show pos + n ≤ filled by omega) hfilled hwrap (by omega)
            { st with acc := st.acc + consume cmd, count := st.count + 1 }
        rw [← List.drop_drop] at hcut
        have hnext' : commands.next (data.drop pos) = .accept (cmd, command) n :=
          hsplit ▸ commands.next_append hnext (by simp) _
        refine ⟨(cmd, command) :: frames, t, err, st', .cons hnext' hcut, hstuck, ?_, ?_, hacc⟩
        · rw [hcall, Option.bind_eq_bind, Option.bind_some]
          exact hrun
        · rw [hcount, List.length_cons]
          exact Nat.add_right_comm _ _ _
    · rw [if_neg hlt]
      exact ⟨[], _, none, st, .nil _, stuck_end hlt, rfl, rfl, rfl⟩

/-- The chunks of a stream give the count and the sum of the whole stream. -/
theorem parseChunked_eq_parseAll {chunk : ℕ} (hsize : data.length ≤ ssizeMax)
    (hchunk : 0 < chunk) (hmax : chunk ≤ sizeMax) :
    ∃ st, parseChunked data chunk = some st ∧ parseAll data = some (st.count, st.acc) := by
  have hwrap : 0 + chunk < 2 ^ 64 := by
    unfold sizeMax at hmax
    omega
  have hfuel : data.length < 0 + (data.length + 1) := by omega
  have hfuel' : 2 * data.length < 0 + 0 + (2 * data.length + 1) := by omega
  obtain ⟨frames, t, err, hcut, hstuck, hall⟩ :=
    parseAllFrom_spec (Nat.zero_le data.length) hfuel 0 0
  obtain ⟨frames', t', err', st, hcut', hstuck', hchunked, hcount, hacc⟩ :=
    parseChunkedFrom_spec hsize hchunk le_rfl (Nat.zero_le _) (Or.inr hwrap) hfuel' {}
  obtain ⟨rfl, -, -⟩ := hcut.unique hstuck hcut' hstuck'
  exact ⟨st, hchunked, by rw [hcount, hacc]; exact hall⟩

end Kvx.Protocol
