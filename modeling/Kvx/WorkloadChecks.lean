import Kvx.WorkloadStream

/-!
# The streams pass their checks

The commands of a stream stand one after the other, each as its expectation says. So the checks pass
for every workload and every seed, and both parse loops find all commands.
-/
namespace Kvx.ProtocolBench

open Kvx.Lib Kvx.Protocol Kvx.Net

/-- The texts of the commands from `pos` on, with the expectations. -/
inductive TellsFrom : ℕ → List Expect → List (List UInt8) → Prop
  | nil (pos : ℕ) : TellsFrom pos [] []
  | cons {pos : ℕ} {e : Expect} {told : List UInt8} {es : List Expect} {ts : List (List UInt8)} :
      Told pos e told → e.len = told.length → TellsFrom (pos + told.length) es ts →
      TellsFrom pos (e :: es) (told :: ts)

theorem TellsFrom.concat {pos : ℕ} {es : List Expect} {ts : List (List UInt8)} {e : Expect}
    {told : List UInt8} (h : TellsFrom pos es ts) (hlast : Told (pos + ts.flatten.length) e told)
    (hlen : e.len = told.length) : TellsFrom pos (es ++ [e]) (ts ++ [told]) := by
  induction h with
  | nil pos => exact .cons hlast hlen (.nil _)
  | @cons pos e' told' es ts hfirst hlen' _ ih =>
    rw [List.flatten_cons, List.length_append, ← Nat.add_assoc] at hlast
    exact .cons hfirst hlen' (ih hlast)

theorem Told.checked {start : ℕ} {e : Expect} {told : List UInt8} (h : Told start e told)
    (rest : List UInt8) : ∃ cmd, protocolParseCommand (told ++ rest) {} =
      some (.ok, cmd, told.length) ∧ ∀ (s : Stream) (before : List UInt8),
        s.data = before ++ (told ++ rest) → before.length = start →
        checkFields s start e cmd = some true := by
  obtain ⟨cmd, hparse, hcheck⟩ := h.parsed
  exact ⟨cmd, hparse rest, fun s before => hcheck s before rest⟩

theorem verifyFrom_told {s : Stream} {pos : ℕ} {es : List Expect} {ts : List (List UInt8)}
    (h : TellsFrom pos es ts) {before : List UInt8} (hdata : s.data = before ++ ts.flatten)
    (hpos : before.length = pos) : verifyFrom s es pos = some true := by
  induction h generalizing before with
  | nil pos => rfl
  | @cons pos e told es ts hfirst hlen _ ih =>
    rw [List.flatten_cons] at hdata
    obtain ⟨cmd, hparse, hcheck⟩ := hfirst.checked ts.flatten
    have hload : loadBytes s.data pos (s.data.length - pos) = some (told ++ ts.flatten) := by
      rw [loadBytes_eq (by rw [hdata, List.length_append]; omega), hdata, ← hpos, List.drop_left,
        List.length_append, Nat.add_sub_cancel_left, List.take_length]
    have hrest : verifyFrom s es (pos + told.length) = some true :=
      ih (by rw [hdata, List.append_assoc]) (by rw [List.length_append, hpos])
    simp only [verifyFrom, hload, hparse, hlen, hcheck s before hdata hpos, hrest, ne_eq,
      not_true_eq_false, if_false, Option.bind_eq_bind, Option.bind_some]

theorem nextCommand_told {start : ℕ} {e : Expect} {told : List UInt8} (h : Told start e told)
    (rest : List UInt8) :
    ∃ frame, commands.next (told ++ rest) = .accept frame told.length := by
  obtain ⟨cmd, hparse, -⟩ := h.checked rest
  cases parseResult (told ++ rest) with
  | incomplete hcall hnext => simp [hparse] at hcall
  | rejected hcall herr hnext => simp [hparse] at hcall
  | parsed hcall hsee hpos hle hlater hnext =>
    rw [hparse] at hcall
    simp only [Option.some.injEq, Prod.mk.injEq, true_and] at hcall
    exact ⟨_, hcall.2 ▸ hnext⟩

theorem cut_told {pos : ℕ} {es : List Expect} {ts : List (List UInt8)} (h : TellsFrom pos es ts) :
    ∃ frames, commands.Cut ts.flatten frames [] ∧ frames.length = es.length := by
  induction h with
  | nil pos => exact ⟨[], .nil [], rfl⟩
  | @cons pos e told es ts hfirst hlen _ ih =>
    obtain ⟨frames, hcut, hcount⟩ := ih
    obtain ⟨frame, hnext⟩ := nextCommand_told hfirst ts.flatten
    refine ⟨frame :: frames, .cons hnext ?_, congrArg Nat.succ hcount⟩
    rwa [List.flatten_cons, List.drop_left]

theorem incomplete_of_told {start : ℕ} {e : Expect} {told : List UInt8} (h : Told start e told)
    {cut : ℕ} (hcut : cut < told.length) :
    protocolParseCommand (told.take cut) {} = some (.err .incomplete, {}, 0) := by
  obtain ⟨frame, hframe⟩ := nextCommand_told h []
  rw [List.append_nil] at hframe
  have hmore := commands.next_take hframe hcut
  cases parseResult (told.take cut) with
  | incomplete hcall hnext => exact hcall
  | rejected hcall herr hnext => exact absurd (hnext.symm.trans hmore) (by simp)
  | parsed hcall hsee hpos hle hlater hnext => exact absurd (hnext.symm.trans hmore) (by simp)

theorem prefixesFrom_told {start : ℕ} {e : Expect} {told : List UInt8} (h : Told start e told)
    (left : ℕ) {cut : ℕ} (hcut : cut + left = told.length) :
    prefixesFrom told left cut = some true := by
  induction left generalizing cut with
  | zero => rfl
  | succ left ih =>
    rw [prefixesFrom, incomplete_of_told h (by omega), Option.bind_eq_bind, Option.bind_some]
    exact ih (by omega)

/-- What `build_stream` made after `i` rounds. -/
structure Built (wl : Workload) (cap i : ℕ) (s : Writer × List Expect × BitVec 64) : Prop where
  cap_eq : s.1.cap = cap
  pos_le : s.1.pos ≤ i * (96 + wl.keyLen + wl.valueLen)
  count : s.2.1.length = i
  told : ∃ ts, s.1.written = ts.flatten ∧ TellsFrom 0 s.2.1 ts

theorem buildRound_spec {wl : Workload} (hwl : wl.Ok) {count i : ℕ} (hi : i < count)
    {s : Writer × List Expect × BitVec 64}
    (h : Built wl (count * (96 + wl.keyLen + wl.valueLen)) i s) :
    ∃ s', buildRound wl s = some s' ∧
      Built wl (count * (96 + wl.keyLen + wl.valueLen)) (i + 1) s' := by
  obtain ⟨w, es, state⟩ := s
  obtain ⟨hcap, hpos, hcount, ts, hwritten, htells⟩ := h
  have hnext : (i + 1) * (96 + wl.keyLen + wl.valueLen) ≤
      count * (96 + wl.keyLen + wl.valueLen) := Nat.mul_le_mul_right _ hi
  rw [Nat.succ_mul] at hnext
  have hroom : w.Room (96 + wl.keyLen + wl.valueLen) := by
    unfold Writer.Room
    exact (Nat.add_le_add_right hpos _).trans (hnext.trans hcap.ge)
  have hemit : ∃ s told, emitOne wl ⟨w, { start := w.pos }, state⟩ = some s ∧
      Emitted wl w s told := emitOne_spec hwl hroom rfl
  obtain ⟨s', told, hrun, hadds, htold, hshort⟩ := hemit
  have hat : w.pos = 0 + ts.flatten.length := by rw [Writer.pos, hwritten, Nat.zero_add]
  have hlen : s'.w.pos - s'.e.start = told.length := by
    rw [htold.start_eq, hadds.pos, Nat.add_sub_cancel_left]
  refine ⟨(s'.w, es ++ [{ s'.e with len := s'.w.pos - s'.e.start }], s'.state), ?_, ?_⟩
  · simp only [buildRound, hrun, Option.bind_eq_bind, Option.bind_some]
  · refine ⟨hadds.cap.trans hcap, ?_, ?_, ts ++ [told], ?_, ?_⟩
    · rw [hadds.pos, Nat.succ_mul]
      exact Nat.add_le_add hpos hshort
    · rw [List.length_append, List.length_singleton]
      exact congrArg Nat.succ hcount
    · rw [hadds.written, List.flatten_append, List.flatten_singleton]
      exact congrArg (· ++ told) hwritten
    · rw [hat] at htold
      exact htells.concat ⟨htold.start_eq, htold.parsed⟩ hlen

theorem buildStream_spec {wl : Workload} (hwl : wl.Ok) (wanted : ℕ) (seed : BitVec 64) :
    ∃ s ts, buildStream wl wanted seed = some s ∧
      s.count = min wanted (streamBudget / (96 + wl.keyLen + wl.valueLen)) ∧
      s.expect.length = s.count ∧ s.data.length ≤ streamBudget ∧ s.data = ts.flatten ∧
      TellsFrom 0 s.expect ts := by
  have hper : cmdMaxLen wl = 96 + wl.keyLen + wl.valueLen := Nat.mod_eq_of_lt hwl.fits
  obtain ⟨count, hcount⟩ : ∃ count,
    min wanted (streamBudget / (96 + wl.keyLen + wl.valueLen)) = count := ⟨_, rfl⟩
  have hbudget : count * (96 + wl.keyLen + wl.valueLen) ≤ streamBudget :=
    (Nat.mul_le_mul_right _ (hcount ▸ Nat.min_le_right _ _)).trans (Nat.div_mul_le_self _ _)
  have hrounds : ∃ s, countTo count (fun _ => buildRound wl)
      (Writer.empty (count * (96 + wl.keyLen + wl.valueLen)), [], seed) = some s ∧
      Built wl (count * (96 + wl.keyLen + wl.valueLen)) count s :=
    countTo_inv ⟨rfl, Nat.zero_le _, rfl, [], rfl, .nil 0⟩
      fun i hi s hs => buildRound_spec hwl hi hs
  obtain ⟨⟨w, es, state⟩, hrun, hcap, hpos, hlen, ts, hwritten, htells⟩ := hrounds
  refine ⟨⟨w.written, count, es⟩, ts, ?_, hcount.symm, hlen, hpos.trans hbudget, hwritten, htells⟩
  have hne : 96 + wl.keyLen + wl.valueLen ≠ 0 := by omega
  simp only [buildStream, hper, guard, hne, hcount, hrun, ne_eq, not_false_eq_true, if_true,
    Option.bind_eq_bind, Option.bind_some, Option.pure_def]

/-- The window of `parse_chunked` after its reads. -/
structure Window (chunk len filled retries : ℕ) : Prop where
  filled_eq : filled = min (retries * chunk) len
  last : retries * chunk < len + chunk
  fits : filled = len ∨ filled + chunk < 2 ^ 64

theorem Window.grow {chunk len filled retries : ℕ} (h : Window chunk len filled retries)
    (hlen : len ≤ ssizeMax) (hchunk : 0 < chunk) (hpart : filled ≠ len) :
    Window chunk len (growWindow filled chunk len) (retries + 1) ∧
      filled < growWindow filled chunk len := by
  have hfits := h.fits.resolve_left hpart
  have hmin := h.filled_eq
  have hnext : (retries + 1) * chunk = retries * chunk + chunk := Nat.succ_mul retries chunk
  obtain ⟨hgrow, -, hwrap⟩ := growWindow_spec hlen hchunk (by omega) hfits
  refine ⟨⟨?_, ?_, hwrap⟩, hgrow⟩
  · rw [growWindow, Nat.mod_eq_of_lt hfits]
    omega
  · omega

/-- Of a stream of whole commands all are parsed, in as many reads as it has chunks. -/
theorem parseChunkedFrom_whole {data : List UInt8} {chunk fuel pos filled : ℕ}
    {frames : List (Command × Seen)} (st : ChunkStats)
    (hcut : commands.Cut (data.drop pos) frames []) (hsize : data.length ≤ ssizeMax)
    (hchunk : 0 < chunk) (hpos : pos ≤ filled)
    (hwindow : Window chunk data.length filled st.retries)
    (hfuel : 2 * data.length < pos + filled + fuel) :
    ∃ st', parseChunkedFrom data chunk fuel pos filled st = some st' ∧ st'.ok = st.ok ∧
      st'.count = st.count + frames.length ∧ data.length ≤ st'.retries * chunk ∧
      st'.retries * chunk < data.length + chunk := by
  have hfilled : filled ≤ data.length := hwindow.filled_eq.trans_le (Nat.min_le_right _ _)
  induction fuel generalizing pos filled frames st with
  | zero => omega
  | succ fuel ih =>
    unfold parseChunkedFrom
    by_cases hlt : pos < data.length
    · obtain ⟨frame, n, rest, rfl, hnext, hrest⟩ :=
        hcut.first (List.ne_nil_of_length_pos (by rw [List.length_drop]; omega))
      obtain ⟨w, hw⟩ : ∃ w, (data.drop pos).take (filled - pos) = w := ⟨_, rfl⟩
      have hload : loadBytes data pos (filled - pos) = some w := by
        rw [loadBytes_eq (by omega), hw]
      have hlen : w.length = filled - pos := by
        rw [← hw, List.length_take, List.length_drop]
        omega
      have hlater {v} (hv : commands.next w = v) (hmore : v ≠ .more) : v = .accept frame n := by
        have hstable := commands.next_append hv hmore ((data.drop pos).drop (filled - pos))
        rw [← hw, List.take_append_drop] at hstable
        exact hstable.symm.trans hnext
      rw [if_pos hlt, hload, Option.bind_eq_bind, Option.bind_some]
      cases parseResult w with
      | incomplete hcall hmore =>
        have hpart : filled ≠ data.length := by
          intro hend
          have hwhole : w = data.drop pos := by
            rw [← hw, hend, ← List.length_drop, List.take_length]
          rw [hwhole] at hmore
          exact absurd (hnext.symm.trans hmore) (by simp)
        obtain ⟨hwindow', hgrow⟩ := hwindow.grow hsize hchunk hpart
        rw [hcall, Option.bind_eq_bind, Option.bind_some]
        simp only [reduceCtorEq, if_false, ne_eq, not_true_eq_false, if_neg hpart]
        exact ih { st with retries := st.retries + 1 } hcut (by omega) hwindow' (by omega)
          (Nat.min_le_right _ _)
      | rejected hcall herr hreject => exact absurd (hlater hreject (by simp)) (by simp)
      | @parsed cmd command n' hcall hsee hn hle hlonger haccept =>
        have hsame := hlater haccept (by simp)
        injection hsame with _ hn'
        rw [← hn', List.drop_drop] at hrest
        obtain ⟨st', hrun, hok, hcount, hreads⟩ := ih
          { st with acc := st.acc + consume cmd, count := st.count + 1 } hrest (by omega) hwindow
          (by omega) hfilled
        refine ⟨st', ?_, hok, ?_, hreads⟩
        · rw [hcall, Option.bind_eq_bind, Option.bind_some]
          exact hrun
        · rw [hcount, List.length_cons]
          exact Nat.add_right_comm _ _ _
    · rw [List.drop_of_length_le (not_lt.mp hlt)] at hcut
      have hmin := hwindow.filled_eq
      rw [if_neg hlt, hcut.frames_eq_nil]
      exact ⟨st, rfl, rfl, rfl, by omega, hwindow.last⟩

section Workloads

variable {wl : Workload} {wanted : ℕ}

theorem Workload.ok_of_fits (hkey : 1 ≤ wl.keyLen) (hmax : wl.keyLen ≤ 250)
    (hfits : 96 + wl.keyLen + wl.valueLen ≤ streamBudget) : wl.Ok :=
  ⟨hkey, hmax, hfits.trans_lt (by decide)⟩

/-- The mixed workload of `WORKLOADS` -/
def mixed : Workload := ⟨.get, 10, 24, 32, false⟩

/-- Every command of a workload is parsed as expected, and the parser waits on every part of it. -/
theorem workload_verified (hkey : 1 ≤ wl.keyLen) (hmax : wl.keyLen ≤ 250)
    (hfits : 96 + wl.keyLen + wl.valueLen ≤ streamBudget) (hwanted : 1 ≤ wanted)
    (seed : BitVec 64) :
    ∃ s, buildStream wl wanted seed = some s ∧
      s.count = min wanted (streamBudget / (96 + wl.keyLen + wl.valueLen)) ∧
      verifyStream s = some true ∧ checkPrefixes s = some true := by
  have hwl := Workload.ok_of_fits hkey hmax hfits
  obtain ⟨s, ts, hrun, hcount, hlen, hbudget, hdata, htells⟩ := buildStream_spec hwl wanted seed
  have hpos : 0 < s.count := by
    rw [hcount]
    exact lt_min hwanted (Nat.div_pos hfits (by omega))
  have hwhole : s.data = [] ++ ts.flatten := hdata
  refine ⟨s, hrun, hcount, verifyFrom_told htells hwhole rfl, ?_⟩
  cases hes : s.expect with
  | nil =>
    rw [hes, List.length_nil] at hlen
    omega
  | cons e es =>
    rw [hes] at htells
    cases htells with
    | @cons pos e told es ts hfirst htold hrest =>
      have hload : loadBytes s.data e.start e.len = some told := by
        have := loadBytes_middle [] told ts.flatten
        rw [hfirst.start_eq, htold, hdata]
        exact this
      simp only [checkPrefixes, hes, List.getElem?_cons_zero, hload, Option.bind_eq_bind,
        Option.bind_some]
      exact prefixesFrom_told hfirst _ ((Nat.zero_add _).trans htold)

theorem workload_verified_mixed : ∃ s, buildStream mixed 1000000 0x5EED0109#64 = some s ∧
    s.count = min 1000000 (streamBudget / (96 + mixed.keyLen + mixed.valueLen)) ∧
    verifyStream s = some true ∧ checkPrefixes s = some true :=
  workload_verified (by decide) (by decide) (by decide) (by decide) _

/-- The loops find all commands of a workload, whatever the chunks are. The chunked one reads each
chunk once. -/
theorem workload_parsed (hkey : 1 ≤ wl.keyLen) (hmax : wl.keyLen ≤ 250)
    (hfits : 96 + wl.keyLen + wl.valueLen ≤ streamBudget) (seed : BitVec 64) {chunk : ℕ}
    (hchunk : 1 ≤ chunk) (hword : chunk ≤ sizeMax) :
    ∃ s st, buildStream wl wanted seed = some s ∧ parseAll s.data = some (s.count, st.acc) ∧
      parseChunked s.data chunk = some st ∧ st.ok = true ∧ st.count = s.count ∧
      s.data.length ≤ st.retries * chunk ∧ st.retries * chunk < s.data.length + chunk := by
  have hwl := Workload.ok_of_fits hkey hmax hfits
  obtain ⟨s, ts, hrun, -, hlen, hbudget, hdata, htells⟩ := buildStream_spec hwl wanted seed
  have hsize : s.data.length ≤ ssizeMax := hbudget.trans (by decide)
  obtain ⟨frames, hcut, hframes⟩ := cut_told htells
  rw [← hdata, ← List.drop_zero (l := s.data)] at hcut
  have hwindow : Window chunk s.data.length 0 ({} : ChunkStats).retries :=
    ⟨by simp, by simp; omega, Or.inr (by unfold sizeMax at hword; omega)⟩
  have hfuel : 2 * s.data.length < 0 + 0 + (2 * s.data.length + 1) := by omega
  obtain ⟨st, hchunked, hok, hcount, hreads⟩ :=
    parseChunkedFrom_whole {} hcut hsize hchunk (Nat.le_refl 0) hwindow hfuel
  obtain ⟨st', hchunked', hall⟩ := parseChunked_eq_parseAll hsize hchunk hword
  obtain rfl : st' = st := Option.some.inj (hchunked'.symm.trans hchunked)
  have hall' : st'.count = s.count := by
    rw [hcount, hframes, hlen]
    exact Nat.zero_add _
  exact ⟨s, st', hrun, hall' ▸ hall, hchunked, hok, hall', hreads⟩

theorem workload_parsed_mixed : ∃ s st, buildStream mixed 1000000 0x5EED0200#64 = some s ∧
    parseAll s.data = some (s.count, st.acc) ∧ parseChunked s.data 1460 = some st ∧
    st.ok = true ∧ st.count = s.count ∧ s.data.length ≤ st.retries * 1460 ∧
    st.retries * 1460 < s.data.length + 1460 :=
  workload_parsed (by decide) (by decide) (by decide) _ (by decide) (by decide)

end Workloads

end Kvx.ProtocolBench
