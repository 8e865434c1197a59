import Kvx.ProtocolBench

/-!
# Reading commands from a connection

A reader receives, then parses and consumes commands until one is incomplete, and receives
again. How the stream was cut up on its way does not show in the commands that it gets.
-/
namespace Kvx.Net

open Kvx.Lib Kvx.Protocol

/-- The socket hands out some bytes, is interrupted or has none for now. -/
inductive Answer.Arrival : Answer → Prop
  | count {n : ℕ} : 0 < n → Arrival (.count n)
  | interrupted : Arrival (.failed .eintr)
  | again : Arrival (.failed .eagain)
  | wouldBlock : Arrival (.failed .ewouldblock)

/-- A call of `conn_recv`, with what `realloc` and `recv` answer during it. -/
structure Round where
  realloc : Realloc
  answers : List Answer

structure Round.Ok (x : Round) : Prop where
  grants : ∀ size, x.realloc size ≠ none
  arrivals : ∀ answer ∈ x.answers, answer.Arrival

/-- The first `recv` that is not interrupted hands out bytes. -/
def arrives : List Answer → Bool
  | .count _ :: _ => true
  | .failed .eintr :: answers => arrives answers
  | _ => false

variable {M : ℕ} {realloc : Realloc} {answers : List Answer}
  {inbox unread inbox' unread' : List UInt8} {result : ConnIoResult}

theorem Receives.ne_error (h : Receives M realloc answers inbox unread result inbox' unread')
    (hgrants : ∀ size, realloc size ≠ none) (harrivals : ∀ answer ∈ answers, answer.Arrival)
    (errno : Errno) : result ≠ .error errno := by
  induction h with
  | full _ => simp
  | refused hsize =>
    obtain ⟨size, hnone⟩ := hsize
    exact absurd hnone (hgrants size)
  | exhausted => simp
  | delivered _ _ ih => exact ih fun answer ha => harrivals answer (List.mem_cons_of_mem _ ha)
  | closed _ => simp
  | interrupted _ ih => exact ih fun answer ha => harrivals answer (List.mem_cons_of_mem _ ha)
  | again _ => simp
  | failed h₁ h₂ h₃ =>
    cases harrivals _ List.mem_cons_self with
    | interrupted => exact absurd rfl h₁
    | again => exact absurd rfl h₂
    | wouldBlock => exact absurd rfl h₃

theorem Receives.full_length
    (h : Receives M realloc answers inbox unread result inbox' unread')
    (hfull : result = .full) : unread'.length = M := by
  induction h with
  | full hlen => exact hlen
  | delivered _ _ ih => exact ih hfull
  | interrupted _ ih => exact ih hfull
  | refused _ => simp at hfull
  | exhausted => simp at hfull
  | closed _ => simp at hfull
  | again _ => simp at hfull
  | failed _ _ _ => simp at hfull

theorem Receives.eof_inbox (h : Receives M realloc answers inbox unread result inbox' unread')
    (harrivals : ∀ answer ∈ answers, answer.Arrival) (heof : result = .eof) : inbox' = [] := by
  induction h with
  | closed hnone =>
    cases harrivals _ List.mem_cons_self with
    | count hpos => exact hnone.resolve_left (Nat.ne_of_gt hpos)
  | delivered _ _ ih => exact ih (fun answer ha => harrivals answer (List.mem_cons_of_mem _ ha)) heof
  | interrupted _ ih => exact ih (fun answer ha => harrivals answer (List.mem_cons_of_mem _ ha)) heof
  | full _ => simp at heof
  | refused _ => simp at heof
  | exhausted => simp at heof
  | again _ => simp at heof
  | failed _ _ _ => simp at heof

theorem Receives.arrives_lt (h : Receives M realloc answers inbox unread result inbox' unread')
    (hgrants : ∀ size, realloc size ≠ none) (harrivals : ∀ answer ∈ answers, answer.Arrival)
    (harrives : arrives answers = true) (hroom : unread.length < M) (hinbox : inbox ≠ []) :
    inbox'.length < inbox.length := by
  induction h with
  | full hlen => omega
  | refused hsize =>
    obtain ⟨size, hnone⟩ := hsize
    exact absurd hnone (hgrants size)
  | exhausted => simp [arrives] at harrives
  | delivered hbytes hrest ih =>
    obtain ⟨got, rfl, -⟩ := hrest.taken
    have := List.length_pos_of_ne_nil hbytes
    simp only [List.length_append]
    omega
  | closed hnone =>
    cases harrivals _ List.mem_cons_self with
    | count hpos => exact absurd (hnone.resolve_left (Nat.ne_of_gt hpos)) hinbox
  | interrupted _ ih =>
    exact ih (fun answer ha => harrivals answer (List.mem_cons_of_mem _ ha)) harrives hroom hinbox
  | again herrno => rcases herrno with rfl | rfl <;> simp [arrives] at harrives
  | failed h₁ _ _ =>
    cases harrivals _ List.mem_cons_self with
    | interrupted => exact absurd rfl h₁
    | again => simp [arrives] at harrives
    | wouldBlock => simp [arrives] at harrives

/-- The unread span is parsed and consumed until a command is incomplete or wrong. -/
def readCommands : ℕ → Conn → Option (List Seen × Option ProtoError × Conn)
  | 0, _ => none
  | fuel + 1, conn => do
      let span ← loadBytes conn.rBuf conn.rPos (conn.rLen - conn.rPos)
      let (code, cmd, consumed) ← protocolParseCommand span {}
      match code with
      | .err err => some ([], if err = .incomplete then none else some err, conn)
      | .ok =>
          let command ← see span cmd
          match connConsume conn consumed with
          | (_, some _) => none
          | (conn, none) =>
              let (commands, err, conn) ← readCommands fuel conn
              some (command :: commands, err, conn)

/-- `reports` has the result of every `conn_recv` and the unread bytes after it. -/
structure Reader where
  conn : Conn
  inbox : List UInt8
  seen : List Seen := []
  err : Option ProtoError := none
  reports : List (ConnIoResult × List UInt8) := []

/-- The reader stops at an error of the parser. -/
def readRound (maxBufferSize : ℕ) (r : Reader) (x : Round) : Option Reader :=
  if r.err ≠ none then some r
  else do
    let e ← connRecv maxBufferSize x.realloc x.answers r.inbox r.conn
    let (seen, err, conn) ← readCommands (e.conn.rLen + 1) e.conn
    some {
      conn := conn
      inbox := e.inbox
      seen := r.seen ++ seen
      err := err
      reports := r.reports ++ [(e.result, e.conn.unread)] }

def readRounds (maxBufferSize : ℕ) : Reader → List Round → Option Reader
  | r, [] => some r
  | r, x :: rounds => do readRounds maxBufferSize (← readRound maxBufferSize r x) rounds

theorem load_unread {conn : Conn} (h : RecvInv M conn) :
    loadBytes conn.rBuf conn.rPos (conn.rLen - conn.rPos) = some conn.unread := by
  have hblock := h.block
  have hlen := h.len
  have hpos := h.pos
  rw [loadBytes_eq (by omega), Conn.unread, List.drop_take]

theorem readCommands_spec {conn : Conn} {fuel : ℕ} (h : RecvInv M conn)
    (hfuel : conn.unread.length < fuel) :
    ∃ frames err conn', readCommands fuel conn = some (frames.map Prod.snd, err, conn') ∧
      commands.Cut conn.unread frames conn'.unread ∧ commands.Stuck conn'.unread err ∧
      RecvInv M conn' ∧ conn'.fd = conn.fd ∧ conn'.peerClosed = conn.peerClosed := by
  induction fuel generalizing conn with
  | zero => omega
  | succ fuel ih =>
    unfold readCommands
    rw [load_unread h, Option.bind_eq_bind, Option.bind_some]
    cases parseResult conn.unread with
    | incomplete hcall hnext =>
      rw [hcall]
      exact ⟨[], none, conn, rfl, .nil _, .more hnext, h, rfl, rfl⟩
    | @rejected err hcall herr hnext =>
      rw [hcall]
      refine ⟨[], some err, conn, ?_, .nil _, .reject hnext, h, rfl, rfl⟩
      exact congrArg (fun e => some ([], e, conn)) (if_neg herr)
    | @parsed cmd command n hcall hsee hn hle hlater hnext =>
      rcases connConsume_spec h n with ⟨hlt, -⟩ | ⟨-, conn₁, hconsume, h₁, hunread, hfd, hpeer⟩
      · omega
      · have hshort : conn₁.unread.length < fuel := by
          rw [hunread, List.length_drop]
          omega
        obtain ⟨frames, err, conn', hrun, hcut, hstuck, h', hfd', hpeer'⟩ := ih h₁ hshort
        rw [hunread] at hcut
        refine ⟨(cmd, command) :: frames, err, conn', ?_, .cons hnext hcut, hstuck, h',
          hfd'.trans hfd, hpeer'.trans hpeer⟩
        simp only [hcall, hsee, hconsume, hrun, Option.bind_eq_bind, Option.bind_some,
          List.map_cons]

/-- The reader cut its commands off the stream and has its rest, in part still to come. -/
structure ReaderInv (M : ℕ) (s : List UInt8) (r : Reader) : Prop where
  conn : RecvInv M r.conn
  fd : 0 ≤ r.conn.fd
  closed : r.conn.peerClosed = true → r.inbox = []
  cut : ∃ frames, r.seen = frames.map Prod.snd ∧ commands.Cut s frames (r.conn.unread ++ r.inbox)
  stuck : commands.Stuck r.conn.unread r.err
  reports : ∀ report ∈ r.reports, (∀ errno, report.1 ≠ .error errno) ∧
    (report.1 = .full → commands.next report.2 ≠ .more)

variable {s : List UInt8} {r : Reader} {x : Round}

theorem ReaderInv.recv (hM : connDefaultBufCap ≤ M) (h : ReaderInv M s r) (hx : x.Ok) :
    ∃ e, connRecv M x.realloc x.answers r.inbox r.conn = some e ∧ RecvInv M e.conn ∧
      0 ≤ e.conn.fd ∧ (e.conn.peerClosed = true → e.inbox = []) ∧
      e.conn.unread ++ e.inbox = r.conn.unread ++ r.inbox ∧
      (∀ errno, e.result ≠ .error errno) ∧ (e.result = .full → e.conn.unread.length = M) ∧
      e.inbox.length ≤ r.inbox.length ∧
      (arrives x.answers = true → r.conn.unread.length < M → r.inbox ≠ [] →
        e.inbox.length < r.inbox.length) := by
  obtain ⟨e, he, hinv, ⟨hwhy, hconn, hinbox, heof⟩ | hreceipt⟩ :=
    connRecv_spec hM h.conn x.realloc x.answers r.inbox
  · have hpeer : r.conn.peerClosed = true :=
      hwhy.resolve_left fun hneg => absurd h.fd (Int.not_le.mpr hneg)
    have hresult := heof h.fd
    refine ⟨e, he, hinv, hconn ▸ h.fd, fun _ => hinbox ▸ h.closed hpeer, by rw [hconn, hinbox],
      by simp [hresult], by simp [hresult], by rw [hinbox], fun _ _ hne => ?_⟩
    exact absurd (h.closed hpeer) hne
  · have hrun := hreceipt.receives
    obtain ⟨got, hgot, hunread⟩ := hrun.taken
    refine ⟨e, he, hinv, hreceipt.fd ▸ h.fd, fun hpeer => ?_, ?_,
      hrun.ne_error hx.grants hx.arrivals, hrun.full_length, ?_, ?_⟩
    · rcases hreceipt.peerClosed hpeer with hbefore | heof
      · have hnil := h.closed hbefore
        rw [hgot, List.append_eq_nil_iff] at hnil
        exact hnil.2
      · exact hrun.eof_inbox hx.arrivals heof
    · rw [hunread, List.append_assoc, ← hgot]
    · rw [hgot, List.length_append]
      omega
    · exact fun harrives hroom hne =>
        hrun.arrives_lt hx.grants hx.arrivals harrives hroom hne

theorem ReaderInv.room (h : ReaderInv M s r) (hfits : commands.Fits M s) (herr : r.err = none) :
    r.conn.unread.length < M := by
  have hle : r.conn.unread.length ≤ M := by
    have hlimit := h.conn.limit
    have hlen := h.conn.len
    rw [h.conn.unread_length]
    omega
  refine lt_of_le_of_ne hle fun hfull => ?_
  obtain ⟨frames, -, hcut⟩ := h.cut
  apply hfits.full hcut hfull
  have hstuck := h.stuck
  rw [herr] at hstuck
  cases hstuck with
  | more hmore => exact hmore

theorem ReaderInv.round (hM : connDefaultBufCap ≤ M) (hfits : commands.Fits M s)
    (h : ReaderInv M s r) (hx : x.Ok) :
    ∃ r', readRound M r x = some r' ∧ ReaderInv M s r' ∧
      (r'.err = none → r.err = none ∧ r'.inbox.length ≤ r.inbox.length ∧
        (arrives x.answers = true → r.inbox ≠ [] → r'.inbox.length < r.inbox.length)) := by
  unfold readRound
  by_cases herr : r.err ≠ none
  · rw [if_pos herr]
    exact ⟨r, rfl, h, fun hnone => absurd hnone herr⟩
  rw [if_neg herr]
  have hnone : r.err = none := not_not.mp herr
  obtain ⟨e, he, hinv, hfd, hclosed, hsame, hok, hfull, hle, hlt⟩ := h.recv hM hx
  have hfuel : e.conn.unread.length < e.conn.rLen + 1 := by
    rw [hinv.unread_length]
    omega
  obtain ⟨frames, err, conn', hread, hcut, hstuck, hinv', hfd', hpeer'⟩ :=
    readCommands_spec hinv hfuel
  obtain ⟨before, hseen, hbefore⟩ := h.cut
  rw [← hsame] at hbefore
  rw [he, Option.bind_eq_bind, Option.bind_some, hread, Option.bind_eq_bind, Option.bind_some]
  refine ⟨_, rfl, ⟨hinv', hfd' ▸ hfd, fun hpeer => hclosed (hpeer' ▸ hpeer), ?_, hstuck, ?_⟩,
    fun _ => ⟨hnone, hle, fun harrives => hlt harrives (h.room hfits hnone)⟩⟩
  · refine ⟨before ++ frames, ?_, hbefore.trans (hcut.append e.inbox)⟩
    simp only [hseen, List.map_append]
  · intro report hreport
    rcases List.mem_append.mp hreport with hold | hnew
    · exact h.reports report hold
    · rw [List.mem_singleton] at hnew
      subst hnew
      exact ⟨hok, fun hresult => hfits.full hbefore (hfull hresult)⟩

theorem ReaderInv.rounds (hM : connDefaultBufCap ≤ M) (hfits : commands.Fits M s)
    (h : ReaderInv M s r) {rounds : List Round} (hrounds : ∀ x ∈ rounds, x.Ok) :
    ∃ r', readRounds M r rounds = some r' ∧ ReaderInv M s r' ∧
      (r'.err = none → r.err = none ∧
        r'.inbox.length ≤ r.inbox.length - rounds.countP fun x => arrives x.answers) := by
  induction rounds generalizing r with
  | nil => exact ⟨r, rfl, h, fun hnone => ⟨hnone, le_rfl⟩⟩
  | cons x rounds ih =>
    obtain ⟨r₁, hround, h₁, hprogress⟩ := h.round hM hfits (hrounds x List.mem_cons_self)
    obtain ⟨r', hrun, h', hlater⟩ := ih h₁ fun y hy => hrounds y (List.mem_cons_of_mem _ hy)
    unfold readRounds
    rw [hround, Option.bind_eq_bind, Option.bind_some]
    refine ⟨r', hrun, h', fun hnone => ?_⟩
    obtain ⟨hnone₁, hle'⟩ := hlater hnone
    obtain ⟨hnone₀, hle, hlt⟩ := hprogress hnone₁
    refine ⟨hnone₀, ?_⟩
    rw [List.countP_cons]
    by_cases harrives : arrives x.answers = true
    · rw [if_pos harrives]
      by_cases hinbox : r.inbox = []
      · rw [hinbox] at hle ⊢
        simp only [List.length_nil] at hle ⊢
        omega
      · have := hlt harrives hinbox
        omega
    · rw [if_neg harrives]
      omega

/-- How what the reader has got after the rounds compares with the commands and the error of
the whole stream `s` in one buffer. -/
structure SameCommands (s : List UInt8) (rounds : List Round) (r : Reader) (seen : List Seen)
    (err : Option ProtoError) : Prop where
  before : r.seen <+: seen
  stopped : r.err ≠ none → r.seen = seen ∧ r.err = err
  arrived : r.inbox = [] → r.seen = seen ∧ r.err = err
  enough : s.length ≤ rounds.countP (fun x => arrives x.answers) → r.seen = seen ∧ r.err = err

/-- `recv` did not fail, and the buffer was not full with an incomplete command. -/
def FlowsFreely (r : Reader) : Prop :=
  ∀ report ∈ r.reports, (∀ errno, report.1 ≠ .error errno) ∧
    (report.1 = .full → protocolParseCommand report.2 {} ≠ some (.err .incomplete, {}, 0))

theorem ReaderInv.flows (h : ReaderInv M s r) : FlowsFreely r := by
  intro report hreport
  obtain ⟨hok, hfull⟩ := h.reports report hreport
  refine ⟨hok, fun hresult hincomplete => hfull hresult ?_⟩
  exact show nextCommand report.2 = .more by rw [nextCommand, hincomplete]; rfl

/-- Both the reader and the loop over the whole stream cut the same stream. -/
theorem ReaderInv.sameCommands (h : ReaderInv M s r) {rounds : List Round}
    (hprogress : r.err = none →
      r.inbox.length ≤ s.length - rounds.countP fun x => arrives x.answers) :
    ∃ seen err, parseStream s = some (seen, err) ∧ SameCommands s rounds r seen err := by
  obtain ⟨all, t, err, hall, hstuck, hstream⟩ := parseStreamFrom_spec (Nat.lt_succ_self s.length)
  obtain ⟨frames, hseen, hcut⟩ := h.cut
  obtain ⟨more, rfl, -⟩ := hcut.prefix_of_stuck hall hstuck
  have hsame : ∀ err', commands.Stuck (r.conn.unread ++ r.inbox) err' →
      r.seen = (frames ++ more).map Prod.snd ∧ err' = err := by
    intro err' hstuck'
    obtain ⟨hframes, -, herr⟩ := hcut.unique hstuck' hall hstuck
    exact ⟨by rw [hseen, ← hframes], herr⟩
  have hstopped : r.err ≠ none → r.seen = (frames ++ more).map Prod.snd ∧ r.err = err := by
    intro hne
    obtain ⟨e, he⟩ := Option.ne_none_iff_exists'.mp hne
    have hnow := h.stuck
    rw [he] at hnow ⊢
    cases hnow with
    | reject hreject =>
      exact hsame _ (.reject (commands.next_append hreject (by simp) r.inbox))
  have harrived : r.inbox = [] → r.seen = (frames ++ more).map Prod.snd ∧ r.err = err := by
    intro hnil
    have hnow := hsame r.err
    rw [hnil, List.append_nil] at hnow
    exact hnow h.stuck
  refine ⟨_, err, hstream, ?_, hstopped, harrived, fun henough => ?_⟩
  · rw [hseen, List.map_append]
    exact List.prefix_append _ _
  · by_cases herr : r.err = none
    · have hlen := hprogress herr
      exact harrived (List.length_eq_zero_iff.mp (by omega))
    · exact hstopped herr

/-- The reader of a connection gets the commands of the whole stream, in whatever parts the
stream arrives, and so does the benchmark with its chunks. -/
theorem chunking_invisible :
    (∀ {M : ℕ} {rRealloc wRealloc : Realloc} {conn₀ conn : Conn} {fd : ℤ} {s : List UInt8}
      {rounds : List Round}, connDefaultBufCap ≤ M →
      connInit M rRealloc wRealloc = (conn₀, none) → connAttach conn₀ fd none = (conn, none) →
      commands.Fits M s → (∀ x ∈ rounds, x.Ok) →
      ∃ r seen err, readRounds M { conn := conn, inbox := s } rounds = some r ∧
        parseStream s = some (seen, err) ∧ SameCommands s rounds r seen err ∧ FlowsFreely r) ∧
    ∀ {data : List UInt8} {chunk : ℕ}, data.length ≤ ssizeMax → 0 < chunk → chunk ≤ sizeMax →
      ∃ st, parseChunked data chunk = some st ∧ parseAll data = some (st.count, st.acc) := by
  refine ⟨?_, parseChunked_eq_parseAll⟩
  intro M rRealloc wRealloc conn₀ conn fd s rounds hM hinit hattach hfits hrounds
  obtain ⟨hinv₀, -⟩ := connInit_spec hM hinit
  rcases connAttach_spec hinv₀ fd none with ⟨errno, hrefused⟩ | ⟨conn', hok, h, hunread, hfd, hpeer⟩
  · rw [hrefused] at hattach
    simp at hattach
  rw [hok] at hattach
  obtain ⟨rfl, -⟩ := Prod.mk.inj hattach
  have hstart : ReaderInv M s { conn := conn', inbox := s } := by
    refine ⟨h, hfd, fun hclosed => ?_, ⟨[], rfl, ?_⟩, ?_, by simp⟩
    · rw [hpeer] at hclosed
      simp at hclosed
    · rw [hunread]
      exact .nil s
    · rw [hunread]
      exact .more rfl
  obtain ⟨r, hrun, hr, hprogress⟩ := hstart.rounds hM hfits hrounds
  obtain ⟨seen, err, hstream, hsame⟩ := hr.sameCommands fun herr => (hprogress herr).2
  exact ⟨r, seen, err, hrun, hstream, hsame, hr.flows⟩

/-- A command that comes in two parts, and a stream in chunks of two bytes. -/
theorem chunking_invisible_quit :
    (∃ conn r seen err,
      readRounds 4096 { conn := conn, inbox := text ['q', 'u', 'i', 't'] ++ crlf }
          [⟨fun _ => some fun _ => 0, [.count 3, .failed .eagain]⟩,
            ⟨fun _ => some fun _ => 0, [.failed .eintr, .count 9]⟩] = some r ∧
        parseStream (text ['q', 'u', 'i', 't'] ++ crlf) = some (seen, err) ∧
        SameCommands (text ['q', 'u', 'i', 't'] ++ crlf)
          [⟨fun _ => some fun _ => 0, [.count 3, .failed .eagain]⟩,
            ⟨fun _ => some fun _ => 0, [.failed .eintr, .count 9]⟩] r seen err ∧
        FlowsFreely r) ∧
    ∃ st, parseChunked (text ['q', 'u', 'i', 't'] ++ crlf) 2 = some st ∧
      parseAll (text ['q', 'u', 'i', 't'] ++ crlf) = some (st.count, st.acc) := by
  obtain ⟨conn₀, conn, hinit, hattach⟩ := connAttach_init (M := 4096) le_rfl
    (fun size => Option.some_ne_none fun _ => 0) (fun size => Option.some_ne_none fun _ => 0)
    (Int.natCast_nonneg 5)
  refine ⟨⟨conn, chunking_invisible.1 le_rfl hinit hattach (.of_length_lt (by decide)) ?_⟩,
    chunking_invisible.2 (by decide) (by decide) (by decide)⟩
  intro x hx
  simp only [List.mem_cons, List.not_mem_nil, or_false] at hx
  rcases hx with rfl | rfl
  · exact ⟨by simp, by simp [Answer.Arrival.count, Answer.Arrival.again]⟩
  · exact ⟨by simp, by simp [Answer.Arrival.count, Answer.Arrival.interrupted]⟩

end Kvx.Net
