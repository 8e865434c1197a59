import Kvx.ConnReached

/-!
# The limit of the buffers

`conn_write` and `conn_recv` check the limit in the bytes in use, `buffer_grow` checks it in the
capacity. A call that passes its own check is never refused by the other one.
-/
namespace Kvx.Net

variable {M : ℕ} {realloc : Realloc} {conn conn' : Conn}

theorem writeRoom_failed (hM : connDefaultBufCap ≤ M) (h : SendInv M conn) {len : ℕ}
    (hlen : len ≤ M - (conn.wLen - conn.wPos)) {errno : Errno}
    (hrun : writeRoom M realloc conn len = some (some errno, conn')) :
    errno = .enomem ∧ ∃ size, realloc size = none := by
  have hblock := h.block
  have hlimit := h.limit
  have hwLen := h.len
  unfold writeRoom at hrun
  split_ifs at hrun with hfull
  · obtain ⟨buf, hcompact, hbuf, -⟩ := bufferCompact_spec h.pos (h.len.trans hblock.ge)
    rw [hcompact, Option.bind_eq_bind, Option.bind_some] at hrun
    simp only at hrun
    split_ifs at hrun with hstill
    · rcases bufferGrow_spec realloc hM (hbuf.trans hblock)
          (show conn.wBufCap + (len - (conn.wBufCap - (conn.wLen - conn.wPos))) ≤ M by omega)
          (by omega) with ⟨hnone, herr⟩ | ⟨buf', hok, -⟩
      · rw [herr, Option.some.injEq, Prod.mk.injEq, Option.some.injEq] at hrun
        exact ⟨hrun.1.symm, hnone⟩
      · simp [hok] at hrun
    · simp at hrun
  · simp at hrun

/-- What a write of some bytes does. `failed` is the error, if it returns false. -/
structure WriteResult (M : ℕ) (realloc : Realloc) (conn : Conn) (data : List UInt8) (conn' : Conn)
    (failed : Option Errno) : Prop where
  limit : failed = some .enobufs ↔ M < conn.wLen - conn.wPos + data.length
  memory : ∀ errno, failed = some errno → errno ≠ .enobufs →
    errno = .enomem ∧ ∃ size, realloc size = none
  block : conn'.wBuf.length = conn'.wBufCap
  grown : conn.wBufCap ≤ conn'.wBufCap
  cap : conn'.wBufCap ≤ M
  room : failed = none → conn.wLen - conn.wPos + data.length ≤ conn'.wBufCap
  written : failed = none → conn'.pending = conn.pending ++ data
  intact : failed ≠ none → conn'.pending = conn.pending

theorem connWrite_grown (hM : connDefaultBufCap ≤ M) (h : SendInv M conn) {data : List UInt8}
    {failed : Option Errno}
    (hrun : connWrite M realloc conn (some data) data.length = some (conn', failed)) :
    conn.wBufCap ≤ conn'.wBufCap := by
  unfold connWrite at hrun
  simp only at hrun
  split_ifs at hrun with hzero hfit
  · simp only [Option.some.injEq, Prod.mk.injEq] at hrun
    rw [← hrun.1]
  · simp only [Option.some.injEq, Prod.mk.injEq] at hrun
    rw [← hrun.1]
  · obtain ⟨stop, conn₁, hspec, hroom⟩ := writeRoom_spec realloc hM h (Nat.not_lt.mp hfit)
    rw [hspec, Option.bind_eq_bind, Option.bind_some] at hrun
    cases stop with
    | some errno =>
      simp only [Option.some.injEq, Prod.mk.injEq] at hrun
      rw [← hrun.1]
      exact hroom.grown
    | none =>
      simp only [Option.bind_eq_bind, Option.bind_eq_some_iff, Option.some.injEq,
        Prod.mk.injEq] at hrun
      obtain ⟨bytes, -, buf, -, rfl, -⟩ := hrun
      exact hroom.grown

theorem connWrite_result (realloc : Realloc) (hM : connDefaultBufCap ≤ M) (h : SendInv M conn)
    {data : List UInt8} (hdata : data ≠ []) :
    ∃ conn' failed, connWrite M realloc conn (some data) data.length = some (conn', failed) ∧
      WriteResult M realloc conn data conn' failed := by
  obtain ⟨conn', failed, hrun, hinv, hpending⟩ := connWrite_spec realloc hM h data
  have hlimit := h.limit
  have hlen := h.len
  have hgrown := connWrite_grown hM h hrun
  have hintact : failed ≠ none → conn'.pending = conn.pending := by
    intro hfailed
    rw [hpending, if_neg hfailed, List.append_nil]
  have hwritten : failed = none → conn'.pending = conn.pending ++ data := by
    intro hdone
    rw [hpending, if_pos hdone]
  -- what is pending lies in the block
  have hroom : failed = none → conn.wLen - conn.wPos + data.length ≤ conn'.wBufCap := by
    intro hdone
    have hbytes := congrArg List.length (hwritten hdone)
    have hin := hinv.len
    rw [List.length_append, hinv.pending_length, h.pending_length] at hbytes
    omega
  refine ⟨conn', failed, hrun, ?_⟩
  unfold connWrite at hrun
  rw [if_neg (by simpa using hdata)] at hrun
  simp only at hrun
  split_ifs at hrun with hfit
  · rw [Option.some.injEq, Prod.mk.injEq] at hrun
    obtain ⟨rfl, rfl⟩ := hrun
    refine ⟨⟨fun _ => by omega, fun _ => rfl⟩, fun errno herr hne => ?_, hinv.block, hgrown,
      hinv.limit, hroom, hwritten, hintact⟩
    exact absurd (Option.some.inj herr).symm hne
  · -- the check has passed, so an error comes from `realloc`
    have hspace : data.length ≤ M - (conn.wLen - conn.wPos) := Nat.not_lt.mp hfit
    have hfailed : ∀ errno, failed = some errno → errno = .enomem ∧ ∃ size, realloc size = none := by
      intro errno herr
      obtain ⟨stop, conn₁, hspec, -⟩ := writeRoom_spec realloc hM h hspace
      rw [hspec, Option.bind_eq_bind, Option.bind_some] at hrun
      cases stop with
      | some errno₁ =>
        rw [Option.some.injEq, Prod.mk.injEq, herr, Option.some.injEq] at hrun
        exact hrun.2 ▸ writeRoom_failed hM h hspace hspec
      | none =>
        simp only [Option.bind_eq_bind, Option.bind_eq_some_iff, Option.some.injEq,
          Prod.mk.injEq] at hrun
        obtain ⟨bytes, -, buf, -, -, hnone⟩ := hrun
        rw [herr] at hnone
        cases hnone
    refine ⟨⟨fun herr => ?_, fun hmore => by omega⟩, fun errno herr _ => hfailed errno herr,
      hinv.block, hgrown, hinv.limit, hroom, hwritten, hintact⟩
    have := (hfailed _ herr).1
    cases this

/-- A write is refused if and only if the pending bytes and the new ones exceed the limit, or
`realloc` fails, and then what is pending stays. Otherwise it is pending in full, in a block that has
grown to at most the limit. -/
theorem write_limit_exact (h : ConnReached M conn) (realloc : Realloc) :
    (∀ data : List UInt8, data ≠ [] → ∃ conn' failed,
      connWrite M realloc conn (some data) data.length = some (conn', failed) ∧
      WriteResult M realloc conn data conn' failed ∧
      ((∀ size, realloc size ≠ none) →
        (failed = none ↔ conn.wLen - conn.wPos + data.length ≤ M))) ∧
    ∀ len, len ≠ 0 → connWrite M realloc conn none len = some (conn, some .einval) := by
  have hinv := h.inv.2
  refine ⟨fun data hdata => ?_, fun len hlen => ?_⟩
  · obtain ⟨conn', failed, hrun, hresult⟩ := connWrite_result realloc h.limit hinv hdata
    refine ⟨conn', failed, hrun, hresult, fun hgrant => ?_⟩
    have hlimit := hresult.limit
    cases failed with
    | none => simpa using hlimit
    | some errno =>
      have henobufs : errno = .enobufs := by
        by_contra hne
        obtain ⟨-, size, hnone⟩ := hresult.memory errno rfl hne
        exact hgrant size hnone
      rw [henobufs] at hlimit
      simpa using hlimit
  · rw [connWrite, if_neg hlen]

/-- A new connection takes three bytes. -/
theorem write_limit_exact_three : ∃ conn' failed,
    connWrite 4096 (fun _ => none)
        (connInit 4096 (fun _ => some fun _ => 0) (fun _ => some fun _ => 0)).1
        (some [7, 8, 9]) 3 = some (conn', failed) ∧
      WriteResult 4096 (fun _ => none)
        (connInit 4096 (fun _ => some fun _ => 0) (fun _ => some fun _ => 0)).1 [7, 8, 9] conn'
        failed := by
  have hreached : ConnReached 4096
      (connInit 4096 (fun _ => some fun _ => 0) (fun _ => some fun _ => 0)).1 :=
    .init rfl (Prod.ext rfl rfl)
  obtain ⟨conn', failed, hrun, hresult, -⟩ :=
    (write_limit_exact hreached fun _ => none).1 [7, 8, 9] (by simp)
  exact ⟨conn', failed, hrun, hresult⟩

/-- The loop of `conn_recv`, with the lengths that it passes to `recv`. -/
def connRecvCalls (maxBufferSize : ℕ) (realloc : Realloc) :
    List Answer → List UInt8 → Conn → Option (Received × List ℕ)
  | answers, inbox, conn => do
      let (stop, conn) ← recvRoom maxBufferSize realloc conn
      match stop with
      | some result => some (⟨result, conn, inbox, answers⟩, [])
      | none =>
          let available := min (conn.rBufCap - conn.rLen) ssizeMax
          match answers with
          | [] => some (⟨.again, conn, inbox, []⟩, [available])
          | .count n :: answers =>
              let bytes := inbox.take (min n available)
              if bytes.length > 0 then do
                let buf ← storeBytes conn.rBuf conn.rLen bytes
                let (e, calls) ← connRecvCalls maxBufferSize realloc answers
                  (inbox.drop (min n available))
                  { conn with rBuf := buf, rLen := conn.rLen + bytes.length }
                some (e, available :: calls)
              else some (⟨.eof, { conn with peerClosed := true }, inbox, answers⟩, [available])
          | .failed errno :: answers =>
              if errno = .eintr then do
                let (e, calls) ← connRecvCalls maxBufferSize realloc answers inbox conn
                some (e, available :: calls)
              else if errno = .eagain ∨ errno = .ewouldblock then
                some (⟨.again, conn, inbox, answers⟩, [available])
              else some (⟨.error errno, conn, inbox, answers⟩, [available])

theorem connRecvCalls_fst (answers : List Answer) (inbox : List UInt8) (conn : Conn) :
    (connRecvCalls M realloc answers inbox conn).map Prod.fst =
      connRecvLoop M realloc answers inbox conn := by
  induction answers generalizing inbox conn with
  | nil =>
    unfold connRecvCalls connRecvLoop
    cases recvRoom M realloc conn with
    | none => rfl
    | some r =>
      obtain ⟨stop, conn'⟩ := r
      cases stop <;> rfl
  | cons answer answers ih =>
    unfold connRecvCalls connRecvLoop
    cases recvRoom M realloc conn with
    | none => rfl
    | some r =>
      obtain ⟨stop, conn'⟩ := r
      cases stop with
      | some result => rfl
      | none =>
        cases answer with
        | count n =>
          simp only [Option.bind_eq_bind, Option.bind_some]
          split_ifs
          · cases storeBytes conn'.rBuf conn'.rLen
              (inbox.take (min n (min (conn'.rBufCap - conn'.rLen) ssizeMax))) with
            | none => rfl
            | some buf =>
              rw [Option.bind_some, Option.bind_some, ← ih, Option.map_bind]
              cases connRecvCalls M realloc answers _ _ <;> rfl
          · rfl
        | failed errno =>
          simp only [Option.bind_eq_bind, Option.bind_some]
          split_ifs
          · rw [← ih, Option.map_bind]
            cases connRecvCalls M realloc answers inbox conn' <;> rfl
          · rfl
          · rfl

/-- The loop stops with `FULL` only when the unread bytes fill a block of the largest size. -/
theorem recvRoom_full (h : RecvInv M conn)
    (hrun : recvRoom M realloc conn = some (some .full, conn')) :
    conn'.rLen = M ∧ conn'.rPos = 0 := by
  unfold recvRoom at hrun
  split_ifs at hrun with hfull
  · obtain ⟨buf, hcompact, -⟩ := bufferCompact_spec h.pos (h.len.trans h.block.ge)
    rw [hcompact, Option.bind_eq_bind, Option.bind_some] at hrun
    simp only at hrun
    split_ifs at hrun with hstill hmax
    · obtain ⟨-, rfl⟩ := Prod.mk.inj (Option.some.inj hrun)
      exact ⟨hstill.trans hmax, rfl⟩
    · cases hgrow : bufferGrow M realloc buf conn.rBufCap 1 <;> simp [hgrow] at hrun
    · simp at hrun
  · simp at hrun

/-- What a call of `conn_recv` returns when `realloc` grants every block. -/
structure RecvResult (M : ℕ) (answers : List Answer) (calls : List ℕ) (e : Received) : Prop where
  room : ∀ n ∈ calls, 0 < n
  called : e.result ≠ .full → calls ≠ []
  full : e.result = .full ↔ e.conn.unread.length = M ∧ e.conn.rPos = 0
  error : ∀ errno, e.result = .error errno → ∃ given, answers = given ++ .failed errno :: e.answers

theorem Room.result {result : ConnIoResult} (hgrant : ∀ size, realloc size ≠ none)
    (hfull : result = .full → conn'.rLen = M ∧ conn'.rPos = 0)
    (h : Room M realloc conn (some result) conn') (answers : List Answer) (inbox : List UInt8) :
    RecvResult M answers [] ⟨result, conn', inbox, answers⟩ := by
  have hnot : ∀ errno, result ≠ .error errno := by
    rintro errno rfl
    obtain ⟨size, hnone⟩ := h.failed errno rfl
    exact hgrant size hnone
  have hresult : result = .full := by
    rcases h.only with hnone | hstop | ⟨errno, hstop⟩
    · simp at hnone
    · exact Option.some.inj hstop
    · exact absurd (Option.some.inj hstop) (hnot errno)
  obtain ⟨hlen, hpos⟩ := hfull hresult
  refine ⟨by simp, fun hnot => absurd hresult hnot, ⟨fun _ => ⟨?_, hpos⟩, fun _ => hresult⟩,
    fun errno herr => ?_⟩
  · simp only
    rw [h.inv.unread_length, hlen, hpos, Nat.sub_zero]
  · exact absurd herr (hnot errno)

theorem Room.unread_lt {stop : Option ConnIoResult} (h : Room M realloc conn stop conn')
    (hstop : stop = none) : conn'.unread.length < M := by
  have hroom := h.room hstop
  have hlimit := h.inv.limit
  rw [h.inv.unread_length]
  omega

theorem RecvResult.last {n : ℕ} {e : Received} {answers : List Answer} (hn : 0 < n)
    (hfull : e.result ≠ .full) (hless : e.conn.unread.length < M)
    (herror : ∀ errno, e.result = .error errno → answers = .failed errno :: e.answers) :
    RecvResult M answers [n] e := by
  refine ⟨by simpa using hn, by simp, ⟨fun h => absurd h hfull, fun h => ?_⟩, fun errno h => ?_⟩
  · exact absurd h.1 hless.ne
  · exact ⟨[], herror errno h⟩

theorem RecvResult.next {n : ℕ} {calls : List ℕ} {e : Received} {answers : List Answer}
    (hn : 0 < n) (answer : Answer) (h : RecvResult M answers calls e) :
    RecvResult M (answer :: answers) (n :: calls) e := by
  refine ⟨?_, by simp, h.full, fun errno herr => ?_⟩
  · intro m hm
    rcases List.mem_cons.mp hm with rfl | hm
    · exact hn
    · exact h.room m hm
  · obtain ⟨given, rfl⟩ := h.error errno herr
    exact ⟨answer :: given, rfl⟩

theorem connRecvCalls_spec (hgrant : ∀ size, realloc size ≠ none) (hM : connDefaultBufCap ≤ M)
    (h : RecvInv M conn) (answers : List Answer) (inbox : List UInt8) :
    ∃ e calls, connRecvCalls M realloc answers inbox conn = some (e, calls) ∧
      RecvResult M answers calls e := by
  have hmax : 0 < ssizeMax := by decide
  induction answers generalizing inbox conn with
  | nil =>
    obtain ⟨stop, conn', hrun, hroom⟩ := recvRoom_spec realloc hM h
    unfold connRecvCalls
    rw [hrun, Option.bind_eq_bind, Option.bind_some]
    cases stop with
    | some result =>
      exact ⟨_, _, rfl, hroom.result hgrant (fun hf => recvRoom_full h (hf ▸ hrun)) [] inbox⟩
    | none =>
      have hspace := hroom.room rfl
      exact ⟨_, _, rfl, .last (by omega) (by simp) (hroom.unread_lt rfl) (by simp)⟩
  | cons answer answers ih =>
    obtain ⟨stop, conn', hrun, hroom⟩ := recvRoom_spec realloc hM h
    unfold connRecvCalls
    rw [hrun, Option.bind_eq_bind, Option.bind_some]
    cases stop with
    | some result =>
      exact ⟨_, _, rfl, hroom.result hgrant (fun hf => recvRoom_full h (hf ▸ hrun)) _ inbox⟩
    | none =>
      have hspace := hroom.room rfl
      have hn : 0 < min (conn'.rBufCap - conn'.rLen) ssizeMax := by omega
      cases answer with
      | count n =>
        simp only
        split_ifs with hbytes
        · have hlen := List.length_take_le (min n (min (conn'.rBufCap - conn'.rLen) ssizeMax)) inbox
          obtain ⟨buf, hstore, hinv, -⟩ := hroom.inv.append
            (show conn'.rLen + (inbox.take (min n (min (conn'.rBufCap - conn'.rLen)
              ssizeMax))).length ≤ conn'.rBufCap by omega)
          obtain ⟨e, calls, hloop, hresult⟩ :=
            ih hinv (inbox.drop (min n (min (conn'.rBufCap - conn'.rLen) ssizeMax)))
          rw [hstore, Option.bind_eq_bind, Option.bind_some, hloop]
          exact ⟨_, _, rfl, hresult.next hn _⟩
        · exact ⟨_, _, rfl, .last hn (by simp) (hroom.unread_lt rfl) (by simp)⟩
      | failed errno =>
        simp only
        split_ifs with hintr hagain
        · obtain ⟨e, calls, hloop, hresult⟩ := ih hroom.inv inbox
          rw [hloop]
          exact ⟨_, _, rfl, hresult.next hn _⟩
        · exact ⟨_, _, rfl, .last hn (by simp) (hroom.unread_lt rfl) (by simp)⟩
        · refine ⟨_, _, rfl, .last hn (by simp) (hroom.unread_lt rfl) fun errno' herr => ?_⟩
          rw [ConnIoResult.error.injEq] at herr
          rw [herr]

/-- While `realloc` grants every block, `recv` is always given room, `FULL` means that the unread
bytes fill the largest block, and an error comes from `recv`. -/
theorem recv_room_exact (h : ConnReached M conn) (hfd : 0 ≤ conn.fd)
    (hpeer : conn.peerClosed = false) (hgrant : ∀ size, realloc size ≠ none)
    (answers : List Answer) (inbox : List UInt8) :
    ∃ e calls, connRecv M realloc answers inbox conn = some e ∧
      connRecvCalls M realloc answers inbox conn = some (e, calls) ∧
      RecvResult M answers calls e := by
  obtain ⟨e, calls, hcalls, hresult⟩ := connRecvCalls_spec hgrant h.limit h.inv.1 answers inbox
  refine ⟨e, calls, ?_, hcalls, hresult⟩
  unfold connRecv
  rw [if_neg (Int.not_lt.mpr hfd), hpeer, if_neg Bool.false_ne_true, ← connRecvCalls_fst, hcalls,
    Option.map_some]

/-- A connection that was just attached takes two bytes. -/
theorem recv_room_exact_two : ∃ conn, ConnReached 4096 conn ∧ ∃ e calls,
    connRecv 4096 (fun _ => some fun _ => 0) [.count 2] [7, 8] conn = some e ∧
      connRecvCalls 4096 (fun _ => some fun _ => 0) [.count 2] [7, 8] conn = some (e, calls) ∧
      RecvResult 4096 [.count 2] calls e := by
  have hgrant : ∀ size, (fun _ => some fun _ => 0 : Realloc) size ≠ none := by simp
  obtain ⟨conn₀, conn, hinit, hattach⟩ :=
    connAttach_init (M := 4096) le_rfl hgrant hgrant (show (0 : ℤ) ≤ 5 by decide)
  have hinit' : ConnReached 4096 conn₀ := .init rfl hinit
  have hfd : 0 ≤ conn.fd ∧ conn.peerClosed = false := by
    rcases connAttach_spec hinit'.inv.1 5 none with ⟨errno, he⟩ | ⟨conn', he, -, -, hfd⟩
    · rw [hattach, Prod.mk.injEq] at he
      cases he.2
    · rw [hattach, Prod.mk.injEq] at he
      exact he.1 ▸ hfd
  have hreached : ConnReached 4096 conn := .attach hinit' hattach
  exact ⟨conn, hreached, recv_room_exact hreached hfd.1 hfd.2 hgrant [.count 2] [7, 8]⟩

end Kvx.Net
