import Kvx.ConnBuffer

/-!
# What `conn_recv` keeps

The unread bytes of a connection are those between its position and its length. Making
room moves them, and `recv` appends to them the bytes that it takes out of the socket.
-/
namespace Kvx.Net

variable {M : ℕ} {realloc : Realloc} {conn conn' : Conn}

def Conn.unread (conn : Conn) : List UInt8 := (conn.rBuf.take conn.rLen).drop conn.rPos

/-- `r_pos <= r_len <= r_buf_cap <= M`, and the capacity is that of the block. -/
structure RecvInv (M : ℕ) (conn : Conn) : Prop where
  block : conn.rBuf.length = conn.rBufCap
  limit : conn.rBufCap ≤ M
  len : conn.rLen ≤ conn.rBufCap
  pos : conn.rPos ≤ conn.rLen

theorem RecvInv.unread_length (h : RecvInv M conn) :
    conn.unread.length = conn.rLen - conn.rPos := by
  have := h.block
  have := h.len
  rw [Conn.unread, List.length_drop, List.length_take]
  omega

/-- What holds after the part of the loop before `recv`. -/
structure Room (M : ℕ) (realloc : Realloc) (conn : Conn) (stop : Option ConnIoResult)
    (conn' : Conn) : Prop where
  inv : RecvInv M conn'
  unread : conn'.unread = conn.unread
  fd : conn'.fd = conn.fd
  peerClosed : conn'.peerClosed = conn.peerClosed
  room : stop = none → conn'.rLen < conn'.rBufCap
  full : stop = some .full → conn.unread.length = M
  failed : ∀ errno, stop = some (.error errno) → ∃ cap, realloc cap = none
  only : stop = none ∨ stop = some .full ∨ ∃ errno, stop = some (.error errno)

theorem recvRoom_spec (realloc : Realloc) (hM : connDefaultBufCap ≤ M) (h : RecvInv M conn) :
    ∃ stop conn', recvRoom M realloc conn = some (stop, conn') ∧
      Room M realloc conn stop conn' := by
  have hblock := h.block
  unfold recvRoom
  by_cases hfull : conn.rLen = conn.rBufCap
  · obtain ⟨buf, hrun, hbuf, htake⟩ := bufferCompact_spec h.pos (h.len.trans hblock.ge)
    rw [if_pos hfull, hrun]
    simp only [Option.bind_eq_bind, Option.bind_some]
    have hinv : RecvInv M { conn with rBuf := buf, rLen := conn.rLen - conn.rPos, rPos := 0 } :=
      ⟨hbuf.trans hblock, h.limit, by have := h.len; simp only; omega, Nat.zero_le _⟩
    have hunread : Conn.unread { conn with
        rBuf := buf, rLen := conn.rLen - conn.rPos, rPos := 0 } = conn.unread := htake
    by_cases hstill : conn.rLen - conn.rPos = conn.rBufCap
    · rw [if_pos hstill]
      by_cases hmax : conn.rBufCap = M
      · rw [if_pos hmax]
        refine ⟨_, _, rfl, hinv, hunread, rfl, rfl, by simp, fun _ => ?_, by simp, by simp⟩
        rw [h.unread_length, hstill, hmax]
      · rw [if_neg hmax]
        have hcap : buf.length = conn.rBufCap := hbuf.trans hblock
        have hlimit := h.limit
        have hroom : conn.rBufCap + 1 ≤ M := by omega
        rcases bufferGrow_spec realloc hM hcap hroom Nat.one_pos with
          ⟨hr, herr⟩ | ⟨buf', hok, hge, hle, hkeep⟩
        · rw [herr]
          exact ⟨_, _, rfl, hinv, hunread, rfl, rfl, by simp, by simp, fun _ _ => hr, by simp⟩
        · have hlt : conn.rLen - conn.rPos < buf'.length := by omega
          rw [hok]
          refine ⟨_, _, rfl, ⟨rfl, hle, hlt.le, Nat.zero_le _⟩, ?_, rfl, rfl, fun _ => hlt,
            by simp, by simp, by simp⟩
          rw [← hunread]
          exact congrArg (List.drop 0) (hkeep (conn.rLen - conn.rPos) (by omega))
    · rw [if_neg hstill]
      have hlen := h.len
      exact ⟨_, _, rfl, hinv, hunread, rfl, rfl, fun _ => by simp only; omega, by simp, by simp,
        by simp⟩
  · rw [if_neg hfull]
    have hlen := h.len
    exact ⟨_, _, rfl, h, rfl, rfl, rfl, fun _ => by omega, by simp, by simp, by simp⟩

/-- `recv` appends the bytes that it takes to the unread ones. -/
theorem RecvInv.append (h : RecvInv M conn) {bytes : List UInt8}
    (hroom : conn.rLen + bytes.length ≤ conn.rBufCap) :
    ∃ buf, storeBytes conn.rBuf conn.rLen bytes = some buf ∧
      RecvInv M { conn with rBuf := buf, rLen := conn.rLen + bytes.length } ∧
      Conn.unread { conn with rBuf := buf, rLen := conn.rLen + bytes.length } =
        conn.unread ++ bytes := by
  have hblock := h.block
  obtain ⟨buf, hrun, hbuf, hwindow⟩ := storeBytes_window h.pos (hroom.trans hblock.ge)
  exact ⟨buf, hrun, ⟨hbuf.trans hblock, h.limit, hroom, h.pos.trans (Nat.le_add_right _ _)⟩,
    hwindow⟩

/-- What the answers make of the unread bytes and of those that wait. -/
inductive Receives (M : ℕ) (realloc : Realloc) : List Answer → List UInt8 → List UInt8 →
    ConnIoResult → List UInt8 → List UInt8 → Prop
  | full {answers inbox unread} : unread.length = M →
      Receives M realloc answers inbox unread .full inbox unread
  | refused {answers inbox unread errno} : (∃ size, realloc size = none) →
      Receives M realloc answers inbox unread (.error errno) inbox unread
  | exhausted {inbox unread} : Receives M realloc [] inbox unread .again inbox unread
  | delivered {n answers bytes inbox unread result inbox' unread'} : bytes ≠ [] →
      Receives M realloc answers inbox (unread ++ bytes) result inbox' unread' →
      Receives M realloc (.count n :: answers) (bytes ++ inbox) unread result inbox' unread'
  | closed {n answers inbox unread} : n = 0 ∨ inbox = [] →
      Receives M realloc (.count n :: answers) inbox unread .eof inbox unread
  | interrupted {answers inbox unread result inbox' unread'} :
      Receives M realloc answers inbox unread result inbox' unread' →
      Receives M realloc (.failed .eintr :: answers) inbox unread result inbox' unread'
  | again {errno answers inbox unread} : errno = .eagain ∨ errno = .ewouldblock →
      Receives M realloc (.failed errno :: answers) inbox unread .again inbox unread
  | failed {errno answers inbox unread} : errno ≠ .eintr → errno ≠ .eagain →
      errno ≠ .ewouldblock →
      Receives M realloc (.failed errno :: answers) inbox unread (.error errno) inbox unread

/-- What a call of `conn_recv` leaves. -/
structure Receipt (M : ℕ) (realloc : Realloc) (answers : List Answer) (inbox : List UInt8)
    (conn : Conn) (e : Received) : Prop where
  inv : RecvInv M e.conn
  fd : e.conn.fd = conn.fd
  peerClosed : e.conn.peerClosed = true → conn.peerClosed = true ∨ e.result = .eof
  receives : Receives M realloc answers inbox conn.unread e.result e.inbox e.conn.unread

theorem Room.receipt {result : ConnIoResult} (h : Room M realloc conn (some result) conn')
    (answers : List Answer) (inbox : List UInt8) :
    Receipt M realloc answers inbox conn ⟨result, conn', inbox, answers⟩ := by
  refine ⟨h.inv, h.fd, fun hpeer => Or.inl (h.peerClosed ▸ hpeer), ?_⟩
  simp only [h.unread]
  rcases h.only with hnone | hfull | ⟨errno, herror⟩
  · simp at hnone
  · injection hfull with hresult
    subst hresult
    exact .full (h.full rfl)
  · injection herror with hresult
    subst hresult
    exact .refused (h.failed errno rfl)

theorem Room.receipt_after (h : Room M realloc conn none conn') {answers : List Answer}
    {inbox : List UInt8} {e : Received} (he : Receipt M realloc answers inbox conn' e) :
    Receipt M realloc answers inbox conn e :=
  ⟨he.inv, he.fd.trans h.fd, fun hpeer => h.peerClosed ▸ he.peerClosed hpeer,
    h.unread ▸ he.receives⟩

theorem connRecvLoop_spec (realloc : Realloc) (hM : connDefaultBufCap ≤ M) (h : RecvInv M conn)
    (answers : List Answer) (inbox : List UInt8) :
    ∃ e, connRecvLoop M realloc answers inbox conn = some e ∧
      Receipt M realloc answers inbox conn e := by
  induction answers generalizing inbox conn with
  | nil =>
    obtain ⟨stop, conn', hrun, hroom⟩ := recvRoom_spec realloc hM h
    unfold connRecvLoop
    rw [hrun, Option.bind_eq_bind, Option.bind_some]
    cases stop with
    | some result => exact ⟨_, rfl, hroom.receipt [] inbox⟩
    | none =>
      exact ⟨_, rfl, hroom.receipt_after ⟨hroom.inv, rfl, Or.inl, .exhausted⟩⟩
  | cons answer answers ih =>
    obtain ⟨stop, conn', hrun, hroom⟩ := recvRoom_spec realloc hM h
    unfold connRecvLoop
    rw [hrun, Option.bind_eq_bind, Option.bind_some]
    cases stop with
    | some result => exact ⟨_, rfl, hroom.receipt _ inbox⟩
    | none =>
      cases answer with
      | count n =>
        obtain ⟨k, hk⟩ : ∃ k, min n (min (conn'.rBufCap - conn'.rLen) ssizeMax) = k := ⟨_, rfl⟩
        have hspace := hroom.room rfl
        have hmax : 0 < ssizeMax := by decide
        simp only [hk]
        by_cases hbytes : (inbox.take k).length > 0
        · have hlen : (inbox.take k).length ≤ k := List.length_take_le k inbox
          obtain ⟨buf, hstore, hinv, hunread⟩ :=
            hroom.inv.append (show conn'.rLen + (inbox.take k).length ≤ conn'.rBufCap by omega)
          obtain ⟨e, he, hreceipt⟩ := ih hinv (inbox.drop k)
          rw [if_pos hbytes, hstore, Option.bind_eq_bind, Option.bind_some]
          have hreceives := Receives.delivered (n := n) (List.ne_nil_of_length_pos hbytes)
            (hunread ▸ hreceipt.receives)
          rw [List.take_append_drop] at hreceives
          exact ⟨e, he, hroom.receipt_after { hreceipt with receives := hreceives }⟩
        · rw [if_neg hbytes]
          have hnone : n = 0 ∨ inbox = [] := by
            rw [List.length_take] at hbytes
            rw [← List.length_eq_zero_iff]
            omega
          exact ⟨_, rfl, hroom.receipt_after
            ⟨⟨hroom.inv.block, hroom.inv.limit, hroom.inv.len, hroom.inv.pos⟩, rfl,
              fun _ => Or.inr rfl, .closed hnone⟩⟩
      | failed errno =>
        by_cases hintr : errno = .eintr
        · obtain ⟨e, he, hreceipt⟩ := ih hroom.inv inbox
          subst hintr
          simp only [if_true]
          exact ⟨e, he, hroom.receipt_after { hreceipt with receives := .interrupted hreceipt.receives }⟩
        · simp only [if_neg hintr]
          by_cases hagain : errno = .eagain ∨ errno = .ewouldblock
          · rw [if_pos hagain]
            exact ⟨_, rfl, hroom.receipt_after ⟨hroom.inv, rfl, Or.inl, .again hagain⟩⟩
          · rw [if_neg hagain]
            obtain ⟨h₁, h₂⟩ := not_or.mp hagain
            exact ⟨_, rfl, hroom.receipt_after ⟨hroom.inv, rfl, Or.inl, .failed hintr h₁ h₂⟩⟩

theorem connRecv_spec (hM : connDefaultBufCap ≤ M) (h : RecvInv M conn) (realloc : Realloc)
    (answers : List Answer) (inbox : List UInt8) :
    ∃ e, connRecv M realloc answers inbox conn = some e ∧ RecvInv M e.conn ∧
      ((conn.fd < 0 ∨ conn.peerClosed = true) ∧ e.conn = conn ∧ e.inbox = inbox ∧
          (0 ≤ conn.fd → e.result = .eof) ∨
        Receipt M realloc answers inbox conn e) := by
  unfold connRecv
  by_cases hfd : conn.fd < 0
  · rw [if_pos hfd]
    exact ⟨_, rfl, h, Or.inl ⟨Or.inl hfd, rfl, rfl, fun hnot => absurd hfd (Int.not_lt.mpr hnot)⟩⟩
  · rw [if_neg hfd]
    by_cases hpeer : conn.peerClosed = true
    · rw [if_pos hpeer]
      exact ⟨_, rfl, h, Or.inl ⟨Or.inr hpeer, rfl, rfl, fun _ => rfl⟩⟩
    · rw [if_neg hpeer]
      obtain ⟨e, he, hreceipt⟩ := connRecvLoop_spec realloc hM h answers inbox
      exact ⟨e, he, hreceipt.inv, Or.inr hreceipt⟩

theorem Receives.taken {answers : List Answer} {inbox unread inbox' unread' : List UInt8}
    {result : ConnIoResult} (h : Receives M realloc answers inbox unread result inbox' unread') :
    ∃ got, inbox = got ++ inbox' ∧ unread' = unread ++ got := by
  induction h with
  | @delivered _ _ bytes _ _ _ _ _ _ _ ih =>
    obtain ⟨got, rfl, rfl⟩ := ih
    exact ⟨bytes ++ got, (List.append_assoc _ _ _).symm, List.append_assoc _ _ _⟩
  | interrupted _ ih => exact ih
  | full _ => exact ⟨[], rfl, (List.append_nil _).symm⟩
  | refused _ => exact ⟨[], rfl, (List.append_nil _).symm⟩
  | exhausted => exact ⟨[], rfl, (List.append_nil _).symm⟩
  | closed _ => exact ⟨[], rfl, (List.append_nil _).symm⟩
  | again _ => exact ⟨[], rfl, (List.append_nil _).symm⟩
  | failed _ _ _ => exact ⟨[], rfl, (List.append_nil _).symm⟩

theorem connConsume_spec (h : RecvInv M conn) (count : ℕ) :
    (conn.unread.length < count ∧ connConsume conn count = (conn, some .einval)) ∨
      (count ≤ conn.unread.length ∧ ∃ conn', connConsume conn count = (conn', none) ∧
        RecvInv M conn' ∧ conn'.unread = conn.unread.drop count ∧ conn'.fd = conn.fd ∧
        conn'.peerClosed = conn.peerClosed) := by
  have hpos := h.pos
  have hlen := h.len
  rw [h.unread_length]
  unfold connConsume
  by_cases hcount : count > conn.rLen - conn.rPos
  · exact Or.inl ⟨hcount, if_pos hcount⟩
  · refine Or.inr ⟨not_lt.mp hcount, ?_⟩
    rw [if_neg hcount]
    by_cases hall : conn.rPos + count = conn.rLen
    · refine ⟨_, if_pos hall, ⟨h.block, h.limit, Nat.zero_le _, le_rfl⟩, ?_, rfl, rfl⟩
      rw [List.drop_of_length_le (by rw [h.unread_length]; omega)]
      rfl
    · refine ⟨_, if_neg hall, ⟨h.block, h.limit, hlen, by simp only; omega⟩, ?_, rfl, rfl⟩
      exact (List.drop_drop).symm

theorem connReset_spec (h : RecvInv M conn) :
    RecvInv M (connReset conn) ∧ (connReset conn).unread = [] :=
  ⟨⟨h.block, h.limit, Nat.zero_le _, le_rfl⟩, rfl⟩

theorem connAttach_spec (h : RecvInv M conn) (fd : ℤ) (fcntl : Option Errno) :
    (∃ errno, connAttach conn fd fcntl = (conn, some errno)) ∨
      ∃ conn', connAttach conn fd fcntl = (conn', none) ∧ RecvInv M conn' ∧ conn'.unread = [] ∧
        0 ≤ conn'.fd ∧ conn'.peerClosed = false := by
  unfold connAttach
  split_ifs with hrefused
  · exact Or.inl ⟨_, rfl⟩
  · cases fcntl with
    | some errno => exact Or.inl ⟨errno, rfl⟩
    | none =>
      refine Or.inr ⟨_, rfl, ⟨h.block, h.limit, Nat.zero_le _, le_rfl⟩, rfl, ?_, rfl⟩
      exact Int.not_lt.mp fun hneg => hrefused (Or.inl hneg)

theorem connInit_spec {rRealloc wRealloc : Realloc} (hM : connDefaultBufCap ≤ M)
    (hinit : connInit M rRealloc wRealloc = (conn, none)) :
    RecvInv M conn ∧ conn.unread = [] := by
  obtain ⟨rBuf, wBuf, hle, -, rfl⟩ := connInit_blocks hM hinit
  exact ⟨⟨rfl, hle, Nat.zero_le _, le_rfl⟩, rfl⟩

theorem connAttach_init {rRealloc wRealloc : Realloc} (hM : connDefaultBufCap ≤ M)
    (hr : ∀ size, rRealloc size ≠ none) (hw : ∀ size, wRealloc size ≠ none) {fd : ℤ}
    (hfd : 0 ≤ fd) :
    ∃ conn₀ conn, connInit M rRealloc wRealloc = (conn₀, none) ∧
      connAttach conn₀ fd none = (conn, none) := by
  have hdefault : 0 < connDefaultBufCap := by decide
  have hroom : 0 + connDefaultBufCap ≤ M := by omega
  have hnil : ([] : List UInt8).length = 0 := rfl
  rcases bufferGrow_spec rRealloc hM hnil hroom hdefault with
    ⟨⟨size, hnone⟩, -⟩ | ⟨rBuf, hrun, hrBuf, -, -⟩
  · exact absurd hnone (hr size)
  rcases bufferGrow_spec wRealloc hM hnil hroom hdefault with
    ⟨⟨size, hnone⟩, -⟩ | ⟨wBuf, hwun, hwBuf, -, -⟩
  · exact absurd hnone (hw size)
  have hinit : connInit M rRealloc wRealloc = ({
      rBuf := rBuf
      rBufCap := rBuf.length
      wBuf := wBuf
      wBufCap := wBuf.length }, none) := by
    rw [connInit, if_neg (by omega), hrun]
    simp only [hwun]
  have hrne : rBuf ≠ [] := List.ne_nil_of_length_pos (by omega)
  have hwne : wBuf ≠ [] := List.ne_nil_of_length_pos (by omega)
  exact ⟨_, _, hinit, if_neg (by simp [hrne, hwne, Int.not_lt.mpr hfd])⟩

end Kvx.Net
