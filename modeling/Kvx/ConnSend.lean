import Kvx.ConnBuffer

/-!
# What `conn_write` and `conn_flush` keep

The pending bytes of a connection are those between its write position and its write length.
`conn_write` appends to them, and `conn_flush` takes from their front what `send` accepts.
-/
namespace Kvx.Net

variable {M : ℕ} {realloc : Realloc} {conn conn' : Conn}

def Conn.pending (conn : Conn) : List UInt8 := (conn.wBuf.take conn.wLen).drop conn.wPos

/-- `w_pos <= w_len <= w_buf_cap <= M`, and the capacity is that of the block. -/
structure SendInv (M : ℕ) (conn : Conn) : Prop where
  block : conn.wBuf.length = conn.wBufCap
  limit : conn.wBufCap ≤ M
  len : conn.wLen ≤ conn.wBufCap
  pos : conn.wPos ≤ conn.wLen

theorem SendInv.pending_length (h : SendInv M conn) :
    conn.pending.length = conn.wLen - conn.wPos := by
  have := h.block
  have := h.len
  rw [Conn.pending, List.length_drop, List.length_take]
  omega

theorem SendInv.pending_eq_nil (h : SendInv M conn) :
    conn.pending = [] ↔ conn.wPos = conn.wLen := by
  have := h.pos
  rw [← List.length_eq_zero_iff, h.pending_length]
  omega

/-- What holds before the `memcpy` of `conn_write`, or where it gives up. -/
structure WriteRoom (M : ℕ) (conn : Conn) (len : ℕ) (failed : Option Errno) (conn' : Conn) :
    Prop where
  inv : SendInv M conn'
  pending : conn'.pending = conn.pending
  grown : conn.wBufCap ≤ conn'.wBufCap
  room : failed = none → conn'.wLen + len ≤ conn'.wBufCap

theorem writeRoom_spec (realloc : Realloc) (hM : connDefaultBufCap ≤ M) (h : SendInv M conn)
    {len : ℕ} (hlen : len ≤ M - (conn.wLen - conn.wPos)) :
    ∃ failed conn', writeRoom M realloc conn len = some (failed, conn') ∧
      WriteRoom M conn len failed conn' := by
  have hblock := h.block
  have hlimit := h.limit
  have hwLen := h.len
  unfold writeRoom
  by_cases hfull : len > conn.wBufCap - conn.wLen
  · obtain ⟨buf, hrun, hbuf, htake⟩ := bufferCompact_spec h.pos (h.len.trans hblock.ge)
    rw [if_pos hfull, hrun]
    simp only [Option.bind_eq_bind, Option.bind_some]
    have hinv : SendInv M { conn with wBuf := buf, wLen := conn.wLen - conn.wPos, wPos := 0 } :=
      ⟨hbuf.trans hblock, hlimit, by simp only; omega, Nat.zero_le _⟩
    have hpending : Conn.pending { conn with
        wBuf := buf, wLen := conn.wLen - conn.wPos, wPos := 0 } = conn.pending := htake
    by_cases hstill : len > conn.wBufCap - (conn.wLen - conn.wPos)
    · rw [if_pos hstill]
      rcases bufferGrow_spec realloc hM (hbuf.trans hblock)
          (show conn.wBufCap + (len - (conn.wBufCap - (conn.wLen - conn.wPos))) ≤ M by omega)
          (by omega) with ⟨-, herr⟩ | ⟨buf', hok, hge, hle, hkeep⟩
      · rw [herr]
        exact ⟨_, _, rfl, hinv, hpending, le_rfl, by simp⟩
      · rw [hok]
        refine ⟨_, _, rfl, ⟨rfl, hle, by simp only; omega, Nat.zero_le _⟩, ?_, by simp only; omega,
          fun _ => by simp only; omega⟩
        rw [← hpending]
        exact congrArg (List.drop 0) (hkeep (conn.wLen - conn.wPos) (by omega))
    · rw [if_neg hstill]
      exact ⟨_, _, rfl, hinv, hpending, le_rfl, fun _ => by simp only; omega⟩
  · rw [if_neg hfull]
    exact ⟨_, _, rfl, h, rfl, le_rfl, fun _ => by omega⟩

/-- A write appends all of its bytes, or it leaves the pending ones as they are. -/
theorem connWrite_spec (realloc : Realloc) (hM : connDefaultBufCap ≤ M) (h : SendInv M conn)
    (data : List UInt8) :
    ∃ conn' failed, connWrite M realloc conn (some data) data.length = some (conn', failed) ∧
      SendInv M conn' ∧
      conn'.pending = conn.pending ++ (if failed = none then data else []) := by
  unfold connWrite
  by_cases hzero : data.length = 0
  · refine ⟨conn, none, if_pos hzero, h, ?_⟩
    rw [if_pos rfl, List.length_eq_zero_iff.mp hzero, List.append_nil]
  rw [if_neg hzero]
  simp only
  by_cases hfit : data.length > M - (conn.wLen - conn.wPos)
  · rw [if_pos hfit]
    exact ⟨_, _, rfl, h, by simp⟩
  rw [if_neg hfit]
  obtain ⟨failed, conn', hrun, hroom⟩ := writeRoom_spec realloc hM h (not_lt.mp hfit)
  rw [hrun, Option.bind_eq_bind, Option.bind_some]
  cases failed with
  | some errno => exact ⟨_, _, rfl, hroom.inv, by simp [hroom.pending]⟩
  | none =>
    have hblock := hroom.inv.block
    have hspace := hroom.room rfl
    obtain ⟨buf, hstore, hbuf, hwindow⟩ :=
      storeBytes_window hroom.inv.pos (hspace.trans hblock.ge)
    have hload : loadBytes data 0 data.length = some data := by
      rw [loadBytes_eq (by omega), List.drop_zero, List.take_length]
    simp only [hload, hstore, Option.bind_eq_bind, Option.bind_some]
    refine ⟨_, _, rfl, ⟨hbuf.trans hblock, hroom.inv.limit, hspace,
      hroom.inv.pos.trans (Nat.le_add_right _ _)⟩, ?_⟩
    rw [if_pos rfl, ← hroom.pending]
    exact hwindow

theorem connWrite_null (realloc : Realloc) (conn : Conn) (len : ℕ) :
    ∃ failed, connWrite M realloc conn none len = some (conn, failed) := by
  unfold connWrite
  split_ifs
  · exact ⟨_, rfl⟩
  · exact ⟨_, rfl⟩

/-- What `conn_flush` leaves: the accepted bytes came off the front of the pending ones. -/
structure Flushed (M : ℕ) (conn : Conn) (e : Sent) : Prop where
  inv : SendInv M e.conn
  bytes : e.accepted ++ e.conn.pending = conn.pending
  ok : e.result = .ok ↔ e.conn.pending = []

theorem SendInv.accept (h : SendInv M conn) {n : ℕ} (hn : n ≤ conn.wLen - conn.wPos) :
    SendInv M { conn with wPos := conn.wPos + n } ∧
      Conn.pending { conn with wPos := conn.wPos + n } = conn.pending.drop n := by
  have hpos := h.pos
  exact ⟨⟨h.block, h.limit, h.len, by simp only; omega⟩, List.drop_drop.symm⟩

theorem connWantsPollout_iff (h : SendInv M conn) :
    connWantsPollout conn = true ↔ conn.pending ≠ [] := by
  have hpos := h.pos
  rw [Ne, h.pending_eq_nil, connWantsPollout, decide_eq_true_iff]
  omega

theorem SendInv.stopped (h : SendInv M conn) (hpending : conn.pending ≠ [])
    {result : ConnIoResult} (hresult : result ≠ .ok) (answers : List Answer) :
    Flushed M conn ⟨result, conn, [], answers⟩ :=
  ⟨h, rfl, ⟨fun heq => absurd heq hresult, fun heq => absurd heq hpending⟩⟩

/-- Once nothing is pending, both offsets go back to the start of the block. -/
theorem SendInv.drained (h : SendInv M conn) (hpending : conn.pending = [])
    (answers : List Answer) :
    connFlushLoop answers conn = some ⟨.ok, { conn with wPos := 0, wLen := 0 }, [], answers⟩ ∧
      Flushed M conn ⟨.ok, { conn with wPos := 0, wLen := 0 }, [], answers⟩ := by
  have hdone : ¬connWantsPollout conn = true :=
    fun hwants => (connWantsPollout_iff h).mp hwants hpending
  refine ⟨by rw [connFlushLoop, if_neg hdone],
    ⟨h.block, h.limit, Nat.zero_le _, le_rfl⟩, hpending.symm, ?_⟩
  exact ⟨fun _ => rfl, fun _ => rfl⟩

theorem SendInv.offered (h : SendInv M conn) :
    loadBytes conn.wBuf conn.wPos (min (conn.wLen - conn.wPos) ssizeMax) =
      some (conn.pending.take (min (conn.wLen - conn.wPos) ssizeMax)) := by
  have hblock := h.block
  have hlen := h.len
  have hpos := h.pos
  rw [loadBytes_eq (by omega), Conn.pending, List.drop_take, List.take_take]
  congr 2
  omega

theorem connFlushLoop_spec (h : SendInv M conn) (answers : List Answer) :
    ∃ e, connFlushLoop answers conn = some e ∧ Flushed M conn e := by
  induction answers generalizing conn with
  | nil =>
    by_cases hpending : conn.pending = []
    · exact ⟨_, h.drained hpending []⟩
    · rw [connFlushLoop, if_pos ((connWantsPollout_iff h).mpr hpending)]
      simp only [h.offered, Option.bind_eq_bind, Option.bind_some]
      exact ⟨_, rfl, h.stopped hpending (by simp) []⟩
  | cons answer answers ih =>
    by_cases hpending : conn.pending = []
    · exact ⟨_, h.drained hpending _⟩
    rw [connFlushLoop, if_pos ((connWantsPollout_iff h).mpr hpending)]
    simp only [h.offered, Option.bind_eq_bind, Option.bind_some]
    cases answer with
    | count n =>
      obtain ⟨k, hk⟩ : ∃ k, min n (min (conn.wLen - conn.wPos) ssizeMax) = k := ⟨_, rfl⟩
      have hlen : (conn.pending.take k).length = k := by
        rw [List.length_take, h.pending_length]
        omega
      simp only [List.take_take, hk, hlen]
      by_cases hpositive : k > 0
      · obtain ⟨hinv, hdrop⟩ := h.accept (show k ≤ conn.wLen - conn.wPos by omega)
        obtain ⟨e, he, hflushed⟩ := ih hinv
        rw [if_pos hpositive, he, Option.bind_some]
        refine ⟨_, rfl, hflushed.inv, ?_, hflushed.ok⟩
        rw [List.append_assoc, hflushed.bytes, hdrop, List.take_append_drop]
      · rw [if_neg hpositive]
        exact ⟨_, rfl, h.stopped hpending (by simp) answers⟩
    | failed errno =>
      simp only
      by_cases hintr : errno = .eintr
      · rw [if_pos hintr]
        exact ih h
      rw [if_neg hintr]
      by_cases hagain : errno = .eagain ∨ errno = .ewouldblock
      · rw [if_pos hagain]
        exact ⟨_, rfl, h.stopped hpending (by simp) answers⟩
      · rw [if_neg hagain]
        exact ⟨_, rfl, h.stopped hpending (by simp) answers⟩

theorem connFlush_spec (h : SendInv M conn) (hfd : 0 ≤ conn.fd) (answers : List Answer) :
    ∃ e, connFlush answers conn = some e ∧ Flushed M conn e := by
  rw [connFlush, if_neg (Int.not_lt.mpr hfd)]
  exact connFlushLoop_spec h answers

theorem connFlush_detached (hfd : conn.fd < 0) (answers : List Answer) :
    connFlush answers conn = some ⟨.error .ebadf, conn, [], answers⟩ := if_pos hfd

theorem SendInv.emptied (h : SendInv M conn) {fd : ℤ} {peerClosed : Bool} {rLen rPos : ℕ} :
    SendInv M { conn with
      fd := fd, peerClosed := peerClosed, rLen := rLen, rPos := rPos, wLen := 0, wPos := 0 } :=
  ⟨h.block, h.limit, Nat.zero_le _, le_rfl⟩

theorem connAttach_send (h : SendInv M conn) (fd : ℤ) (fcntl : Option Errno) :
    (∃ errno, connAttach conn fd fcntl = (conn, some errno)) ∨
      ∃ conn', connAttach conn fd fcntl = (conn', none) ∧ SendInv M conn' ∧
        conn'.pending = [] := by
  unfold connAttach
  split_ifs with hrefused
  · exact Or.inl ⟨_, rfl⟩
  · cases fcntl with
    | some errno => exact Or.inl ⟨errno, rfl⟩
    | none => exact Or.inr ⟨_, rfl, h.emptied, rfl⟩

theorem connInit_send {rRealloc wRealloc : Realloc} (hM : connDefaultBufCap ≤ M)
    (hinit : connInit M rRealloc wRealloc = (conn, none)) :
    SendInv M conn ∧ conn.pending = [] := by
  obtain ⟨rBuf, wBuf, -, hle, rfl⟩ := connInit_blocks hM hinit
  exact ⟨⟨rfl, hle, Nat.zero_le _, le_rfl⟩, rfl⟩

end Kvx.Net
