import Kvx.ConnSend

/-!
# The send side as a queue

A run of calls on a connection, next to the bytes that `send` accepted and those of the
writes that returned true since the last attach or reset.
-/
namespace Kvx.Net

inductive SendOp
  | write (realloc : Realloc) (data : List UInt8)
  | writeNull (realloc : Realloc) (len : ℕ)
  | flush (answers : List Answer)
  | reset
  | attach (fd : ℤ) (fcntl : Option Errno)

structure SendFifo where
  conn : Conn
  sent : List UInt8 := []
  written : List UInt8 := []
  deriving DecidableEq

/-- A call. Only the bytes of a write that returned true count as written. -/
def stepSend (maxBufferSize : ℕ) (f : SendFifo) : SendOp → Option SendFifo
  | .write realloc data => do
      match ← connWrite maxBufferSize realloc f.conn (some data) data.length with
      | (conn, some _) => some { f with conn := conn }
      | (conn, none) => some { f with conn := conn, written := f.written ++ data }
  | .writeNull realloc len => do
      let (conn, _) ← connWrite maxBufferSize realloc f.conn none len
      some { f with conn := conn }
  | .flush answers => do
      let e ← connFlush answers f.conn
      some { f with conn := e.conn, sent := f.sent ++ e.accepted }
  | .reset => some { conn := connReset f.conn }
  | .attach fd fcntl =>
      match connAttach f.conn fd fcntl with
      | (conn, some _) => some { f with conn := conn }
      | (conn, none) => some { conn := conn }

def runSend (maxBufferSize : ℕ) : SendFifo → List SendOp → Option SendFifo
  | f, [] => some f
  | f, op :: ops => do runSend maxBufferSize (← stepSend maxBufferSize f op) ops

/-- No byte is lost, repeated or out of order, and `conn_flush` says whether any is left. -/
structure Delivers (M : ℕ) (f : SendFifo) : Prop where
  bytes : f.sent ++ f.conn.pending = f.written
  bounds : f.conn.wPos ≤ f.conn.wLen ∧ f.conn.wLen ≤ f.conn.wBufCap ∧ f.conn.wBufCap ≤ M
  flush : 0 ≤ f.conn.fd → ∀ answers, ∃ e, connFlush answers f.conn = some e ∧
    (e.result = .ok ↔ e.conn.pending = [])

structure SendFifoInv (M : ℕ) (f : SendFifo) : Prop where
  inv : SendInv M f.conn
  bytes : f.sent ++ f.conn.pending = f.written

variable {M : ℕ} {f : SendFifo}

theorem SendFifoInv.delivers (h : SendFifoInv M f) : Delivers M f := by
  refine ⟨h.bytes, ⟨h.inv.pos, h.inv.len, h.inv.limit⟩, fun hfd answers => ?_⟩
  obtain ⟨e, he, hflushed⟩ := connFlush_spec h.inv hfd answers
  exact ⟨e, he, hflushed.ok⟩

theorem SendFifoInv.write (hM : connDefaultBufCap ≤ M) (h : SendFifoInv M f)
    (realloc : Realloc) (data : List UInt8) :
    ∃ f', stepSend M f (.write realloc data) = some f' ∧ SendFifoInv M f' := by
  obtain ⟨conn', failed, hrun, hinv, hpending⟩ := connWrite_spec realloc hM h.inv data
  rw [stepSend, hrun, Option.bind_eq_bind, Option.bind_some]
  cases failed with
  | some errno =>
    refine ⟨_, rfl, hinv, ?_⟩
    rw [hpending, if_neg (by simp), List.append_nil]
    exact h.bytes
  | none =>
    refine ⟨_, rfl, hinv, ?_⟩
    rw [hpending, if_pos rfl, ← List.append_assoc, h.bytes]

theorem SendFifoInv.flush (h : SendFifoInv M f) (answers : List Answer) :
    ∃ f', stepSend M f (.flush answers) = some f' ∧ SendFifoInv M f' := by
  rw [stepSend]
  by_cases hfd : f.conn.fd < 0
  · rw [connFlush_detached hfd, Option.bind_eq_bind, Option.bind_some]
    refine ⟨_, rfl, h.inv, ?_⟩
    rw [List.append_nil]
    exact h.bytes
  · obtain ⟨e, he, hflushed⟩ := connFlush_spec h.inv (Int.not_lt.mp hfd) answers
    rw [he, Option.bind_eq_bind, Option.bind_some]
    refine ⟨_, rfl, hflushed.inv, ?_⟩
    rw [List.append_assoc, hflushed.bytes]
    exact h.bytes

theorem SendFifoInv.attach (h : SendFifoInv M f) (fd : ℤ) (fcntl : Option Errno) :
    ∃ f', stepSend M f (.attach fd fcntl) = some f' ∧ SendFifoInv M f' := by
  rw [stepSend]
  rcases connAttach_send h.inv fd fcntl with ⟨errno, hrun⟩ | ⟨conn', hrun, hinv, hpending⟩
  · rw [hrun]
    exact ⟨f, rfl, h⟩
  · rw [hrun]
    exact ⟨_, rfl, hinv, hpending⟩

theorem SendFifoInv.step (hM : connDefaultBufCap ≤ M) (h : SendFifoInv M f) (op : SendOp) :
    ∃ f', stepSend M f op = some f' ∧ SendFifoInv M f' := by
  cases op with
  | write realloc data => exact h.write hM realloc data
  | writeNull realloc len =>
    obtain ⟨failed, hrun⟩ := connWrite_null (M := M) realloc f.conn len
    rw [stepSend, hrun]
    exact ⟨f, rfl, h⟩
  | flush answers => exact h.flush answers
  | reset => exact ⟨_, rfl, h.inv.emptied, rfl⟩
  | attach fd fcntl => exact h.attach fd fcntl

theorem SendFifoInv.run (hM : connDefaultBufCap ≤ M) (h : SendFifoInv M f) (ops : List SendOp) :
    ∃ f', runSend M f ops = some f' ∧ SendFifoInv M f' := by
  induction ops generalizing f with
  | nil => exact ⟨f, rfl, h⟩
  | cons op ops ih =>
    obtain ⟨f₁, hstep, h₁⟩ := h.step hM op
    unfold runSend
    rw [hstep, Option.bind_eq_bind, Option.bind_some]
    exact ih h₁

/-- What is sent and what is pending are the bytes written, after every call. -/
theorem send_fifo {M : ℕ} {rRealloc wRealloc : Realloc} {conn : Conn}
    (hM : connDefaultBufCap ≤ M) (hinit : connInit M rRealloc wRealloc = (conn, none))
    (ops : List SendOp) : ∃ f, runSend M { conn := conn } ops = some f ∧ Delivers M f := by
  obtain ⟨hinv, hpending⟩ := connInit_send hM hinit
  have hstart : SendFifoInv M { conn := conn } := ⟨hinv, hpending⟩
  obtain ⟨f, hrun, h⟩ := hstart.run hM ops
  exact ⟨f, hrun, h.delivers⟩

/-- Two bytes of three are sent before another one is written. -/
theorem send_fifo_partial : ∃ f,
    runSend 4096
      { conn := (connInit 4096 (fun _ => some fun _ => 0) (fun _ => some fun _ => 0)).1 }
      [.attach 5 none, .write (fun _ => none) [7, 8, 9], .flush [.count 2, .failed .eagain],
        .write (fun _ => none) [10]] = some f ∧ Delivers 4096 f :=
  send_fifo le_rfl (Prod.ext rfl rfl) _

end Kvx.Net
