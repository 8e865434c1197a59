import Kvx.ConnRecv

/-!
# The receive side as a queue

A run of calls on a connection, next to the bytes that `recv` delivered and those that the
caller consumed since the last attach or reset.
-/
namespace Kvx.Net

inductive ConnOp
  | recv (realloc : Realloc) (answers : List Answer) (inbox : List UInt8)
  | consume (count : ℕ)
  | reset
  | attach (fd : ℤ) (fcntl : Option Errno)

structure Fifo where
  conn : Conn
  received : List UInt8 := []
  consumed : List UInt8 := []
  deriving DecidableEq

/-- A call. The bytes that left the inbox are those that `recv` delivered. -/
def stepFifo (maxBufferSize : ℕ) (f : Fifo) : ConnOp → Option Fifo
  | .recv realloc answers inbox => do
      let e ← connRecv maxBufferSize realloc answers inbox f.conn
      let got := inbox.take (inbox.length - e.inbox.length)
      some { f with conn := e.conn, received := f.received ++ got }
  | .consume count =>
      match connConsume f.conn count with
      | (conn, some _) => some { f with conn := conn }
      | (conn, none) =>
          some { f with conn := conn, consumed := f.consumed ++ f.conn.unread.take count }
  | .reset => some { conn := connReset f.conn }
  | .attach fd fcntl =>
      match connAttach f.conn fd fcntl with
      | (conn, some _) => some { f with conn := conn }
      | (conn, none) => some { conn := conn }

def runFifo (maxBufferSize : ℕ) : Fifo → List ConnOp → Option Fifo
  | f, [] => some f
  | f, op :: ops => do runFifo maxBufferSize (← stepFifo maxBufferSize f op) ops

/-- No byte is lost, made up or out of order, and the caller cannot consume too many. -/
structure Lossless (M : ℕ) (f : Fifo) : Prop where
  bytes : f.consumed ++ f.conn.unread = f.received
  bounds : f.conn.rPos ≤ f.conn.rLen ∧ f.conn.rLen ≤ f.conn.rBufCap ∧ f.conn.rBufCap ≤ M
  refuses : ∀ count, (connConsume f.conn count).2 ≠ none ↔ f.conn.unread.length < count
  unchanged : ∀ count, (connConsume f.conn count).2 ≠ none → (connConsume f.conn count).1 = f.conn

structure FifoInv (M : ℕ) (f : Fifo) : Prop where
  inv : RecvInv M f.conn
  bytes : f.consumed ++ f.conn.unread = f.received

variable {M : ℕ} {f : Fifo}

theorem FifoInv.lossless (h : FifoInv M f) : Lossless M f := by
  refine ⟨h.bytes, ⟨h.inv.pos, h.inv.len, h.inv.limit⟩, fun count => ?_, fun count hfail => ?_⟩
  · rcases connConsume_spec h.inv count with ⟨hlt, hrun⟩ | ⟨hle, conn', hrun, -⟩
    · rw [hrun]
      simpa using hlt
    · rw [hrun]
      simpa using hle
  · rcases connConsume_spec h.inv count with ⟨-, hrun⟩ | ⟨-, conn', hrun, -⟩
    · rw [hrun]
    · rw [hrun] at hfail
      exact absurd rfl hfail

theorem FifoInv.recv (hM : connDefaultBufCap ≤ M) (h : FifoInv M f) (realloc : Realloc)
    (answers : List Answer) (inbox : List UInt8) :
    ∃ f', stepFifo M f (.recv realloc answers inbox) = some f' ∧ FifoInv M f' := by
  obtain ⟨e, he, hinv, hcase⟩ := connRecv_spec hM h.inv realloc answers inbox
  rw [stepFifo, he, Option.bind_eq_bind, Option.bind_some]
  refine ⟨_, rfl, hinv, ?_⟩
  simp only
  rcases hcase with ⟨-, hconn, hinbox, -⟩ | hreceipt
  · rw [hconn, hinbox, Nat.sub_self, List.take_zero, List.append_nil]
    exact h.bytes
  · obtain ⟨got, hgot, hunread⟩ := hreceipt.receives.taken
    rw [hunread, ← List.append_assoc, h.bytes]
    conv_rhs => rw [hgot, List.length_append, Nat.add_sub_cancel, List.take_left]

theorem FifoInv.consume (h : FifoInv M f) (count : ℕ) :
    ∃ f', stepFifo M f (.consume count) = some f' ∧ FifoInv M f' := by
  rw [stepFifo]
  rcases connConsume_spec h.inv count with ⟨-, hrun⟩ | ⟨hle, conn', hrun, hinv, hunread, -⟩
  · rw [hrun]
    exact ⟨f, rfl, h⟩
  · rw [hrun]
    refine ⟨_, rfl, hinv, ?_⟩
    simp only
    rw [hunread, List.append_assoc, List.take_append_drop]
    exact h.bytes

theorem FifoInv.attach (h : FifoInv M f) (fd : ℤ) (fcntl : Option Errno) :
    ∃ f', stepFifo M f (.attach fd fcntl) = some f' ∧ FifoInv M f' := by
  rw [stepFifo]
  rcases connAttach_spec h.inv fd fcntl with ⟨errno, hrun⟩ | ⟨conn', hrun, hinv, hunread, -⟩
  · rw [hrun]
    exact ⟨f, rfl, h⟩
  · rw [hrun]
    exact ⟨_, rfl, hinv, hunread⟩

theorem FifoInv.step (hM : connDefaultBufCap ≤ M) (h : FifoInv M f) (op : ConnOp) :
    ∃ f', stepFifo M f op = some f' ∧ FifoInv M f' := by
  cases op with
  | recv realloc answers inbox => exact h.recv hM realloc answers inbox
  | consume count => exact h.consume count
  | reset =>
    obtain ⟨hinv, hunread⟩ := connReset_spec h.inv
    exact ⟨_, rfl, hinv, hunread⟩
  | attach fd fcntl => exact h.attach fd fcntl

theorem FifoInv.run (hM : connDefaultBufCap ≤ M) (h : FifoInv M f) (ops : List ConnOp) :
    ∃ f', runFifo M f ops = some f' ∧ FifoInv M f' := by
  induction ops generalizing f with
  | nil => exact ⟨f, rfl, h⟩
  | cons op ops ih =>
    obtain ⟨f₁, hstep, h₁⟩ := h.step hM op
    unfold runFifo
    rw [hstep, Option.bind_eq_bind, Option.bind_some]
    exact ih h₁

/-- What is consumed and what is unread are the bytes received, after every call. -/
theorem recv_fifo {M : ℕ} {rRealloc wRealloc : Realloc} {conn : Conn}
    (hM : connDefaultBufCap ≤ M) (hinit : connInit M rRealloc wRealloc = (conn, none))
    (ops : List ConnOp) : ∃ f, runFifo M { conn := conn } ops = some f ∧ Lossless M f := by
  obtain ⟨hinv, hunread⟩ := connInit_spec hM hinit
  have hstart : FifoInv M { conn := conn } := ⟨hinv, hunread⟩
  obtain ⟨f, hrun, h⟩ := hstart.run hM ops
  exact ⟨f, hrun, h.lossless⟩

/-- Two bytes of three are consumed, and the third is still there. -/
theorem recv_fifo_twoOfThree : ∃ f,
    runFifo 4096
      { conn := (connInit 4096 (fun _ => some fun _ => 0) (fun _ => some fun _ => 0)).1 }
      [.attach 5 none, .recv (fun _ => none) [.count 2, .failed .eintr, .count 9] [7, 8, 9],
        .consume 2] = some f ∧ Lossless 4096 f :=
  recv_fifo le_rfl (Prod.ext rfl rfl) _

end Kvx.Net
