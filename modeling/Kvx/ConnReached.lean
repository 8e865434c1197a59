import Kvx.ConnRecv
import Kvx.ConnSend

/-!
# Reachable connections

The states that the calls of the interface lead to, once the limit is set. A call on one side of
a connection does not touch the other side.
-/
namespace Kvx.Net

/-- `EALREADY` -/
def ealready : Errno := .other 114

def connSetMaxBufferSize (maxBufferSize size : ℕ) : ℕ × Option Errno :=
  if maxBufferSize ≠ 0 then (maxBufferSize, some ealready)
  else if size < connDefaultBufCap then (maxBufferSize, some .einval)
  else (size, none)

def connDestroy (_conn : Conn) : Conn := {}

/-- The states of a connection when the limit is `M`. -/
inductive ConnReached (M : ℕ) : Conn → Prop
  | init {rRealloc wRealloc : Realloc} {conn : Conn} {failed : Option Errno}
      (limit : connSetMaxBufferSize 0 M = (M, none))
      (run : connInit M rRealloc wRealloc = (conn, failed)) : ConnReached M conn
  | attach {conn conn' : Conn} {fd : ℤ} {fcntl failed : Option Errno}
      (before : ConnReached M conn) (run : connAttach conn fd fcntl = (conn', failed)) :
      ConnReached M conn'
  | reset {conn : Conn} (before : ConnReached M conn) : ConnReached M (connReset conn)
  | destroy {conn : Conn} (before : ConnReached M conn) : ConnReached M (connDestroy conn)
  | recv {conn : Conn} {realloc : Realloc} {answers : List Answer} {inbox : List UInt8}
      {e : Received} (before : ConnReached M conn)
      (run : connRecv M realloc answers inbox conn = some e) : ConnReached M e.conn
  | consume {conn conn' : Conn} {count : ℕ} {failed : Option Errno} (before : ConnReached M conn)
      (run : connConsume conn count = (conn', failed)) : ConnReached M conn'
  | write {conn conn' : Conn} {realloc : Realloc} {data : List UInt8} {failed : Option Errno}
      (before : ConnReached M conn)
      (run : connWrite M realloc conn (some data) data.length = some (conn', failed)) :
      ConnReached M conn'
  | writeNull {conn conn' : Conn} {realloc : Realloc} {len : ℕ} {failed : Option Errno}
      (before : ConnReached M conn)
      (run : connWrite M realloc conn none len = some (conn', failed)) : ConnReached M conn'
  | flush {conn : Conn} {answers : List Answer} {e : Sent} (before : ConnReached M conn)
      (run : connFlush answers conn = some e) : ConnReached M e.conn

variable {M : ℕ} {realloc : Realloc} {conn conn' : Conn}

theorem ConnReached.limit (h : ConnReached M conn) : connDefaultBufCap ≤ M := by
  induction h with
  | init limit run =>
    unfold connSetMaxBufferSize at limit
    split_ifs at limit with hset hsmall
    · exact absurd rfl hset
    · simp at limit
    · exact Nat.not_lt.mp hsmall
  | attach _ _ ih => exact ih
  | reset _ ih => exact ih
  | destroy _ ih => exact ih
  | recv _ _ ih => exact ih
  | consume _ _ ih => exact ih
  | write _ _ ih => exact ih
  | writeNull _ _ ih => exact ih
  | flush _ _ ih => exact ih

theorem connInit_failed {rRealloc wRealloc : Realloc} {errno : Errno}
    (h : connInit M rRealloc wRealloc = (conn, some errno)) : conn = {} := by
  unfold connInit at h
  split_ifs at h
  · exact (Prod.mk.inj h).1.symm
  · cases hr : bufferGrow M rRealloc [] 0 connDefaultBufCap with
    | error err =>
      rw [hr] at h
      exact (Prod.mk.inj h).1.symm
    | ok r =>
      cases hw : bufferGrow M wRealloc [] 0 connDefaultBufCap with
      | error err =>
        rw [hr, hw] at h
        exact (Prod.mk.inj h).1.symm
      | ok w => simp [hr, hw] at h

def Conn.recvSide (conn : Conn) : List UInt8 × ℕ × ℕ × ℕ :=
  (conn.rBuf, conn.rBufCap, conn.rLen, conn.rPos)

def Conn.sendSide (conn : Conn) : List UInt8 × ℕ × ℕ × ℕ :=
  (conn.wBuf, conn.wBufCap, conn.wLen, conn.wPos)

theorem RecvInv.congr (h : RecvInv M conn) (hside : conn'.recvSide = conn.recvSide) :
    RecvInv M conn' := by
  simp only [Conn.recvSide, Prod.mk.injEq] at hside
  obtain ⟨hbuf, hcap, hlen, hpos⟩ := hside
  exact ⟨by rw [hbuf, hcap, h.block], by rw [hcap]; exact h.limit, by rw [hlen, hcap]; exact h.len,
    by rw [hpos, hlen]; exact h.pos⟩

theorem SendInv.congr (h : SendInv M conn) (hside : conn'.sendSide = conn.sendSide) :
    SendInv M conn' := by
  simp only [Conn.sendSide, Prod.mk.injEq] at hside
  obtain ⟨hbuf, hcap, hlen, hpos⟩ := hside
  exact ⟨by rw [hbuf, hcap, h.block], by rw [hcap]; exact h.limit, by rw [hlen, hcap]; exact h.len,
    by rw [hpos, hlen]; exact h.pos⟩

theorem recvRoom_sendSide {stop : Option ConnIoResult}
    (h : recvRoom M realloc conn = some (stop, conn')) : conn'.sendSide = conn.sendSide := by
  unfold recvRoom at h
  split_ifs at h
  · simp only [Option.bind_eq_bind, Option.bind_eq_some_iff] at h
    obtain ⟨⟨buf, len, pos⟩, -, h⟩ := h
    simp only at h
    split_ifs at h
    · obtain ⟨-, rfl⟩ := Prod.mk.inj (Option.some.inj h)
      rfl
    · cases hgrow : bufferGrow M realloc buf conn.rBufCap 1 with
      | error errno =>
        rw [hgrow] at h
        obtain ⟨-, rfl⟩ := Prod.mk.inj (Option.some.inj h)
        rfl
      | ok grown =>
        rw [hgrow] at h
        obtain ⟨-, rfl⟩ := Prod.mk.inj (Option.some.inj h)
        rfl
    · obtain ⟨-, rfl⟩ := Prod.mk.inj (Option.some.inj h)
      rfl
  · obtain ⟨-, rfl⟩ := Prod.mk.inj (Option.some.inj h)
    rfl

theorem connRecvLoop_sendSide {answers : List Answer} {inbox : List UInt8} {e : Received}
    (h : connRecvLoop M realloc answers inbox conn = some e) :
    e.conn.sendSide = conn.sendSide := by
  induction answers generalizing inbox conn with
  | nil =>
    unfold connRecvLoop at h
    simp only [Option.bind_eq_bind, Option.bind_eq_some_iff] at h
    obtain ⟨⟨stop, conn₁⟩, hroom, h⟩ := h
    rw [← recvRoom_sendSide hroom]
    cases stop <;> exact Option.some.inj h ▸ rfl
  | cons answer answers ih =>
    unfold connRecvLoop at h
    simp only [Option.bind_eq_bind, Option.bind_eq_some_iff] at h
    obtain ⟨⟨stop, conn₁⟩, hroom, h⟩ := h
    rw [← recvRoom_sendSide hroom]
    cases stop with
    | some result => exact Option.some.inj h ▸ rfl
    | none =>
      cases answer with
      | count n =>
        simp only at h
        split_ifs at h
        · obtain ⟨buf, -, h⟩ := Option.bind_eq_some_iff.mp h
          have hrest := ih h
          exact hrest
        · exact Option.some.inj h ▸ rfl
      | failed errno =>
        simp only at h
        split_ifs at h
        · exact ih h
        · exact Option.some.inj h ▸ rfl
        · exact Option.some.inj h ▸ rfl

theorem connRecv_sendSide {answers : List Answer} {inbox : List UInt8} {e : Received}
    (h : connRecv M realloc answers inbox conn = some e) : e.conn.sendSide = conn.sendSide := by
  unfold connRecv at h
  split_ifs at h
  · exact Option.some.inj h ▸ rfl
  · exact Option.some.inj h ▸ rfl
  · exact connRecvLoop_sendSide h

theorem connConsume_sendSide {count : ℕ} {failed : Option Errno}
    (h : connConsume conn count = (conn', failed)) : conn'.sendSide = conn.sendSide := by
  unfold connConsume at h
  simp only at h
  split_ifs at h
  all_goals
    obtain ⟨rfl, -⟩ := Prod.mk.inj h
    rfl

theorem writeRoom_recvSide {len : ℕ} {failed : Option Errno}
    (h : writeRoom M realloc conn len = some (failed, conn')) :
    conn'.recvSide = conn.recvSide := by
  unfold writeRoom at h
  split_ifs at h
  · simp only [Option.bind_eq_bind, Option.bind_eq_some_iff] at h
    obtain ⟨⟨buf, wLen, wPos⟩, -, h⟩ := h
    simp only at h
    split_ifs at h
    · cases hgrow : bufferGrow M realloc buf conn.wBufCap (len - (conn.wBufCap - wLen)) with
      | error errno =>
        rw [hgrow] at h
        obtain ⟨-, rfl⟩ := Prod.mk.inj (Option.some.inj h)
        rfl
      | ok grown =>
        rw [hgrow] at h
        obtain ⟨-, rfl⟩ := Prod.mk.inj (Option.some.inj h)
        rfl
    · obtain ⟨-, rfl⟩ := Prod.mk.inj (Option.some.inj h)
      rfl
  · obtain ⟨-, rfl⟩ := Prod.mk.inj (Option.some.inj h)
    rfl

theorem connWrite_recvSide {data : Option (List UInt8)} {len : ℕ} {failed : Option Errno}
    (h : connWrite M realloc conn data len = some (conn', failed)) :
    conn'.recvSide = conn.recvSide := by
  unfold connWrite at h
  split_ifs at h
  · obtain ⟨rfl, -⟩ := Prod.mk.inj (Option.some.inj h)
    rfl
  cases data with
  | none =>
    obtain ⟨rfl, -⟩ := Prod.mk.inj (Option.some.inj h)
    rfl
  | some data =>
    simp only at h
    split_ifs at h
    · obtain ⟨rfl, -⟩ := Prod.mk.inj (Option.some.inj h)
      rfl
    · simp only [Option.bind_eq_bind, Option.bind_eq_some_iff] at h
      obtain ⟨⟨stop, conn₁⟩, hroom, h⟩ := h
      rw [← writeRoom_recvSide hroom]
      cases stop with
      | some errno =>
        obtain ⟨rfl, -⟩ := Prod.mk.inj (Option.some.inj h)
        rfl
      | none =>
        simp only [Option.bind_eq_some_iff] at h
        obtain ⟨bytes, -, buf, -, h⟩ := h
        obtain ⟨rfl, -⟩ := Prod.mk.inj (Option.some.inj h)
        rfl

theorem connFlushLoop_recvSide {answers : List Answer} {e : Sent}
    (h : connFlushLoop answers conn = some e) : e.conn.recvSide = conn.recvSide := by
  induction answers generalizing conn e with
  | nil =>
    unfold connFlushLoop at h
    split_ifs at h
    · simp only [Option.bind_eq_bind, Option.bind_eq_some_iff] at h
      obtain ⟨offered, -, h⟩ := h
      exact Option.some.inj h ▸ rfl
    · exact Option.some.inj h ▸ rfl
  | cons answer answers ih =>
    unfold connFlushLoop at h
    split_ifs at h
    · simp only [Option.bind_eq_bind, Option.bind_eq_some_iff] at h
      obtain ⟨offered, -, h⟩ := h
      cases answer with
      | count n =>
        simp only at h
        split_ifs at h
        · obtain ⟨e₁, h₁, h⟩ := Option.bind_eq_some_iff.mp h
          have hrest := ih h₁
          rw [← Option.some.inj h]
          exact hrest
        · exact Option.some.inj h ▸ rfl
      | failed errno =>
        simp only at h
        split_ifs at h
        · exact ih h
        · exact Option.some.inj h ▸ rfl
        · exact Option.some.inj h ▸ rfl
    · exact Option.some.inj h ▸ rfl

theorem connFlush_recvSide {answers : List Answer} {e : Sent}
    (h : connFlush answers conn = some e) : e.conn.recvSide = conn.recvSide := by
  unfold connFlush at h
  split_ifs at h
  · exact Option.some.inj h ▸ rfl
  · exact connFlushLoop_recvSide h

theorem RecvInv.attach (h : RecvInv M conn) {fd : ℤ} {fcntl failed : Option Errno}
    (run : connAttach conn fd fcntl = (conn', failed)) : RecvInv M conn' := by
  rcases connAttach_spec h fd fcntl with ⟨errno, he⟩ | ⟨conn₁, he, hinv, -⟩
  · rw [run, Prod.mk.injEq] at he
    exact he.1 ▸ h
  · rw [run, Prod.mk.injEq] at he
    exact he.1 ▸ hinv

theorem SendInv.attach (h : SendInv M conn) {fd : ℤ} {fcntl failed : Option Errno}
    (run : connAttach conn fd fcntl = (conn', failed)) : SendInv M conn' := by
  rcases connAttach_send h fd fcntl with ⟨errno, he⟩ | ⟨conn₁, he, hinv, -⟩
  · rw [run, Prod.mk.injEq] at he
    exact he.1 ▸ h
  · rw [run, Prod.mk.injEq] at he
    exact he.1 ▸ hinv

theorem RecvInv.consume (h : RecvInv M conn) {count : ℕ} {failed : Option Errno}
    (run : connConsume conn count = (conn', failed)) : RecvInv M conn' := by
  rcases connConsume_spec h count with ⟨-, he⟩ | ⟨-, conn₁, he, hinv, -⟩
  · rw [run, Prod.mk.injEq] at he
    exact he.1 ▸ h
  · rw [run, Prod.mk.injEq] at he
    exact he.1 ▸ hinv

theorem SendInv.flush (h : SendInv M conn) {answers : List Answer} {e : Sent}
    (run : connFlush answers conn = some e) : SendInv M e.conn := by
  rcases Int.lt_or_le conn.fd 0 with hneg | hfd
  · rw [connFlush_detached hneg, Option.some.injEq] at run
    exact run ▸ h
  · obtain ⟨e', he, hflushed⟩ := connFlush_spec h hfd answers
    rw [run, Option.some.injEq] at he
    exact he ▸ hflushed.inv

theorem ConnReached.inv (h : ConnReached M conn) : RecvInv M conn ∧ SendInv M conn := by
  have hM := h.limit
  have hempty : RecvInv M {} ∧ SendInv M {} :=
    ⟨⟨rfl, Nat.zero_le _, le_rfl, le_rfl⟩, ⟨rfl, Nat.zero_le _, le_rfl, le_rfl⟩⟩
  induction h with
  | @init rRealloc wRealloc conn failed limit run =>
    cases failed with
    | none => exact ⟨(connInit_spec hM run).1, (connInit_send hM run).1⟩
    | some errno =>
      have hconn : conn = {} := connInit_failed run
      exact hconn ▸ hempty
  | attach before run ih => exact ⟨ih.1.attach run, ih.2.attach run⟩
  | reset before ih =>
    obtain ⟨hr, hs⟩ := ih
    exact ⟨(connReset_spec hr).1, hs.emptied⟩
  | destroy before ih => exact hempty
  | @recv conn realloc answers inbox e before run ih =>
    obtain ⟨hr, hs⟩ := ih
    obtain ⟨e', he, hinv, -⟩ := connRecv_spec hM hr realloc answers inbox
    rw [run, Option.some.injEq] at he
    exact ⟨he ▸ hinv, hs.congr (connRecv_sendSide run)⟩
  | consume before run ih => exact ⟨ih.1.consume run, ih.2.congr (connConsume_sendSide run)⟩
  | @write conn conn' realloc data failed before run ih =>
    obtain ⟨hr, hs⟩ := ih
    obtain ⟨conn₁, failed₁, he, hinv, -⟩ := connWrite_spec realloc hM hs data
    rw [run, Option.some.injEq, Prod.mk.injEq] at he
    exact ⟨hr.congr (connWrite_recvSide run), he.1 ▸ hinv⟩
  | @writeNull conn conn' realloc len failed before run ih =>
    obtain ⟨hr, hs⟩ := ih
    obtain ⟨failed₁, he⟩ := connWrite_null (M := M) realloc conn len
    rw [run, Option.some.injEq, Prod.mk.injEq] at he
    exact ⟨he.1 ▸ hr, he.1 ▸ hs⟩
  | flush before run ih => exact ⟨ih.1.congr (connFlush_recvSide run), ih.2.flush run⟩

end Kvx.Net
