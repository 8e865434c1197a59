import Mathlib.Algebra.Group.Nat.Defs
import Mathlib.Data.Int.Notation
import Mathlib.Data.List.Basic

/-!
# Connections

A buffer is the list of the bytes of its block, and `NULL` is the empty list. The operating
system answers `recv`, `send` and `realloc` as it likes. An access outside of a block has the
result `none`.
-/
namespace Kvx.Net

def connDefaultBufCap : ℕ := 4096
def ssizeMax : ℕ := 2 ^ 63 - 1

inductive Errno
  | einval
  | ebadf
  | enobufs
  | enomem
  | eintr
  | eagain
  | ewouldblock
  | other (code : ℕ)
  deriving DecidableEq, Repr

/-- `conn_t`; its default is `{.fd = -1}`. -/
structure Conn where
  fd : ℤ := -1
  peerClosed : Bool := false
  rBuf : List UInt8 := []
  rBufCap : ℕ := 0
  rLen : ℕ := 0
  rPos : ℕ := 0
  wBuf : List UInt8 := []
  wBufCap : ℕ := 0
  wLen : ℕ := 0
  wPos : ℕ := 0
  deriving DecidableEq, Repr

inductive ConnIoResult
  | error (errno : Errno)
  | ok
  | again
  | eof
  | full
  deriving DecidableEq, Repr

/-- For each size whether `realloc` grants it, and what the new bytes hold. -/
abbrev Realloc := ℕ → Option (ℕ → UInt8)

def resize (buf : List UInt8) (cap : ℕ) (fill : ℕ → UInt8) : List UInt8 :=
  buf.take cap ++ (List.range (cap - buf.length)).map fill

def loadBytes (buf : List UInt8) (pos n : ℕ) : Option (List UInt8) :=
  if pos + n ≤ buf.length then some ((buf.drop pos).take n) else none

def storeBytes (buf : List UInt8) (pos : ℕ) (bytes : List UInt8) : Option (List UInt8) :=
  if pos + bytes.length ≤ buf.length then
    some (buf.take pos ++ bytes ++ buf.drop (pos + bytes.length))
  else none

/-- The `while` loop of `buffer_grow`. A step makes the capacity larger, so `min_cap` steps
are enough. -/
def growCap (maxBufferSize minCap : ℕ) : ℕ → ℕ → ℕ
  | 0, newCap => newCap
  | fuel + 1, newCap =>
      if newCap < minCap then
        if newCap > maxBufferSize / 2 then maxBufferSize
        else growCap maxBufferSize minCap fuel (newCap * 2)
      else newCap

def bufferGrow (maxBufferSize : ℕ) (realloc : Realloc) (buf : List UInt8) (cap extra : ℕ) :
    Except Errno (List UInt8 × ℕ) :=
  if extra > maxBufferSize - cap then .error .enobufs
  else if extra = 0 then .ok (buf, cap)
  else
    let minCap := cap + extra
    let newCap := growCap maxBufferSize minCap minCap (if cap ≠ 0 then cap else connDefaultBufCap)
    match realloc newCap with
    | none => .error .enomem
    | some fill => .ok (resize buf newCap fill, newCap)

/-- The buffer, its length and its position after the call. -/
def bufferCompact (buf : List UInt8) (len pos : ℕ) : Option (List UInt8 × ℕ × ℕ) :=
  if pos = 0 then some (buf, len, pos)
  else do
    let remaining := len - pos
    let buf ← (if remaining ≠ 0 then do storeBytes buf 0 (← loadBytes buf pos remaining)
      else some buf)
    some (buf, remaining, 0)

def connReset (conn : Conn) : Conn :=
  { conn with fd := -1, peerClosed := false, rLen := 0, rPos := 0, wLen := 0, wPos := 0 }

def connInit (maxBufferSize : ℕ) (rRealloc wRealloc : Realloc) : Conn × Option Errno :=
  if maxBufferSize = 0 then ({}, some .einval)
  else
    match bufferGrow maxBufferSize rRealloc [] 0 connDefaultBufCap with
    | .error errno => ({}, some errno)
    | .ok (rBuf, rBufCap) =>
        match bufferGrow maxBufferSize wRealloc [] 0 connDefaultBufCap with
        | .error errno => ({}, some errno)
        | .ok (wBuf, wBufCap) =>
            ({ rBuf := rBuf, rBufCap := rBufCap, wBuf := wBuf, wBufCap := wBufCap }, none)

/-- `fcntl` is the error of the calls of `fcntl`, if one of them fails. -/
def connAttach (conn : Conn) (fd : ℤ) (fcntl : Option Errno) : Conn × Option Errno :=
  if fd < 0 ∨ conn.fd ≠ -1 ∨ conn.rBuf = [] ∨ conn.wBuf = [] then (conn, some .einval)
  else
    match fcntl with
    | some errno => (conn, some errno)
    | none =>
        ({ conn with
          fd := fd
          peerClosed := false
          rLen := 0
          rPos := 0
          wLen := 0
          wPos := 0 }, none)

/-- What `recv` does: it hands out up to `n` bytes of those that wait, or it fails. -/
inductive Answer
  | count (n : ℕ)
  | failed (errno : Errno)
  deriving DecidableEq, Repr

/-- The result of `conn_recv`; the bytes that still wait, and the answers not yet given. -/
structure Received where
  result : ConnIoResult
  conn : Conn
  inbox : List UInt8
  answers : List Answer

/-- The part of the loop before `recv`: the result, if it returns there. -/
def recvRoom (maxBufferSize : ℕ) (realloc : Realloc) (conn : Conn) :
    Option (Option ConnIoResult × Conn) :=
  if conn.rLen = conn.rBufCap then do
    let (buf, len, pos) ← bufferCompact conn.rBuf conn.rLen conn.rPos
    let conn := { conn with rBuf := buf, rLen := len, rPos := pos }
    if conn.rLen = conn.rBufCap then
      if conn.rBufCap = maxBufferSize then some (some .full, conn)
      else
        match bufferGrow maxBufferSize realloc conn.rBuf conn.rBufCap 1 with
        | .error errno => some (some (.error errno), conn)
        | .ok (buf, cap) => some (none, { conn with rBuf := buf, rBufCap := cap })
    else some (none, conn)
  else some (none, conn)

/-- The loop of `conn_recv`. After the last answer `recv` would block. -/
def connRecvLoop (maxBufferSize : ℕ) (realloc : Realloc) :
    List Answer → List UInt8 → Conn → Option Received
  | answers, inbox, conn => do
      let (stop, conn) ← recvRoom maxBufferSize realloc conn
      match stop with
      | some result => some ⟨result, conn, inbox, answers⟩
      | none =>
          let available := min (conn.rBufCap - conn.rLen) ssizeMax
          match answers with
          | [] => some ⟨.again, conn, inbox, []⟩
          | .count n :: answers =>
              let bytes := inbox.take (min n available)
              if bytes.length > 0 then do
                let buf ← storeBytes conn.rBuf conn.rLen bytes
                connRecvLoop maxBufferSize realloc answers (inbox.drop (min n available))
                  { conn with rBuf := buf, rLen := conn.rLen + bytes.length }
              else some ⟨.eof, { conn with peerClosed := true }, inbox, answers⟩
          | .failed errno :: answers =>
              if errno = .eintr then connRecvLoop maxBufferSize realloc answers inbox conn
              else if errno = .eagain ∨ errno = .ewouldblock then
                some ⟨.again, conn, inbox, answers⟩
              else some ⟨.error errno, conn, inbox, answers⟩

def connRecv (maxBufferSize : ℕ) (realloc : Realloc) (answers : List Answer)
    (inbox : List UInt8) (conn : Conn) : Option Received :=
  if conn.fd < 0 then some ⟨.error .ebadf, conn, inbox, answers⟩
  else if conn.peerClosed then some ⟨.eof, conn, inbox, answers⟩
  else connRecvLoop maxBufferSize realloc answers inbox conn

def connConsume (conn : Conn) (count : ℕ) : Conn × Option Errno :=
  if count > conn.rLen - conn.rPos then (conn, some .einval)
  else
    let conn := { conn with rPos := conn.rPos + count }
    if conn.rPos = conn.rLen then ({ conn with rPos := 0, rLen := 0 }, none) else (conn, none)

/-- `EIO` -/
def eio : Errno := .other 5

def connWantsPollout (conn : Conn) : Bool := conn.wPos < conn.wLen

/-- The part of `conn_write` before `memcpy`: the error, if it returns there. -/
def writeRoom (maxBufferSize : ℕ) (realloc : Realloc) (conn : Conn) (len : ℕ) :
    Option (Option Errno × Conn) :=
  if len > conn.wBufCap - conn.wLen then do
    let (buf, wLen, wPos) ← bufferCompact conn.wBuf conn.wLen conn.wPos
    let conn := { conn with wBuf := buf, wLen := wLen, wPos := wPos }
    let available := conn.wBufCap - conn.wLen
    if len > available then
      match bufferGrow maxBufferSize realloc conn.wBuf conn.wBufCap (len - available) with
      | .error errno => some (some errno, conn)
      | .ok (buf, cap) => some (none, { conn with wBuf := buf, wBufCap := cap })
    else some (none, conn)
  else some (none, conn)

/-- `data` is the block that the pointer points to, if it is not `NULL`. -/
def connWrite (maxBufferSize : ℕ) (realloc : Realloc) (conn : Conn) (data : Option (List UInt8))
    (len : ℕ) : Option (Conn × Option Errno) :=
  if len = 0 then some (conn, none)
  else
    match data with
    | none => some (conn, some .einval)
    | some data =>
        let pending := conn.wLen - conn.wPos
        if len > maxBufferSize - pending then some (conn, some .enobufs)
        else do
          let (failed, conn) ← writeRoom maxBufferSize realloc conn len
          match failed with
          | some errno => some (conn, some errno)
          | none => do
              let buf ← storeBytes conn.wBuf conn.wLen (← loadBytes data 0 len)
              some ({ conn with wBuf := buf, wLen := conn.wLen + len }, none)

/-- The result of `conn_flush`; the bytes that `send` accepted, and the answers not yet
given. -/
structure Sent where
  result : ConnIoResult
  conn : Conn
  accepted : List UInt8
  answers : List Answer

/-- The loop of `conn_flush`. `send` accepts up to `n` of the bytes offered, or it fails; after
the last answer it would block. -/
def connFlushLoop : List Answer → Conn → Option Sent
  | answers, conn =>
      if connWantsPollout conn then do
        let remaining := min (conn.wLen - conn.wPos) ssizeMax
        let offered ← loadBytes conn.wBuf conn.wPos remaining
        match answers with
        | [] => some ⟨.again, conn, [], []⟩
        | .count n :: answers =>
            let accepted := offered.take n
            if accepted.length > 0 then do
              let e ← connFlushLoop answers { conn with wPos := conn.wPos + accepted.length }
              some { e with accepted := accepted ++ e.accepted }
            else some ⟨.error eio, conn, [], answers⟩
        | .failed errno :: answers =>
            if errno = .eintr then connFlushLoop answers conn
            else if errno = .eagain ∨ errno = .ewouldblock then some ⟨.again, conn, [], answers⟩
            else some ⟨.error errno, conn, [], answers⟩
      else some ⟨.ok, { conn with wPos := 0, wLen := 0 }, [], answers⟩

def connFlush (answers : List Answer) (conn : Conn) : Option Sent :=
  if conn.fd < 0 then some ⟨.error .ebadf, conn, [], answers⟩
  else connFlushLoop answers conn

end Kvx.Net
