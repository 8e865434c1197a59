import Kvx.Conn
import Kvx.Lib.CString
import Kvx.Lib.Sockets

/-!
# Listeners

The functions of the listener on a process that the kernel may refuse any call. A listener that
cannot be made leaves nothing behind, and `errno` tells of the last address that was tried.
-/
namespace Kvx.Net

open Kvx.Lib Kvx.Lib.Sockets

structure Platform where
  -- `SOCK_NONBLOCK` and `SOCK_CLOEXEC`
  flaggedSockets : Bool
  -- `LISTENER_TCP_REUSEPORT_OPTION`
  reusePort : Bool
  deriving DecidableEq, Repr

def listenerBacklog : ℕ := 1024
def afInet6 : ℕ := 10
def oNonblock : ℕ := 2048
def fdCloexec : ℕ := 1
def eaddrnotavail : Errno := .other 99

def tcpListenerPerWorker (P : Platform) : Bool := P.reusePort

/-- It keeps the `errno` of the failure. -/
def closeFailedSocket (K : Kernel Errno) (fd : ℕ) (p : Process Errno) :
    Process Errno × Option ℕ :=
  let savedErrno := p.errno
  ({ (K.call (.close fd) p).1 with errno := savedErrno }, none)

def createSocket (K : Kernel Errno) (P : Platform) (family protocol : ℕ) (p : Process Errno) :
    Process Errno × Option ℕ :=
  if P.flaggedSockets then K.call (.socket family protocol oNonblock fdCloexec) p
  else
    match K.call (.socket family protocol 0 0) p with
    | (p, none) => (p, none)
    | (p, some fd) =>
      match K.call (.on fd (.getFlags .status)) p with
      | (p, none) => closeFailedSocket K fd p
      | (p, some flags) =>
        match K.call (.on fd (.setFlags .status (flags ||| oNonblock))) p with
        | (p, none) => closeFailedSocket K fd p
        | (p, some _) =>
          match K.call (.on fd (.getFlags .descriptor)) p with
          | (p, none) => closeFailedSocket K fd p
          | (p, some flags) =>
            match K.call (.on fd (.setFlags .descriptor (flags ||| fdCloexec))) p with
            | (p, none) => closeFailedSocket K fd p
            | (p, some _) => (p, some fd)

/-! ## `listener_create_tcp` -/

/-- `struct addrinfo`: `ai_addrlen` is the length of `ai_addr`. -/
structure AddrInfo where
  aiFamily : ℕ
  aiProtocol : ℕ
  aiAddr : List UInt8
  deriving DecidableEq, Repr

structure Hints where
  passive : Bool
  numericServ : Bool
  aiFamily : ℕ
  aiSocktype : ℕ
  aiProtocol : ℕ
  deriving DecidableEq, Repr

/-- `AF_UNSPEC`, `SOCK_STREAM` and `IPPROTO_TCP`. -/
def tcpHints : Hints := ⟨true, true, 0, 1, 6⟩

inductive GaiError
  | memory
  | again
  -- the error is in `errno`
  | system (errno : Errno)
  | other (code : ℕ)
  deriving DecidableEq, Repr

def gaiErrno : GaiError → Errno
  | .memory => .enomem
  | .again => .eagain
  | .system errno => errno
  | .other _ => eaddrnotavail

/-- `"0.0.0.0"` -/
def wildcard : CString := ⟨['0', '.', '0', '.', '0', '.', '0'].map Char.toUInt8, by decide⟩

def listenHost : Option CString → CString
  | none => wildcard
  | some host => if host.bytes = [] then wildcard else host

/-- The calls of `enable_tcp_reuse`. -/
def enableTcpReuse (P : Platform) : List Request :=
  .setOption .reuseAddr :: if P.reusePort then [.setOption .reusePort] else []

/-- What the loop asks of a socket for an address; the first refusal goes to `next_address`. -/
def listenRequests (P : Platform) (addr : AddrInfo) : List Request :=
  enableTcpReuse P ++ (if addr.aiFamily = afInet6 then [.setOption .v6Only] else []) ++
    [.bind (.host addr.aiAddr), .listen listenerBacklog]

/-- The loop over the addresses: the listener, and `last_errno`. -/
def tryAddresses (K : Kernel Errno) (P : Platform) :
    List AddrInfo → Errno → Process Errno → Process Errno × Option ℕ × Errno
  | [], lastErrno, p => (p, none, lastErrno)
  | addr :: rest, lastErrno, p =>
      match createSocket K P addr.aiFamily addr.aiProtocol p with
      | (p, none) => tryAddresses K P rest p.errno p
      | (p, some fd) =>
        match K.callAll fd (listenRequests P addr) p with
        | (p, true) => (p, some fd, lastErrno)
        | (p, false) => tryAddresses K P rest p.errno (K.call (.close fd) p).1

/-- `getaddrinfo` answers as the resolver likes. -/
def listenerCreateTcp (K : Kernel Errno) (P : Platform)
    (getaddrinfo : CString → CString → Hints → Except GaiError (List AddrInfo))
    (host : Option CString) (port : CString) (p : Process Errno) : Process Errno × Option ℕ :=
  match getaddrinfo (listenHost host) port tcpHints with
  | .error error => ({ p with errno := gaiErrno error }, none)
  | .ok addresses =>
      match tryAddresses K P addresses eaddrnotavail p with
      | (p, none, lastErrno) => ({ (K.call .freeaddrinfo p).1 with errno := lastErrno }, none)
      | (p, some fd, _) => ((K.call .freeaddrinfo p).1, some fd)

/-! ## A new socket -/

variable {K : Kernel Errno} {P : Platform} {p p' q : Process Errno} {fd family protocol : ℕ}
  {events : List (Event Errno)} {s : Socket}

/-- On every platform a new socket does not block and is closed by `exec`. -/
def streamSocket (family protocol : ℕ) : Socket := .new family protocol oNonblock fdCloexec

theorem closeFailedSocket_refused (K : Kernel Errno) (h : Holding p p' events fd s)
    (hfailed : failures events = [p'.errno]) (hbound : ∀ path, s.bound ≠ some (.file path)) :
    ∃ q events', closeFailedSocket K fd p' = (q, none) ∧
      Refused p q events' q.errno s.family s.protocol := by
  obtain ⟨events', hrefused⟩ := h.close (K := K) hfailed hbound p'.errno
  exact ⟨_, events', rfl, hrefused⟩

theorem createSocket_plain (hflags : P.flaggedSockets = false) (family protocol : ℕ)
    (p : Process Errno) :
    (∃ q events, createSocket K P family protocol p = (q, none) ∧
      Refused p q events q.errno family protocol) ∨
    ∃ q fd events, createSocket K P family protocol p = (q, some fd) ∧
      Holding p q events fd (streamSocket family protocol) ∧ failures events = [] := by
  obtain ⟨⟨p₀, result⟩, hcall⟩ : ∃ r, K.call (.socket family protocol 0 0) p = r := ⟨_, rfl⟩
  simp only [createSocket, hflags, Bool.false_eq_true, if_false, hcall]
  cases result with
  | none =>
    obtain ⟨events, hrefused⟩ := socket_refused hcall
    exact Or.inl ⟨p₀, events, rfl, hrefused⟩
  | some fd =>
    obtain ⟨events, h₀, hclean⟩ := socket_opened hcall
    -- each of the four calls gives the socket up, or leads to the next
    rcases h₀.request hclean K (.getFlags .status) with
      ⟨q, events, hcall, hheld, hfailed⟩ | ⟨p₁, events, hcall, h₁, hclean⟩
    · simp only [hcall]
      exact Or.inl (closeFailedSocket_refused K hheld hfailed (by simp [Socket.new]))
    simp only [hcall, Socket.answer, Socket.flags, Socket.new]
    rcases h₁.request hclean K (.setFlags .status (readWrite ||| 0 ||| oNonblock)) with
      ⟨q, events, hcall, hheld, hfailed⟩ | ⟨p₂, events, hcall, h₂, hclean⟩
    · simp only [hcall]
      exact Or.inl (closeFailedSocket_refused K hheld hfailed (by simp [Socket.new, Socket.after]))
    simp only [hcall]
    rcases h₂.request hclean K (.getFlags .descriptor) with
      ⟨q, events, hcall, hheld, hfailed⟩ | ⟨p₃, events, hcall, h₃, hclean⟩
    · simp only [hcall]
      exact Or.inl (closeFailedSocket_refused K hheld hfailed (by simp [Socket.new, Socket.after]))
    simp only [hcall, Socket.answer, Socket.flags, Socket.new, Socket.after]
    rcases h₃.request hclean K (.setFlags .descriptor (0 ||| fdCloexec)) with
      ⟨q, events, hcall, hheld, hfailed⟩ | ⟨p₄, events, hcall, h₄, hclean⟩
    · simp only [hcall]
      exact Or.inl (closeFailedSocket_refused K hheld hfailed (by simp [Socket.new, Socket.after]))
    simp only [hcall]
    exact Or.inr ⟨p₄, fd, events, rfl, h₄, hclean⟩

theorem createSocket_cases (K : Kernel Errno) (P : Platform) (family protocol : ℕ)
    (p : Process Errno) :
    (∃ q events, createSocket K P family protocol p = (q, none) ∧
      Refused p q events q.errno family protocol) ∨
    ∃ q fd events, createSocket K P family protocol p = (q, some fd) ∧
      Holding p q events fd (streamSocket family protocol) ∧ failures events = [] := by
  cases hflags : P.flaggedSockets with
  | false => exact createSocket_plain hflags family protocol p
  | true =>
    obtain ⟨⟨q, result⟩, hcall⟩ :
      ∃ r, K.call (.socket family protocol oNonblock fdCloexec) p = r := ⟨_, rfl⟩
    simp only [createSocket, hflags, if_true, hcall]
    cases result with
    | none =>
      obtain ⟨events, hrefused⟩ := socket_refused hcall
      exact Or.inl ⟨q, events, rfl, hrefused⟩
    | some fd =>
      obtain ⟨events, hheld, hclean⟩ := socket_opened hcall
      exact Or.inr ⟨q, fd, events, rfl, hheld, hclean⟩

/-! ## The addresses in turn -/

def tcpListener (P : Platform) (addr : AddrInfo) : Socket where
  family := addr.aiFamily
  protocol := addr.aiProtocol
  status := readWrite ||| oNonblock
  descriptor := fdCloexec
  options := .reuseAddr :: (if tcpListenerPerWorker P then [.reusePort] else []) ++
    if addr.aiFamily = afInet6 then [.v6Only] else []
  bound := some (.host addr.aiAddr)
  backlog := some listenerBacklog

theorem tcpListener_eq (P : Platform) (addr : AddrInfo) :
    (streamSocket addr.aiFamily addr.aiProtocol).afterAll (listenRequests P addr) =
      tcpListener P addr := by
  unfold listenRequests enableTcpReuse tcpListener tcpListenerPerWorker
  cases P.reusePort <;> split_ifs <;>
    simp [Socket.afterAll, Socket.after, streamSocket, Socket.new]

theorem listenRequests_noPath (P : Platform) (addr : AddrInfo) :
    ∀ r ∈ listenRequests P addr, ∀ path, r ≠ .bind (.file path) := by
  intro r hr path
  unfold listenRequests enableTcpReuse at hr
  rintro rfl
  revert hr
  split_ifs <;> simp

abbrev Attempts := List (List (Event Errno) × Errno)

/-- Between `p` and `q` the addresses were tried, and each of them was refused. -/
structure AllRefused (p q : Process Errno) (addresses : List AddrInfo) (attempts : Attempts) :
    Prop where
  world : q.world = p.world
  log : q.log = p.log ++ (attempts.map Prod.fst).flatten
  each : List.Forall₂ (fun addr attempt =>
    FailedAttempt addr.aiFamily addr.aiProtocol attempt.1 attempt.2) addresses attempts

theorem AllRefused.nil (p : Process Errno) : AllRefused p p [] [] :=
  ⟨rfl, by simp, List.Forall₂.nil⟩

theorem AllRefused.cons {addr : AddrInfo} {addresses : List AddrInfo} {attempts : Attempts}
    {e : Errno} (h : Refused p p' events e addr.aiFamily addr.aiProtocol)
    (hrest : AllRefused p' q addresses attempts) :
    AllRefused p q (addr :: addresses) ((events, e) :: attempts) where
  world := hrest.world.trans h.world
  log := by
    rw [hrest.log, h.log, List.append_assoc, List.map_cons, List.flatten_cons]
  each := List.Forall₂.cons h.attempt hrest.each

/-- The `errno` of the last address. -/
def lastErrno (start : Errno) (attempts : Attempts) : Errno :=
  (attempts.map Prod.snd).getLastD start

theorem lastErrno_cons (start : Errno) (attempt : List (Event Errno) × Errno)
    (attempts : Attempts) : lastErrno start (attempt :: attempts) = lastErrno attempt.2 attempts :=
  List.getLastD_cons ..

/-- What the loop comes to: every address was refused, or one of them after some others was not. -/
inductive LoopResult (P : Platform) (p : Process Errno) (start : Errno) (addresses : List AddrInfo) :
    Process Errno × Option ℕ × Errno → Prop
  | refused {q : Process Errno} {attempts : Attempts} (all : AllRefused p q addresses attempts) :
      LoopResult P p start addresses (q, none, lastErrno start attempts)
  | listening {q p₁ : Process Errno} {tried rest : List AddrInfo} {addr : AddrInfo} {fd : ℕ}
      {last : Errno} {attempts : Attempts} {own : List (Event Errno)}
      (split : addresses = tried ++ addr :: rest) (before : AllRefused p p₁ tried attempts)
      (held : Holding p₁ q own fd (tcpListener P addr)) (clean : failures own = []) :
      LoopResult P p start addresses (q, some fd, last)

theorem LoopResult.cons {addr : AddrInfo} {addresses : List AddrInfo} {e start : Errno}
    {result : Process Errno × Option ℕ × Errno}
    (h : Refused p p' events e addr.aiFamily addr.aiProtocol)
    (hrest : LoopResult P p' e addresses result) :
    LoopResult P p start (addr :: addresses) result := by
  cases hrest with
  | @refused q attempts all =>
    rw [← lastErrno_cons start (events, e)]
    exact .refused (.cons h all)
  | listening split before held clean =>
    exact .listening (congrArg (addr :: ·) split) (.cons h before) held clean

theorem tryAddresses_result (K : Kernel Errno) (P : Platform) (addresses : List AddrInfo)
    (start : Errno) (p : Process Errno) :
    LoopResult P p start addresses (tryAddresses K P addresses start p) := by
  induction addresses generalizing start p with
  | nil => exact .refused (.nil p)
  | cons addr addresses ih =>
    rcases createSocket_cases K P addr.aiFamily addr.aiProtocol p with
      ⟨q, events, hcreate, hrefused⟩ | ⟨q, fd, events, hcreate, hheld, hclean⟩
    · simp only [tryAddresses, hcreate]
      exact (ih q.errno q).cons hrefused
    rcases hheld.callAll hclean K (listenRequests P addr) with
      ⟨q', events', hall, hheld', hclean'⟩ |
      ⟨q', events', granted, hall, hread, hheld', hfailed⟩
    · simp only [tryAddresses, hcreate, hall]
      rw [tcpListener_eq] at hheld'
      exact .listening rfl (.nil p) hheld' hclean'
    · simp only [tryAddresses, hcreate, hall]
      have hbound := afterAll_noPath
        (fun r hr => listenRequests_noPath P addr r (hread.subset hr))
        (s := streamSocket addr.aiFamily addr.aiProtocol) (by simp [streamSocket, Socket.new])
      obtain ⟨events'', hrefused⟩ := hheld'.close (K := K) hfailed hbound
        (K.call (.close fd) q').1.errno
      rw [afterAll_family, afterAll_protocol] at hrefused
      exact (ih q'.errno _).cons hrefused

/-- The first address that can be listened on is, and the sockets of the ones before are closed.
Where there is none, everything is as before, and `errno` is that of the last one. -/
theorem listener_create_tcp_first (K : Kernel Errno) (P : Platform)
    (getaddrinfo : CString → CString → Hints → Except GaiError (List AddrInfo))
    (host : Option CString) (port : CString) (p : Process Errno) :
    match getaddrinfo (listenHost host) port tcpHints with
    | .error error => ∃ q, listenerCreateTcp K P getaddrinfo host port p = (q, none) ∧
        q.world = p.world ∧ q.log = p.log ∧ q.errno = gaiErrno error
    | .ok addresses =>
        (∃ q attempts, listenerCreateTcp K P getaddrinfo host port p = (q, none) ∧
          List.Forall₂ (fun addr attempt =>
            FailedAttempt addr.aiFamily addr.aiProtocol attempt.1 attempt.2) addresses attempts ∧
          q.world = p.world ∧ q.errno = lastErrno eaddrnotavail attempts ∧
          q.log = p.log ++ (attempts.map Prod.fst).flatten ++ [(.freeaddrinfo, .ok 0)]) ∨
        ∃ q tried addr rest attempts own fd,
          listenerCreateTcp K P getaddrinfo host port p = (q, some fd) ∧
          addresses = tried ++ addr :: rest ∧
          List.Forall₂ (fun addr attempt =>
            FailedAttempt addr.aiFamily addr.aiProtocol attempt.1 attempt.2) tried attempts ∧
          p.world.sockets fd = none ∧ q.world = p.world.set fd (some (tcpListener P addr)) ∧
          effects own = [.opened fd] ∧ failures own = [] ∧
          q.log = p.log ++ (attempts.map Prod.fst).flatten ++ own ++ [(.freeaddrinfo, .ok 0)] := by
  unfold listenerCreateTcp
  cases getaddrinfo (listenHost host) port tcpHints with
  | error error => exact ⟨_, rfl, rfl, rfl, rfl⟩
  | ok addresses =>
    have hresult := tryAddresses_result K P addresses eaddrnotavail p
    have hfree : ∀ q : Process Errno, (K.call .freeaddrinfo q).1.world = q.world ∧
        (K.call .freeaddrinfo q).1.log = q.log ++ [(.freeaddrinfo, .ok 0)] := fun q => by
      unfold Kernel.call Kernel.answer
      cases K.refuses q.log .freeaddrinfo <;> exact ⟨rfl, rfl⟩
    dsimp only
    generalize tryAddresses K P addresses eaddrnotavail p = result at hresult ⊢
    cases hresult with
    | @refused q attempts all =>
      refine Or.inl ⟨_, attempts, rfl, all.each, ?_, rfl, ?_⟩
      · exact (hfree q).1.trans all.world
      · exact (hfree q).2.trans (by rw [all.log])
    | @listening q p₁ tried rest addr fd last attempts own split before held clean =>
      refine Or.inr ⟨_, tried, addr, rest, attempts, own, fd, rfl, split, before.each, ?_, ?_,
        held.opened, clean, ?_⟩
      · rw [← before.world]
        exact held.free
      · rw [(hfree q).1, held.world, before.world]
        rfl
      · rw [(hfree q).2, held.log, before.log]

/-! ## `listener_create_unix` -/

/-- `sizeof(sun_path)` on Linux. -/
def sunPathSize : ℕ := 108

/-- `offsetof(struct sockaddr_un, sun_path)` -/
def sunPathOffset : ℕ := 2

/-- `AF_UNIX` -/
def afUnix : ℕ := 1

/-- `struct sockaddr_un` -/
structure SockaddrUn where
  sunFamily : ℕ := 0
  sunPath : List UInt8 := List.replicate sunPathSize 0
  deriving DecidableEq, Repr

/-- `none`: the copy leaves the array. -/
def unixAddress (path : CString) : Option SockaddrUn := do
  let addr : SockaddrUn := {}
  let sunPath ← storeBytes addr.sunPath 0 (path.bytes ++ [0])
  some { addr with
    sunFamily := afUnix
    sunPath := sunPath }

/-- The path that the kernel reads from an address of a given length. -/
def unixPath (addr : SockaddrUn) (addrLen : ℕ) : List UInt8 :=
  (addr.sunPath.take (addrLen - sunPathOffset)).takeWhile (· ≠ 0)

def listenerCreateUnix (K : Kernel Errno) (P : Platform) (path : CString) (p : Process Errno) :
    Option (Process Errno × Option ℕ) := do
  let pathLen := strlen path
  let addr ← unixAddress path
  let addrLen := sunPathOffset + pathLen + 1
  match createSocket K P afUnix 0 p with
  | (p, none) => some (p, none)
  | (p, some fd) =>
      match K.call (.on fd (.bind (.file (unixPath addr addrLen)))) p with
      | (p, none) => some (closeFailedSocket K fd p)
      | (p, some _) =>
          match K.call (.on fd (.listen listenerBacklog)) p with
          | (p, none) =>
              let savedErrno := p.errno
              let p := (K.call (.close fd) p).1
              let p := (K.call (.unlink path.bytes) p).1
              some ({ p with errno := savedErrno }, none)
          | (p, some _) => some (p, some fd)

theorem unixAddress_isSome {path : CString} :
    (unixAddress path).isSome ↔ strlen path < sunPathSize := by
  have hlen : (path.bytes ++ [0]).length = strlen path + 1 := by
    rw [List.length_append, List.length_singleton, strlen]
  unfold unixAddress storeBytes
  simp only [List.length_replicate, hlen, Nat.zero_add]
  by_cases hfits : strlen path + 1 ≤ sunPathSize
  · rw [if_pos hfits]
    exact ⟨fun _ => hfits, fun _ => rfl⟩
  · rw [if_neg hfits]
    exact ⟨fun h => absurd h Bool.false_ne_true, fun h => absurd h hfits⟩

theorem listenerCreateUnix_isSome (K : Kernel Errno) (P : Platform) {path : CString}
    (p : Process Errno) :
    (listenerCreateUnix K P path p).isSome ↔ strlen path < sunPathSize := by
  rw [← unixAddress_isSome, listenerCreateUnix]
  cases unixAddress path with
  | none => rfl
  | some addr =>
    simp only [Option.bind_eq_bind, Option.bind_some, Option.isSome_some, iff_true]
    split
    · rfl
    · split
      · rfl
      · split <;> rfl

theorem unixPath_eq {path : CString} {addr : SockaddrUn} (h : unixAddress path = some addr) :
    unixPath addr (sunPathOffset + strlen path + 1) = path.bytes := by
  have hlen : sunPathOffset + strlen path + 1 - sunPathOffset = (path.bytes ++ [0]).length := by
    rw [List.length_append, List.length_singleton, strlen]
    omega
  have hpos : ∀ ch ∈ path.bytes, decide (ch ≠ 0) = true := fun ch hch => by
    rw [decide_eq_true_eq]
    rintro rfl
    exact path.noNul hch
  simp only [unixAddress, Option.bind_eq_bind, Option.bind_eq_some_iff, Option.some.injEq,
    storeBytes] at h
  obtain ⟨sunPath, hstore, rfl⟩ := h
  split_ifs at hstore
  rw [Option.some.injEq, List.take_zero, List.nil_append] at hstore
  subst hstore
  rw [unixPath, hlen, List.take_left, List.takeWhile_append_of_pos hpos]
  simp

def unixListener (path : CString) : Socket where
  family := afUnix
  protocol := 0
  status := readWrite ||| oNonblock
  descriptor := fdCloexec
  bound := some (.file path.bytes)
  backlog := some listenerBacklog

/-- A listener that cannot be made leaves the sockets and the paths of before, unless the kernel
does not remove the path that it just made. No path that was there before is removed. -/
theorem listener_create_unix_restores (K : Kernel Errno) (P : Platform) {path : CString}
    (hfits : strlen path < sunPathSize) (p : Process Errno) :
    ∃ q result events, listenerCreateUnix K P path p = some (q, result) ∧
      q.log = p.log ++ events ∧ AsksFor afUnix 0 events ∧
      match result with
      | some fd => p.world.sockets fd = none ∧ p.world.files path.bytes = false ∧
          q.world = (p.world.set fd (some (unixListener path))).setFile path.bytes true ∧
          effects events = [.opened fd] ∧ failures events = []
      | none => failures events = [q.errno] ∧
          (effects events = [] ∨ ∃ fd, effects events = [.opened fd, .closed fd]) ∧
          (q.world = p.world ∨ p.world.files path.bytes = false ∧
            q.world = p.world.setFile path.bytes true ∧
            ∃ e, (.unlink path.bytes, .error e) ∈ events) := by
  obtain ⟨addr, haddr⟩ := Option.isSome_iff_exists.mp (unixAddress_isSome.mpr hfits)
  have hpath := unixPath_eq haddr
  simp only [listenerCreateUnix, haddr, Option.bind_eq_bind, Option.bind_some, hpath]
  rcases createSocket_cases K P afUnix 0 p with
    ⟨q, events, hcreate, hrefused⟩ | ⟨p₁, fd, events, hcreate, hheld, hclean⟩
  · simp only [hcreate]
    exact ⟨q, none, events, rfl, hrefused.log, hrefused.attempt.asks, hrefused.attempt.failed,
      hrefused.attempt.paired, Or.inl hrefused.world⟩
  simp only [hcreate]
  rcases hheld.request hclean K (.bind (.file path.bytes)) with
    ⟨p₂, events, hcall, hheld, hfailed⟩ | ⟨p₂, events, hcall, hheld, hclean⟩
  · simp only [hcall]
    obtain ⟨q, events', hclose, hrefused⟩ :=
      closeFailedSocket_refused K hheld hfailed (by simp [streamSocket, Socket.new])
    rw [hclose]
    exact ⟨q, none, events', rfl, hrefused.log, hrefused.attempt.asks, hrefused.attempt.failed,
      hrefused.attempt.paired, Or.inl hrefused.world⟩
  simp only [hcall]
  rcases hheld.request hclean K (.listen listenerBacklog) with
    ⟨p₃, events, hcall, hheld, hfailed⟩ | ⟨p₃, events, hcall, hheld, hclean⟩
  · -- the path is there, and was not there before
    have hnew : p.world.files path.bytes = false := hheld.fresh _ rfl
    simp only [hcall]
    obtain ⟨closed, hworld, hlog⟩ := hheld.close_file rfl K
    generalize (K.call (.close fd) p₃).1 = p₄ at hworld hlog ⊢
    have hfile : p₄.world.files path.bytes = true := by
      rw [hworld]
      simp [World.setFile]
    obtain ⟨unlinked, hlog', hworld'⟩ := call_unlink (K := K) hfile
    refine ⟨_, none, events ++ [(.close fd, closed), (.unlink path.bytes, unlinked)], rfl, ?_,
      hheld.asks.append _, ?_, Or.inr ⟨fd, ?_⟩, ?_⟩
    · rw [hlog', hlog]
      simp
    · rw [failures_append, hfailed]
      rfl
    · rw [effects_append, hheld.opened]
      rfl
    · rw [hworld] at hworld'
      rcases hworld' with hgone | ⟨hstays, e, rfl⟩
      · exact Or.inl (hgone.trans (setFile_undo hnew))
      · exact Or.inr ⟨hnew, hstays, e, by simp⟩
  · simp only [hcall]
    have hbound : ((streamSocket afUnix 0).after (.bind (.file path.bytes))).after
        (.listen listenerBacklog) = unixListener path := rfl
    rw [hbound] at hheld
    exact ⟨p₃, some fd, events, rfl, hheld.log, hheld.asks, hheld.free, hheld.fresh _ rfl,
      hheld.world.trans (holding_file rfl), hheld.opened, hclean⟩

/-- The kernel of a machine with no room for another listener. -/
def busyKernel : Kernel Errno where
  refuses _ c := match c with
    | .on _ (.listen _) => some .eagain
    | _ => none
  descriptor log := log.length + 3
  disturbs _ _ := .ebadf
  badFd := .ebadf
  invalid := .einval
  inUse := .other 98
  missing := .other 2
  full := .other 24

def newProcess : Process Errno := ⟨⟨fun _ => none, fun _ => false⟩, .other 0, []⟩

theorem listener_create_unix_restores_busy :
    ∃ q events, listenerCreateUnix busyKernel ⟨false, true⟩ ⟨[107], by decide⟩ newProcess =
        some (q, none) ∧ q.log = events ∧ failures events = [q.errno] := by
  have hnone : (listenerCreateUnix busyKernel ⟨false, true⟩ ⟨[107], by decide⟩ newProcess).map
      Prod.snd = some none := by decide
  have hfits : strlen ⟨[107], by decide⟩ < sunPathSize := by decide
  obtain ⟨q, result, events, hrun, hlog, -, hresult⟩ :=
    listener_create_unix_restores busyKernel ⟨false, true⟩ hfits newProcess
  rw [hrun, Option.map_some, Option.some.injEq] at hnone
  subst hnone
  exact ⟨q, events, hrun, hlog, hresult.1⟩

end Kvx.Net
