import Mathlib.Algebra.Group.Nat.Defs
import Mathlib.Data.List.Basic
import Mathlib.Logic.Function.Basic

/-!
# Sockets of a process

A process asks a kernel for sockets. The kernel may refuse any call, and its answers may depend on
all earlier ones, but a descriptor that it hands out was not open. What a process still holds, and
that it gave everything back, are read off the calls.
-/
namespace Kvx.Lib.Sockets

/-- Where a socket is bound: an address of the network, or a path. -/
inductive Address
  | host (bytes : List UInt8)
  | file (path : List UInt8)
  deriving DecidableEq, Repr

inductive SockOpt
  | reuseAddr
  | reusePort
  | v6Only
  deriving DecidableEq, Repr

/-- The flags of the open socket, or those of its descriptor. -/
inductive FlagWord
  | status
  | descriptor
  deriving DecidableEq, Repr

structure Socket where
  family : ℕ
  protocol : ℕ
  status : ℕ
  descriptor : ℕ
  options : List SockOpt := []
  bound : Option Address := none
  backlog : Option ℕ := none
  deriving DecidableEq, Repr

/-- What every new socket has among its status flags. -/
def readWrite : ℕ := 2

def Socket.new (family protocol status descriptor : ℕ) : Socket where
  family := family
  protocol := protocol
  status := readWrite ||| status
  descriptor := descriptor

/-- The sockets that are open, and the paths that exist. -/
@[ext]
structure World where
  sockets : ℕ → Option Socket
  files : List UInt8 → Bool

inductive Request
  | getFlags (word : FlagWord)
  | setFlags (word : FlagWord) (flags : ℕ)
  | setOption (opt : SockOpt)
  | bind (addr : Address)
  | listen (backlog : ℕ)
  deriving DecidableEq, Repr

inductive Call
  | socket (family protocol status descriptor : ℕ)
  | on (fd : ℕ) (request : Request)
  | close (fd : ℕ)
  | unlink (path : List UInt8)
  | freeaddrinfo
  deriving DecidableEq, Repr

variable {ε : Type}

abbrev Event (ε : Type) := Call × Except ε ℕ

/-- The answers of a kernel to a process that has made the calls of a log. -/
structure Kernel (ε : Type) where
  refuses : List (Event ε) → Call → Option ε
  descriptor : List (Event ε) → ℕ
  -- what a call that succeeds leaves in `errno`
  disturbs : List (Event ε) → ε → ε
  badFd : ε
  invalid : ε
  inUse : ε
  missing : ε
  full : ε

structure Process (ε : Type) where
  world : World
  errno : ε
  log : List (Event ε)

/-! ## Calls -/

def Socket.flags (s : Socket) : FlagWord → ℕ
  | .status => s.status
  | .descriptor => s.descriptor

/-- The socket after a request that was granted. -/
def Socket.after (s : Socket) : Request → Socket
  | .getFlags _ => s
  | .setFlags .status flags => { s with status := flags }
  | .setFlags .descriptor flags => { s with descriptor := flags }
  | .setOption opt => { s with options := s.options ++ [opt] }
  | .bind addr => { s with bound := some addr }
  | .listen backlog => { s with backlog := some backlog }

def Socket.answer (s : Socket) : Request → ℕ
  | .getFlags word => s.flags word
  | _ => 0

def World.set (w : World) (fd : ℕ) (s : Option Socket) : World :=
  { w with sockets := Function.update w.sockets fd s }

def World.setFile (w : World) (path : List UInt8) (present : Bool) : World :=
  { w with files := Function.update w.files path present }

/-- The paths after a request that was granted. -/
def World.afterFiles (w : World) : Request → World
  | .bind (.file path) => w.setFile path true
  | _ => w

def Socket.rejects (s : Socket) : Request → Bool
  | .bind _ => s.bound.isSome
  | _ => false

/-- The path is already there. -/
def World.taken (w : World) : Request → Bool
  | .bind (.file path) => w.files path
  | _ => false

/-- What a call that the kernel does not refuse returns and does. -/
def Kernel.grants (K : Kernel ε) (log : List (Event ε)) (w : World) : Call → Except ε (ℕ × World)
  | .socket family protocol status descriptor =>
      let fd := K.descriptor log
      if (w.sockets fd).isSome then .error K.full
      else .ok (fd, w.set fd (some (.new family protocol status descriptor)))
  | .on fd request =>
      match w.sockets fd with
      | none => .error K.badFd
      | some s =>
          if s.rejects request then .error K.invalid
          else if w.taken request then .error K.inUse
          else .ok (s.answer request, (w.set fd (some (s.after request))).afterFiles request)
  | .close fd => if (w.sockets fd).isSome then .ok (0, w.set fd none) else .error K.badFd
  | .unlink path => if w.files path then .ok (0, w.setFile path false) else .error K.missing
  | .freeaddrinfo => .ok (0, w)

/-- A descriptor is released even when `close` reports an error. -/
def World.refused (w : World) : Call → World
  | .close fd => w.set fd none
  | _ => w

/-- `freeaddrinfo` has no error to report. -/
def Kernel.answer (K : Kernel ε) (p : Process ε) (c : Call) : Except ε (ℕ × World) :=
  match K.refuses p.log c, c with
  | some e, .socket .. | some e, .on .. | some e, .close _ | some e, .unlink _ => .error e
  | _, c => K.grants p.log p.world c

/-- The process after a call, and the result: `none` for -1. -/
def Kernel.call (K : Kernel ε) (c : Call) (p : Process ε) : Process ε × Option ℕ :=
  match K.answer p c with
  | .error e => ({
      world := p.world.refused c
      errno := e
      log := p.log ++ [(c, .error e)] }, none)
  | .ok (n, world) => ({
      world := world
      errno := K.disturbs p.log p.errno
      log := p.log ++ [(c, .ok n)] }, some n)

/-- The requests one after the other, up to the first that is refused. -/
def Kernel.callAll (K : Kernel ε) (fd : ℕ) : List Request → Process ε → Process ε × Bool
  | [], p => (p, true)
  | r :: requests, p =>
      match K.call (.on fd r) p with
      | (p, none) => (p, false)
      | (p, some _) => K.callAll fd requests p

/-! ## What a log says -/

inductive Effect
  | opened (fd : ℕ)
  | closed (fd : ℕ)
  deriving DecidableEq, Repr

def Event.effect : Event ε → Option Effect
  | (.socket .., .ok fd) => some (.opened fd)
  | (.close fd, _) => some (.closed fd)
  | _ => none

/-- A call that stands in the way of the socket. -/
def Event.failure : Event ε → Option ε
  | (.socket .., .error e) => some e
  | (.on .., .error e) => some e
  | _ => none

/-- The descriptors that were opened and closed. -/
def effects (log : List (Event ε)) : List Effect := log.filterMap Event.effect

def failures (log : List (Event ε)) : List ε := log.filterMap Event.failure

/-- The first call asks for a socket of this kind. -/
def AsksFor (family protocol : ℕ) (log : List (Event ε)) : Prop :=
  ∃ status descriptor, log.head?.map Prod.fst = some (.socket family protocol status descriptor)

theorem AsksFor.append {family protocol : ℕ} {log : List (Event ε)}
    (h : AsksFor family protocol log) (more : List (Event ε)) :
    AsksFor family protocol (log ++ more) := by
  obtain ⟨status, descriptor, hhead⟩ := h
  cases log with
  | nil => simp at hhead
  | cons event log => exact ⟨status, descriptor, hhead⟩

def World.holding (w : World) (fd : ℕ) (s : Socket) : World :=
  match s.bound with
  | some (.file path) => (w.set fd (some s)).setFile path true
  | _ => w.set fd (some s)

/-- Between `p` and `p'` the process opened one socket, and has it still. -/
structure Holding (p p' : Process ε) (events : List (Event ε)) (fd : ℕ) (s : Socket) : Prop where
  free : p.world.sockets fd = none
  fresh : ∀ path, s.bound = some (.file path) → p.world.files path = false
  world : p'.world = p.world.holding fd s
  log : p'.log = p.log ++ events
  opened : effects events = [.opened fd]
  asks : AsksFor s.family s.protocol events

/-- The calls of one attempt to get a socket, which `e` stopped. What it opened it closed. -/
structure FailedAttempt (family protocol : ℕ) (events : List (Event ε)) (e : ε) : Prop where
  failed : failures events = [e]
  paired : effects events = [] ∨ ∃ fd, effects events = [.opened fd, .closed fd]
  asks : AsksFor family protocol events

/-- Between `p` and `p'` the process did not get the socket that it asked for, because of `e`. -/
structure Refused (p p' : Process ε) (events : List (Event ε)) (e : ε) (family protocol : ℕ) :
    Prop where
  world : p'.world = p.world
  log : p'.log = p.log ++ events
  attempt : FailedAttempt family protocol events e

/-! ## The calls of a process -/

variable {K : Kernel ε} {p p' p'' : Process ε} {events : List (Event ε)} {fd n : ℕ} {s : Socket}

theorem call_none {c : Call} (h : K.call c p = (p', none)) :
    p'.world = p.world.refused c ∧ p'.log = p.log ++ [(c, .error p'.errno)] := by
  unfold Kernel.call at h
  split at h
  · cases h
    exact ⟨rfl, rfl⟩
  · cases h

theorem call_some {c : Call} (h : K.call c p = (p', some n)) :
    K.grants p.log p.world c = .ok (n, p'.world) ∧ p'.log = p.log ++ [(c, .ok n)] := by
  unfold Kernel.call at h
  split at h
  · cases h
  · next hanswer =>
    cases h
    unfold Kernel.answer at hanswer
    split at hanswer
    all_goals first | cases hanswer | exact ⟨hanswer, rfl⟩

theorem effects_append (log more : List (Event ε)) :
    effects (log ++ more) = effects log ++ effects more := List.filterMap_append

theorem failures_append (log more : List (Event ε)) :
    failures (log ++ more) = failures log ++ failures more := List.filterMap_append

theorem socket_refused {family protocol status descriptor : ℕ}
    (h : K.call (.socket family protocol status descriptor) p = (p', none)) :
    ∃ events, Refused p p' events p'.errno family protocol := by
  obtain ⟨hworld, hlog⟩ := call_none h
  exact ⟨_, hworld, hlog, rfl, Or.inl rfl, status, descriptor, rfl⟩

theorem socket_opened {family protocol status descriptor : ℕ}
    (h : K.call (.socket family protocol status descriptor) p = (p', some fd)) :
    ∃ events, Holding p p' events fd (.new family protocol status descriptor) ∧
      failures events = [] := by
  obtain ⟨hgrants, hlog⟩ := call_some h
  simp only [Kernel.grants] at hgrants
  split at hgrants
  · cases hgrants
  · next hfree =>
    simp only [Except.ok.injEq, Prod.mk.injEq] at hgrants
    obtain ⟨rfl, hworld⟩ := hgrants
    refine ⟨_, ⟨?_, ?_, hworld.symm, hlog, rfl, status, descriptor, rfl⟩, rfl⟩
    · simpa using hfree
    · simp [Socket.new]

theorem holding_socket (w : World) (fd : ℕ) (s : Socket) :
    (w.holding fd s).sockets fd = some s := by
  unfold World.holding
  split <;> simp [World.set, World.setFile]

theorem Holding.refused {r : Request} (h : Holding p p' events fd s)
    (hcall : K.call (.on fd r) p' = (p'', none)) :
    Holding p p'' (events ++ [(.on fd r, .error p''.errno)]) fd s ∧
      failures (events ++ [(.on fd r, .error p''.errno)]) = failures events ++ [p''.errno] := by
  obtain ⟨hworld, hlog⟩ := call_none hcall
  refine ⟨⟨h.free, h.fresh, hworld.trans h.world, ?_, ?_, h.asks.append _⟩, ?_⟩
  · rw [hlog, h.log, List.append_assoc]
  · rw [effects_append, h.opened]
    rfl
  · rw [failures_append]
    rfl

theorem holding_set (w : World) {s' : Socket} (hbound : s'.bound = s.bound) :
    (w.holding fd s).set fd (some s') = w.holding fd s' := by
  unfold World.holding
  rw [hbound]
  split <;> simp [World.set, World.setFile]

@[simp] theorem after_family (s : Socket) (r : Request) : (s.after r).family = s.family := by
  unfold Socket.after
  split <;> rfl

@[simp] theorem after_protocol (s : Socket) (r : Request) : (s.after r).protocol = s.protocol := by
  unfold Socket.after
  split <;> rfl

theorem after_bound {r : Request} (h : ∀ addr, r ≠ .bind addr) : (s.after r).bound = s.bound := by
  unfold Socket.after
  split
  · rfl
  · rfl
  · rfl
  · rfl
  · next addr => exact absurd rfl (h addr)
  · rfl

theorem holding_after {w : World} {r : Request} (hfresh : ∀ path, s.bound = some (.file path) →
    w.files path = false) (hrejects : s.rejects r = false)
    (htaken : (w.holding fd s).taken r = false) :
    (((w.holding fd s).set fd (some (s.after r))).afterFiles r = w.holding fd (s.after r)) ∧
      ∀ path, (s.after r).bound = some (.file path) → w.files path = false := by
  by_cases hbind : ∃ addr, r = .bind addr
  · obtain ⟨addr, rfl⟩ := hbind
    have hnone : s.bound = none := by simpa [Socket.rejects] using hrejects
    have hw : w.holding fd s = w.set fd (some s) := by simp only [World.holding, hnone]
    rw [hw] at htaken ⊢
    cases addr with
    | host bytes =>
      exact ⟨by simp [World.holding, World.afterFiles, World.set, Socket.after],
        by simp [Socket.after]⟩
    | file path =>
      refine ⟨by simp [World.holding, World.afterFiles, World.set, World.setFile, Socket.after], ?_⟩
      intro path' hpath
      simp only [Socket.after, Option.some.injEq, Address.file.injEq] at hpath
      subst hpath
      exact htaken
  · have hbound : (s.after r).bound = s.bound := after_bound fun addr h => hbind ⟨addr, h⟩
    have hfiles : ∀ w : World, w.afterFiles r = w := by
      intro w
      unfold World.afterFiles
      split
      · next path => exact absurd ⟨_, rfl⟩ hbind
      · rfl
    rw [hfiles, holding_set w hbound, hbound]
    exact ⟨rfl, hfresh⟩

theorem Holding.granted {r : Request} (h : Holding p p' events fd s)
    (hcall : K.call (.on fd r) p' = (p'', some n)) :
    n = s.answer r ∧ Holding p p'' (events ++ [(.on fd r, .ok n)]) fd (s.after r) ∧
      failures (events ++ [(.on fd r, .ok n)]) = failures events := by
  obtain ⟨hgrants, hlog⟩ := call_some hcall
  simp only [Kernel.grants, h.world, holding_socket] at hgrants
  split at hgrants
  · cases hgrants
  split at hgrants
  · cases hgrants
  next hrejects htaken =>
  simp only [Except.ok.injEq, Prod.mk.injEq] at hgrants
  obtain ⟨hn, hworld⟩ := hgrants
  rw [Bool.not_eq_true] at hrejects htaken
  obtain ⟨hafter, hfresh⟩ := holding_after h.fresh hrejects htaken
  refine ⟨hn.symm, ⟨h.free, hfresh, hworld.symm.trans hafter, ?_, ?_, ?_⟩, ?_⟩
  · rw [hlog, h.log, List.append_assoc]
  · rw [effects_append, h.opened]
    rfl
  · rw [after_family, after_protocol]
    exact h.asks.append _
  · rw [failures_append]
    exact List.append_nil _

theorem Holding.request (h : Holding p p' events fd s) (hclean : failures events = [])
    (K : Kernel ε) (r : Request) :
    (∃ q events', K.call (.on fd r) p' = (q, none) ∧ Holding p q events' fd s ∧
      failures events' = [q.errno]) ∨
    ∃ q events', K.call (.on fd r) p' = (q, some (s.answer r)) ∧
      Holding p q events' fd (s.after r) ∧ failures events' = [] := by
  obtain ⟨⟨q, result⟩, hcall⟩ : ∃ r', K.call (.on fd r) p' = r' := ⟨_, rfl⟩
  cases result with
  | none =>
    obtain ⟨hheld, hfailed⟩ := h.refused hcall
    rw [hclean] at hfailed
    exact Or.inl ⟨q, _, hcall, hheld, hfailed⟩
  | some n =>
    obtain ⟨rfl, hheld, hfailed⟩ := h.granted hcall
    exact Or.inr ⟨q, _, hcall, hheld, hfailed.trans hclean⟩

/-! ## Giving up a socket -/

theorem holding_close {w : World} (hfree : w.sockets fd = none)
    (hbound : ∀ path, s.bound ≠ some (.file path)) : (w.holding fd s).set fd none = w := by
  unfold World.holding
  split
  · next path hpath => exact absurd hpath (hbound path)
  · simp [World.set, ← hfree]

theorem call_close (hopen : (p.world.sockets fd).isSome) :
    ∃ answer, (K.call (.close fd) p).1.world = p.world.set fd none ∧
      (K.call (.close fd) p).1.log = p.log ++ [(.close fd, answer)] := by
  have hcall : ∃ r, K.call (.close fd) p = r := ⟨_, rfl⟩
  obtain ⟨⟨p', result⟩, hcall⟩ := hcall
  rw [hcall]
  cases result with
  | none =>
    obtain ⟨hworld, hlog⟩ := call_none hcall
    exact ⟨_, hworld, hlog⟩
  | some n =>
    obtain ⟨hgrants, hlog⟩ := call_some hcall
    simp only [Kernel.grants, hopen, if_true, Except.ok.injEq, Prod.mk.injEq] at hgrants
    exact ⟨_, hgrants.2.symm, hlog⟩

/-- A socket that is closed after one failure was refused, whatever is in `errno` then. -/
theorem Holding.close {e : ε} (h : Holding p p' events fd s) (hfailed : failures events = [e])
    (hbound : ∀ path, s.bound ≠ some (.file path)) (errno : ε) :
    ∃ events', Refused p { (K.call (.close fd) p').1 with errno := errno } events' e s.family
      s.protocol := by
  have hopen : (p'.world.sockets fd).isSome := by
    rw [h.world, holding_socket]
    rfl
  obtain ⟨answer, hworld, hlog⟩ := call_close (K := K) hopen
  refine ⟨events ++ [(.close fd, answer)], ?_, ?_, ?_, ?_, h.asks.append _⟩
  · rw [hworld, h.world]
    exact holding_close h.free hbound
  · rw [hlog, h.log, List.append_assoc]
  · rw [failures_append, hfailed]
    rfl
  · refine Or.inr ⟨fd, ?_⟩
    rw [effects_append, h.opened]
    rfl

theorem holding_file {w : World} {path : List UInt8} (hbound : s.bound = some (.file path)) :
    w.holding fd s = (w.set fd (some s)).setFile path true := by
  simp only [World.holding, hbound]

theorem call_unlink {path : List UInt8} (hfile : p.world.files path = true) :
    ∃ answer, (K.call (.unlink path) p).1.log = p.log ++ [(.unlink path, answer)] ∧
      ((K.call (.unlink path) p).1.world = p.world.setFile path false ∨
        (K.call (.unlink path) p).1.world = p.world ∧ ∃ e, answer = .error e) := by
  obtain ⟨⟨p', result⟩, hcall⟩ : ∃ r, K.call (.unlink path) p = r := ⟨_, rfl⟩
  rw [hcall]
  cases result with
  | none =>
    obtain ⟨hworld, hlog⟩ := call_none hcall
    exact ⟨_, hlog, Or.inr ⟨hworld, _, rfl⟩⟩
  | some n =>
    obtain ⟨hgrants, hlog⟩ := call_some hcall
    simp only [Kernel.grants, hfile, if_true, Except.ok.injEq, Prod.mk.injEq] at hgrants
    exact ⟨_, hlog, Or.inl hgrants.2.symm⟩

/-- A socket that is bound to a path leaves the path behind when it is closed. -/
theorem Holding.close_file {path : List UInt8} (h : Holding p p' events fd s)
    (hbound : s.bound = some (.file path)) (K : Kernel ε) :
    ∃ answer, (K.call (.close fd) p').1.world = p.world.setFile path true ∧
      (K.call (.close fd) p').1.log = p.log ++ (events ++ [(.close fd, answer)]) := by
  have hopen : (p'.world.sockets fd).isSome := by
    rw [h.world, holding_socket]
    rfl
  obtain ⟨answer, hworld, hlog⟩ := call_close (K := K) hopen
  refine ⟨answer, ?_, by rw [hlog, h.log, List.append_assoc]⟩
  rw [hworld, h.world, holding_file hbound]
  simp [World.set, World.setFile, ← h.free]

theorem setFile_undo {w : World} {path : List UInt8} (hnew : w.files path = false) :
    (w.setFile path true).setFile path false = w := by
  simp [World.setFile, ← hnew]

def Socket.afterAll (s : Socket) (requests : List Request) : Socket :=
  requests.foldl Socket.after s

@[simp] theorem afterAll_family (s : Socket) (requests : List Request) :
    (s.afterAll requests).family = s.family := by
  induction requests generalizing s with
  | nil => rfl
  | cons r requests ih => exact (ih (s.after r)).trans (after_family s r)

@[simp] theorem afterAll_protocol (s : Socket) (requests : List Request) :
    (s.afterAll requests).protocol = s.protocol := by
  induction requests generalizing s with
  | nil => rfl
  | cons r requests ih => exact (ih (s.after r)).trans (after_protocol s r)

theorem afterAll_noPath {requests : List Request} (hr : ∀ r ∈ requests, ∀ path, r ≠ .bind (.file path))
    (hs : ∀ path, s.bound ≠ some (.file path)) (path : List UInt8) :
    (s.afterAll requests).bound ≠ some (.file path) := by
  induction requests generalizing s with
  | nil => exact hs path
  | cons r requests ih =>
    obtain ⟨hr, hrest⟩ := List.forall_mem_cons.mp hr
    refine ih hrest fun path => ?_
    by_cases hbind : ∃ addr, r = .bind addr
    · obtain ⟨addr, rfl⟩ := hbind
      rintro ⟨⟩
      exact hr path rfl
    · rw [after_bound fun addr h => hbind ⟨addr, h⟩]
      exact hs path

theorem Holding.callAll (h : Holding p p' events fd s) (hclean : failures events = [])
    (K : Kernel ε) (requests : List Request) :
    (∃ q events', K.callAll fd requests p' = (q, true) ∧
      Holding p q events' fd (s.afterAll requests) ∧ failures events' = []) ∨
    ∃ q events' granted, K.callAll fd requests p' = (q, false) ∧ granted <+: requests ∧
      Holding p q events' fd (s.afterAll granted) ∧ failures events' = [q.errno] := by
  induction requests generalizing p' events s with
  | nil => exact Or.inl ⟨p', events, rfl, h, hclean⟩
  | cons r requests ih =>
    rcases h.request hclean K r with ⟨q, events', hcall, hheld, hfailed⟩ |
      ⟨q, events', hcall, hheld, hfailed⟩
    · refine Or.inr ⟨q, events', [], ?_, List.nil_prefix, hheld, hfailed⟩
      simp only [Kernel.callAll, hcall]
    · simp only [Kernel.callAll, hcall]
      rcases ih hheld hfailed with hall | ⟨q', events'', granted, hrun, hprefix, hrest⟩
      · exact Or.inl hall
      · exact Or.inr ⟨q', events'', r :: granted, hrun, List.cons_prefix_cons.mpr ⟨rfl, hprefix⟩,
          hrest⟩

end Kvx.Lib.Sockets
