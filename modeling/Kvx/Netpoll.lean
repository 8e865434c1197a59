import Kvx.Conn
import Mathlib.Logic.Function.Basic

/-!
# Pollers

`netpoll_epoll.c` and `netpoll_kqueue.c` offer the same functions on two kernels. What a poller is
asked to watch is a table of interests; the interest list of epoll and the filters of kqueue both
stand for it. Kernels that run out of memory for registrations are left out.
-/
namespace Kvx.Net

/-- The calls on a poller, and the descriptors that the process opens and closes meanwhile. -/
inductive PollOp
  | add (fd : ℕ) (data : UInt32)
  | modR (fd : ℕ) (data : UInt32)
  | modRw (fd : ℕ) (data : UInt32)
  | del (fd : ℕ)
  | opened (fd : ℕ)
  | closed (fd : ℕ)
  deriving DecidableEq, Repr

def enoent : Errno := .other 2
def eexist : Errno := .other 17

/-! ## epoll -/

def epollIn : UInt32 := 0x001
def epollOut : UInt32 := 0x004
def epollErr : UInt32 := 0x008
def epollHup : UInt32 := 0x010
def epollRdhup : UInt32 := 0x2000

/-- `struct epoll_event` -/
structure EpollEvent where
  events : UInt32
  data : UInt32
  deriving DecidableEq, Repr

/-- The open descriptors of the process and the interest list. -/
@[ext]
structure EpollSet where
  openFds : ℕ → Bool
  interest : ℕ → Option EpollEvent

inductive EpollCtl
  | add (ev : EpollEvent)
  | mod (ev : EpollEvent)
  | del

def EpollSet.set (k : EpollSet) (fd : ℕ) (ev : Option EpollEvent) : EpollSet :=
  { k with interest := Function.update k.interest fd ev }

/-- The result is `errno` for -1, or `none` for 0. -/
def epollCtl (k : EpollSet) (ctl : EpollCtl) (fd : ℕ) : EpollSet × Option Errno :=
  if k.openFds fd then
    match ctl, k.interest fd with
    | .add ev, none => (k.set fd (some ev), none)
    | .add _, some _ => (k, some eexist)
    | .mod ev, some _ => (k.set fd (some ev), none)
    | .mod _, none => (k, some enoent)
    | .del, some _ => (k.set fd none, none)
    | .del, none => (k, some enoent)
  else (k, some .ebadf)

namespace Epoll

def netpollAdd (poll : EpollSet) (fd : ℕ) (data : UInt32) : EpollSet × Option Errno :=
  epollCtl poll (.add ⟨epollIn ||| epollRdhup, data⟩) fd

def netpollModR (poll : EpollSet) (fd : ℕ) (data : UInt32) : EpollSet × Option Errno :=
  epollCtl poll (.mod ⟨epollIn ||| epollRdhup, data⟩) fd

def netpollModRw (poll : EpollSet) (fd : ℕ) (data : UInt32) : EpollSet × Option Errno :=
  epollCtl poll (.mod ⟨epollIn ||| epollOut ||| epollRdhup, data⟩) fd

def netpollDel (poll : EpollSet) (fd : ℕ) : EpollSet × Option Errno := epollCtl poll .del fd

def netpollEventData (event : EpollEvent) : UInt32 := event.data

def netpollEventReadable (event : EpollEvent) : Bool :=
  event.events &&& (epollIn ||| epollErr ||| epollHup ||| epollRdhup) != 0

def netpollEventWritable (event : EpollEvent) : Bool :=
  event.events &&& (epollOut ||| epollErr ||| epollHup) != 0

end Epoll

/-! ## kqueue -/

def evAdd : UInt16 := 0x0001
def evDelete : UInt16 := 0x0002
def evEnable : UInt16 := 0x0004
def evDisable : UInt16 := 0x0008

inductive Filter
  | read
  | write
  deriving DecidableEq, Repr

/-- `struct kevent`: a change that is asked for, or an event. -/
structure Kevent where
  ident : ℕ
  filter : Filter
  flags : UInt16
  udata : UInt64
  deriving DecidableEq, Repr

/-- What the kernel keeps for a filter of a descriptor. -/
structure Knote where
  enabled : Bool
  udata : UInt64
  deriving DecidableEq, Repr

@[ext]
structure KqueueSet where
  openFds : ℕ → Bool
  notes : ℕ → Filter → Option Knote

def KqueueSet.set (k : KqueueSet) (fd : ℕ) (filter : Filter) (note : Option Knote) : KqueueSet :=
  { k with notes := Function.update k.notes fd (Function.update (k.notes fd) filter note) }

/-- `EV_DISABLE` and `EV_ENABLE` decide, and otherwise the filter stays as it is. -/
def Kevent.enables (c : Kevent) (before : Bool) : Bool :=
  if c.flags &&& evDisable != 0 then false
  else if c.flags &&& evEnable != 0 then true
  else before

/-- One change. -/
def Kevent.apply (c : Kevent) (k : KqueueSet) : Except Errno KqueueSet :=
  if k.openFds c.ident then
    match k.notes c.ident c.filter with
    | none =>
        if c.flags &&& evDelete != 0 then .error enoent
        else if c.flags &&& evAdd != 0 then
          .ok (k.set c.ident c.filter (some ⟨c.enables true, c.udata⟩))
        else .error enoent
    | some note =>
        if c.flags &&& evDelete != 0 then .ok (k.set c.ident c.filter none)
        else .ok (k.set c.ident c.filter (some ⟨c.enables note.enabled, c.udata⟩))
  else .error .ebadf

/-- The changes in turn. The ones before a change that is refused have been made. -/
def kevent (k : KqueueSet) : List Kevent → KqueueSet × Option Errno
  | [] => (k, none)
  | c :: changes =>
      match c.apply k with
      | .error e => (k, some e)
      | .ok k => kevent k changes

namespace Kqueue

def netpollUpdate (poll : KqueueSet) (fd : ℕ) (data : UInt32) (writeEnabled : Bool) :
    KqueueSet × Option Errno :=
  kevent poll [⟨fd, .read, evAdd ||| evEnable, data.toUInt64⟩,
    ⟨fd, .write, evAdd ||| (if writeEnabled then evEnable else evDisable), data.toUInt64⟩]

def netpollAdd (poll : KqueueSet) (fd : ℕ) (data : UInt32) : KqueueSet × Option Errno :=
  netpollUpdate poll fd data false

def netpollModR (poll : KqueueSet) (fd : ℕ) (data : UInt32) : KqueueSet × Option Errno :=
  netpollUpdate poll fd data false

def netpollModRw (poll : KqueueSet) (fd : ℕ) (data : UInt32) : KqueueSet × Option Errno :=
  netpollUpdate poll fd data true

def netpollDel (poll : KqueueSet) (fd : ℕ) : KqueueSet × Option Errno :=
  kevent poll [⟨fd, .read, evDelete, 0⟩, ⟨fd, .write, evDelete, 0⟩]

def netpollEventData (event : Kevent) : UInt32 := event.udata.toUInt32

def netpollEventReadable (event : Kevent) : Bool := event.filter == .read

def netpollEventWritable (event : Kevent) : Bool := event.filter == .write

end Kqueue

/-! ## Runs -/

/-- One call, or what happens to a descriptor; the kernel forgets one that is closed. -/
def epollStep (k : EpollSet) : PollOp → EpollSet × Option Errno
  | .add fd data => Epoll.netpollAdd k fd data
  | .modR fd data => Epoll.netpollModR k fd data
  | .modRw fd data => Epoll.netpollModRw k fd data
  | .del fd => Epoll.netpollDel k fd
  | .opened fd => ({ k with openFds := Function.update k.openFds fd true }, none)
  | .closed fd => (({ k with openFds := Function.update k.openFds fd false } : EpollSet).set fd none,
      none)

def kqueueStep (k : KqueueSet) : PollOp → KqueueSet × Option Errno
  | .add fd data => Kqueue.netpollAdd k fd data
  | .modR fd data => Kqueue.netpollModR k fd data
  | .modRw fd data => Kqueue.netpollModRw k fd data
  | .del fd => Kqueue.netpollDel k fd
  | .opened fd => ({ k with openFds := Function.update k.openFds fd true }, none)
  | .closed fd => ({ k with
      openFds := Function.update k.openFds fd false
      notes := Function.update k.notes fd fun _ => none }, none)

/-- The poller after some calls that all returned 0. -/
def runCalls {σ : Type} (step : σ → PollOp → σ × Option Errno) : List PollOp → σ → Option σ
  | [], k => some k
  | op :: ops, k =>
      match step k op with
      | (k, none) => runCalls step ops k
      | (_, some _) => none

def EpollSet.new : EpollSet := ⟨fun _ => false, fun _ => none⟩
def KqueueSet.new : KqueueSet := ⟨fun _ => false, fun _ _ => none⟩

/-! ## What a poller is asked to watch -/

structure Interest where
  data : UInt32
  write : Bool
  deriving DecidableEq, Repr

structure Poller where
  openFds : ℕ → Bool
  interests : ℕ → Option Interest

def Poller.new : Poller := ⟨fun _ => false, fun _ => none⟩

def Poller.set (p : Poller) (fd : ℕ) (i : Option Interest) : Poller :=
  { p with interests := Function.update p.interests fd i }

/-- A descriptor is added once, and changed or removed only while it is there. -/
def Poller.step (p : Poller) : PollOp → Option Poller
  | .add fd data =>
      if p.openFds fd && (p.interests fd).isNone then some (p.set fd (some ⟨data, false⟩)) else none
  | .modR fd data =>
      if p.openFds fd && (p.interests fd).isSome then some (p.set fd (some ⟨data, false⟩)) else none
  | .modRw fd data =>
      if p.openFds fd && (p.interests fd).isSome then some (p.set fd (some ⟨data, true⟩)) else none
  | .del fd => if p.openFds fd && (p.interests fd).isSome then some (p.set fd none) else none
  | .opened fd => some { p with openFds := Function.update p.openFds fd true }
  | .closed fd =>
      some (({ p with openFds := Function.update p.openFds fd false } : Poller).set fd none)

def Poller.run : List PollOp → Poller → Option Poller
  | [], p => some p
  | op :: ops, p => (p.step op).bind (Poller.run ops)

def interestMask (write : Bool) : UInt32 :=
  if write then epollIn ||| epollOut ||| epollRdhup else epollIn ||| epollRdhup

def Interest.epoll (i : Interest) : EpollEvent := ⟨interestMask i.write, i.data⟩

def Interest.note (i : Interest) : Filter → Knote
  | .read => ⟨true, i.data.toUInt64⟩
  | .write => ⟨i.write, i.data.toUInt64⟩

def Poller.epoll (p : Poller) : EpollSet := ⟨p.openFds, fun fd => (p.interests fd).map Interest.epoll⟩

def Poller.kqueue (p : Poller) : KqueueSet :=
  ⟨p.openFds, fun fd filter => (p.interests fd).map fun i => i.note filter⟩

theorem epoll_set (p : Poller) (fd : ℕ) (i : Option Interest) :
    (p.set fd i).epoll = p.epoll.set fd (i.map Interest.epoll) := by
  refine EpollSet.ext rfl (funext fun fd' => ?_)
  by_cases h : fd' = fd
  · subst h
    simp [Poller.epoll, Poller.set, EpollSet.set]
  · simp [Poller.epoll, Poller.set, EpollSet.set, h]

theorem kqueue_set (p : Poller) (fd : ℕ) (i : Option Interest) :
    (p.set fd i).kqueue = (p.kqueue.set fd .read (i.map (·.note .read))).set fd .write
      (i.map (·.note .write)) := by
  refine KqueueSet.ext rfl (funext fun fd' => funext fun filter => ?_)
  by_cases h : fd' = fd
  · subst h
    cases filter <;> simp [Poller.kqueue, Poller.set, KqueueSet.set, Function.update]
  · simp [Poller.kqueue, Poller.set, KqueueSet.set, h]

/-! ## The two kernels keep the interests -/

variable {p p' : Poller} {fd : ℕ} {op : PollOp}

/-- `epoll_ctl` succeeds for just the calls that a poller allows. -/
theorem epollStep_epoll (p : Poller) (op : PollOp) :
    (∃ p', p.step op = some p' ∧ epollStep p.epoll op = (p'.epoll, none)) ∨
      p.step op = none ∧ ∃ e, epollStep p.epoll op = (p.epoll, some e) := by
  have hopen : p.epoll.openFds = p.openFds := rfl
  have hinterest : ∀ fd, p.epoll.interest fd = (p.interests fd).map Interest.epoll := fun _ => rfl
  cases op with
  | opened fd => exact Or.inl ⟨_, rfl, rfl⟩
  | closed fd =>
    refine Or.inl ⟨_, rfl, ?_⟩
    rw [epoll_set]
    rfl
  | add fd data =>
    cases ho : p.openFds fd <;> cases hi : p.interests fd <;>
      simp [Poller.step, epollStep, Epoll.netpollAdd, epollCtl, hopen, hinterest, ho, hi, epoll_set,
        Interest.epoll, interestMask]
  | modR fd data =>
    cases ho : p.openFds fd <;> cases hi : p.interests fd <;>
      simp [Poller.step, epollStep, Epoll.netpollModR, epollCtl, hopen, hinterest, ho, hi, epoll_set,
        Interest.epoll, interestMask]
  | modRw fd data =>
    cases ho : p.openFds fd <;> cases hi : p.interests fd <;>
      simp [Poller.step, epollStep, Epoll.netpollModRw, epollCtl, hopen, hinterest, ho, hi, epoll_set,
        Interest.epoll, interestMask]
  | del fd =>
    cases ho : p.openFds fd <;> cases hi : p.interests fd <;>
      simp [Poller.step, epollStep, Epoll.netpollDel, epollCtl, hopen, hinterest, ho, hi, epoll_set]

theorem apply_add {k : KqueueSet} (hopen : k.openFds fd = true) (filter : Filter) (enabled : Bool)
    (udata : UInt64) :
    Kevent.apply ⟨fd, filter, evAdd ||| (if enabled then evEnable else evDisable), udata⟩ k =
      .ok (k.set fd filter (some ⟨enabled, udata⟩)) := by
  have hdelete : ((evAdd ||| (if enabled then evEnable else evDisable)) &&& evDelete != 0) =
      false := by
    cases enabled <;> decide
  have hadd : ((evAdd ||| (if enabled then evEnable else evDisable)) &&& evAdd != 0) = true := by
    cases enabled <;> decide
  have henables : ∀ before, Kevent.enables
      ⟨fd, filter, evAdd ||| (if enabled then evEnable else evDisable), udata⟩ before = enabled := by
    intro before
    cases enabled with
    | false =>
      have hdisable : ((evAdd ||| evDisable) &&& evDisable != 0) = true := by decide
      simp only [Kevent.enables, Bool.false_eq_true, if_false, hdisable, if_true]
    | true =>
      have hdisable : ((evAdd ||| evEnable) &&& evDisable != 0) = false := by decide
      have henable : ((evAdd ||| evEnable) &&& evEnable != 0) = true := by decide
      simp only [Kevent.enables, if_true, hdisable, henable, Bool.false_eq_true, if_false]
  simp only [Kevent.apply, hopen, if_true, hdelete, hadd, henables, Bool.false_eq_true, if_false]
  cases k.notes fd filter <;> rfl

theorem netpollUpdate_kqueue (p : Poller) (hopen : p.openFds fd = true) (i : Interest) :
    Kqueue.netpollUpdate p.kqueue fd i.data i.write = ((p.set fd (some i)).kqueue, none) := by
  have hread : Kevent.apply ⟨fd, .read, evAdd ||| evEnable, i.data.toUInt64⟩ p.kqueue =
      .ok (p.kqueue.set fd .read (some (i.note .read))) :=
    apply_add hopen .read true i.data.toUInt64
  have hwrite := apply_add (k := p.kqueue.set fd .read (some (i.note .read))) hopen .write i.write
    i.data.toUInt64
  simp only [Kqueue.netpollUpdate, kevent, hread, hwrite, kqueue_set, Option.map_some]
  rfl

theorem netpollDel_kqueue (p : Poller) (hopen : p.openFds fd = true)
    (hsome : (p.interests fd).isSome) :
    Kqueue.netpollDel p.kqueue fd = ((p.set fd none).kqueue, none) := by
  obtain ⟨i, hi⟩ := Option.isSome_iff_exists.mp hsome
  have hread : Kevent.apply ⟨fd, .read, evDelete, 0⟩ p.kqueue =
      .ok (p.kqueue.set fd .read none) := by
    simp [Kevent.apply, Poller.kqueue, hopen, hi, evDelete]
  have hwrite : Kevent.apply ⟨fd, .write, evDelete, 0⟩ (p.kqueue.set fd .read none) =
      .ok ((p.kqueue.set fd .read none).set fd .write none) := by
    simp [Kevent.apply, KqueueSet.set, Poller.kqueue, hopen, hi, evDelete]
  simp only [Kqueue.netpollDel, kevent, hread, hwrite, kqueue_set, Option.map_none]

theorem kqueueStep_kqueue (h : p.step op = some p') :
    kqueueStep p.kqueue op = (p'.kqueue, none) := by
  cases op with
  | opened fd =>
    cases h
    rfl
  | closed fd =>
    cases h
    rw [kqueue_set]
    refine Prod.ext (KqueueSet.ext rfl (funext fun fd' => funext fun filter => ?_)) rfl
    by_cases hfd : fd' = fd
    · subst hfd
      cases filter <;> simp [kqueueStep, KqueueSet.set, Function.update]
    · simp [kqueueStep, KqueueSet.set, Poller.kqueue, hfd]
  | add fd data =>
    simp only [Poller.step] at h
    split_ifs at h with hguard
    cases h
    rw [Bool.and_eq_true] at hguard
    exact netpollUpdate_kqueue p hguard.1 ⟨data, false⟩
  | modR fd data =>
    simp only [Poller.step] at h
    split_ifs at h with hguard
    cases h
    rw [Bool.and_eq_true] at hguard
    exact netpollUpdate_kqueue p hguard.1 ⟨data, false⟩
  | modRw fd data =>
    simp only [Poller.step] at h
    split_ifs at h with hguard
    cases h
    rw [Bool.and_eq_true] at hguard
    exact netpollUpdate_kqueue p hguard.1 ⟨data, true⟩
  | del fd =>
    simp only [Poller.step] at h
    split_ifs at h with hguard
    cases h
    rw [Bool.and_eq_true] at hguard
    exact netpollDel_kqueue p hguard.1 hguard.2

/-- The calls of a run on epoll all return 0 just where the poller allows all of them. -/
theorem runCalls_epoll (ops : List PollOp) (p : Poller) :
    runCalls epollStep ops p.epoll = (p.run ops).map Poller.epoll := by
  induction ops generalizing p with
  | nil => rfl
  | cons op ops ih =>
    rcases epollStep_epoll p op with ⟨p', hstep, hcall⟩ | ⟨hstep, e, hcall⟩
    · simp only [runCalls, hcall, Poller.run, hstep, Option.bind_some]
      exact ih p'
    · simp only [runCalls, hcall, Poller.run, hstep, Option.bind_none, Option.map_none]

theorem runCalls_kqueue {ops : List PollOp} (h : p.run ops = some p') :
    runCalls kqueueStep ops p.kqueue = some p'.kqueue := by
  induction ops generalizing p with
  | nil =>
    cases h
    rfl
  | cons op ops ih =>
    obtain ⟨p₁, hstep, hrest⟩ := Option.bind_eq_some_iff.mp h
    simp only [runCalls, kqueueStep_kqueue hstep]
    exact ih hrest

/-! ## What the kernels report -/

structure Readiness where
  input : Bool
  output : Bool
  rdhup : Bool
  error : Bool
  hup : Bool
  deriving DecidableEq, Repr

def Readiness.mask (r : Readiness) : UInt32 :=
  (if r.input then epollIn else 0) ||| (if r.output then epollOut else 0) |||
    (if r.rdhup then epollRdhup else 0) ||| (if r.error then epollErr else 0) |||
    (if r.hup then epollHup else 0)

/-- `EPOLLERR` and `EPOLLHUP` are reported without being asked for. -/
def EpollSet.report (k : EpollSet) (ready : ℕ → Readiness) (fd : ℕ) : Option EpollEvent :=
  (k.interest fd).bind fun ev =>
    let events := (ready fd).mask &&& (ev.events ||| epollErr ||| epollHup)
    if events = 0 then none else some ⟨events, ev.data⟩

/-- Both filters tell of an error and of a hangup. -/
def Readiness.active (r : Readiness) : Filter → Bool
  | .read => r.input || r.rdhup || r.error || r.hup
  | .write => r.output || r.error || r.hup

/-- A filter that is disabled reports nothing. -/
def KqueueSet.report (k : KqueueSet) (ready : ℕ → Readiness) (fd : ℕ) (filter : Filter) :
    Option Kevent :=
  (k.notes fd filter).bind fun note =>
    if note.enabled && (ready fd).active filter then some ⟨fd, filter, 0, note.udata⟩ else none

/-- `data` belongs to a descriptor that epoll reports as readable. -/
def EpollSet.Readable (k : EpollSet) (ready : ℕ → Readiness) (data : UInt32) : Prop :=
  ∃ fd ev, k.report ready fd = some ev ∧ Epoll.netpollEventReadable ev ∧
    Epoll.netpollEventData ev = data

def EpollSet.Writable (k : EpollSet) (ready : ℕ → Readiness) (data : UInt32) : Prop :=
  ∃ fd ev, k.report ready fd = some ev ∧ Epoll.netpollEventWritable ev ∧
    Epoll.netpollEventData ev = data

def KqueueSet.Readable (k : KqueueSet) (ready : ℕ → Readiness) (data : UInt32) : Prop :=
  ∃ fd filter ev, k.report ready fd filter = some ev ∧ Kqueue.netpollEventReadable ev ∧
    Kqueue.netpollEventData ev = data

def KqueueSet.Writable (k : KqueueSet) (ready : ℕ → Readiness) (data : UInt32) : Prop :=
  ∃ fd filter ev, k.report ready fd filter = some ev ∧ Kqueue.netpollEventWritable ev ∧
    Kqueue.netpollEventData ev = data

theorem epoll_flags : ∀ write input output rdhup error hup : Bool,
    ((Readiness.mask ⟨input, output, rdhup, error, hup⟩ &&&
        (interestMask write ||| epollErr ||| epollHup)) &&&
        (epollIn ||| epollErr ||| epollHup ||| epollRdhup) != 0) =
        (input || rdhup || error || hup) ∧
      ((Readiness.mask ⟨input, output, rdhup, error, hup⟩ &&&
        (interestMask write ||| epollErr ||| epollHup)) &&&
        (epollOut ||| epollErr ||| epollHup) != 0) = (write && output || error || hup) := by
  decide

variable {ready : ℕ → Readiness} {data : UInt32}

theorem epoll_reported (p : Poller) {accepts : EpollEvent → Bool} {flags : UInt32}
    (haccepts : ∀ ev, accepts ev = (ev.events &&& flags != 0)) :
    (∃ fd ev, p.epoll.report ready fd = some ev ∧ accepts ev ∧ ev.data = data) ↔
      ∃ fd i, p.interests fd = some i ∧ i.data = data ∧
        ((ready fd).mask &&& (interestMask i.write ||| epollErr ||| epollHup)) &&& flags != 0 := by
  constructor
  · rintro ⟨fd, ev, hreport, hev, hdata⟩
    simp only [EpollSet.report, Poller.epoll, Option.bind_eq_some_iff, Option.map_eq_some_iff] at hreport
    obtain ⟨_, ⟨i, hi, rfl⟩, hreport⟩ := hreport
    split_ifs at hreport
    rw [Option.some.injEq] at hreport
    subst hreport
    rw [haccepts] at hev
    exact ⟨fd, i, hi, hdata, hev⟩
  · rintro ⟨fd, i, hi, hdata, hflags⟩
    have hmask : (ready fd).mask &&& (interestMask i.write ||| epollErr ||| epollHup) ≠ 0 := by
      intro hzero
      rw [hzero] at hflags
      simp at hflags
    refine ⟨fd, ⟨_, i.data⟩, ?_, (haccepts _).trans hflags, hdata⟩
    simp only [EpollSet.report, Poller.epoll, hi, Option.map_some, Option.bind_some,
      Interest.epoll, if_neg hmask]

theorem epoll_reports (p : Poller) (ready : ℕ → Readiness) (data : UInt32) :
    (p.epoll.Readable ready data ↔
        ∃ fd i, p.interests fd = some i ∧ i.data = data ∧ (ready fd).active .read) ∧
      (p.epoll.Writable ready data ↔
        ∃ fd i, p.interests fd = some i ∧ i.data = data ∧
          (i.write && (ready fd).output || (ready fd).error || (ready fd).hup)) := by
  have hflags : ∀ fd i, _ := fun (fd : ℕ) (i : Interest) => epoll_flags i.write (ready fd).input
    (ready fd).output (ready fd).rdhup (ready fd).error (ready fd).hup
  constructor
  · refine (epoll_reported p fun ev => rfl).trans ?_
    simp only [(hflags _ _).1, Readiness.active]
  · refine (epoll_reported p fun ev => rfl).trans ?_
    simp only [(hflags _ _).2]

theorem kqueue_reported (p : Poller) {fd : ℕ} {filter : Filter} {ev : Kevent} :
    p.kqueue.report ready fd filter = some ev ∧ Kqueue.netpollEventData ev = data ↔
      ∃ i, p.interests fd = some i ∧ i.data = data ∧ (i.note filter).enabled ∧
        (ready fd).active filter ∧ ev = ⟨fd, filter, 0, i.data.toUInt64⟩ := by
  have hudata : ∀ i : Interest, (i.note filter).udata = i.data.toUInt64 := fun i => by
    cases filter <;> rfl
  simp only [KqueueSet.report, Poller.kqueue, Option.bind_eq_some_iff, Option.map_eq_some_iff]
  constructor
  · rintro ⟨⟨_, ⟨i, hi, rfl⟩, hreport⟩, hdata⟩
    split_ifs at hreport with hguard
    rw [Option.some.injEq, hudata] at hreport
    subst hreport
    rw [Bool.and_eq_true] at hguard
    exact ⟨i, hi, by simpa [Kqueue.netpollEventData] using hdata, hguard.1, hguard.2, rfl⟩
  · rintro ⟨i, hi, hdata, henabled, hactive, rfl⟩
    refine ⟨⟨_, ⟨i, hi, rfl⟩, ?_⟩, by simpa [Kqueue.netpollEventData] using hdata⟩
    rw [if_pos (by rw [henabled, hactive]; rfl), hudata]

theorem kqueue_reports (p : Poller) (ready : ℕ → Readiness) (data : UInt32) :
    (p.kqueue.Readable ready data ↔
        ∃ fd i, p.interests fd = some i ∧ i.data = data ∧ (ready fd).active .read) ∧
      (p.kqueue.Writable ready data ↔
        ∃ fd i, p.interests fd = some i ∧ i.data = data ∧ i.write ∧ (ready fd).active .write) := by
  constructor
  · constructor
    · rintro ⟨fd, filter, ev, hreport, hread, hdata⟩
      obtain ⟨i, hi, hd, -, hactive, rfl⟩ := (kqueue_reported p).mp ⟨hreport, hdata⟩
      obtain rfl : filter = .read := by simpa [Kqueue.netpollEventReadable] using hread
      exact ⟨fd, i, hi, hd, hactive⟩
    · rintro ⟨fd, i, hi, hd, hactive⟩
      obtain ⟨hreport, hdata⟩ := (kqueue_reported p).mpr ⟨i, hi, hd, rfl, hactive, rfl⟩
      exact ⟨fd, .read, _, hreport, rfl, hdata⟩
  · constructor
    · rintro ⟨fd, filter, ev, hreport, hwrite, hdata⟩
      obtain ⟨i, hi, hd, henabled, hactive, rfl⟩ := (kqueue_reported p).mp ⟨hreport, hdata⟩
      obtain rfl : filter = .write := by simpa [Kqueue.netpollEventWritable] using hwrite
      exact ⟨fd, i, hi, hd, henabled, hactive⟩
    · rintro ⟨fd, i, hi, hd, hw, hactive⟩
      have henabled : (i.note .write).enabled = true := hw
      obtain ⟨hreport, hdata⟩ := (kqueue_reported p).mpr ⟨i, hi, hd, henabled, hactive, rfl⟩
      exact ⟨fd, .write, _, hreport, rfl, hdata⟩

theorem interestMask_out : ∀ write : Bool, interestMask write &&& epollOut = 0 ↔ write = false := by
  decide

/-- A run of calls that return 0 on epoll returns 0 on kqueue, and from then on the two report the
same descriptors as readable, and the same as writable but for the ones that wait for input only
and have an error or a hangup: epoll alone reports these. -/
theorem netpoll_backends_agree {ops : List PollOp} {k : EpollSet}
    (h : runCalls epollStep ops .new = some k) :
    ∃ k', runCalls kqueueStep ops .new = some k' ∧ k'.openFds = k.openFds ∧
      ∀ ready data, (k.Readable ready data ↔ k'.Readable ready data) ∧
        (k.Writable ready data ↔ k'.Writable ready data ∨
          ∃ fd ev, k.interest fd = some ev ∧ ev.data = data ∧ ev.events &&& epollOut = 0 ∧
            ((ready fd).error ∨ (ready fd).hup)) := by
  have hrun : (Poller.new.run ops).map Poller.epoll = some k :=
    (runCalls_epoll ops .new).symm.trans h
  obtain ⟨p, hp, rfl⟩ := Option.map_eq_some_iff.mp hrun
  refine ⟨p.kqueue, runCalls_kqueue hp, rfl, fun ready data => ?_⟩
  obtain ⟨hreadE, hwriteE⟩ := epoll_reports p ready data
  obtain ⟨hreadK, hwriteK⟩ := kqueue_reports p ready data
  refine ⟨hreadE.trans hreadK.symm, ?_⟩
  rw [hwriteE, hwriteK]
  constructor
  · rintro ⟨fd, i, hi, hdata, hflags⟩
    cases hw : i.write with
    | true =>
      refine Or.inl ⟨fd, i, hi, hdata, hw, ?_⟩
      simpa [Readiness.active, hw] using hflags
    | false =>
      refine Or.inr ⟨fd, i.epoll, by simp [Poller.epoll, hi], hdata,
        (interestMask_out i.write).mpr hw, ?_⟩
      simpa [hw] using hflags
  · rintro (⟨fd, i, hi, hdata, hw, hactive⟩ | ⟨fd, ev, hev, hdata, hout, hbroken⟩)
    · exact ⟨fd, i, hi, hdata, by simpa [Readiness.active, hw] using hactive⟩
    · obtain ⟨i, hi, rfl⟩ := Option.map_eq_some_iff.mp hev
      refine ⟨fd, i, hi, hdata, ?_⟩
      rcases hbroken with h | h <;> simp [h]

/-- A connection that is added, waits for output and is removed. -/
def connectionOps : List PollOp :=
  [.opened 5, .add 5 7, .modRw 5 7, .opened 6, .add 6 8, .del 5, .closed 5]

theorem netpoll_backends_agree_connection :
    ∃ k', runCalls kqueueStep connectionOps .new = some k' := by
  have hsome : (runCalls epollStep connectionOps .new).isSome := by decide
  obtain ⟨k, hk⟩ := Option.isSome_iff_exists.mp hsome
  obtain ⟨k', hk', -⟩ := netpoll_backends_agree hk
  exact ⟨k', hk'⟩

/-! ## Pollers that come and go -/

/-- What `malloc` and the kernel grant to `netpoll_init`, and whether `poll->events` is not `NULL`
in the block that `malloc` returns. -/
structure InitAnswers where
  poll : Bool
  events : Bool
  stale : Bool
  fd : Bool
  cloexec : Bool
  deriving DecidableEq, Repr

/-- The blocks and descriptors that were taken and not given back. -/
@[ext]
structure Held where
  polls : ℕ := 0
  events : ℕ := 0
  fds : ℕ := 0
  deriving DecidableEq, Repr

/-- It tests `poll->events` before it sets it, and frees `poll` alone. The result tells whether
there is a poller. -/
def Epoll.netpollInit (a : InitAnswers) (h : Held) : Held × Bool :=
  if !a.poll then (h, false)
  else
    let h := { h with polls := h.polls + 1 }
    let h := if a.events then { h with events := h.events + 1 } else h
    if !a.stale then ({ h with polls := h.polls - 1 }, false)
    else if !a.fd then ({ h with polls := h.polls - 1 }, false)
    else ({ h with fds := h.fds + 1 }, true)

def Epoll.netpollDestroy (h : Held) : Held :=
  { h with
    fds := h.fds - 1
    polls := h.polls - 1 }

def Kqueue.netpollInit (a : InitAnswers) (h : Held) : Held × Bool :=
  if !a.poll then (h, false)
  else
    let h := { h with polls := h.polls + 1 }
    if !a.events then ({ h with polls := h.polls - 1 }, false)
    else
      let h := { h with events := h.events + 1 }
      if !a.fd then
        ({ h with
          events := h.events - 1
          polls := h.polls - 1 }, false)
      else
        let h := { h with fds := h.fds + 1 }
        if !a.cloexec then
          ({ fds := h.fds - 1
             events := h.events - 1
             polls := h.polls - 1 }, false)
        else (h, true)

def Kqueue.netpollDestroy (h : Held) : Held where
  fds := h.fds - 1
  events := h.events - 1
  polls := h.polls - 1

/-- One poller is made, or one of those that are there is destroyed. -/
inductive LifeOp
  | init (answers : InitAnswers)
  | destroy
  deriving DecidableEq, Repr

def runLife (init : InitAnswers → Held → Held × Bool) (destroy : Held → Held) :
    List LifeOp → Held × ℕ → Held × ℕ
  | [], s => s
  | .init a :: ops, (h, pollers) =>
      let (h, made) := init a h
      runLife init destroy ops (h, if made then pollers + 1 else pollers)
  | .destroy :: ops, (h, 0) => runLife init destroy ops (h, 0)
  | .destroy :: ops, (h, pollers + 1) => runLife init destroy ops (destroy h, pollers)

def Held.exact (pollers : ℕ) : Held := ⟨pollers, pollers, pollers⟩

/-- `malloc` granted an array of events. -/
def LifeOp.takesEvents : LifeOp → Bool
  | .init a => a.poll && a.events
  | .destroy => false

theorem kqueueInit_exact (a : InitAnswers) (pollers : ℕ) :
    ∃ made, Kqueue.netpollInit a (.exact pollers) =
      (.exact (if made then pollers + 1 else pollers), made) := by
  obtain ⟨poll, events, stale, fd, cloexec⟩ := a
  cases poll with
  | false => exact ⟨false, rfl⟩
  | true =>
    cases events with
    | false => exact ⟨false, rfl⟩
    | true =>
      cases fd with
      | false => exact ⟨false, rfl⟩
      | true => cases cloexec with
        | false => exact ⟨false, rfl⟩
        | true => exact ⟨true, rfl⟩

theorem epollInit_held (a : InitAnswers) (pollers events : ℕ) :
    ∃ made, Epoll.netpollInit a ⟨pollers, events, pollers⟩ =
      (⟨if made then pollers + 1 else pollers, events + (if a.poll && a.events then 1 else 0),
        if made then pollers + 1 else pollers⟩, made) := by
  obtain ⟨poll, evs, stale, fd, cloexec⟩ := a
  cases poll with
  | false => exact ⟨false, rfl⟩
  | true =>
    cases stale with
    | false => exact ⟨false, by cases evs <;> rfl⟩
    | true =>
      cases fd with
      | false => exact ⟨false, by cases evs <;> rfl⟩
      | true => exact ⟨true, by cases evs <;> rfl⟩

/-- A kqueue poller gives back all that it took. An array of events of an epoll poller is never
given back. -/
theorem netpoll_lifetimes (ops : List LifeOp) :
    (∃ pollers, runLife Kqueue.netpollInit Kqueue.netpollDestroy ops ({}, 0) =
      (.exact pollers, pollers)) ∧
    ∃ pollers, runLife Epoll.netpollInit Epoll.netpollDestroy ops ({}, 0) =
      (⟨pollers, ops.countP LifeOp.takesEvents, pollers⟩, pollers) := by
  have hkqueue : ∀ (ops : List LifeOp) (n : ℕ), ∃ pollers,
      runLife Kqueue.netpollInit Kqueue.netpollDestroy ops (.exact n, n) =
        (.exact pollers, pollers) := by
    intro ops
    induction ops with
    | nil => exact fun n => ⟨n, rfl⟩
    | cons op ops ih =>
      intro n
      cases op with
      | init a =>
        obtain ⟨made, hinit⟩ := kqueueInit_exact a n
        simp only [runLife, hinit]
        exact ih _
      | destroy =>
        cases n with
        | zero => exact ih 0
        | succ n => exact ih n
  have hepoll : ∀ (ops : List LifeOp) (n events : ℕ), ∃ pollers,
      runLife Epoll.netpollInit Epoll.netpollDestroy ops (⟨n, events, n⟩, n) =
        (⟨pollers, events + ops.countP LifeOp.takesEvents, pollers⟩, pollers) := by
    intro ops
    induction ops with
    | nil => exact fun n events => ⟨n, rfl⟩
    | cons op ops ih =>
      intro n events
      cases op with
      | init a =>
        obtain ⟨made, hinit⟩ := epollInit_held a n events
        obtain ⟨pollers, hrest⟩ := ih (if made then n + 1 else n)
          (events + if a.poll && a.events then 1 else 0)
        have hcount : events + (if a.poll && a.events then 1 else 0) +
            ops.countP LifeOp.takesEvents =
            events + (LifeOp.init a :: ops).countP LifeOp.takesEvents := by
          rw [List.countP_cons, LifeOp.takesEvents, Nat.add_assoc, Nat.add_comm (ops.countP _)]
        rw [hcount] at hrest
        exact ⟨pollers, by simp only [runLife, hinit, hrest]⟩
      | destroy =>
        cases n with
        | zero => exact ih 0 events
        | succ n => exact ih n events
  obtain ⟨pollers, hrun⟩ := hepoll ops 0 0
  refine ⟨hkqueue ops 0, pollers, ?_⟩
  rw [Nat.zero_add] at hrun
  exact hrun

end Kvx.Net
