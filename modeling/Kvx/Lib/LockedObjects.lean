import Mathlib.Logic.Function.Basic
import Mathlib.Data.List.Basic
import Mathlib.Order.Nat

/-!
# Objects behind locks

Threads call operations on objects, each of which has a lock. A call takes the lock of its
object, accesses the object step by step, and gives the lock back. Threads take their steps
in any order. A step that faults is not taken.
-/
namespace Kvx.Lib.LockedObjects

/-- What a call does while it holds the lock: one access after the other, then its reply. -/
inductive Script (σ ρ : Type) : Type 1
  | done (reply : ρ)
  | step {α : Type} (access : σ → Option (α × σ)) (next : α → Script σ ρ)

def Script.run {σ ρ : Type} : Script σ ρ → σ → Option (ρ × σ)
  | .done reply, s => some (reply, s)
  | .step access next, s => (access s).bind fun r => (next r.1).run r.2

/-- The script makes at most `n` accesses. -/
inductive Script.Within {σ ρ : Type} : ℕ → Script σ ρ → Prop
  | done (n : ℕ) (reply : ρ) : Within n (.done reply)
  | step {n : ℕ} {α : Type} {access : σ → Option (α × σ)} {next : α → Script σ ρ} :
      (∀ a, Within n (next a)) → Within (n + 1) (.step access next)

theorem Script.Within.mono {σ ρ : Type} {n m : ℕ} {script : Script σ ρ} (h : script.Within n)
    (hle : n ≤ m) : script.Within m := by
  induction h generalizing m with
  | done n reply => exact .done m reply
  | step _ ih =>
    obtain ⟨m, rfl⟩ := Nat.exists_eq_add_of_le' (Nat.one_le_of_lt hle)
    exact .step fun a => ih a (Nat.le_of_succ_le_succ hle)

structure Service (ι κ σ ρ : Type) : Type 1 where
  place : κ → ι
  script : κ → Script σ ρ

inductive Phase (κ σ ρ : Type) : Type 1
  | idle
  | called (call : κ)
  | inside (call : κ) (rest : Script σ ρ)
  | left (call : κ) (reply : ρ)

structure Config (θ ι κ σ ρ : Type) : Type 1 where
  objects : ι → σ
  owner : ι → Option θ
  phase : θ → Phase κ σ ρ

/-- A commit is where a call gives its lock back: nobody sees it. -/
inductive Event (θ κ ρ : Type)
  | call (t : θ) (call : κ)
  | commit (t : θ) (call : κ) (reply : ρ)
  | ret (t : θ) (reply : ρ)
  deriving DecidableEq

variable {θ ι κ σ ρ : Type}

def Event.thread : Event θ κ ρ → θ
  | .call t _ => t
  | .commit t _ _ => t
  | .ret t _ => t

def Event.Visible : Event θ κ ρ → Bool
  | .commit _ _ _ => false
  | _ => true

/-- The calls that were committed, with their replies. -/
def commits (trace : List (Event θ κ ρ)) : List (κ × ρ) :=
  trace.filterMap fun
    | .commit _ call reply => some (call, reply)
    | _ => none

@[simp] theorem commits_append (trace trace' : List (Event θ κ ρ)) :
    commits (trace ++ trace') = commits trace ++ commits trace' := List.filterMap_append

theorem mem_commits {trace : List (Event θ κ ρ)} {call : κ} {reply : ρ} :
    (call, reply) ∈ commits trace ↔ ∃ t, .commit t call reply ∈ trace := by
  rw [commits, List.mem_filterMap]
  constructor
  · rintro ⟨e, he, heq⟩
    cases e with
    | commit t call' reply' =>
      simp only [Option.some.injEq, Prod.mk.injEq] at heq
      obtain ⟨rfl, rfl⟩ := heq
      exact ⟨t, he⟩
    | call t call' => cases heq
    | ret t reply' => cases heq
  · rintro ⟨t, he⟩
    exact ⟨_, he, rfl⟩

def pastEvents (t : θ) (past : List (κ × ρ)) : List (Event θ κ ρ) :=
  past.flatMap fun p => [.call t p.1, .commit t p.1 p.2, .ret t p.2]

theorem mem_pastEvents {t : θ} {past : List (κ × ρ)} {call : κ} {reply : ρ}
    (h : .commit t call reply ∈ pastEvents t past) : .call t call ∈ pastEvents t past := by
  simp only [pastEvents, List.mem_flatMap] at h ⊢
  obtain ⟨p, hp, he⟩ := h
  refine ⟨p, hp, ?_⟩
  simp only [List.mem_cons, reduceCtorEq, Event.commit.injEq, true_and, List.not_mem_nil, or_false,
    false_or] at he
  simp [he.1]

/-! ## Steps of the threads -/

def Config.start (objects : ι → σ) : Config θ ι κ σ ρ := ⟨objects, fun _ => none, fun _ => .idle⟩

def Config.setPhase [DecidableEq θ] (c : Config θ ι κ σ ρ) (t : θ) (phase : Phase κ σ ρ) :
    Config θ ι κ σ ρ :=
  { c with phase := Function.update c.phase t phase }

section Steps

variable [DecidableEq θ] [DecidableEq ι]

inductive Step (S : Service ι κ σ ρ) (t : θ) :
    Config θ ι κ σ ρ → List (Event θ κ ρ) → Config θ ι κ σ ρ → Prop
  | call {c : Config θ ι κ σ ρ} {call : κ} : c.phase t = .idle →
      Step S t c [.call t call] (c.setPhase t (.called call))
  | lock {c : Config θ ι κ σ ρ} {call : κ} : c.phase t = .called call →
      c.owner (S.place call) = none →
      Step S t c [] ({ c with owner := Function.update c.owner (S.place call) (some t) }.setPhase t
        (.inside call (S.script call)))
  | access {c : Config θ ι κ σ ρ} {call : κ} {α : Type} {access : σ → Option (α × σ)}
      {next : α → Script σ ρ} {a : α} {s : σ} : c.phase t = .inside call (.step access next) →
      access (c.objects (S.place call)) = some (a, s) →
      Step S t c [] ({ c with objects := Function.update c.objects (S.place call) s }.setPhase t
        (.inside call (next a)))
  | unlock {c : Config θ ι κ σ ρ} {call : κ} {reply : ρ} :
      c.phase t = .inside call (.done reply) →
      Step S t c [.commit t call reply]
        ({ c with owner := Function.update c.owner (S.place call) none }.setPhase t
          (.left call reply))
  | ret {c : Config θ ι κ σ ρ} {call : κ} {reply : ρ} : c.phase t = .left call reply →
      Step S t c [.ret t reply] (c.setPhase t .idle)

inductive Runs (S : Service ι κ σ ρ) (c : Config θ ι κ σ ρ) :
    List θ → List (Event θ κ ρ) → Config θ ι κ σ ρ → Prop
  | nil : Runs S c [] [] c
  | snoc {sched : List θ} {t : θ} {trace events : List (Event θ κ ρ)}
      {c₁ c₂ : Config θ ι κ σ ρ} : Runs S c sched trace c₁ → Step S t c₁ events c₂ →
      Runs S c (sched ++ [t]) (trace ++ events) c₂

/-- What a thread does next: it makes the call it is given, or goes on with the one it is in. -/
def Service.next (S : Service ι κ σ ρ) (c : Config θ ι κ σ ρ) (t : θ) (call : Option κ) :
    Option (List (Event θ κ ρ) × Config θ ι κ σ ρ) :=
  match c.phase t, call with
  | .idle, some call => some ([.call t call], c.setPhase t (.called call))
  | .called call, none =>
      if (c.owner (S.place call)).isNone then
        some ([], { c with owner := Function.update c.owner (S.place call) (some t) }.setPhase t
          (.inside call (S.script call)))
      else none
  | .inside call (.step access next), none =>
      (access (c.objects (S.place call))).map fun r =>
        ([], { c with objects := Function.update c.objects (S.place call) r.2 }.setPhase t
          (.inside call (next r.1)))
  | .inside call (.done reply), none =>
      some ([.commit t call reply],
        { c with owner := Function.update c.owner (S.place call) none }.setPhase t
          (.left call reply))
  | .left _ reply, none => some ([.ret t reply], c.setPhase t .idle)
  | _, _ => none

/-- The steps of a schedule, and their events. -/
def Service.execute (S : Service ι κ σ ρ) :
    Config θ ι κ σ ρ → List (θ × Option κ) → Option (List (Event θ κ ρ) × Config θ ι κ σ ρ)
  | c, [] => some ([], c)
  | c, (t, call) :: rest =>
      (S.next c t call).bind fun r =>
        (S.execute r.2 rest).map fun r' => (r.1 ++ r'.1, r'.2)

theorem Step.of_next {S : Service ι κ σ ρ} {c c' : Config θ ι κ σ ρ} {t : θ} {call : Option κ}
    {events : List (Event θ κ ρ)} (h : S.next c t call = some (events, c')) :
    Step S t c events c' := by
  unfold Service.next at h
  split at h
  · next hphase =>
    simp only [Option.some.injEq, Prod.mk.injEq] at h
    obtain ⟨rfl, rfl⟩ := h
    exact .call hphase
  · next hphase =>
    split_ifs at h with hfree
    simp only [Option.some.injEq, Prod.mk.injEq] at h
    obtain ⟨rfl, rfl⟩ := h
    exact .lock hphase (Option.isNone_iff_eq_none.mp hfree)
  · next hphase =>
    obtain ⟨r, haccess, heq⟩ := Option.map_eq_some_iff.mp h
    simp only [Prod.mk.injEq] at heq
    obtain ⟨rfl, rfl⟩ := heq
    exact .access hphase haccess
  · next hphase =>
    simp only [Option.some.injEq, Prod.mk.injEq] at h
    obtain ⟨rfl, rfl⟩ := h
    exact .unlock hphase
  · next hphase =>
    simp only [Option.some.injEq, Prod.mk.injEq] at h
    obtain ⟨rfl, rfl⟩ := h
    exact .ret hphase
  · cases h

theorem Runs.of_execute {S : Service ι κ σ ρ} {c₀ c c' : Config θ ι κ σ ρ} {sched : List θ}
    {trace events : List (Event θ κ ρ)} {steps : List (θ × Option κ)} (h : Runs S c₀ sched trace c)
    (hexec : S.execute c steps = some (events, c')) :
    Runs S c₀ (sched ++ steps.map Prod.fst) (trace ++ events) c' := by
  induction steps generalizing c sched trace events with
  | nil =>
    simp only [Service.execute, Option.some.injEq, Prod.mk.injEq] at hexec
    obtain ⟨rfl, rfl⟩ := hexec
    simpa using h
  | cons step steps ih =>
    simp only [Service.execute, Option.bind_eq_some_iff, Option.map_eq_some_iff,
      Prod.exists, Prod.mk.injEq] at hexec
    obtain ⟨events₁, c₁, hnext, events₂, _, hrest, rfl, rfl⟩ := hexec
    have hruns := ih (h.snoc (Step.of_next hnext)) hrest
    simpa using hruns

def Service.runCall (S : Service ι κ σ ρ) (objects : ι → σ) (call : κ) : Option (ρ × (ι → σ)) :=
  ((S.script call).run (objects (S.place call))).map fun r =>
    (r.1, Function.update objects (S.place call) r.2)

/-- The calls one after the other, with their replies. -/
inductive Serial (S : Service ι κ σ ρ) (objects : ι → σ) : List (κ × ρ) → (ι → σ) → Prop
  | nil : Serial S objects [] objects
  | snoc {log : List (κ × ρ)} {call : κ} {reply : ρ} {objects₁ objects₂ : ι → σ} :
      Serial S objects log objects₁ → S.runCall objects₁ call = some (reply, objects₂) →
      Serial S objects (log ++ [(call, reply)]) objects₂

end Steps

/-! ## The order of events -/

/-- In each thread, call, commit and return follow one another. -/
def Orderly [DecidableEq θ] (trace : List (Event θ κ ρ)) : Prop :=
  ∀ t, ∃ (past : List (κ × ρ)) (rest : List (Event θ κ ρ)),
    trace.filter (fun e => e.thread = t) =
      past.flatMap (fun p => [.call t p.1, .commit t p.1 p.2, .ret t p.2]) ++ rest ∧
    (rest = [] ∨ (∃ call, rest = [.call t call]) ∨
      ∃ call reply, rest = [.call t call, .commit t call reply])

/-- The calls take effect in some order, each between its call and its return: in that order
they are a run of the sequential object. -/
def Linearizable [DecidableEq θ] (Legal : List (κ × ρ) → Prop) (history : List (Event θ κ ρ)) :
    Prop :=
  ∃ trace, Orderly trace ∧ trace.filter Event.Visible = history ∧ Legal (commits trace)

/-! ## The lock protects the object -/

section Phases

variable [DecidableEq θ] (c : Config θ ι κ σ ρ) (phase : Phase κ σ ρ)

@[simp] theorem Config.setPhase_objects (t : θ) : (c.setPhase t phase).objects = c.objects := rfl

@[simp] theorem Config.setPhase_owner (t : θ) : (c.setPhase t phase).owner = c.owner := rfl

@[simp] theorem Config.setPhase_self (t : θ) : (c.setPhase t phase).phase t = phase := by
  simp only [Config.setPhase, Function.update_self]

theorem Config.setPhase_ne {t u : θ} (h : u ≠ t) : (c.setPhase t phase).phase u = c.phase u := by
  simp only [Config.setPhase, Function.update_of_ne h]

end Phases

/-- `shadow` is what the calls that were committed leave, one after the other. An object whose lock
is held is on its way from there to what the call in progress leaves. -/
structure Locked (S : Service ι κ σ ρ) (c : Config θ ι κ σ ρ) (shadow : ι → σ) : Prop where
  free : ∀ i, c.owner i = none → c.objects i = shadow i
  held : ∀ t i, c.owner i = some t → ∃ call rest, c.phase t = .inside call rest ∧
    S.place call = i ∧ rest.run (c.objects i) = (S.script call).run (shadow i)
  owns : ∀ t call rest, c.phase t = .inside call rest → c.owner (S.place call) = some t

theorem Locked.start (S : Service ι κ σ ρ) (objects : ι → σ) :
    Locked S (Config.start (θ := θ) objects) objects where
  free _ _ := rfl
  held _ _ h := by cases h
  owns _ _ _ h := by cases h

variable {S : Service ι κ σ ρ} {t : θ} {c : Config θ ι κ σ ρ} {shadow : ι → σ}

/-- Two threads are not inside at the same object. -/
theorem Locked.exclusive (h : Locked S c shadow) {u : θ} {call call' : κ} {rest rest' : Script σ ρ}
    (ht : c.phase t = .inside call rest) (hu : c.phase u = .inside call' rest')
    (hplace : S.place call = S.place call') : t = u := by
  have howner := h.owns t call rest ht
  rw [hplace, h.owns u call' rest' hu] at howner
  exact (Option.some.inj howner).symm

theorem Locked.setPhase [DecidableEq θ] (h : Locked S c shadow) {phase : Phase κ σ ρ}
    (hout : ∀ call rest, c.phase t ≠ .inside call rest)
    (hstays : ∀ call rest, phase ≠ .inside call rest) : Locked S (c.setPhase t phase) shadow where
  free i hi := h.free i hi
  held u i hi := by
    obtain ⟨call, rest, hphase, hrest⟩ := h.held u i hi
    have hne : u ≠ t := by
      rintro rfl
      exact hout call rest hphase
    exact ⟨call, rest, (c.setPhase_ne phase hne).trans hphase, hrest⟩
  owns u call rest hphase := by
    by_cases hu : u = t
    · subst hu
      rw [Config.setPhase_self] at hphase
      exact absurd hphase (hstays call rest)
    · rw [c.setPhase_ne phase hu] at hphase
      exact h.owns u call rest hphase

variable [DecidableEq θ] [DecidableEq ι]

theorem Locked.lock (h : Locked S c shadow) {call : κ} (hphase : c.phase t = .called call)
    (hfree : c.owner (S.place call) = none) :
    Locked S ({ c with owner := Function.update c.owner (S.place call) (some t) }.setPhase t
      (.inside call (S.script call))) shadow where
  free i hi := by
    by_cases hplace : i = S.place call
    · subst hplace
      simp at hi
    · simp only [Config.setPhase_owner, Function.update_of_ne hplace] at hi
      exact h.free i hi
  held u i hi := by
    by_cases hplace : i = S.place call
    · subst hplace
      simp only [Config.setPhase_owner, Function.update_self, Option.some.injEq] at hi
      subst hi
      refine ⟨call, S.script call, Config.setPhase_self _ _ _, rfl, ?_⟩
      rw [Config.setPhase_objects, h.free _ hfree]
    · simp only [Config.setPhase_owner, Function.update_of_ne hplace] at hi
      obtain ⟨call', rest, hu, hrest⟩ := h.held u i hi
      have hne : u ≠ t := by
        rintro rfl
        simp [hphase] at hu
      exact ⟨call', rest, (Config.setPhase_ne _ _ hne).trans hu, hrest⟩
  owns u call' rest hu := by
    by_cases hut : u = t
    · subst hut
      simp only [Config.setPhase_self, Phase.inside.injEq] at hu
      obtain ⟨rfl, -⟩ := hu
      exact Function.update_self _ _ _
    · rw [Config.setPhase_ne _ _ hut] at hu
      have howner := h.owns u call' rest hu
      have hplace : S.place call' ≠ S.place call := by
        intro hp
        rw [hp, hfree] at howner
        cases howner
      exact (Function.update_of_ne hplace _ _).trans howner

theorem Locked.access (h : Locked S c shadow) {call : κ} {α : Type}
    {access : σ → Option (α × σ)} {next : α → Script σ ρ} {a : α} {s : σ}
    (hphase : c.phase t = .inside call (.step access next))
    (haccess : access (c.objects (S.place call)) = some (a, s)) :
    Locked S ({ c with objects := Function.update c.objects (S.place call) s }.setPhase t
      (.inside call (next a))) shadow where
  free i hi := by
    have hne : i ≠ S.place call := by
      rintro rfl
      rw [Config.setPhase_owner, h.owns t call _ hphase] at hi
      cases hi
    exact (Function.update_of_ne hne _ _).trans (h.free i hi)
  held u i hi := by
    obtain ⟨call', rest, hu, hplace, hrest⟩ := h.held u i hi
    by_cases hut : u = t
    · subst hut
      rw [hphase, Phase.inside.injEq] at hu
      obtain ⟨rfl, rfl⟩ := hu
      subst hplace
      refine ⟨call, next a, Config.setPhase_self _ _ _, rfl, ?_⟩
      rw [← hrest, Script.run, haccess, Config.setPhase_objects, Option.bind_some]
      exact congrArg _ (Function.update_self _ _ _)
    · have hne : i ≠ S.place call := by
        rintro rfl
        exact hut (h.exclusive hu hphase hplace)
      refine ⟨call', rest, (Config.setPhase_ne _ _ hut).trans hu, hplace, ?_⟩
      rw [← hrest]
      exact congrArg _ (Function.update_of_ne hne _ _)
  owns u call' rest hu := by
    by_cases hut : u = t
    · subst hut
      simp only [Config.setPhase_self, Phase.inside.injEq] at hu
      obtain ⟨rfl, -⟩ := hu
      exact h.owns u call _ hphase
    · rw [Config.setPhase_ne _ _ hut] at hu
      exact h.owns u call' rest hu

theorem Locked.unlock (h : Locked S c shadow) {call : κ} {reply : ρ}
    (hphase : c.phase t = .inside call (.done reply)) :
    ∃ shadow', S.runCall shadow call = some (reply, shadow') ∧
      Locked S ({ c with owner := Function.update c.owner (S.place call) none }.setPhase t
        (.left call reply)) shadow' := by
  obtain ⟨call₁, rest₁, hphase₁, -, hrun⟩ := h.held t _ (h.owns t call _ hphase)
  rw [hphase, Phase.inside.injEq] at hphase₁
  obtain ⟨rfl, rfl⟩ := hphase₁
  refine ⟨Function.update shadow (S.place call) (c.objects (S.place call)), ?_, ?_, ?_, ?_⟩
  · rw [Service.runCall, ← hrun]
    rfl
  · intro i hi
    by_cases hplace : i = S.place call
    · subst hplace
      exact (Function.update_self (S.place call) (c.objects (S.place call)) shadow).symm
    · simp only [Config.setPhase_owner, Function.update_of_ne hplace] at hi
      exact (h.free i hi).trans (Function.update_of_ne hplace _ _).symm
  · intro u i hi
    by_cases hplace : i = S.place call
    · subst hplace
      simp at hi
    · simp only [Config.setPhase_owner, Function.update_of_ne hplace] at hi
      obtain ⟨call', rest, hu, hat, hrest⟩ := h.held u i hi
      have hut : u ≠ t := by
        rintro rfl
        rw [hphase, Phase.inside.injEq] at hu
        exact hplace (hat ▸ congrArg S.place hu.1.symm)
      refine ⟨call', rest, (Config.setPhase_ne _ _ hut).trans hu, hat, ?_⟩
      rw [Function.update_of_ne hplace]
      exact hrest
  · intro u call' rest hu
    have hut : u ≠ t := by
      rintro rfl
      simp at hu
    rw [Config.setPhase_ne _ _ hut] at hu
    have hplace : S.place call' ≠ S.place call := fun hp => hut (h.exclusive hu hphase hp)
    exact (Function.update_of_ne hplace _ _).trans (h.owns u call' rest hu)

/-- A step is a step of nobody, or the effect of the call that it commits. -/
theorem Locked.step {c' : Config θ ι κ σ ρ} {events : List (Event θ κ ρ)} (h : Locked S c shadow)
    (hstep : Step S t c events c') :
    commits events = [] ∧ Locked S c' shadow ∨
      ∃ call reply shadow', commits events = [(call, reply)] ∧
        S.runCall shadow call = some (reply, shadow') ∧ Locked S c' shadow' := by
  cases hstep with
  | call hphase =>
    exact Or.inl ⟨rfl, h.setPhase (by simp [hphase]) (by simp)⟩
  | lock hphase hfree => exact Or.inl ⟨rfl, h.lock hphase hfree⟩
  | access hphase haccess => exact Or.inl ⟨rfl, h.access hphase haccess⟩
  | @unlock call reply hphase =>
    obtain ⟨shadow', hrun, h'⟩ := h.unlock hphase
    exact Or.inr ⟨call, reply, shadow', rfl, hrun, h'⟩
  | ret hphase =>
    exact Or.inl ⟨rfl, h.setPhase (by simp [hphase]) (by simp)⟩

section Runs

variable {objects : ι → σ} {sched : List θ} {trace : List (Event θ κ ρ)}

/-- Up to the calls in progress, the objects are what the committed calls leave when they are
made one after the other. -/
theorem Runs.serial (h : Runs S (Config.start objects) sched trace c) :
    ∃ shadow, Serial S objects (commits trace) shadow ∧ Locked S c shadow := by
  induction h with
  | nil => exact ⟨objects, .nil, .start S objects⟩
  | @snoc _ _ trace events _ _ _ hstep ih =>
    obtain ⟨shadow, hserial, hlocked⟩ := ih
    rw [commits_append]
    rcases hlocked.step hstep with ⟨hnone, h'⟩ | ⟨call, reply, shadow', hone, hrun, h'⟩
    · rw [hnone, List.append_nil]
      exact ⟨shadow, hserial, h'⟩
    · rw [hone]
      exact ⟨shadow', .snoc hserial hrun, h'⟩

/-! ## The events of one thread -/

/-- The events of the call that a thread is in. -/
def Phase.events (t : θ) : Phase κ σ ρ → List (Event θ κ ρ)
  | .idle => []
  | .called call => [.call t call]
  | .inside call _ => [.call t call]
  | .left call reply => [.call t call, .commit t call reply]

theorem Step.thread {events : List (Event θ κ ρ)} {c' : Config θ ι κ σ ρ}
    (h : Step S t c events c') : ∀ e ∈ events, e.thread = t := by
  cases h <;> simp [Event.thread]

theorem Step.other {events : List (Event θ κ ρ)} {c' : Config θ ι κ σ ρ} {u : θ}
    (h : Step S t c events c') (hu : u ≠ t) : c'.phase u = c.phase u := by
  cases h <;> exact Config.setPhase_ne _ _ hu

theorem Step.events_thread {events : List (Event θ κ ρ)} {c' : Config θ ι κ σ ρ}
    {past : List (κ × ρ)} (h : Step S t c events c') :
    ∃ past', pastEvents t past ++ (c.phase t).events t ++ events =
      pastEvents t past' ++ (c'.phase t).events t := by
  cases h with
  | call hphase => exact ⟨past, by simp [hphase, Phase.events]⟩
  | lock hphase => exact ⟨past, by simp [hphase, Phase.events]⟩
  | access hphase => exact ⟨past, by simp [hphase, Phase.events]⟩
  | unlock hphase => exact ⟨past, by simp [hphase, Phase.events]⟩
  | @ret call reply hphase =>
    exact ⟨past ++ [(call, reply)], by simp [hphase, Phase.events, pastEvents]⟩

theorem Runs.events_thread (h : Runs S (Config.start objects) sched trace c) (t : θ) :
    ∃ past, trace.filter (fun e => e.thread = t) = pastEvents t past ++ (c.phase t).events t := by
  induction h with
  | nil => exact ⟨[], rfl⟩
  | @snoc _ u _ events _ _ _ hstep ih =>
    obtain ⟨past, hpast⟩ := ih
    rw [List.filter_append, hpast]
    by_cases hu : t = u
    · subst hu
      rw [List.filter_eq_self.mpr fun e he => decide_eq_true (hstep.thread e he)]
      exact hstep.events_thread
    · have hnone : events.filter (fun e => e.thread = t) = [] := by
        rw [List.filter_eq_nil_iff]
        intro e he
        simp [hstep.thread e he, Ne.symm hu]
      rw [hnone, List.append_nil, ← hstep.other hu]
      exact ⟨past, rfl⟩

theorem Runs.inside_called (h : Runs S (Config.start objects) sched trace c) {call : κ}
    {rest : Script σ ρ} (hphase : c.phase t = .inside call rest) : .call t call ∈ trace := by
  obtain ⟨past, hpast⟩ := h.events_thread t
  refine (List.mem_filter.mp (hpast ▸ ?_ : _ ∈ trace.filter fun e => e.thread = t)).1
  simp [hphase, Phase.events]

theorem Runs.commit_called (h : Runs S (Config.start objects) sched trace c) {call : κ} {reply : ρ}
    (hcommit : (call, reply) ∈ commits trace) : ∃ t, .call t call ∈ trace := by
  obtain ⟨t, ht⟩ := mem_commits.mp hcommit
  obtain ⟨past, hpast⟩ := h.events_thread t
  have hmem : .commit t call reply ∈ trace.filter fun e => e.thread = t :=
    List.mem_filter.mpr ⟨ht, by simp [Event.thread]⟩
  refine ⟨t, (List.mem_filter.mp (hpast ▸ ?_ : _ ∈ trace.filter fun e => e.thread = t)).1⟩
  rw [hpast] at hmem
  rcases List.mem_append.mp hmem with hin | hin
  · exact List.mem_append_left _ (mem_pastEvents hin)
  · refine List.mem_append_right _ ?_
    cases hphase : c.phase t <;> simp_all [Phase.events]

theorem Runs.orderly (h : Runs S (Config.start objects) sched trace c) : Orderly trace := by
  intro t
  obtain ⟨past, hpast⟩ := h.events_thread t
  refine ⟨past, (c.phase t).events t, hpast, ?_⟩
  cases c.phase t <;> simp [Phase.events]

theorem Runs.linearizable (h : Runs S (Config.start objects) sched trace c)
    {Legal : List (κ × ρ) → Prop}
    (hlegal : ∀ shadow, Serial S objects (commits trace) shadow → Legal (commits trace)) :
    Linearizable Legal (trace.filter Event.Visible) := by
  obtain ⟨shadow, hserial, -⟩ := h.serial
  exact ⟨trace, h.orderly, rfl, hlegal shadow hserial⟩

/-! ## Progress -/

/-- The steps that a thread still takes for the call it is in, if no script makes more than `n`
accesses. -/
inductive Phase.Ahead (n : ℕ) : ℕ → Phase κ σ ρ → Prop
  | idle : Ahead n 0 .idle
  | called (call : κ) : Ahead n (n + 3) (.called call)
  | inside {m : ℕ} {call : κ} {rest : Script σ ρ} : rest.Within m → Ahead n (m + 2) (.inside call rest)
  | left (call : κ) (reply : ρ) : Ahead n 1 (.left call reply)

def callsOf (t : θ) (trace : List (Event θ κ ρ)) : ℕ :=
  trace.countP fun
    | .call u _ => u = t
    | _ => false

theorem Step.ahead {n k : ℕ} {events : List (Event θ κ ρ)} {c' : Config θ ι κ σ ρ}
    (hbound : ∀ call, (S.script call).Within n) (h : Step S t c events c')
    (hahead : (c.phase t).Ahead n k) :
    ∃ k', (c'.phase t).Ahead n k' ∧ k' + 1 ≤ k + (n + 4) * callsOf t events := by
  cases h with
  | call hphase =>
    rw [hphase] at hahead
    cases hahead
    refine ⟨n + 3, ?_, ?_⟩
    · rw [Config.setPhase_self]
      exact .called _
    · simp [callsOf]
  | @lock call hphase hfree =>
    rw [hphase] at hahead
    cases hahead
    refine ⟨n + 2, ?_, ?_⟩
    · rw [Config.setPhase_self]
      exact .inside (hbound call)
    · exact Nat.le_add_right _ _
  | access hphase haccess =>
    rw [hphase] at hahead
    cases hahead with
    | inside hwithin =>
      cases hwithin with
      | @step m _ _ _ hnext =>
        refine ⟨m + 2, ?_, Nat.le_add_right _ _⟩
        rw [Config.setPhase_self]
        exact .inside (hnext _)
  | unlock hphase =>
    rw [hphase] at hahead
    cases hahead with
    | @inside m _ _ hwithin =>
      refine ⟨1, ?_, ?_⟩
      · rw [Config.setPhase_self]
        exact .left _ _
      · omega
  | ret hphase =>
    rw [hphase] at hahead
    cases hahead
    refine ⟨0, ?_, Nat.le_add_right _ _⟩
    rw [Config.setPhase_self]
    exact .idle

theorem Step.callsOf_other {u : θ} {events : List (Event θ κ ρ)} {c' : Config θ ι κ σ ρ}
    (h : Step S t c events c') (hu : u ≠ t) : callsOf u events = 0 := by
  cases h <;> simp [callsOf, Ne.symm hu]

theorem Runs.steps_le {n : ℕ} (h : Runs S (Config.start objects) sched trace c)
    (hbound : ∀ call, (S.script call).Within n) (t : θ) :
    ∃ k, (c.phase t).Ahead n k ∧ sched.count t + k ≤ (n + 4) * callsOf t trace := by
  induction h with
  | nil => exact ⟨0, .idle, Nat.le_refl _⟩
  | @snoc sched u trace events _ _ _ hstep ih =>
    obtain ⟨k, hahead, hle⟩ := ih
    have hcalls : callsOf t (trace ++ events) = callsOf t trace + callsOf t events :=
      List.countP_append
    rw [List.count_append, hcalls, Nat.mul_add]
    by_cases hu : t = u
    · subst hu
      obtain ⟨k', hahead', hle'⟩ := hstep.ahead hbound hahead
      refine ⟨k', hahead', ?_⟩
      rw [List.count_singleton_self]
      omega
    · refine ⟨k, by rwa [hstep.other hu], ?_⟩
      have hnone : [u].count t = 0 := List.count_eq_zero.mpr (by simpa using hu)
      rw [hstep.callsOf_other hu, hnone]
      omega

theorem steps_inside {call : κ} {rest : Script σ ρ} (hphase : c.phase t = .inside call rest)
    (hrun : rest.run (c.objects (S.place call)) ≠ none) : ∃ events c', Step S t c events c' := by
  cases rest with
  | done reply => exact ⟨_, _, .unlock hphase⟩
  | step access next =>
    cases haccess : access (c.objects (S.place call)) with
    | none => simp [Script.run, haccess] at hrun
    | some r => exact ⟨_, _, .access hphase haccess⟩

/-- Where no call in progress faults, a thread that is not idle can take its next step, or it waits for
a thread inside at its object that can. -/
theorem Runs.progress (h : Runs S (Config.start objects) sched trace c)
    (hok : ∀ shadow, Serial S objects (commits trace) shadow →
      ∀ t call rest, c.phase t = .inside call rest → S.runCall shadow call ≠ none)
    (hbusy : c.phase t ≠ .idle) :
    ∃ u events c', Step S u c events c' ∧ (u = t ∨ ∃ call call' rest, c.phase t = .called call ∧
      c.phase u = .inside call' rest ∧ S.place call' = S.place call) := by
  obtain ⟨shadow, hserial, hlocked⟩ := h.serial
  have hinside : ∀ u call rest, c.phase u = .inside call rest → ∃ events c', Step S u c events c' := by
    intro u call rest hphase
    refine steps_inside hphase ?_
    obtain ⟨call', rest', hphase', -, hrun⟩ := hlocked.held u _ (hlocked.owns u call rest hphase)
    rw [hphase, Phase.inside.injEq] at hphase'
    obtain ⟨rfl, rfl⟩ := hphase'
    intro hnone
    refine hok shadow hserial u call rest hphase ?_
    rw [Service.runCall, ← hrun, hnone, Option.map_none]
  cases hphase : c.phase t with
  | idle => exact absurd hphase hbusy
  | called call =>
    cases howner : c.owner (S.place call) with
    | none => exact ⟨t, _, _, .lock hphase howner, Or.inl rfl⟩
    | some u =>
      obtain ⟨call', rest, hu, hplace, -⟩ := hlocked.held u _ howner
      obtain ⟨events, c', hstep⟩ := hinside u call' rest hu
      exact ⟨u, events, c', hstep, Or.inr ⟨call, call', rest, rfl, hu, hplace⟩⟩
  | inside call rest =>
    obtain ⟨events, c', hstep⟩ := hinside t call rest hphase
    exact ⟨t, events, c', hstep, Or.inl rfl⟩
  | left call reply => exact ⟨t, _, _, .ret hphase, Or.inl rfl⟩

/-! ## What a thread sees -/

def callsMade (t : θ) (trace : List (Event θ κ ρ)) : List κ :=
  trace.filterMap fun
    | .call u call => if u = t then some call else none
    | _ => none

def repliesTo (t : θ) (trace : List (Event θ κ ρ)) : List ρ :=
  trace.filterMap fun
    | .ret u reply => if u = t then some reply else none
    | _ => none

theorem mem_callsMade {trace : List (Event θ κ ρ)} {call : κ} (h : .call t call ∈ trace) :
    call ∈ callsMade t trace :=
  List.mem_filterMap.mpr ⟨_, h, by simp⟩

theorem filterMap_thread {β : Type} {f : Event θ κ ρ → Option β}
    (hf : ∀ e, e.thread ≠ t → f e = none) (trace : List (Event θ κ ρ)) :
    (trace.filter fun e => e.thread = t).filterMap f = trace.filterMap f := by
  rw [List.filterMap_filter]
  refine List.filterMap_congr fun e _ => ?_
  by_cases he : e.thread = t
  · simp [he]
  · simp [he, hf e he]

theorem callsMade_pastEvents (past : List (κ × ρ)) :
    callsMade t (pastEvents t past) = past.map Prod.fst := by
  induction past with
  | nil => rfl
  | cons p past ih =>
    rw [List.map_cons, ← ih]
    simp [callsMade, pastEvents]

theorem repliesTo_pastEvents (past : List (κ × ρ)) :
    repliesTo t (pastEvents t past) = past.map Prod.snd := by
  induction past with
  | nil => rfl
  | cons p past ih =>
    rw [List.map_cons, ← ih]
    simp [repliesTo, pastEvents]

/-- Where the answer to every call is known, a thread that is done got the answers to its calls. -/
theorem Runs.repliesTo_eq (h : Runs S (Config.start objects) sched trace c) {answer : κ → ρ}
    (hanswer : ∀ p ∈ commits trace, p.2 = answer p.1) (hidle : c.phase t = .idle) :
    repliesTo t trace = (callsMade t trace).map answer := by
  obtain ⟨past, hpast⟩ := h.events_thread t
  rw [hidle, Phase.events, List.append_nil] at hpast
  have hreplies : repliesTo t trace = past.map Prod.snd := by
    rw [← repliesTo_pastEvents (t := t), ← hpast]
    refine (filterMap_thread (fun e he => ?_) trace).symm
    cases e <;> simp_all [Event.thread]
  have hcalls : callsMade t trace = past.map Prod.fst := by
    rw [← callsMade_pastEvents (t := t), ← hpast]
    refine (filterMap_thread (fun e he => ?_) trace).symm
    cases e <;> simp_all [Event.thread]
  rw [hreplies, hcalls, List.map_map]
  refine List.map_congr_left fun p hp => hanswer p (mem_commits.mpr ⟨t, ?_⟩)
  refine (List.mem_filter.mp (hpast ▸ ?_ : _ ∈ trace.filter fun e => e.thread = t)).1
  exact List.mem_flatMap.mpr ⟨p, hp, by simp⟩

end Runs

end Kvx.Lib.LockedObjects
