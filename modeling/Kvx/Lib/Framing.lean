import Mathlib.Data.List.Basic
import Mathlib.Order.Nat

/-!
# Framing a stream

A framer looks at the front of a buffer and accepts a frame of some length, rejects, or wants
more. Bytes that come later do not change what it decided. So it finds the same frames when
the stream comes in parts as when it is there at once.
-/
namespace Kvx.Lib

inductive Verdict (γ ε : Type)
  | more
  | reject (err : ε)
  | accept (frame : γ) (n : ℕ)

structure Framer (α γ ε : Type) where
  next : List α → Verdict γ ε
  stable : ∀ b c, next b ≠ .more → next (b ++ c) = next b
  bounds : ∀ {b frame n}, next b = .accept frame n → 0 < n ∧ n ≤ b.length

variable {α γ ε : Type} {F : Framer α γ ε} {b c t : List α} {frames : List γ}

namespace Framer

theorem next_append {v : Verdict γ ε} (h : F.next b = v) (hv : v ≠ .more) (c : List α) :
    F.next (b ++ c) = v := by
  rw [F.stable b c (h ▸ hv), h]

theorem next_take {frame : γ} {n m : ℕ} (h : F.next b = .accept frame n) (hm : m < n) :
    F.next (b.take m) = .more := by
  by_contra hdecided
  have hstable := F.stable (b.take m) (b.drop m) hdecided
  rw [List.take_append_drop, h] at hstable
  have hle := (F.bounds hstable.symm).2
  rw [List.length_take] at hle
  omega

/-- The stream begins with the frames, and `t` follows them. -/
inductive Cut (F : Framer α γ ε) : List α → List γ → List α → Prop
  | nil (b : List α) : Cut F b [] b
  | cons {b t : List α} {frame : γ} {n : ℕ} {frames : List γ} : F.next b = .accept frame n →
      Cut F (b.drop n) frames t → Cut F b (frame :: frames) t

/-- No frame follows: the framer rejects, or it wants more. -/
inductive Stuck (F : Framer α γ ε) (t : List α) : Option ε → Prop
  | more : F.next t = .more → Stuck F t none
  | reject {err : ε} : F.next t = .reject err → Stuck F t (some err)

theorem Cut.append (h : Cut F b frames t) (c : List α) : Cut F (b ++ c) frames (t ++ c) := by
  induction h with
  | nil b => exact .nil (b ++ c)
  | @cons b t frame n frames hnext _ ih =>
    refine .cons (F.next_append hnext (by simp) c) ?_
    rwa [List.drop_append_of_le_length (F.bounds hnext).2]

theorem Cut.trans {frames' : List γ} {t' : List α} (h : Cut F b frames t)
    (h' : Cut F t frames' t') : Cut F b (frames ++ frames') t' := by
  induction h with
  | nil b => exact h'
  | cons hnext _ ih => exact .cons hnext (ih h')

theorem Cut.unique {err err' : Option ε} {frames' : List γ} {t' : List α}
    (h : Cut F b frames t) (hstuck : Stuck F t err) (h' : Cut F b frames' t')
    (hstuck' : Stuck F t' err') : frames = frames' ∧ t = t' ∧ err = err' := by
  induction h generalizing frames' with
  | nil b =>
    cases h' with
    | nil =>
      refine ⟨rfl, rfl, ?_⟩
      rcases hstuck with hn | hn <;> rcases hstuck' with hn' | hn' <;> simp_all
    | cons hnext _ => rcases hstuck with hn | hn <;> simp [hn] at hnext
  | cons hnext _ ih =>
    cases h' with
    | nil => rcases hstuck' with hn | hn <;> simp [hn] at hnext
    | cons hnext' hrest =>
      rw [hnext] at hnext'
      injection hnext' with hframe hn
      subst hframe hn
      obtain ⟨rfl, rfl, rfl⟩ := ih hstuck hrest
      exact ⟨rfl, rfl, rfl⟩

theorem Cut.prefix_of_stuck {err : Option ε} {frames' : List γ} {t' : List α}
    (h : Cut F b frames t) (h' : Cut F b frames' t') (hstuck : Stuck F t' err) :
    ∃ more, frames' = frames ++ more ∧ Cut F t more t' := by
  induction h generalizing frames' with
  | nil b => exact ⟨frames', rfl, h'⟩
  | cons hnext _ ih =>
    cases h' with
    | nil => rcases hstuck with hn | hn <;> simp [hn] at hnext
    | cons hnext' hrest =>
      rw [hnext] at hnext'
      injection hnext' with hframe hn
      subst hframe hn
      obtain ⟨more, rfl, hmore⟩ := ih hrest
      exact ⟨more, rfl, hmore⟩

theorem Cut.first (h : Cut F b frames []) (hb : b ≠ []) :
    ∃ frame n rest, frames = frame :: rest ∧ F.next b = .accept frame n ∧
      Cut F (b.drop n) rest [] := by
  cases h with
  | nil => exact absurd rfl hb
  | cons hnext hrest => exact ⟨_, _, _, rfl, hnext, hrest⟩

theorem Cut.frames_eq_nil (h : Cut F [] frames t) : frames = [] := by
  cases h with
  | nil => rfl
  | cons hnext _ =>
    have hbounds := F.bounds hnext
    rw [List.length_nil] at hbounds
    omega

/-- From the start of every frame some prefix of at most `M` elements is decided, and less
than `M` elements are undecided at the end. -/
structure Fits (F : Framer α γ ε) (M : ℕ) (s : List α) : Prop where
  decided : ∀ {frames t}, Cut F s frames t → F.next t ≠ .more →
    ∃ m ≤ M, F.next (t.take m) ≠ .more
  tail : ∀ {frames t}, Cut F s frames t → F.next t = .more → t.length < M

theorem Cut.length_le (h : Cut F b frames t) : t.length ≤ b.length := by
  induction h with
  | nil b => exact le_rfl
  | cons _ _ ih =>
    rw [List.length_drop] at ih
    omega

theorem Fits.of_length_lt {M : ℕ} {s : List α} (h : s.length < M) : Fits F M s := by
  refine ⟨fun {frames t} hcut hdecided => ⟨t.length, ?_, ?_⟩, fun hcut _ => ?_⟩
  · exact hcut.length_le.trans h.le
  · rwa [List.take_length]
  · exact hcut.length_le.trans_lt h

theorem Fits.full {M : ℕ} {s u rest : List α} (h : Fits F M s)
    (hcut : Cut F s frames (u ++ rest)) (hfull : u.length = M) : F.next u ≠ .more := by
  intro hmore
  by_cases hall : F.next (u ++ rest) = .more
  · have htail := h.tail hcut hall
    rw [List.length_append] at htail
    omega
  · obtain ⟨m, hm, hdecided⟩ := h.decided hcut hall
    rw [List.take_append_of_le_length (by omega)] at hdecided
    have hlater := F.stable (u.take m) (u.drop m) hdecided
    rw [List.take_append_drop] at hlater
    exact hdecided (hlater ▸ hmore)

end Framer

end Kvx.Lib
