import Mathlib.Data.List.Basic
import Mathlib.Data.List.TakeWhile

/-!
# Maximal runs

The maximal runs of elements of a list that satisfy a predicate, with their positions.
-/
namespace Kvx.Lib

structure Run where
  start : ℕ
  len : ℕ
  deriving DecidableEq, Repr

variable {α : Type} {p : α → Bool}

/-- The runs of a list whose first element has position `off`. An element extends the run
that starts right after it, or is a run of its own. -/
def runs (p : α → Bool) : ℕ → List α → List Run
  | _, [] => []
  | off, a :: l =>
      if p a then
        match runs p (off + 1) l with
        | r :: rs => if r.start = off + 1 then ⟨off, r.len + 1⟩ :: rs else ⟨off, 1⟩ :: r :: rs
        | [] => [⟨off, 1⟩]
      else runs p (off + 1) l

def Run.of (r : Run) (l : List α) : List α := (l.drop r.start).take r.len

theorem runs_neg {off : ℕ} {a : α} (h : p a = false) (l : List α) :
    runs p off (a :: l) = runs p (off + 1) l := by
  rw [runs, if_neg (by simp [h])]

theorem drop_takeWhile (p : α → Bool) (l : List α) :
    l.drop (l.takeWhile p).length = l.dropWhile p := by
  induction l with
  | nil => rfl
  | cons a l ih =>
    cases h : p a with
    | true => simpa [h] using ih
    | false => simp [h]

theorem length_takeWhile_le (p : α → Bool) (l : List α) : (l.takeWhile p).length ≤ l.length :=
  (List.takeWhile_prefix p).length_le

theorem runs_start {off : ℕ} {l : List α} {r : Run} (h : r ∈ runs p off l) : off ≤ r.start := by
  induction l generalizing off r with
  | nil => simp [runs] at h
  | cons a l ih =>
    cases hp : p a with
    | false =>
      rw [runs_neg hp] at h
      have := ih h
      omega
    | true =>
      rw [runs, if_pos hp] at h
      cases hrs : runs p (off + 1) l with
      | nil =>
        simp only [hrs, List.mem_singleton] at h
        rw [h]
      | cons r' rs =>
        have hlater : ∀ r ∈ r' :: rs, off + 1 ≤ r.start := fun r hr => ih (hrs ▸ hr)
        simp only [hrs] at h
        split_ifs at h
        · rcases List.mem_cons.mp h with rfl | h
          · exact le_rfl
          · have := hlater r (List.mem_cons_of_mem r' h)
            omega
        · rcases List.mem_cons.mp h with rfl | h
          · exact le_rfl
          · have := hlater r h
            omega

theorem runs_take {off : ℕ} {a : α} (h : p a = true) (l : List α) :
    runs p off (a :: l) = ⟨off, ((a :: l).takeWhile p).length⟩ ::
      runs p (off + ((a :: l).takeWhile p).length) ((a :: l).dropWhile p) := by
  induction l generalizing a off with
  | nil => simp [runs, h]
  | cons b l ih =>
    rw [runs, if_pos h, List.takeWhile_cons_of_pos h, List.dropWhile_cons_of_pos h]
    cases hb : p b with
    | true =>
      rw [ih hb]
      simp only [if_true, List.length_cons, List.cons.injEq, true_and]
      rw [show off + 1 + ((b :: l).takeWhile p).length = off + (((b :: l).takeWhile p).length + 1)
        by omega]
    | false =>
      rw [List.takeWhile_cons_of_neg (by simp [hb]), List.dropWhile_cons_of_neg (by simp [hb])]
      simp only [List.length_cons, List.length_nil, Nat.zero_add]
      cases hrs : runs p (off + 1) (b :: l) with
      | nil => rfl
      | cons r rs =>
        have hstart : off + 2 ≤ r.start := by
          rw [runs_neg hb] at hrs
          exact runs_start (p := p) (l := l) (by rw [hrs]; exact List.mem_cons_self)
        exact if_neg (by omega)

theorem runs_skip (off : ℕ) (l : List α) :
    runs p off l = runs p (off + (l.takeWhile fun a => !p a).length)
      (l.dropWhile fun a => !p a) := by
  induction l generalizing off with
  | nil => rfl
  | cons a l ih =>
    cases h : p a with
    | true => simp [h]
    | false =>
      rw [runs_neg h, ih, List.takeWhile_cons_of_pos (by simp [h]),
        List.dropWhile_cons_of_pos (by simp [h]), List.length_cons, Nat.add_right_comm,
        Nat.add_assoc]

theorem runs_within {off : ℕ} {l : List α} {r : Run} (h : r ∈ runs p off l) :
    0 < r.len ∧ r.start + r.len ≤ off + l.length := by
  induction hn : l.length using Nat.strong_induction_on generalizing off l with
  | _ n ih =>
    cases l with
    | nil => simp [runs] at h
    | cons a l =>
      cases hp : p a with
      | false =>
        rw [runs_neg hp] at h
        simp only [List.length_cons] at hn
        obtain ⟨hpos, hle⟩ := ih l.length (by omega) h rfl
        exact ⟨hpos, by omega⟩
      | true =>
        have hlen := length_takeWhile_le p (a :: l)
        have hpos : 0 < ((a :: l).takeWhile p).length := by
          rw [List.takeWhile_cons_of_pos hp]
          exact Nat.succ_pos _
        rw [runs_take hp] at h
        rcases List.mem_cons.mp h with rfl | h
        · exact ⟨hpos, by simp only; omega⟩
        · rw [← drop_takeWhile] at h
          obtain ⟨hr, hle⟩ := ih _ (by rw [List.length_drop]; omega) h rfl
          rw [List.length_drop] at hle
          exact ⟨hr, by omega⟩

def joined (sep : α) : List (List α) → List α
  | [] => []
  | [f] => f
  | f :: g :: fields => f ++ sep :: joined sep (g :: fields)

theorem mem_joined {sep a : α} {fields : List (List α)} (h : a ∈ joined sep fields) :
    a = sep ∨ ∃ f ∈ fields, a ∈ f := by
  induction fields with
  | nil => simp [joined] at h
  | cons f fields ih =>
    cases fields with
    | nil => exact Or.inr ⟨f, List.mem_singleton_self f, h⟩
    | cons g fields =>
      rcases List.mem_append.mp h with h | h
      · exact Or.inr ⟨f, List.mem_cons_self, h⟩
      · rcases List.mem_cons.mp h with h | h
        · exact Or.inl h
        · rcases ih h with h | ⟨f', hf', h⟩
          · exact Or.inl h
          · exact Or.inr ⟨f', List.mem_cons_of_mem f hf', h⟩

theorem runs_field {off : ℕ} {f rest : List α} (hne : f ≠ []) (hf : ∀ a ∈ f, p a = true)
    (hrest : ∀ a ∈ rest.head?, p a = false) :
    runs p off (f ++ rest) = ⟨off, f.length⟩ :: runs p (off + f.length) rest := by
  obtain ⟨a, f, rfl⟩ := List.exists_cons_of_ne_nil hne
  have hend : rest.takeWhile p = [] := by
    cases rest with
    | nil => rfl
    | cons b rest => rw [List.takeWhile_cons_of_neg (by simp [hrest b rfl])]
  have htake : (a :: f ++ rest).takeWhile p = a :: f := by
    rw [List.takeWhile_append_of_pos hf, hend, List.append_nil]
  rw [List.cons_append, runs_take (hf a List.mem_cons_self), ← List.cons_append, htake,
    ← drop_takeWhile, htake, List.drop_left]

theorem runs_joined {sep : α} (hsep : p sep = false) {fields : List (List α)}
    (hf : ∀ f ∈ fields, f ≠ [] ∧ ∀ a ∈ f, p a = true) (before : List α) :
    (runs p before.length (joined sep fields)).map
      (fun r => r.of (before ++ joined sep fields)) = fields := by
  have hfirst (before f rest : List α) :
      Run.of ⟨before.length, f.length⟩ (before ++ (f ++ rest)) = f := by
    rw [Run.of, List.drop_left, List.take_left]
  induction fields generalizing before with
  | nil => rfl
  | cons f fields ih =>
    obtain ⟨⟨hne, hall⟩, hrest⟩ := List.forall_mem_cons.mp hf
    cases fields with
    | nil =>
      have hrun : runs p before.length (f ++ []) = _ := runs_field hne hall (by simp)
      rw [List.append_nil] at hrun
      rw [joined, hrun, List.map_cons]
      have hat := hfirst before f []
      rw [List.append_nil] at hat
      rw [hat]
      rfl
    | cons g fields =>
      rw [joined, runs_field hne hall (by simpa using hsep), runs_neg hsep, List.map_cons, hfirst]
      have hlater := ih hrest (before ++ f ++ [sep])
      simp only [List.length_append, List.length_singleton, List.append_assoc,
        List.singleton_append] at hlater ⊢
      rw [← Nat.add_assoc] at hlater
      rw [hlater]

end Kvx.Lib
