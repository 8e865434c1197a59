import Mathlib.Data.List.Basic

/-!
# Checked reads

A computation that reads or writes a list ends with a value, with an error, or with an
access out of bounds. What reads a longer list ends the same way unless it read out of
bounds.
-/
namespace Kvx.Lib

inductive Checked (ε α : Type)
  | ok (a : α)
  | error (err : ε)
  | fault
  deriving DecidableEq, Repr

variable {ε α β : Type}

def Checked.bind (x : Checked ε α) (f : α → Checked ε β) : Checked ε β :=
  match x with
  | .ok a => f a
  | .error err => .error err
  | .fault => .fault

instance : Monad (Checked ε) where
  pure := .ok
  bind := Checked.bind

@[simp] theorem ok_bind (a : α) (f : α → Checked ε β) : (Checked.ok a >>= f) = f a := rfl

@[simp] theorem error_bind (err : ε) (f : α → Checked ε β) :
    ((Checked.error err : Checked ε α) >>= f) = .error err := rfl

@[simp] theorem fault_bind (f : α → Checked ε β) :
    ((Checked.fault : Checked ε α) >>= f) = .fault := rfl

theorem bind_eq_ok {x : Checked ε α} {f : α → Checked ε β} {c : β} :
    (x >>= f) = .ok c ↔ ∃ a, x = .ok a ∧ f a = .ok c := by
  cases x with
  | ok a => simp
  | error err => simp
  | fault => simp

theorem bind_congr_ok {x : Checked ε α} {f g : α → Checked ε β}
    (h : ∀ a, x = .ok a → f a = g a) : (x >>= f) = (x >>= g) := by
  cases x with
  | ok a => exact h a rfl
  | error err => rfl
  | fault => rfl

@[simp] theorem bind_ok (x : Checked ε α) : (x >>= fun a => .ok a) = x := by
  cases x <;> rfl

theorem bind_assoc_checked (x : Checked ε α) (f : α → Checked ε β) {γ : Type}
    (g : β → Checked ε γ) : (x >>= f) >>= g = x >>= fun a => f a >>= g := by
  cases x <;> rfl

/-- A computation with two steps reads out of bounds only if one of them does. -/
theorem bind_ne_fault {x : Checked ε α} {f : α → Checked ε β} (hx : x ≠ .fault)
    (hf : ∀ a, x = .ok a → f a ≠ .fault) : (x >>= f) ≠ .fault := by
  cases x with
  | ok a => exact hf a rfl
  | error err => simp
  | fault => exact absurd rfl hx

def readAt (l : List α) (i : ℕ) : Checked ε α :=
  match l[i]? with
  | some a => .ok a
  | none => .fault

def readSlice (l : List α) (i n : ℕ) : Checked ε (List α) :=
  if i + n ≤ l.length then .ok ((l.drop i).take n) else .fault

theorem readAt_eq {l : List α} {i : ℕ} {a : α} (h : l[i]? = some a) :
    (readAt l i : Checked ε α) = .ok a := by
  rw [readAt, h]

theorem readSlice_eq {l : List α} {i n : ℕ} (h : i + n ≤ l.length) :
    (readSlice l i n : Checked ε (List α)) = .ok ((l.drop i).take n) := if_pos h

theorem readAt_lt {l : List α} {i : ℕ} {a : α} (h : (readAt l i : Checked ε α) = .ok a) :
    i < l.length := by
  by_contra hge
  rw [readAt, List.getElem?_eq_none (Nat.not_lt.mp hge)] at h
  simp at h

def writeSlice (l : List α) (i : ℕ) (xs : List α) : Checked ε (List α) :=
  if i + xs.length ≤ l.length then .ok (l.take i ++ xs ++ l.drop (i + xs.length)) else .fault

theorem writeSlice_append {done l xs : List α} (h : xs.length ≤ l.length) :
    (writeSlice (done ++ l) done.length xs : Checked ε (List α)) =
      .ok (done ++ xs ++ l.drop xs.length) := by
  rw [writeSlice, if_pos (by rw [List.length_append]; omega), List.take_left, List.drop_append,
    List.drop_eq_nil_of_le (by omega), List.nil_append, Nat.add_sub_cancel_left]

/-- The computation does not end with this error. -/
def Checked.Avoids (err : ε) (x : Checked ε α) : Prop := x ≠ .error err

section Avoids

variable {err err' : ε}

theorem Checked.Avoids.ok (a : α) : (Checked.ok a).Avoids err := nofun

theorem Checked.Avoids.fault : (Checked.fault : Checked ε α).Avoids err := nofun

theorem Checked.Avoids.error (h : err' ≠ err) : (Checked.error err' : Checked ε α).Avoids err := by
  intro he
  injection he with he
  exact h he

theorem Checked.Avoids.bind {x : Checked ε α} {f : α → Checked ε β} (h : x.Avoids err)
    (hf : ∀ a, (f a).Avoids err) : (x >>= f).Avoids err := by
  cases x with
  | ok a => exact hf a
  | error err' => exact Avoids.error fun he => h (he ▸ rfl)
  | fault => exact Avoids.fault

theorem Checked.Avoids.ite {P : Prop} [Decidable P] {x y : Checked ε α} (h : x.Avoids err)
    (h' : y.Avoids err) : (if P then x else y).Avoids err := by
  split_ifs
  · exact h
  · exact h'

theorem readAt_avoids (l : List α) (i : ℕ) : (readAt l i).Avoids err := by
  unfold readAt
  cases l[i]? with
  | none => exact .fault
  | some a => exact .ok a

theorem readSlice_avoids (l : List α) (i n : ℕ) : (readSlice l i n).Avoids err := by
  unfold readSlice
  exact .ite (.ok _) .fault

end Avoids

/-- `y` ends as `x` does, unless `x` read out of bounds. -/
def Checked.Agrees (x y : Checked ε α) : Prop := x = .fault ∨ x = y

variable {x y : Checked ε α} {f g : α → Checked ε β}

theorem Checked.Agrees.refl (x : Checked ε α) : x.Agrees x := Or.inr rfl

theorem Checked.Agrees.eq (h : x.Agrees y) (hx : x ≠ .fault) : y = x := (h.resolve_left hx).symm

theorem Checked.Agrees.bind (h : x.Agrees y) (hf : ∀ a, (f a).Agrees (g a)) :
    (x >>= f).Agrees (y >>= g) := by
  rcases h with rfl | rfl
  · exact Or.inl rfl
  · cases x with
    | ok a => exact hf a
    | error err => exact Or.inr rfl
    | fault => exact Or.inl rfl

theorem Checked.Agrees.ite {P : Prop} [Decidable P] {x' y' : Checked ε α} (h : x.Agrees y)
    (h' : x'.Agrees y') : (if P then x else x').Agrees (if P then y else y') := by
  split_ifs
  · exact h
  · exact h'

theorem readAt_agrees (l r : List α) (i : ℕ) :
    (readAt l i : Checked ε α).Agrees (readAt (l ++ r) i) := by
  unfold readAt
  cases h : l[i]? with
  | none => exact Or.inl rfl
  | some a =>
    have hlt := (List.getElem?_eq_some_iff.mp h).1
    rw [List.getElem?_append_left hlt, h]
    exact Or.inr rfl

theorem readSlice_agrees (l r : List α) (i n : ℕ) :
    (readSlice l i n : Checked ε (List α)).Agrees (readSlice (l ++ r) i n) := by
  unfold readSlice
  by_cases h : i + n ≤ l.length
  · have hle : i + n ≤ (l ++ r).length := by
      rw [List.length_append]
      omega
    rw [if_pos h, if_pos hle, List.drop_append_of_le_length (by omega),
      List.take_append_of_le_length (by rw [List.length_drop]; omega)]
    exact Or.inr rfl
  · exact Or.inl (if_neg h)

end Kvx.Lib
