import Mathlib.Data.List.GetD
import Mathlib.Data.List.TakeWhile
import Mathlib.Data.Int.Notation

/-!
# C strings

A string is the bytes before its NUL. The functions of the library read it from a pointer on,
so a pointer into a string is the string that starts there.
-/
namespace Kvx.Lib

/-- The bytes before the NUL. -/
structure CString where
  bytes : List UInt8
  noNul : 0 ∉ bytes
  deriving DecidableEq, Repr

theorem CString.ext {s t : CString} (h : s.bytes = t.bytes) : s = t := by
  cases s
  cases t
  cases h
  rfl

def CString.drop (s : CString) (n : ℕ) : CString :=
  ⟨s.bytes.drop n, fun h => s.noNul (List.mem_of_mem_drop h)⟩

@[simp] theorem CString.bytes_drop (s : CString) (n : ℕ) :
    (s.drop n).bytes = s.bytes.drop n := rfl

/-- The byte at an offset. The NUL stands behind the last one. -/
def CString.get (s : CString) (i : ℕ) : UInt8 := s.bytes.getD i 0

theorem CString.get_eq_zero {s : CString} {i : ℕ} : s.get i = 0 ↔ s.bytes.length ≤ i := by
  rw [CString.get]
  constructor
  · intro h
    by_contra hlt
    rw [List.getD_eq_getElem _ _ (Nat.not_le.mp hlt)] at h
    exact s.noNul (h ▸ List.getElem_mem _)
  · intro h
    exact List.getD_eq_default _ _ h

def CString.ofBlock (block : List UInt8) (p : ℕ) : CString :=
  ⟨(block.drop p).takeWhile (· ≠ 0), fun h => by simpa using List.mem_takeWhile_imp h⟩

theorem CString.ofBlock_eq {before s after : List UInt8} (hs : 0 ∉ s) :
    (CString.ofBlock (before ++ (s ++ 0 :: after)) before.length).bytes = s := by
  have hpos : ∀ ch ∈ s, (decide (ch ≠ 0)) = true := fun ch hch => by
    rw [decide_eq_true_eq]
    rintro rfl
    exact hs hch
  change ((before ++ (s ++ 0 :: after)).drop before.length).takeWhile (· ≠ 0) = s
  rw [List.drop_left, List.takeWhile_append_of_pos hpos]
  simp

def strlen (s : CString) : ℕ := s.bytes.length

def strspn (s : CString) (accept : List UInt8) : ℕ := (s.bytes.takeWhile (· ∈ accept)).length

theorem strspn_eq {s : CString} {accept front rest : List UInt8} (hs : s.bytes = front ++ rest)
    (hfront : ∀ ch ∈ front, ch ∈ accept) (hrest : ∀ ch, rest.head? = some ch → ch ∉ accept) :
    strspn s accept = front.length := by
  have hpos : ∀ ch ∈ front, (decide (ch ∈ accept)) = true := fun ch hch =>
    decide_eq_true (hfront ch hch)
  have hstop : rest.takeWhile (· ∈ accept) = [] := by
    cases rest with
    | nil => rfl
    | cons ch rest => rw [List.takeWhile_cons, if_neg (by simpa using hrest ch rfl)]
  rw [strspn, hs, List.takeWhile_append_of_pos hpos, hstop, List.append_nil]

theorem strspn_split (s : CString) (accept : List UInt8) : ∃ front rest,
    s.bytes = front ++ rest ∧ (∀ ch ∈ front, ch ∈ accept) ∧
      (∀ ch, rest.head? = some ch → ch ∉ accept) ∧ strspn s accept = front.length := by
  refine ⟨s.bytes.takeWhile (· ∈ accept), s.bytes.dropWhile (· ∈ accept),
    List.takeWhile_append_dropWhile.symm, fun ch hch => ?_, fun ch hch => ?_, rfl⟩
  · simpa using List.mem_takeWhile_imp hch
  · have hnot := List.head?_dropWhile_not (· ∈ accept) s.bytes
    rw [hch] at hnot
    simpa using hnot

/-- The offset of the first `ch`, which is not NUL. -/
def strchr (s : CString) (ch : UInt8) : Option ℕ := s.bytes.idxOf? ch

theorem strchr_eq_none {s : CString} {ch : UInt8} : strchr s ch = none ↔ ch ∉ s.bytes :=
  List.idxOf?_eq_none_iff

theorem strchr_split {s : CString} {ch : UInt8} {before after : List UInt8}
    (hs : s.bytes = before ++ ch :: after) (hbefore : ch ∉ before) :
    strchr s ch = some before.length := by
  rw [strchr, hs]
  clear hs
  induction before with
  | nil => rw [List.nil_append, List.idxOf?_cons, if_pos (beq_self_eq_true ch), List.length_nil]
  | cons c before ih =>
    have hne : c ≠ ch := fun h => hbefore (h ▸ List.mem_cons_self)
    rw [List.cons_append, List.idxOf?_cons, if_neg (by simpa using hne),
      ih fun h => hbefore (List.mem_cons_of_mem _ h), Option.map_some, List.length_cons]

theorem strchr_eq_some {s : CString} {ch : UInt8} {i : ℕ} (h : strchr s ch = some i) :
    ∃ before after, s.bytes = before ++ ch :: after ∧ ch ∉ before ∧ before.length = i := by
  have hmem : ch ∈ s.bytes := by
    rw [← List.isSome_idxOf?, ← strchr, h]
    rfl
  obtain ⟨before, after, hbefore, hs⟩ := List.eq_append_cons_of_mem hmem
  have hsplit := strchr_split hbefore hs
  rw [h, Option.some.injEq] at hsplit
  exact ⟨before, after, hbefore, hs, hsplit.symm⟩

/-- The loop of `strncmp`, from the bytes left. -/
def strncmpFrom : ℕ → List UInt8 → List UInt8 → ℤ
  | 0, _, _ => 0
  | n + 1, s, t =>
      let a := s.headD 0
      let b := t.headD 0
      if a = b then
        if a = 0 then 0 else strncmpFrom n s.tail t.tail
      else a.toNat - b.toNat

def strncmp (s t : CString) (n : ℕ) : ℤ := strncmpFrom n s.bytes t.bytes

theorem strncmpFrom_eq_zero {n : ℕ} {s t : List UInt8} (hs : 0 ∉ s) (ht : 0 ∉ t) :
    strncmpFrom n s t = 0 ↔ s.take n = t.take n := by
  have hne : ∀ {a b : UInt8}, a ≠ b → (a.toNat : ℤ) - b.toNat ≠ 0 := fun hab h =>
    hab (UInt8.toNat_inj.mp (by omega))
  induction n generalizing s t with
  | zero => simp [strncmpFrom]
  | succ n ih =>
    unfold strncmpFrom
    cases s with
    | nil =>
      cases t with
      | nil => simp
      | cons b t =>
        have hb : 0 ≠ b := fun h => ht (h ▸ List.mem_cons_self)
        rw [if_neg (show List.headD [] (0 : UInt8) ≠ (b :: t).headD 0 from hb)]
        exact ⟨fun h => absurd h (hne hb), fun h => by simp at h⟩
    | cons a s =>
      have ha : a ≠ 0 := fun h => hs (h ▸ List.mem_cons_self)
      cases t with
      | nil =>
        rw [if_neg (show (a :: s).headD 0 ≠ List.headD [] (0 : UInt8) from ha)]
        exact ⟨fun h => absurd h (hne ha), fun h => by simp at h⟩
      | cons b t =>
        have hrest := ih (fun h => hs (List.mem_cons_of_mem _ h))
          fun h => ht (List.mem_cons_of_mem _ h)
        by_cases hab : a = b
        · rw [if_pos (show (a :: s).headD 0 = (b :: t).headD 0 from hab),
            if_neg (show (a :: s).headD 0 ≠ 0 from ha), List.take_succ_cons, List.take_succ_cons,
            List.cons.injEq]
          exact ⟨fun h => ⟨hab, hrest.mp h⟩, fun h => hrest.mpr h.2⟩
        · rw [if_neg (show (a :: s).headD 0 ≠ (b :: t).headD 0 from hab), List.take_succ_cons,
            List.take_succ_cons, List.cons.injEq]
          exact ⟨fun h => absurd h (hne hab), fun h => absurd h.1 hab⟩

theorem strncmp_eq_zero {s t : CString} {n : ℕ} :
    strncmp s t n = 0 ↔ s.bytes.take n = t.bytes.take n :=
  strncmpFrom_eq_zero s.noNul t.noNul

theorem strncmp_whole {s t : CString} :
    strncmp s t t.bytes.length = 0 ↔ ∃ rest, s.bytes = t.bytes ++ rest := by
  rw [strncmp_eq_zero, List.take_length]
  constructor
  · intro h
    have hsplit := List.take_append_drop t.bytes.length s.bytes
    rw [h] at hsplit
    exact ⟨s.bytes.drop t.bytes.length, hsplit.symm⟩
  · rintro ⟨rest, hs⟩
    rw [hs, List.take_left]

end Kvx.Lib
