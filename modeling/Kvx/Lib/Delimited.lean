import Mathlib.Data.List.Basic

/-!
# Codes that tell where they end

Whatever follows it in a stream, the code of a value is no beginning of the code of
another one. Fields with a separator, blocks of a known length and lists with an end
marker are such codes, and so are codes of pairs made of them.
-/
namespace Kvx.Lib

variable {α γ δ : Type} {P : γ → Prop} {enc : γ → List α}

/-- The codes of the values in `P` tell where they end. -/
def Delimited (P : γ → Prop) (enc : γ → List α) : Prop :=
  ∀ ⦃a b r s⦄, P a → P b → enc a ++ r <+: enc b ++ s → a = b

theorem Delimited.rest (h : Delimited P enc) {a b : γ} {r s : List α} (ha : P a) (hb : P b)
    (hp : enc a ++ r <+: enc b ++ s) : a = b ∧ r <+: s := by
  have he := h ha hb hp
  subst he
  exact ⟨rfl, (List.prefix_append_right_inj _).mp hp⟩

theorem Delimited.comap (h : Delimited P enc) {f : δ → γ} (hf : Function.Injective f) :
    Delimited (fun d => P (f d)) (fun d => enc (f d)) :=
  fun _ _ _ _ ha hb hp => hf (h ha hb hp)

theorem Delimited.before (h : Delimited P enc) (c : List α) :
    Delimited P fun a => c ++ enc a := by
  intro a b r s ha hb hp
  rw [List.append_assoc, List.append_assoc, List.prefix_append_right_inj] at hp
  exact h ha hb hp

theorem Delimited.after (h : Delimited P enc) (c : List α) :
    Delimited P fun a => enc a ++ c := by
  intro a b r s ha hb hp
  rw [List.append_assoc, List.append_assoc] at hp
  exact h ha hb hp

/-- The second part may depend on the first, as a block does on its length. -/
theorem Delimited.pair {Q : γ → δ → Prop} {enc' : γ → δ → List α} (h : Delimited P enc)
    (h' : ∀ a, P a → Delimited (Q a) (enc' a)) :
    Delimited (fun p : γ × δ => P p.1 ∧ Q p.1 p.2) fun p => enc p.1 ++ enc' p.1 p.2 := by
  rintro ⟨a, c⟩ ⟨b, d⟩ r s ⟨ha, hc⟩ ⟨hb, hd⟩ hp
  simp only [List.append_assoc] at ha hb hc hd hp
  obtain ⟨rfl, hp⟩ := h.rest ha hb hp
  rw [h' a ha hc hd hp]

theorem field_unique {x y r s : List α} {sep : α} (hx : sep ∉ x) (hy : sep ∉ y)
    (hp : x ++ sep :: r <+: y ++ sep :: s) : x = y := by
  induction x generalizing y with
  | nil =>
    cases y with
    | nil => rfl
    | cons b y =>
      rw [List.nil_append, List.cons_append, List.cons_prefix_cons] at hp
      exact absurd (hp.1 ▸ List.mem_cons_self) hy
  | cons a x ih =>
    cases y with
    | nil =>
      rw [List.nil_append, List.cons_append, List.cons_prefix_cons] at hp
      exact absurd (hp.1 ▸ List.mem_cons_self) hx
    | cons b y =>
      rw [List.cons_append, List.cons_append, List.cons_prefix_cons] at hp
      obtain ⟨rfl, hp⟩ := hp
      rw [ih (fun hm => hx (List.mem_cons_of_mem a hm)) (fun hm => hy (List.mem_cons_of_mem a hm))
        hp]

theorem field_eq {x y r s : List α} {sep : α} (hx : sep ∉ x) (hy : sep ∉ y)
    (h : x ++ sep :: r = y ++ sep :: s) : x = y ∧ r = s := by
  have hp : x ++ sep :: r <+: y ++ sep :: s := h ▸ List.prefix_refl _
  have hxy := field_unique hx hy hp
  rw [hxy, List.append_cancel_left_eq, List.cons.injEq] at h
  exact ⟨hxy, h.2⟩

theorem Delimited.field {sep : α} (hsep : ∀ a, P a → sep ∉ enc a)
    (hinj : ∀ a b, P a → P b → enc a = enc b → a = b) :
    Delimited P fun a => enc a ++ [sep] := by
  intro a b r s ha hb hp
  rw [List.append_assoc, List.append_assoc, List.singleton_append, List.singleton_append] at hp
  exact hinj a b ha hb (field_unique (hsep a ha) (hsep b hb) hp)

theorem Delimited.block (n : ℕ) : Delimited (fun l : List α => l.length = n) fun l => l := by
  intro a b r s ha hb hp
  have ha' : a <+: b ++ s := (List.prefix_append a r).trans hp
  exact (List.prefix_of_prefix_length_le ha' (List.prefix_append b s) (by omega)).eq_of_length
    (by omega)

theorem Delimited.list (h : Delimited P enc) {stop : List α}
    (hbegin : ∀ a r s, P a → ¬ enc a ++ r <+: stop ++ s)
    (hstop : ∀ a r s, P a → ¬ stop ++ r <+: enc a ++ s) :
    Delimited (fun l : List γ => ∀ a ∈ l, P a) fun l => l.flatMap enc ++ stop := by
  intro l m r s hl hm hp
  induction l generalizing m with
  | nil =>
    cases m with
    | nil => rfl
    | cons b m =>
      simp only [List.flatMap_nil, List.nil_append, List.flatMap_cons, List.append_assoc] at hp
      exact absurd hp (hstop b r _ (hm b List.mem_cons_self))
  | cons a l ih =>
    have ha := hl a List.mem_cons_self
    cases m with
    | nil =>
      simp only [List.flatMap_nil, List.nil_append, List.flatMap_cons, List.append_assoc] at hp
      exact absurd hp (hbegin a _ s ha)
    | cons b m =>
      simp only [List.flatMap_cons, List.append_assoc] at hp ih
      obtain ⟨rfl, hrest⟩ := h.rest ha (hm b List.mem_cons_self) hp
      rw [ih (fun c hc => hl c (List.mem_cons_of_mem a hc))
        (fun c hc => hm c (List.mem_cons_of_mem a hc)) hrest]

end Kvx.Lib
