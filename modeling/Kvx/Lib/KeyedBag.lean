import Mathlib

/-!
# Bags of keyed records as finite maps

A bag of records with pairwise distinct keys and a partial map are two readings
of one thing. `Indexes key s M` says that the bag `s` and the map `M` agree.
-/
namespace Kvx.Lib

variable {ι κ : Type*}

structure Indexes (key : ι → κ) (s : Multiset ι) (M : κ → Option ι) : Prop where
  nodup : (s.map key).Nodup
  lookup : ∀ k p, M k = some p ↔ p ∈ s ∧ key p = k

namespace Indexes

variable {key key' : ι → κ} {s : Multiset ι} {M : κ → Option ι}

theorem empty (key : ι → κ) : Indexes key 0 fun _ => none :=
  ⟨by simp, by simp⟩

theorem absent (h : Indexes key s M) (k : κ) : M k = none ↔ ∀ p ∈ s, key p ≠ k := by
  constructor
  · intro hk p hp he
    have := (h.lookup k p).mpr ⟨hp, he⟩
    simp [hk] at this
  · intro hk
    cases hM : M k with
    | none => rfl
    | some p =>
      obtain ⟨hp, he⟩ := (h.lookup k p).mp hM
      exact absurd he (hk p hp)

theorem of_mem (h : Indexes key s M) {p : ι} (hp : p ∈ s) : M (key p) = some p :=
  (h.lookup _ _).mpr ⟨hp, rfl⟩

theorem congr (h : Indexes key s M) (hk : ∀ p ∈ s, key' p = key p) : Indexes key' s M := by
  refine ⟨?_, fun k p => ?_⟩
  · rw [Multiset.map_congr rfl hk]
    exact h.nodup
  · rw [h.lookup]
    constructor
    · rintro ⟨hp, rfl⟩
      exact ⟨hp, hk p hp⟩
    · rintro ⟨hp, rfl⟩
      exact ⟨hp, (hk p hp).symm⟩

theorem insert [DecidableEq κ] (h : Indexes key s M) {p : ι} (hk : M (key p) = none) :
    Indexes key (p ::ₘ s) (Function.update M (key p) (some p)) := by
  have hfresh := (h.absent _).mp hk
  refine ⟨?_, fun k q => ?_⟩
  · rw [Multiset.map_cons, Multiset.nodup_cons]
    refine ⟨?_, h.nodup⟩
    intro hm
    obtain ⟨q, hq, he⟩ := Multiset.mem_map.mp hm
    exact hfresh q hq he
  · by_cases hkp : k = key p
    · subst hkp
      simp only [Function.update_self, Option.some.injEq, Multiset.mem_cons]
      constructor
      · rintro rfl
        exact ⟨Or.inl rfl, rfl⟩
      · rintro ⟨rfl | hq, he⟩
        · rfl
        · exact absurd he (hfresh q hq)
    · rw [Function.update_of_ne hkp, h.lookup, Multiset.mem_cons]
      constructor
      · rintro ⟨hq, he⟩
        exact ⟨Or.inr hq, he⟩
      · rintro ⟨rfl | hq, he⟩
        · exact absurd he.symm hkp
        · exact ⟨hq, he⟩

theorem erase [DecidableEq κ] {p : ι} (h : Indexes key (p ::ₘ s) M) :
    Indexes key s (Function.update M (key p) none) := by
  have hn := h.nodup
  rw [Multiset.map_cons, Multiset.nodup_cons] at hn
  refine ⟨hn.2, fun k q => ?_⟩
  by_cases hkp : k = key p
  · subst hkp
    simp only [Function.update_self, reduceCtorEq, false_iff, not_and]
    intro hq he
    exact hn.1 (Multiset.mem_map.mpr ⟨q, hq, he⟩)
  · rw [Function.update_of_ne hkp, h.lookup, Multiset.mem_cons]
    constructor
    · rintro ⟨rfl | hq, he⟩
      · exact absurd he.symm hkp
      · exact ⟨hq, he⟩
    · rintro ⟨hq, he⟩
      exact ⟨Or.inr hq, he⟩

theorem replace [DecidableEq κ] {p q : ι} (h : Indexes key (p ::ₘ s) M)
    (hold : ∀ r ∈ s, key' r = key r) (hnew : key' q = key p) :
    Indexes key' (q ::ₘ s) (Function.update M (key p) (some q)) := by
  have he := h.erase.congr hold
  have hi := he.insert (p := q) (by simp [hnew])
  rwa [hnew, Function.update_idem] at hi

theorem card_eq (h : Indexes key s M) : {k | M k ≠ none}.encard = s.card := by
  classical
  have hset : {k | M k ≠ none} = ↑(s.map key).toFinset := by
    ext k
    simp only [Set.mem_ofPred_eq, Finset.mem_coe, Multiset.mem_toFinset, Multiset.mem_map]
    rw [Option.ne_none_iff_exists']
    simp only [h.lookup]
  rw [hset, Set.encard_coe_eq_coe_finsetCard, Multiset.toFinset_card_of_nodup h.nodup,
    Multiset.card_map]

end Indexes

end Kvx.Lib
