import Mathlib.Data.List.Basic
import Mathlib.Data.List.Nodup
import Mathlib.Data.Set.Card

/-!
# Linear probing with tombstones

An array of slots, each empty, deleted or holding an entry. A search starts at the home of its key
and goes around the array until the key or an empty slot. Every entry is reached from the home of
its key without an empty slot in between; a deleted entry leaves a tombstone, so that this stays so.
-/
namespace Kvx.Lib.Probing

variable {κ ν : Type}

inductive Slot (κ ν : Type)
  | empty
  | tomb
  | full (key : κ) (val : ν)
  deriving DecidableEq, Repr

def Slot.used : Slot κ ν → Bool
  | .empty => false
  | _ => true

def Slot.isFull : Slot κ ν → Bool
  | .full _ _ => true
  | _ => false

def Slot.key : Slot κ ν → Option κ
  | .full key _ => some key
  | _ => none

/-- Where a search ends, and the first tombstone that it passed. -/
structure Stop where
  idx : ℕ
  tomb : Option ℕ
  deriving DecidableEq, Repr

/-- The search from `i` on. -/
def probe [DecidableEq κ] (slots : List (Slot κ ν)) (key : κ) : ℕ → ℕ → Option ℕ → Option Stop
  | 0, _, _ => none
  | fuel + 1, i, tomb =>
      match slots[i]? with
      | none => none
      | some .empty => some ⟨i, tomb⟩
      | some .tomb => probe slots key fuel ((i + 1) % slots.length) (tomb.or (some i))
      | some (.full k _) =>
          if k = key then some ⟨i, tomb⟩
          else probe slots key fuel ((i + 1) % slots.length) tomb

/-- The entry at `j` is met from `home` on before any empty slot. -/
def Reaches (slots : List (Slot κ ν)) (home j : ℕ) : Prop :=
  ∃ d < slots.length, j = (home + d) % slots.length ∧
    ∀ e < d, slots[(home + e) % slots.length]? ≠ some .empty

/-- An array in which every key is found. -/
structure Ok (home : κ → ℕ) (slots : List (Slot κ ν)) : Prop where
  path : ∀ (j : ℕ) k v, slots[j]? = some (.full k v) → Reaches slots (home k) j
  inj : ∀ (i j : ℕ) k v w, slots[i]? = some (.full k v) → slots[j]? = some (.full k w) → i = j

/-- The entries of the array are the map. -/
def Holds (slots : List (Slot κ ν)) (M : κ → Option ν) : Prop :=
  ∀ k v, M k = some v ↔ .full k v ∈ slots

theorem exists_offset {n j : ℕ} (home : ℕ) (hj : j < n) : ∃ d < n, j = (home + d) % n := by
  have hn : 0 < n := Nat.zero_lt_of_lt hj
  refine ⟨(j + (n - home % n)) % n, Nat.mod_lt _ hn, ?_⟩
  have hhome := Nat.mod_lt home hn
  have hsplit : home + (j + (n - home % n)) = j + n * (home / n + 1) := by
    have := Nat.div_add_mod home n
    rw [Nat.mul_add, Nat.mul_one]
    omega
  rw [Nat.add_mod_mod, hsplit, Nat.add_mul_mod_self_left, Nat.mod_eq_of_lt hj]

/-- The end of a search: the key, or an empty slot with the key nowhere before it. -/
structure Stops (slots : List (Slot κ ν)) (key : κ) (home : ℕ) (stop : Stop) : Prop where
  offset : ∃ d < slots.length, stop.idx = (home + d) % slots.length ∧
    ∀ e < d, ∃ s, slots[(home + e) % slots.length]? = some s ∧ s ≠ .empty ∧ s.key ≠ some key
  slot : slots[stop.idx]? = some .empty ∨ ∃ v, slots[stop.idx]? = some (.full key v)
  tomb : ∀ t, stop.tomb = some t → slots[t]? = some .tomb ∧ Reaches slots home t

theorem Stops.reaches {slots : List (Slot κ ν)} {key : κ} {home : ℕ} {stop : Stop}
    (h : Stops slots key home stop) : Reaches slots home stop.idx := by
  obtain ⟨d, hd, hidx, hpast⟩ := h.offset
  refine ⟨d, hd, hidx, fun e he hempty => ?_⟩
  obtain ⟨s, hs, hne, -⟩ := hpast e he
  rw [hs, Option.some.injEq] at hempty
  exact hne hempty

section Search

variable [DecidableEq κ] {slots : List (Slot κ ν)} {key : κ} {home : ℕ}

theorem probe_from {fuel d d' : ℕ} {tomb : Option ℕ} (hfuel : d + fuel = slots.length)
    (hpast : ∀ e < d, ∃ s, slots[(home + e) % slots.length]? = some s ∧ s ≠ .empty ∧
      s.key ≠ some key)
    (htomb : ∀ t, tomb = some t → slots[t]? = some .tomb ∧ Reaches slots home t)
    (hd' : d ≤ d') (hlt : d' < slots.length)
    (hend : slots[(home + d') % slots.length]? = some .empty) :
    ∃ stop, probe slots key fuel ((home + d) % slots.length) tomb = some stop ∧
      Stops slots key home stop := by
  induction fuel generalizing d tomb with
  | zero => omega
  | succ fuel ih =>
    have hpos : (home + d) % slots.length < slots.length := Nat.mod_lt _ (by omega)
    have hslot := List.getElem?_eq_getElem hpos
    have hreach : Reaches slots home ((home + d) % slots.length) := by
      refine ⟨d, by omega, rfl, fun e he hempty => ?_⟩
      obtain ⟨s, hs, hne, -⟩ := hpast e he
      rw [hs, Option.some.injEq] at hempty
      exact hne hempty
    have hnext : ((home + d) % slots.length + 1) % slots.length = (home + (d + 1)) % slots.length :=
      (Nat.mod_add_mod _ _ _).trans (by rw [Nat.add_assoc])
    -- a slot that is passed is not the empty one at the end
    have hpass : ∀ s, slots[(home + d) % slots.length]? = some s → s ≠ .empty → s.key ≠ some key →
        d + 1 ≤ d' ∧ ∀ e < d + 1, ∃ s, slots[(home + e) % slots.length]? = some s ∧ s ≠ .empty ∧
          s.key ≠ some key := by
      intro s hs hne hkey
      constructor
      · by_contra hge
        obtain rfl : d = d' := by omega
        rw [hs, Option.some.injEq] at hend
        exact hne hend
      · intro e he
        rcases Nat.lt_succ_iff_lt_or_eq.mp he with he | rfl
        · exact hpast e he
        · exact ⟨s, hs, hne, hkey⟩
    generalize slots[(home + d) % slots.length] = s at hslot
    simp only [probe, hslot]
    cases s with
    | empty =>
      exact ⟨_, rfl, ⟨d, by omega, rfl, hpast⟩, Or.inl hslot, htomb⟩
    | tomb =>
      obtain ⟨hd, hpast'⟩ := hpass .tomb hslot (by simp) (by simp [Slot.key])
      rw [hnext]
      refine ih (by omega) hpast' (fun t ht => ?_) hd
      cases tomb with
      | none =>
        cases ht
        exact ⟨hslot, hreach⟩
      | some t' => exact htomb t ht
    | full k v =>
      dsimp only
      split_ifs with hk
      · subst hk
        exact ⟨_, rfl, ⟨d, by omega, rfl, hpast⟩, Or.inr ⟨v, hslot⟩, htomb⟩
      · obtain ⟨hd, hpast'⟩ := hpass (.full k v) hslot (by simp) (by simpa [Slot.key] using hk)
        rw [hnext]
        exact ih (by omega) hpast' htomb hd

/-- Where a slot is empty, a search of as many steps as there are slots ends. -/
theorem probe_stops (hempty : .empty ∈ slots) (key : κ) (home : ℕ) :
    ∃ stop, probe slots key slots.length (home % slots.length) none = some stop ∧
      Stops slots key home stop := by
  obtain ⟨j, hj⟩ := List.getElem?_of_mem hempty
  have hlt : j < slots.length := by
    by_contra hge
    rw [List.getElem?_eq_none (by omega)] at hj
    cases hj
  obtain ⟨d, hd, rfl⟩ := exists_offset home hlt
  have htomb : ∀ t, (none : Option ℕ) = some t → slots[t]? = some .tomb ∧ Reaches slots home t := by
    simp
  have hpast : ∀ e < 0, ∃ s, slots[(home + e) % slots.length]? = some s ∧ s ≠ .empty ∧
      s.key ≠ some key := by
    simp
  exact probe_from (Nat.zero_add _) hpast htomb (Nat.zero_le d) hd hj

end Search

variable {slots : List (Slot κ ν)} {home : κ → ℕ} {key : κ} {val : ν} {stop : Stop}
  {M : κ → Option ν}

theorem mem_full {s : Slot κ ν} {j : ℕ} (h : slots[j]? = some s) : s ∈ slots :=
  List.mem_of_getElem? h

theorem Ok.absent (h : Ok home slots) (hstop : Stops slots key (home key) stop)
    (hempty : slots[stop.idx]? = some .empty) (v : ν) : .full key v ∉ slots := by
  intro hmem
  obtain ⟨j, hj⟩ := List.getElem?_of_mem hmem
  obtain ⟨d, hd, hidx, hpast⟩ := hstop.offset
  obtain ⟨d', hd', rfl, hpath⟩ := h.path j key v hj
  rcases Nat.lt_trichotomy d' d with hlt | rfl | hgt
  · obtain ⟨s, hs, -, hkey⟩ := hpast d' hlt
    rw [hj, Option.some.injEq] at hs
    subst hs
    exact hkey rfl
  · rw [← hidx, hempty] at hj
    cases hj
  · exact hpath d hgt (hidx ▸ hempty)

theorem Holds.stop_empty (hM : Holds slots M) (h : Ok home slots)
    (hstop : Stops slots key (home key) stop) (hempty : slots[stop.idx]? = some .empty) :
    M key = none := by
  cases hkey : M key with
  | none => rfl
  | some v => exact absurd ((hM key v).mp hkey) (h.absent hstop hempty v)

theorem Holds.stop_full (hM : Holds slots M) (hfull : slots[stop.idx]? = some (.full key val)) :
    M key = some val := (hM key val).mpr (mem_full hfull)

theorem Reaches.set {start j t : ℕ} {s : Slot κ ν} (h : Reaches slots start j) (hs : s ≠ .empty) :
    Reaches (slots.set t s) start j := by
  obtain ⟨d, hd, hj, hpast⟩ := h
  refine ⟨d, by rwa [List.length_set], by rwa [List.length_set], fun e he hempty => ?_⟩
  rw [List.length_set, List.getElem?_set] at hempty
  split_ifs at hempty
  · exact hs (Option.some.inj hempty)
  · exact hpast e he hempty

theorem mem_slots_set {t : ℕ} {s s' : Slot κ ν} (ht : t < slots.length) :
    s' ∈ slots.set t s ↔ s' = s ∨ ∃ j, j ≠ t ∧ slots[j]? = some s' := by
  constructor
  · intro h
    obtain ⟨j, hj⟩ := List.getElem?_of_mem h
    rw [List.getElem?_set] at hj
    split_ifs at hj with he
    · exact Or.inl (Option.some.inj hj).symm
    · exact Or.inr ⟨j, fun h => he h.symm, hj⟩
  · rintro (rfl | ⟨j, hj, hs'⟩)
    · exact List.mem_set ht s'
    · refine List.mem_of_getElem? (i := j) ?_
      rw [List.getElem?_set, if_neg (Ne.symm hj)]
      exact hs'

/-- A slot that is reached takes an entry, where the key is in no other slot. -/
theorem Ok.write {t : ℕ} (h : Ok home slots) (hreach : Reaches slots (home key) t)
    (hkey : ∀ (j : ℕ) v, slots[j]? = some (.full key v) → j = t) (val : ν) :
    Ok home (slots.set t (.full key val)) where
  path j k v hj := by
    rw [List.getElem?_set] at hj
    split_ifs at hj with he
    · cases hj
      exact he ▸ hreach.set (by simp)
    · exact (h.path j k v hj).set (by simp)
  inj i j k v w hi hj := by
    rw [List.getElem?_set] at hi hj
    split_ifs at hi hj with he he' he'
    · exact he.symm.trans he'
    · cases hi
      exact absurd (hkey j w hj).symm he'
    · cases hj
      exact absurd (hkey i v hi).symm he
    · exact h.inj i j k v w hi hj

theorem Holds.write [DecidableEq κ] {t : ℕ} {old : Slot κ ν} (hM : Holds slots M)
    (ht : slots[t]? = some old) (hold : ∀ k, old.key = some k → k = key)
    (hkey : ∀ (j : ℕ) v, slots[j]? = some (.full key v) → j = t) (val : ν) :
    Holds (slots.set t (.full key val)) (Function.update M key (some val)) := by
  intro k v
  rw [mem_slots_set (List.getElem?_eq_some_iff.mp ht).1]
  by_cases hk : k = key
  · subst hk
    rw [Function.update_self]
    constructor
    · rintro ⟨⟩
      exact Or.inl rfl
    · rintro (h | ⟨j, hj, hs⟩)
      · cases h
        rfl
      · exact absurd (hkey j v hs) hj
  · rw [Function.update_of_ne hk, hM k v]
    constructor
    · intro hmem
      obtain ⟨j, hj⟩ := List.getElem?_of_mem hmem
      refine Or.inr ⟨j, ?_, hj⟩
      rintro rfl
      rw [ht, Option.some.injEq] at hj
      exact hk (hold k (by rw [hj]; rfl))
    · rintro (h | ⟨j, -, hs⟩)
      · cases h
        exact absurd rfl hk
      · exact mem_full hs

theorem erased_full {t j : ℕ} {k : κ} {v : ν}
    (h : (slots.set t .tomb)[j]? = some (.full k v)) : slots[j]? = some (.full k v) := by
  rw [List.getElem?_set] at h
  split_ifs at h
  · cases h
  · exact h

theorem Ok.erase (h : Ok home slots) (t : ℕ) : Ok home (slots.set t .tomb) where
  path j k v hj := (h.path j k v (erased_full hj)).set (by simp)
  inj i j k v w hi hj := h.inj i j k v w (erased_full hi) (erased_full hj)

theorem Holds.erase [DecidableEq κ] {t : ℕ} (hM : Holds slots M) (h : Ok home slots)
    (ht : slots[t]? = some (.full key val)) :
    Holds (slots.set t .tomb) (Function.update M key none) := by
  intro k v
  rw [mem_slots_set (List.getElem?_eq_some_iff.mp ht).1]
  by_cases hk : k = key
  · subst hk
    rw [Function.update_self]
    constructor
    · rintro ⟨⟩
    · rintro (h' | ⟨j, hj, hs⟩)
      · cases h'
      · exact absurd (h.inj j t k v val hs ht) hj
  · rw [Function.update_of_ne hk, hM k v]
    constructor
    · intro hmem
      obtain ⟨j, hj⟩ := List.getElem?_of_mem hmem
      refine Or.inr ⟨j, ?_, hj⟩
      rintro rfl
      rw [ht, Option.some.injEq, Slot.full.injEq] at hj
      exact hk hj.1.symm
    · rintro (h' | ⟨j, -, hs⟩)
      · cases h'
      · exact mem_full hs

theorem ok_replicate (home : κ → ℕ) (n : ℕ) :
    Ok home (List.replicate n (.empty : Slot κ ν)) ∧
      Holds (List.replicate n (.empty : Slot κ ν)) fun _ => none := by
  have hnone : ∀ (j : ℕ) (k : κ) (v : ν),
      (List.replicate n (.empty : Slot κ ν))[j]? ≠ some (.full k v) := by
    intro j k v h
    have hmem := mem_full h
    rw [List.mem_replicate] at hmem
    cases hmem.2
  refine ⟨⟨fun j k v h => absurd h (hnone j k v), fun i j k v w h => absurd h (hnone i k v)⟩, ?_⟩
  intro k v
  simp [List.mem_replicate]

theorem countP_set_used {t : ℕ} {old s : Slot κ ν} (ht : slots[t]? = some old) (hs : s.used = true) :
    (slots.set t s).countP Slot.used = slots.countP Slot.used + if old.used then 0 else 1 := by
  obtain ⟨hlt, rfl⟩ := List.getElem?_eq_some_iff.mp ht
  rw [List.countP_set hlt, hs, if_pos rfl]
  split_ifs with hold
  · have hpos : 0 < slots.countP Slot.used := List.countP_pos_iff.mpr ⟨_, List.getElem_mem hlt, hold⟩
    omega
  · omega

theorem countP_set_full {t : ℕ} {old : Slot κ ν} (ht : slots[t]? = some old) (s : Slot κ ν) :
    (slots.set t s).countP Slot.isFull + (if old.isFull then 1 else 0) =
      slots.countP Slot.isFull + if s.isFull then 1 else 0 := by
  obtain ⟨hlt, rfl⟩ := List.getElem?_eq_some_iff.mp ht
  rw [List.countP_set hlt]
  by_cases hold : slots[t].isFull = true
  · have hpos : 0 < slots.countP Slot.isFull :=
      List.countP_pos_iff.mpr ⟨_, List.getElem_mem hlt, hold⟩
    simp only [hold, if_true]
    omega
  · simp only [Bool.not_eq_true] at hold
    simp only [hold, Bool.false_eq_true, if_false]
    omega

theorem Ok.keys_nodup (h : Ok home slots) : (slots.filterMap Slot.key).Nodup := by
  rw [List.Nodup, List.pairwise_filterMap, List.pairwise_iff_getElem]
  intro i j hi hj hij k hk k' hk' heq
  subst heq
  have hfull : ∀ s : Slot κ ν, s.key = some k → ∃ v, s = .full k v := by
    intro s hs
    cases s with
    | empty => cases hs
    | tomb => cases hs
    | full k' v =>
      cases hs
      exact ⟨v, rfl⟩
  obtain ⟨v, hv⟩ := hfull _ hk
  obtain ⟨w, hw⟩ := hfull _ hk'
  have := h.inj i j k v w (List.getElem?_eq_some_iff.mpr ⟨hi, hv⟩)
    (List.getElem?_eq_some_iff.mpr ⟨hj, hw⟩)
  omega

theorem mem_keys {slots : List (Slot κ ν)} {k : κ} :
    k ∈ slots.filterMap Slot.key ↔ ∃ v, .full k v ∈ slots := by
  rw [List.mem_filterMap]
  constructor
  · rintro ⟨s, hs, hkey⟩
    cases s with
    | empty => cases hkey
    | tomb => cases hkey
    | full k' v =>
      cases hkey
      exact ⟨v, hs⟩
  · rintro ⟨v, hv⟩
    exact ⟨_, hv, rfl⟩

theorem keys_length (slots : List (Slot κ ν)) :
    (slots.filterMap Slot.key).length = slots.countP Slot.isFull := by
  induction slots with
  | nil => rfl
  | cons s slots ih =>
    cases s with
    | empty => exact ih
    | tomb => exact ih
    | full k v =>
      rw [List.countP_cons_of_pos rfl, ← ih]
      rfl

theorem Holds.encard (hM : Holds slots M) (h : Ok home slots) :
    {k | M k ≠ none}.encard = slots.countP Slot.isFull := by
  have hnd : Multiset.Nodup (slots.filterMap Slot.key : Multiset κ) :=
    Multiset.coe_nodup.mpr h.keys_nodup
  have hset : {k | M k ≠ none} = ((⟨_, hnd⟩ : Finset κ) : Set κ) := by
    ext k
    rw [Set.mem_ofPred_eq, Finset.mem_coe, Finset.mem_mk, Multiset.mem_coe, mem_keys,
      Option.ne_none_iff_exists']
    exact exists_congr fun v => hM k v
  rw [hset, Set.encard_coe_eq_coe_finsetCard, ← keys_length]
  rfl

section Record

variable [DecidableEq κ]

def Slot.record (M : κ → Option ν) : Slot κ ν → κ → Option ν
  | .full key val => Function.update M key (some val)
  | _ => M

theorem foldl_record (slots : List (Slot κ ν)) (hnd : (slots.filterMap Slot.key).Nodup)
    (M : κ → Option ν) (k : κ) (v : ν) :
    slots.foldl Slot.record M k = some v ↔
      .full k v ∈ slots ∨ k ∉ slots.filterMap Slot.key ∧ M k = some v := by
  induction slots generalizing M with
  | nil => simp
  | cons s slots ih =>
    cases s with
    | empty =>
      rw [List.foldl_cons, ih hnd]
      simp [Slot.key, Slot.record]
    | tomb =>
      rw [List.foldl_cons, ih hnd]
      simp [Slot.key, Slot.record]
    | full k' v' =>
      have hkeys : (Slot.full k' v' :: slots).filterMap Slot.key =
          k' :: slots.filterMap Slot.key := rfl
      rw [hkeys, List.nodup_cons] at hnd
      rw [List.foldl_cons, ih hnd.2, hkeys, Slot.record]
      by_cases hk : k = k'
      · subst hk
        have hnot : ∀ v, .full k v ∉ slots := fun v hv => hnd.1 (mem_keys.mpr ⟨v, hv⟩)
        simp [hnot, hnd.1, eq_comm]
      · simp [hk]

theorem Holds.record (hM : Holds slots M) (h : Ok home slots) :
    slots.foldl Slot.record (fun _ => none) = M := by
  funext k
  apply Option.ext
  intro v
  rw [foldl_record slots h.keys_nodup, hM k v]
  simp

end Record

end Kvx.Lib.Probing
