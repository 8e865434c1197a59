import Kvx.PageLedger

/-!
# When the pages of a table are accounted for

Every unmapping gets the full length of its mapping as long as each migration that ends
is one between arrays of the same number of pages. Otherwise the length noted for the array
that becomes the old one is wrong from then on.
-/
namespace Kvx.Hashtable

variable {ι : Type} {E : Env}

/-- What the page accounting of a table should be, should it be destroyed now. -/
structure Accounted (t : Table ι) : Prop where
  old : t.oldBytes = t.oldBuckets.len
  new : ∀ m, t.newBuckets = some m → t.newBytes = m.len
  full : ∀ e ∈ hashtableDestroy t, e.Full
  balance : mappedBytes (hashtableDestroy t) = unmappedBytes (hashtableDestroy t)

/-- The next migration step is the last of its migration. -/
def Table.LastStep (t : Table ι) : Prop :=
  t.newBuckets.isSome ∧ t.migrationPos + 1 = t.oldBucketCount

/-- Where a set or delete ends a migration, the buckets of the old array and twice as many take the
same number of pages. -/
def EqualLengths (E : Env) (t : Table ι) (op : Op ι) : Prop :=
  op.Migrates → t.LastStep →
    arrayLength E t.oldBucketCount = arrayLength E (Pages.sizeT (t.oldBucketCount * 2))

instance (op : Op ι) : Decidable op.Migrates :=
  match op with
  | .set _ _ _ _ => .isTrue trivial
  | .get _ => .isFalse id
  | .delete _ => .isTrue trivial

instance (t : Table ι) : Decidable t.LastStep := inferInstanceAs (Decidable (_ ∧ _))

instance (E : Env) (t : Table ι) (op : Op ι) : Decidable (EqualLengths E t op) :=
  inferInstanceAs (Decidable (_ → _ → _))

structure Ledger.Sound (l : Ledger) : Prop where
  old : l.oldBytes = l.oldLen
  new : ∀ len, l.newLen = some len → l.newBytes = len
  full : l.full
  balance : l.mapped = l.unmapped + l.oldLen + l.newLen.getD 0

/-- The mappings have the lengths that `pages_map` reports for their buckets. -/
structure Ledger.Measured (E : Env) (l : Ledger) : Prop where
  old : l.oldLen = arrayLength E l.count
  new : ∀ len, l.newLen = some len →
    l.newCount = Pages.sizeT (l.count * 2) ∧ len = arrayLength E l.newCount

theorem Ledger.Measured.step {l : Ledger} (h : l.Measured E) : l.step.Measured E := by
  cases hl : l.newLen with
  | none =>
    unfold Ledger.step
    rw [hl]
    exact h
  | some len =>
    obtain ⟨-, hlen⟩ := h.new len hl
    rw [Ledger.step_some hl]
    split_ifs with hpos
    · exact ⟨hlen, by simp [Ledger.finish]⟩
    · exact ⟨h.old, h.new⟩

theorem Ledger.Measured.next {l l' : Ledger} (h : l.Measured E) (hn : l.Next E l') :
    l'.Measured E := by
  rcases hn with rfl | ⟨-, rfl⟩
  · exact h.step
  · exact ⟨h.step.old, fun len hlen => ⟨rfl, (Option.some.inj hlen).symm⟩⟩

theorem Ledger.Sound.bytes_eq_iff {l : Ledger} (h : l.Sound) (hm : l.Measured E)
    (hf : l.Finishes) : l.newBytes = l.oldBytes ↔
      arrayLength E l.count = arrayLength E (Pages.sizeT (l.count * 2)) := by
  obtain ⟨len, hl⟩ := Option.ne_none_iff_exists'.mp hf.1
  obtain ⟨hcount, hlen⟩ := hm.new len hl
  rw [h.new len hl, h.old, hm.old, hlen, hcount]
  exact eq_comm

theorem Ledger.Sound.step {l : Ledger} (h : l.Sound)
    (heq : l.Finishes → l.newBytes = l.oldBytes) : l.step.Sound := by
  have hb := h.balance
  have ho := h.old
  cases hl : l.newLen with
  | none =>
    unfold Ledger.step
    rw [hl]
    exact h
  | some len =>
    have hn := h.new len hl
    rw [Ledger.step_some hl]
    rw [hl, Option.getD_some] at hb
    split_ifs with hpos
    · have he := heq ⟨by simp [hl], hpos⟩
      exact {
        old := by
          simp only [Ledger.finish]
          omega
        new := by simp [Ledger.finish]
        full := ⟨ho, h.full⟩
        balance := by
          simp only [Ledger.finish, Option.getD_none]
          omega }
    · exact {
        old := ho
        new := h.new
        full := h.full
        balance := h.balance }

theorem Ledger.Sound.step_uneven {l : Ledger} (h : l.Sound) (hf : l.Finishes)
    (hne : l.newBytes ≠ l.oldBytes) : l.step.oldBytes ≠ l.step.oldLen := by
  obtain ⟨len, hl⟩ := Option.ne_none_iff_exists'.mp hf.1
  have hn := h.new len hl
  rw [Ledger.step_some hl, if_pos hf.2]
  simp only [Ledger.finish]
  omega

theorem Ledger.Sound.start {l : Ledger} (h : l.Sound) (hnone : l.newLen = none) (bytes : ℕ) :
    (l.start bytes).Sound where
  old := h.old
  new len hlen := Option.some.inj hlen
  full := h.full
  balance := by
    have hb := h.balance
    rw [hnone, Option.getD_none] at hb
    simp only [Ledger.start, Option.getD_some]
    omega

theorem Ledger.Sound.next {l l' : Ledger} (h : l.Sound)
    (heq : l.Finishes → l.newBytes = l.oldBytes) (hn : l.Next E l') : l'.Sound := by
  rcases hn with rfl | ⟨hnone, rfl⟩
  · exact h.step heq
  · exact (h.step heq).start hnone _

theorem Ledger.Sound.next_uneven {l l' : Ledger} (h : l.Sound) (hf : l.Finishes)
    (hne : l.newBytes ≠ l.oldBytes) (hn : l.Next E l') : l'.oldBytes ≠ l'.oldLen := by
  rcases hn with rfl | ⟨-, rfl⟩
  · exact h.step_uneven hf hne
  · exact h.step_uneven hf hne

theorem lastStep_iff (t : Table ι) : t.LastStep ↔ t.ledger.Finishes := by
  unfold Table.LastStep Ledger.Finishes
  cases hm : t.newBuckets <;> simp [Table.ledger, hm]

theorem destroyBuckets_totals (trace : List Event) (buckets : Mapping ι) (count bytes : ℕ) :
    mappedBytes (hashtableDestroyBuckets trace buckets count bytes) = mappedBytes trace ∧
      unmappedBytes (hashtableDestroyBuckets trace buckets count bytes) =
        bytes + unmappedBytes trace ∧
      ((∀ e ∈ hashtableDestroyBuckets trace buckets count bytes, e.Full) ↔
        bytes = buckets.len ∧ ∀ e ∈ trace, e.Full) := by
  unfold hashtableDestroyBuckets
  extract_lets frees
  have hfrees : ∀ e ∈ frees.reverse, e.Chained := by
    intro e he
    obtain ⟨c, -, hc⟩ := List.mem_flatMap.mp (List.mem_reverse.mp he)
    obtain ⟨d, -, rfl⟩ := List.mem_map.mp hc
    trivial
  obtain ⟨hmap, hunmap, hfull⟩ := chained_totals hfrees trace
  refine ⟨?_, ?_, ?_⟩
  · rw [← hmap]
    simp [mappedBytes, Event.mapped]
  · rw [← hunmap]
    simp [unmappedBytes, Event.unmapped]
  · rw [← hfull, List.forall_mem_cons]
    rfl

theorem accounted_of_sound {t : Table ι} (h : t.ledger.Sound) : Accounted t := by
  have ho : t.oldBytes = t.oldBuckets.len := h.old
  have hf : ∀ e ∈ t.trace, e.Full := h.full
  have hb := h.balance
  cases hm : t.newBuckets with
  | none =>
    obtain ⟨hmap, hunmap, hfull⟩ :=
      destroyBuckets_totals t.trace t.oldBuckets t.oldBucketCount t.oldBytes
    simp only [Table.ledger, hm, Option.map_none, Option.getD_none] at hb
    have hd : hashtableDestroy t =
        hashtableDestroyBuckets t.trace t.oldBuckets t.oldBucketCount t.oldBytes := by
      simp only [hashtableDestroy, hm]
    rw [← hd] at hmap hunmap hfull
    exact ⟨ho, by simp [hm], hfull.mpr ⟨ho, hf⟩, by omega⟩
  | some m =>
    have hn : t.newBytes = m.len := h.new m.len (by simp [Table.ledger, hm])
    obtain ⟨hmap₁, hunmap₁, hfull₁⟩ :=
      destroyBuckets_totals t.trace m t.newBucketCount t.newBytes
    obtain ⟨hmap, hunmap, hfull⟩ :=
      destroyBuckets_totals (hashtableDestroyBuckets t.trace m t.newBucketCount t.newBytes)
        t.oldBuckets t.oldBucketCount t.oldBytes
    simp only [Table.ledger, hm, Option.map_some, Option.getD_some] at hb
    have hd : hashtableDestroy t = hashtableDestroyBuckets
        (hashtableDestroyBuckets t.trace m t.newBucketCount t.newBytes)
        t.oldBuckets t.oldBucketCount t.oldBytes := by
      simp only [hashtableDestroy, hm]
    rw [← hd] at hmap hunmap hfull
    refine ⟨ho, fun m' hm' => ?_, hfull.mpr ⟨ho, hfull₁.mpr ⟨hn, hf⟩⟩, by omega⟩
    rw [hm, Option.some.injEq] at hm'
    exact hm' ▸ hn

theorem ledger_runOp {w w' : World ι} {op : Op ι} {out : Outcome ι}
    (h : runOp E w op = some (w', out)) :
    (op.Migrates ∧ w.table.ledger.Next E w'.table.ledger) ∨
      (¬ op.Migrates ∧ w'.table.ledger = w.table.ledger) := by
  rcases runOp_cases h with ⟨hop, rfl⟩ | ⟨hop, t₁, hmaint, hcase⟩
  · exact Or.inr ⟨hop, rfl⟩
  · refine Or.inl ⟨hop, ?_⟩
    unfold Ledger.Next
    rw [← ledger_maintenance hmaint]
    rcases hcase with ⟨hkept, -⟩ | ⟨granted, key, item, keys, -, hkept⟩
    · exact Or.inl hkept.ledger
    · rw [hkept.ledger]
      exact ledger_checkInit t₁ granted

theorem runOp_sound {w w' : World ι} {op : Op ι} {out : Outcome ι}
    (h : runOp E w op = some (w', out)) (hs : w.table.ledger.Sound)
    (hm : w.table.ledger.Measured E) :
    w'.table.ledger.Measured E ∧ (EqualLengths E w.table op → w'.table.ledger.Sound) ∧
      (¬ EqualLengths E w.table op → w'.table.oldBytes ≠ w'.table.oldBuckets.len) := by
  unfold EqualLengths
  rcases ledger_runOp h with ⟨hop, hnext⟩ | ⟨hop, hsame⟩
  · refine ⟨hm.next hnext, fun heq => hs.next (fun hf => ?_) hnext, fun hne => ?_⟩
    · exact (hs.bytes_eq_iff hm hf).mpr (heq hop ((lastStep_iff _).mpr hf))
    · simp only [Classical.not_imp] at hne
      obtain ⟨-, hlast, hne⟩ := hne
      have hf := (lastStep_iff _).mp hlast
      exact hs.next_uneven hf (fun heq => hne ((hs.bytes_eq_iff hm hf).mp heq)) hnext
  · refine ⟨?_, fun _ => ?_, fun hne => absurd (fun hm => absurd hm hop) hne⟩
    · rw [hsame]
      exact hm
    · rw [hsame]
      exact hs

/-- From a sound table on, all states of a run are accounted for exactly when no migration ends
between two arrays of different lengths. -/
theorem worlds_accounted_iff {w : World ι} (hs : w.table.ledger.Sound)
    (hm : w.table.ledger.Measured E) (ops : List (Op ι)) :
    (∀ w' ∈ worlds E w ops, Accounted w'.table) ↔
      ∀ s ∈ steps E w ops, EqualLengths E s.1.table s.2 := by
  induction ops generalizing w with
  | nil => simp [worlds, steps, accounted_of_sound hs]
  | cons op ops ih =>
    unfold worlds steps
    cases hrun : runOp E w op with
    | none => simp [accounted_of_sound hs]
    | some r =>
      obtain ⟨w', out⟩ := r
      obtain ⟨hm', hkeep, hbreak⟩ := runOp_sound hrun hs hm
      simp only [List.mem_cons, forall_eq_or_imp]
      constructor
      · rintro ⟨-, hall⟩
        have heq : EqualLengths E w.table op := by
          by_contra hne
          exact hbreak hne (hall w' (worlds_head w' ops)).old
        exact ⟨heq, (ih (hkeep heq) hm').mp hall⟩
      · rintro ⟨heq, hall⟩
        exact ⟨accounted_of_sound hs, (ih (hkeep heq) hm').mpr hall⟩

theorem init_sound {granted : Bool} {leftover cap : ℕ} {t : Table ι}
    (h : hashtableInit E granted leftover cap = some t) :
    t.ledger.Sound ∧ t.ledger.Measured E := by
  simp only [hashtableInit] at h
  revert h
  generalize (if cap = 0 then hashtableInitCap else cap) = c
  intro h
  split_ifs at h
  split at h
  · simp at h
  · next bytes hmap =>
    rw [Option.some.injEq] at h
    rw [← h]
    refine ⟨⟨rfl, by simp [Table.ledger], by simp [Table.ledger, Event.Full], ?_⟩,
      Pages.pagesMap_length hmap, by simp [Table.ledger]⟩
    simp [Table.ledger, mappedBytes, unmappedBytes, Event.mapped, Event.unmapped]

/-- All states of a run are accounted for exactly when every migration that ends is one from `c`
buckets, of 88 bytes each, where `88 * c` and `176 * c` bytes take the same number of pages. -/
theorem pages_accounted_iff {granted : Bool} {leftover cap : ℕ} {t : Table ι}
    (hinit : hashtableInit E granted leftover cap = some t) (itemKey : ι → List UInt8)
    (ops : List (Op ι)) :
    (∀ w ∈ worlds E ⟨t, itemKey⟩ ops, Accounted w.table) ↔
      ∀ s ∈ steps E ⟨t, itemKey⟩ ops, EqualLengths E s.1.table s.2 :=
  worlds_accounted_iff (init_sound hinit).1 (init_sound hinit).2 ops

/-- Eight sets into one bucket: a migration between two arrays of one page starts and ends. -/
theorem pages_accounted_iff_eightSets :
    (∃ s ∈ steps byteEnv ⟨oneBucketTable, id⟩ (byteSets 8), s.1.table.LastStep) ∧
    ∀ w ∈ worlds byteEnv ⟨oneBucketTable, id⟩ (byteSets 8), Accounted w.table :=
  ⟨by decide +kernel, (pages_accounted_iff oneBucketTable_init id _).mpr (by decide +kernel)⟩

/-- The array of 32 buckets has one page, the next one has two: once the first migration is over,
`old_bytes` names one page of the two. -/
theorem pages_lost_after_growth :
    ∃ t, hashtableInit byteEnv true 0 32 = some t ∧
      StoresAll (fun _ => none) id (byteSets 225) ∧
      ¬ ∀ w ∈ worlds byteEnv ⟨t, id⟩ (byteSets 225), Accounted w.table := by
  refine ⟨(hashtableInit byteEnv true 0 32).get (by decide), (Option.some_get _).symm,
    storesAll_byteSets 225 _, fun hall => ?_⟩
  have hlost : ∃ w ∈ worlds byteEnv
      ⟨(hashtableInit byteEnv true 0 32).get (by decide), id⟩ (byteSets 225),
      w.table.oldBytes ≠ w.table.oldBuckets.len := by decide +kernel
  obtain ⟨w, hw, hne⟩ := hlost
  exact hne (hall w hw).old

end Kvx.Hashtable
