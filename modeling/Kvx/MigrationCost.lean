import Kvx.Growth

/-!
# The cost of growth

Each operation may move a chain of items. Over a run of any length the moves are paid for by the
sets: a migration of `c` chains moves the `6 * c` keys that it took to start it and the keys that
were set meanwhile, and the sizes of the migrations double.
-/
namespace Kvx.Hashtable

variable {ι : Type} {E : Env} {itemKey : ι → List UInt8} {t t₁ : Table ι}

def Slot.busy (s : Slot ι) : ℕ := if s.state = .busy then 1 else 0

/-- The number of its BUSY slots: `hashtable_migrate_slots` moves the items of these. -/
def Bucket.busy (bucket : Bucket ι) : ℕ := ∑ i, (bucket.slot i).busy

def Chain.busy (chain : Chain ι) : ℕ := (chain.buckets.map Bucket.busy).sum

/-- The number of items that the next migration step moves. -/
def Table.nextMoves (t : Table ι) : ℕ :=
  if t.newBuckets.isSome then (t.oldBuckets.chains[t.migrationPos]?).elim 0 Chain.busy else 0

def stepMoves (w : World ι) : Op ι → ℕ
  | .get _ => 0
  | _ => w.table.nextMoves

/-- The calls of `hashtable_migrate_slot` in a run. -/
def moves (E : Env) (w : World ι) (ops : List (Op ι)) : ℕ :=
  ((steps E w ops).map fun s => stepMoves s.1 s.2).sum

def sets : List (Op ι) → ℕ
  | [] => 0
  | .set .. :: ops => sets ops + 1
  | _ :: ops => sets ops

theorem chain_busy {n j : ℕ} {c : Chain ι} (h : ChainOk E itemKey n j c) : c.busy = c.bag.card := by
  have hbucket : ∀ b ∈ c.buckets, b.busy = b.bag.card := by
    intro b hb
    obtain ⟨k, hk⟩ := List.getElem?_of_mem hb
    unfold Bucket.busy Bucket.bag
    rw [Multiset.card_sum]
    refine Finset.sum_congr rfl fun i _ => ?_
    have hslot := h ⟨k, i⟩ (b.slot i) (by simp [Chain.slotAt, hk])
    unfold Slot.busy
    split_ifs with hstate
    · obtain ⟨p, hp, -⟩ := hslot hstate
      rw [slot_bag_busy hstate hp, Multiset.card_singleton]
    · rw [slot_bag_empty (slot_state_ne_busy.mp hstate), Multiset.card_zero]
  unfold Chain.busy Chain.bag
  rw [List.map_congr_left hbucket]
  induction c.buckets with
  | nil => rfl
  | cons b buckets ih => simp [ih]

theorem writeSlot_oldSize (t : Table ι) (ref : SlotRef) (item : Option ι) :
    (t.writeSlot ref item).oldSize = t.oldSize := by
  unfold Table.writeSlot
  cases ref.side <;> rfl

theorem checkInit_oldSize (t : Table ι) (granted : Bool) :
    (hashtableCheckInitMigration E granted t).oldSize = t.oldSize := by
  unfold hashtableCheckInitMigration
  split_ifs
  · rfl
  · dsimp only
    split <;> rfl

theorem noteCalloc_oldSize (t : Table ι) (grown : Bool) :
    (t.noteCalloc grown).oldSize = t.oldSize := by
  cases grown <;> rfl

theorem set_oldSize {granted : Bool} {hash : BitVec 64} {key : List UInt8} {t' : Table ι}
    {ref : SlotRef} (hrun : hashtableSet E itemKey granted t hash key = some (t', ref)) :
    ∃ t₁, hashtableMaintenance E itemKey t = some t₁ ∧ t'.oldSize ≤ t₁.oldSize + 1 := by
  simp only [hashtableSet, Option.bind_eq_bind, Option.bind_eq_some_iff] at hrun
  obtain ⟨t₁, hmaint, hrun⟩ := hrun
  refine ⟨t₁, hmaint, ?_⟩
  split_ifs at hrun
  · simp only [hashtableSetNew, Option.bind_eq_bind, Option.bind_eq_some_iff, Option.some.injEq,
      Prod.mk.injEq] at hrun
    obtain ⟨m, -, r, -, rfl, -⟩ := hrun
    have hsize := noteCalloc_oldSize t₁ r.grown
    dsimp only
    omega
  · simp only [hashtableSetOld, Option.bind_eq_bind, Option.bind_eq_some_iff, Option.some.injEq,
      Prod.mk.injEq] at hrun
    obtain ⟨r, -, rfl, -⟩ := hrun
    have hsize := noteCalloc_oldSize (hashtableCheckInitMigration E granted t₁) r.grown
    have hstart := checkInit_oldSize (E := E) t₁ granted
    dsimp only
    split_ifs <;> omega

theorem delete_oldSize {hash : BitVec 64} {key : List UInt8} {t' : Table ι} {item : Option ι}
    (hrun : hashtableDelete E itemKey t hash key = some (t', item)) :
    ∃ t₁, hashtableMaintenance E itemKey t = some t₁ ∧ t'.oldSize ≤ t₁.oldSize := by
  simp only [hashtableDelete, Option.bind_eq_bind, Option.bind_eq_some_iff] at hrun
  obtain ⟨t₁, hmaint, hrun⟩ := hrun
  refine ⟨t₁, hmaint, ?_⟩
  split_ifs at hrun
  · simp only [hashtableDeleteNew, Option.bind_eq_bind, Option.bind_eq_some_iff] at hrun
    obtain ⟨m, -, r, -, hrun⟩ := hrun
    cases r with
    | none =>
      cases hrun
      exact le_rfl
    | some r =>
      cases hrun
      exact le_rfl
  · simp only [hashtableDeleteOld, Option.bind_eq_bind, Option.bind_eq_some_iff] at hrun
    obtain ⟨r, -, hrun⟩ := hrun
    cases r with
    | none =>
      cases hrun
      exact le_rfl
    | some r =>
      cases hrun
      exact Nat.sub_le _ _

theorem maintenance_moves (h : TableInv E itemKey t)
    (hrun : hashtableMaintenance E itemKey t = some t₁) :
    t.nextMoves ≤ t.oldSize ∧ (t₁.newBuckets.isSome → t₁.oldSize + t.nextMoves = t.oldSize) := by
  cases hm : t.newBuckets with
  | none =>
    have hsame : t₁ = t := by
      rcases maintenance_cases hrun with ⟨-, hsame⟩ | ⟨_, _, hsome, -⟩
      · exact hsame
      · simp [hm] at hsome
    simp [Table.nextMoves, hm, hsame]
  | some m =>
    obtain ⟨c, t₂, head, hc, hdrain, hempty, hmv⟩ := drain_total h hm
    obtain ⟨m₂, hd⟩ := drained_spec h hm hc hempty hmv
    have hmoves : t.nextMoves = c.bag.card := by
      simp only [Table.nextMoves, hm, Option.isSome_some, if_true, hc, Option.elim_some]
      exact chain_busy (h.old_ok.chain _ c hc)
    have hsplit : t.oldSize = t₂.oldSize + c.bag.card := by
      rw [h.old_size, hd.oldBag, Multiset.card_add, hd.oldSize]
    refine ⟨by omega, fun hsome => ?_⟩
    rcases maintenance_cases hrun with ⟨hnone, -⟩ | ⟨t₂', m₂', -, hdrain', hm₂', hlast⟩
    · simp [hm] at hnone
    rw [hdrain, Option.some.injEq] at hdrain'
    subst hdrain'
    split_ifs at hlast
    · rw [hlast] at hsome
      simp [hashtableFinishMigration] at hsome
    · rw [hlast, hmoves, hsplit]

/-- After `s` sets and `n` moves in a table that had `c₀` buckets at first. No more than `peak` items
were in it at any time. -/
structure Paid (c₀ peak s n : ℕ) (t : Table ι) : Prop where
  len : hashtableLen t ≤ s
  -- the sizes of the migrations so far add up to `6 * (t.oldBucketCount - c₀)`
  idle : t.newBuckets = none → n + 6 * c₀ ≤ 6 * t.oldBucketCount + s
  running : t.newBuckets.isSome →
    n + t.oldSize + 6 * c₀ ≤ 12 * t.oldBucketCount + s ∧ 6 * t.oldBucketCount ≤ s ∧
      6 * t.oldBucketCount ≤ peak
  grown : t.oldBucketCount = c₀ ∨ 3 * t.oldBucketCount ≤ s ∧ 3 * t.oldBucketCount ≤ peak

section Operation

variable {w w' : World ι} {op : Op ι} {M : ItemMap ι} {out : Outcome ι} {c₀ peak s n : ℕ}

/-- The operation starts a migration, which is due once the array has its load. -/
theorem Paid.starts (h : Paid c₀ peak s n w.table) (hinv : TableInv E w.itemKey w.table)
    (hp : Paced w.table) (hpeak : hashtableLen w.table ≤ peak) (hdue : w.table.Due)
    (hstart : Started w.table w'.table) (hlen : hashtableLen w'.table ≤ hashtableLen w.table + 1) :
    Paid c₀ peak (s + 1) n w'.table := by
  have hload := hp.idle hdue.1
  have hfull := hdue.2
  have hscale := hp.scale
  have hsize := hinv.len_idle hdue.1
  have hidle := h.idle hdue.1
  have hs := h.len
  have hold : w'.table.oldSize ≤ hashtableLen w'.table := Nat.le_add_right _ _
  have hrunning := hstart.running
  exact {
    len := by omega
    idle := fun hnone => by simp [hnone] at hrunning
    running := fun _ => by
      rw [hstart.oldBucketCount]
      omega
    grown := by
      rw [hstart.oldBucketCount]
      have := h.grown
      omega }

theorem Paid.moves {d : ℕ} (h : Paid c₀ peak s n w.table) (hsome : w.table.newBuckets.isSome)
    (hsome' : w'.table.newBuckets.isSome)
    (hcount : w'.table.oldBucketCount = w.table.oldBucketCount)
    (hold : w'.table.oldSize + w.table.nextMoves ≤ w.table.oldSize + d)
    (hlen : hashtableLen w'.table ≤ hashtableLen w.table + d) :
    Paid c₀ peak (s + d) (n + w.table.nextMoves) w'.table := by
  obtain ⟨hmoves, hsets, hpeak⟩ := h.running hsome
  have hs := h.len
  exact {
    len := by omega
    idle := fun hnone => by simp [hnone] at hsome'
    running := fun _ => by
      rw [hcount]
      omega
    grown := by
      rw [hcount]
      have := h.grown
      omega }

theorem Paid.ends {d : ℕ} (h : Paid c₀ peak s n w.table) (hsome : w.table.newBuckets.isSome)
    (hnone' : w'.table.newBuckets = none)
    (hcount : w'.table.oldBucketCount = 2 * w.table.oldBucketCount)
    (hold : w.table.nextMoves ≤ w.table.oldSize)
    (hlen : hashtableLen w'.table ≤ hashtableLen w.table + d) :
    Paid c₀ peak (s + d) (n + w.table.nextMoves) w'.table := by
  obtain ⟨hmoves, hsets, hpeak⟩ := h.running hsome
  have hs := h.len
  exact {
    len := by omega
    idle := fun _ => by omega
    running := fun hsome' => by simp [hnone'] at hsome'
    grown := Or.inr (by omega) }

theorem Paid.rests {d : ℕ} (h : Paid c₀ peak s n w.table) (hnone : w.table.newBuckets = none)
    (hkept : Kept w.table w'.table) (hlen : hashtableLen w'.table ≤ hashtableLen w.table + d) :
    Paid c₀ peak (s + d) n w'.table := by
  have hidle := h.idle hnone
  have hcount := hkept.oldBucketCount
  have hs := h.len
  exact {
    len := by omega
    idle := fun _ => by omega
    running := fun hsome => by simp [hkept.idle hnone] at hsome
    grown := by
      rw [hcount]
      have := h.grown
      omega }

def Op.sets : Op ι → ℕ
  | .set .. => 1
  | _ => 0

theorem oldSize_step (hrun : runOp E w op = some (w', out))
    (hmaint : hashtableMaintenance E w.itemKey w.table = some t₁) (hop : op.Migrates) :
    w'.table.oldSize ≤ t₁.oldSize + op.sets := by
  cases op with
  | get key => exact hop.elim
  | set granted key item keys =>
    simp only [runOp, Option.bind_eq_bind, Option.bind_eq_some_iff, Option.some.injEq,
      Prod.mk.injEq] at hrun
    obtain ⟨⟨table, ref⟩, hset, found, -, rfl, -⟩ := hrun
    obtain ⟨t₂, hmaint', hsize⟩ := set_oldSize hset
    rw [hmaint, Option.some.injEq] at hmaint'
    subst hmaint'
    rw [writeSlot_oldSize]
    exact hsize
  | delete key =>
    simp only [runOp, Option.bind_eq_bind, Option.bind_eq_some_iff, Option.some.injEq,
      Prod.mk.injEq] at hrun
    obtain ⟨⟨table, found⟩, hdelete, rfl, -⟩ := hrun
    obtain ⟨t₂, hmaint', hsize⟩ := delete_oldSize hdelete
    rw [hmaint, Option.some.injEq] at hmaint'
    subst hmaint'
    exact hsize

theorem len_step (h : Refines E w M) (h' : Refines E w' (mapOp M op)) (hop : op.Migrates) :
    hashtableLen w'.table ≤ hashtableLen w.table + op.sets := by
  cases op with
  | get key => exact hop.elim
  | set granted key item keys => exact h.len_succ h'
  | delete key => exact h.len_delete h'

theorem paid_step (h : Refines E w M) (hp : Paced w.table) (h' : Refines E w' (mapOp M op))
    (hgrant : Grants E w op) (hrun : runOp E w op = some (w', out))
    (hpaid : Paid c₀ peak s n w.table) (hpeak : hashtableLen w.table ≤ peak) :
    Paid c₀ peak (s + op.sets) (n + stepMoves w op) w'.table := by
  rcases runOp_cases hrun with ⟨hop, rfl⟩ | ⟨hop, t₁, hmaint, hcase⟩
  · cases op with
    | get key => exact hpaid
    | set granted key item keys => exact absurd trivial hop
    | delete key => exact absurd trivial hop
  have hmoves : stepMoves w op = w.table.nextMoves := by
    cases op with
    | get key => exact hop.elim
    | set granted key item keys => rfl
    | delete key => rfl
  have hlen := len_step h h' hop
  have hsize := oldSize_step hrun hmaint hop
  obtain ⟨hle, hleaves⟩ := maintenance_moves h.inv hmaint
  have hstay : ¬ t₁.Due → Kept t₁ w'.table := fun hd => by
    rcases hcase with ⟨hkept, -⟩ | ⟨granted, key, item, keys, -, hkept⟩
    · exact hkept
    · exact checkInit_stays hd ▸ hkept
  rw [hmoves]
  cases maintained h.inv hmaint with
  | rests hidle hsame =>
    subst hsame
    have hzero : w.table.nextMoves = 0 := by simp [Table.nextMoves, hidle]
    rw [hzero, Nat.add_zero]
    by_cases hdue : w.table.Due
    · rcases hcase with ⟨hkept, -⟩ | ⟨granted, key, item, keys, rfl, hkept⟩
      · exact hpaid.rests hidle hkept hlen
      · have hstart := (checkInit_starts hdue (hgrant _ hmaint hdue)).kept hkept
        exact hpaid.starts h.inv hp hpeak hdue hstart hlen
    · exact hpaid.rests hidle (hstay hdue) hlen
  | moves hsome hlt hsome₁ hcount₁ hpos₁ hscale₁ harrays₁ =>
    have hkept := hstay fun hd => by simp [hd.1] at hsome₁
    have hold := hleaves hsome₁
    exact hpaid.moves hsome (hkept.isSome.trans hsome₁) (hkept.oldBucketCount.trans hcount₁)
      (by omega) hlen
  | ends hsome hlast hnone₁ hcount₁ hscale₁ harrays₁ =>
    have hload := hp.running hsome
    obtain ⟨t₁', hmaint', hinv₁, hbag₁⟩ := maintenance_spec h.inv
    rw [hmaint, Option.some.injEq] at hmaint'
    subst hmaint'
    have hlen₁ : hashtableLen t₁ = hashtableLen w.table := by rw [hinv₁.len, h.inv.len, hbag₁]
    have hold : t₁.oldSize ≤ hashtableLen t₁ := Nat.le_add_right _ _
    have hkept := hstay fun hd => by
      have := hd.2
      omega
    exact hpaid.ends hsome (hkept.idle hnone₁) (hkept.oldBucketCount.trans hcount₁) hle hlen

end Operation

theorem sets_cons (op : Op ι) (ops : List (Op ι)) : sets (op :: ops) = op.sets + sets ops := by
  cases op with
  | set granted key item keys => exact Nat.add_comm _ _
  | get key => exact (Nat.zero_add _).symm
  | delete key => exact (Nat.zero_add _).symm

theorem Driven.paid {w w' : World ι} {M : ItemMap ι} {ops : List (Op ι)} {c₀ peak s n : ℕ}
    (h : Driven E w M ops) (hpaid : Paid c₀ peak s n w.table)
    (hpeak : ∀ v ∈ worlds E w ops, hashtableLen v.table ≤ peak)
    (hrun : runTo E w ops = some w') :
    Paid c₀ peak (s + sets ops) (n + moves E w ops) w'.table := by
  induction ops generalizing w M s n with
  | nil =>
    rw [runTo, Option.some.injEq] at hrun
    exact hrun ▸ hpaid
  | cons op ops ih =>
    obtain ⟨w₁, out, hop, -, h₁⟩ := h.step
    have hgrants := h.grants
    simp only [steps, hop, List.forall_mem_cons] at hgrants
    have hfirst := hpeak w (worlds_head w _)
    have hrest : ∀ v ∈ worlds E w₁ ops, hashtableLen v.table ≤ peak := fun v hv => by
      refine hpeak v ?_
      simp only [worlds, hop]
      exact List.mem_cons_of_mem w hv
    have hpaid₁ := paid_step h.refines h.paced h₁.refines hgrants.1 hop hpaid hfirst
    rw [runTo, hop] at hrun
    have hfinal := ih h₁ hpaid₁ hrest hrun
    rw [sets_cons, ← Nat.add_assoc]
    have hmoves : moves E w (op :: ops) = stepMoves w op + moves E w₁ ops := by
      simp only [moves, steps, hop, List.map_cons, List.sum_cons]
    rw [hmoves, ← Nat.add_assoc]
    exact hfinal

theorem init_idle {granted : Bool} {leftover cap : ℕ} {t : Table ι}
    (hinit : hashtableInit E granted leftover cap = some t) : t.newBuckets = none := by
  simp only [hashtableInit] at hinit
  split_ifs at hinit
  all_goals
    split at hinit
    · simp at hinit
    · rw [Option.some.injEq] at hinit
      rw [← hinit]

/-- Where every array that is due is mapped, the migrations of a run move at most three items for
each set, and the buckets stay within a third of the most items that were in the table, or are as
many as at first. -/
theorem migration_amortised {granted : Bool} {leftover cap : ℕ} {t : Table ι}
    (hcap : cap < 2 ^ 64) (hinit : hashtableInit E granted leftover cap = some t)
    (itemKey : ι → List UInt8) (ops : List (Op ι))
    (hst : StoresAll (fun _ => none) itemKey ops)
    (hgrants : ∀ s ∈ steps E ⟨t, itemKey⟩ ops, Grants E s.1 s.2) :
    moves E ⟨t, itemKey⟩ ops ≤ 3 * sets ops ∧
      ∃ w, runTo E ⟨t, itemKey⟩ ops = some w ∧
        ∀ peak, (∀ v ∈ worlds E ⟨t, itemKey⟩ ops, hashtableLen v.table ≤ peak) →
          3 * hashtableBucketCount w.table ≤ max (3 * hashtableBucketCount t) peak := by
  obtain ⟨hinv, hbag⟩ := init_spec hcap itemKey hinit
  have hdriven : Driven E ⟨t, itemKey⟩ (fun _ => none) (ops ++ []) :=
    ⟨init_refines hcap hinit itemKey, init_paced hinv hbag hinit, by rwa [List.append_nil],
      by rwa [List.append_nil]⟩
  obtain ⟨w, M, hrun, hw⟩ := hdriven.run
  rw [List.append_nil] at hdriven
  have hnone : t.newBuckets = none := init_idle hinit
  have hcount : hashtableBucketCount t = t.oldBucketCount := by
    simp [hashtableBucketCount, hnone]
  have hpaid : ∀ peak, (∀ v ∈ worlds E ⟨t, itemKey⟩ ops, hashtableLen v.table ≤ peak) →
      Paid t.oldBucketCount peak (0 + sets ops) (0 + moves E ⟨t, itemKey⟩ ops) w.table := by
    intro peak hpeak
    refine hdriven.paid ?_ hpeak hrun
    exact {
      len := by
        rw [hinv.len, hbag]
        rfl
      idle := fun _ => by
        dsimp only
        omega
      running := fun hsome => by simp [hnone] at hsome
      grown := Or.inl rfl }
  constructor
  · obtain ⟨peak, hpeak⟩ : ∃ peak, ∀ v ∈ worlds E ⟨t, itemKey⟩ ops,
        hashtableLen v.table ≤ peak :=
      ⟨((worlds E ⟨t, itemKey⟩ ops).map fun v => hashtableLen v.table).sum, fun v hv =>
        List.single_le_sum (by simp) _ (List.mem_map_of_mem hv)⟩
    have hp := hpaid peak hpeak
    have hgrown := hp.grown
    cases hm : w.table.newBuckets with
    | none =>
      have hidle := hp.idle hm
      omega
    | some m =>
      have hrunning := hp.running (by rw [hm]; rfl)
      omega
  · refine ⟨w, hrun, fun peak hpeak => ?_⟩
    have hp := hpaid peak hpeak
    have hgrown := hp.grown
    rw [hcount]
    cases hm : w.table.newBuckets with
    | none =>
      have hbuckets : hashtableBucketCount w.table = w.table.oldBucketCount := by
        simp [hashtableBucketCount, hm]
      omega
    | some m =>
      have hrunning := hp.running (by rw [hm]; rfl)
      have hbuckets : hashtableBucketCount w.table = w.table.newBucketCount := by
        simp [hashtableBucketCount, hm]
      have hdouble := (hw.refines.inv.running m hm).count
      omega

theorem migration_amortised_nineSets : ∃ t, hashtableInit byteEnv true 0 1 = some t ∧
    moves byteEnv ⟨t, id⟩ (byteSets 9) ≤ 3 * sets (byteSets 9) :=
  ⟨(hashtableInit byteEnv true 0 1).get (by decide), (Option.some_get _).symm,
    (migration_amortised (by decide) (Option.some_get _).symm id _ (storesAll_byteSets 9 _)
      (by decide +kernel)).1⟩

end Kvx.Hashtable
