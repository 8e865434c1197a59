import Kvx.TableFrame

/-!
# Page accounting

The ledger of a table forgets the items: it keeps the lengths of the mappings, the byte
counts the table has noted for them, and the totals asked of the system. Only the start
and the end of a migration change it. The end of a migration keeps `oldBytes`, although
the new array becomes the old one.
-/
namespace Kvx.Hashtable

variable {ι : Type} {E : Env} {itemKey : ι → List UInt8}

def Event.mapped : Event → ℕ
  | .map len => len
  | _ => 0

def Event.unmapped : Event → ℕ
  | .unmap _ bytes => bytes
  | _ => 0

/-- An unmapping is given the full length of its mapping. -/
def Event.Full : Event → Prop
  | .unmap len bytes => bytes = len
  | _ => True

def mappedBytes (trace : List Event) : ℕ := (trace.map Event.mapped).sum

def unmappedBytes (trace : List Event) : ℕ := (trace.map Event.unmapped).sum

structure Ledger where
  pos : ℕ
  count : ℕ
  oldBytes : ℕ
  oldLen : ℕ
  newBytes : ℕ
  newCount : ℕ
  newLen : Option ℕ
  mapped : ℕ
  unmapped : ℕ
  full : Prop

def Table.ledger (table : Table ι) : Ledger where
  pos := table.migrationPos
  count := table.oldBucketCount
  oldBytes := table.oldBytes
  oldLen := table.oldBuckets.len
  newBytes := table.newBytes
  newCount := table.newBucketCount
  newLen := table.newBuckets.map Mapping.len
  mapped := mappedBytes table.trace
  unmapped := unmappedBytes table.trace
  full := ∀ e ∈ table.trace, e.Full

/-- A sum over a trace that counts only the mappings does not see the chained buckets. -/
theorem chained_sum {α : Type} [AddCommMonoid α] {f : Event → α} (hf : ∀ e, e.Chained → f e = 0)
    {events : List Event} (h : ∀ e ∈ events, e.Chained) (trace : List Event) :
    ((events ++ trace).map f).sum = (trace.map f).sum := by
  have hzero : (events.map f).sum = 0 := by
    apply List.sum_eq_zero
    intro a ha
    obtain ⟨e, he, rfl⟩ := List.mem_map.mp ha
    exact hf e (h e he)
  rw [List.map_append, List.sum_append, hzero, zero_add]

theorem chained_totals {events : List Event} (h : ∀ e ∈ events, e.Chained) (trace : List Event) :
    mappedBytes (events ++ trace) = mappedBytes trace ∧
      unmappedBytes (events ++ trace) = unmappedBytes trace ∧
      ((∀ e ∈ events ++ trace, e.Full) ↔ ∀ e ∈ trace, e.Full) := by
  have hcounts : ∀ e : Event, e.Chained → e.mapped = 0 ∧ e.unmapped = 0 ∧ e.Full := by
    intro e he
    cases e with
    | map => exact he.elim
    | unmap => exact he.elim
    | calloc => exact ⟨rfl, rfl, trivial⟩
    | free => exact ⟨rfl, rfl, trivial⟩
  refine ⟨chained_sum (fun e he => (hcounts e he).1) h trace,
    chained_sum (fun e he => (hcounts e he).2.1) h trace, ?_⟩
  rw [List.forall_mem_append]
  exact and_iff_right fun e he => (hcounts e (h e he)).2.2

theorem Kept.ledger {t t' : Table ι} (h : Kept t t') : t'.ledger = t.ledger := by
  obtain ⟨events, htrace, hall⟩ := h.trace
  obtain ⟨hmap, hunmap, hfull⟩ := chained_totals hall t.trace
  simp only [Table.ledger, h.migrationPos, h.oldBucketCount, h.oldBytes, h.oldLen, h.newBytes,
    h.newBucketCount, h.newLen, htrace, hmap, hunmap, hfull]

def Ledger.start (l : Ledger) (bytes : ℕ) : Ledger :=
  { l with
    newBytes := bytes
    newCount := Pages.sizeT (l.count * 2)
    newLen := some bytes
    mapped := bytes + l.mapped }

def Ledger.finish (l : Ledger) (len : ℕ) : Ledger :=
  { l with
    pos := 0
    count := l.newCount
    oldLen := len
    newCount := 0
    newLen := none
    unmapped := l.oldBytes + l.unmapped
    full := l.oldBytes = l.oldLen ∧ l.full }

/-- The next step of a migration is its last. -/
def Ledger.Finishes (l : Ledger) : Prop := l.newLen ≠ none ∧ l.pos + 1 = l.count

/-- The effect of one migration step. -/
def Ledger.step (l : Ledger) : Ledger :=
  match l.newLen with
  | none => l
  | some len =>
      if l.pos + 1 = l.count then Ledger.finish { l with pos := l.pos + 1 } len
      else { l with pos := l.pos + 1 }

theorem Ledger.step_some {l : Ledger} {len : ℕ} (h : l.newLen = some len) : l.step =
    if l.pos + 1 = l.count then Ledger.finish { l with pos := l.pos + 1 } len
    else { l with pos := l.pos + 1 } := by
  unfold Ledger.step
  split
  · next hn => simp [h] at hn
  · next len' hl =>
    rw [h, Option.some.injEq] at hl
    rw [hl]

theorem ledger_finishMigration {t : Table ι} {m : Mapping ι} :
    (hashtableFinishMigration t m).ledger = t.ledger.finish m.len := by
  simp [hashtableFinishMigration, Ledger.finish, Table.ledger, mappedBytes, unmappedBytes,
    Event.mapped, Event.unmapped, Event.Full]

theorem ledger_maintenance {t t' : Table ι} (h : hashtableMaintenance E itemKey t = some t') :
    t'.ledger = t.ledger.step := by
  rcases maintenance_cases h with ⟨hm, rfl⟩ | ⟨t₁, m₁, hsome, h₁, hm₁, rfl⟩
  · simp [Ledger.step, Table.ledger, hm]
  · have hl : t₁.ledger = { t.ledger with pos := t.ledger.pos + 1 } :=
      (Kept.migrateBucket h₁).ledger
    have hlen : t.ledger.newLen = some m₁.len := by
      have hlen₁ : t₁.ledger.newLen = some m₁.len := by simp [Table.ledger, hm₁]
      rw [← hlen₁, hl]
    rw [Ledger.step_some hlen]
    by_cases hdone : t.migrationPos + 1 = t.oldBucketCount
    · have hdone' : t.ledger.pos + 1 = t.ledger.count := hdone
      rw [if_pos hdone, if_pos hdone', ledger_finishMigration, hl]
    · have hdone' : ¬ t.ledger.pos + 1 = t.ledger.count := hdone
      rw [if_neg hdone, if_neg hdone', hl]

/-- The length that `pages_map` reports for an array of `count` buckets. -/
def arrayLength (E : Env) (count : ℕ) : ℕ :=
  Pages.pagesLength E.pageSize (Pages.sizeT (count * sizeofBucket))

theorem ledger_checkInit (t : Table ι) (granted : Bool) :
    (hashtableCheckInitMigration E granted t).ledger = t.ledger ∨
      t.ledger.newLen = none ∧ (hashtableCheckInitMigration E granted t).ledger =
        t.ledger.start (arrayLength E (Pages.sizeT (t.ledger.count * 2))) := by
  unfold hashtableCheckInitMigration
  split_ifs with hstay
  · exact Or.inl rfl
  · simp only [not_or, Bool.not_eq_true, Option.isSome_eq_false_iff, Option.isNone_iff_eq_none]
      at hstay
    dsimp only
    cases hmap : Pages.pagesMap E.pageSize granted
        (Pages.sizeT (Pages.sizeT (t.oldBucketCount * 2) * sizeofBucket)) with
    | none => exact Or.inl rfl
    | some bytes =>
      have hbytes : bytes = arrayLength E (Pages.sizeT (t.oldBucketCount * 2)) :=
        Pages.pagesMap_length hmap
      subst hbytes
      refine Or.inr ⟨by simp [Table.ledger, hstay.2], ?_⟩
      simp [Ledger.start, Table.ledger, mappedBytes, unmappedBytes, Event.mapped, Event.unmapped,
        Event.Full]

/-- One operation changes the ledger by a migration step, and then by starting a migration. -/
def Ledger.Next (E : Env) (l l' : Ledger) : Prop :=
  l' = l.step ∨ l.step.newLen = none ∧
    l' = l.step.start (arrayLength E (Pages.sizeT (l.step.count * 2)))

end Kvx.Hashtable
