import Kvx.Lib.KeyedBag
import Kvx.TableSet

/-!
# The table refines a finite map

A run interleaves sets, lookups and deletes. The caller of a set stores an item that
carries the key before the next call; the item's memory may have held anything before.
-/
namespace Kvx.Hashtable

open Kvx.Lib

variable {ι : Type} {E : Env}

/-- `keys` reads the keys of all items once the caller of the set has stored `item`. -/
inductive Op (ι : Type)
  | set (granted : Bool) (key : List UInt8) (item : ι) (keys : ι → List UInt8)
  | get (key : List UInt8)
  | delete (key : List UInt8)

/-- A table, and the keys in the memory its items point at. -/
structure World (ι : Type) where
  table : Table ι
  itemKey : ι → List UInt8

/-- The item the operation hands out, and `hashtable_len` after it. -/
structure Outcome (ι : Type) where
  item : Option ι
  len : ℕ
  deriving DecidableEq, Repr

def runOp (E : Env) (w : World ι) : Op ι → Option (World ι × Outcome ι)
  | .set granted key item keys => do
      let (table, ref) ← hashtableSet E w.itemKey granted w.table (E.xxh3 key) key
      let found ← table.readSlot ref
      let table := table.writeSlot ref (some item)
      some (⟨table, keys⟩, ⟨found, hashtableLen table⟩)
  | .get key => do
      let found ← hashtableGet w.itemKey w.table (E.xxh3 key) key
      some (w, ⟨found, hashtableLen w.table⟩)
  | .delete key => do
      let (table, found) ← hashtableDelete E w.itemKey w.table (E.xxh3 key) key
      some (⟨table, w.itemKey⟩, ⟨found, hashtableLen table⟩)

def runOps (E : Env) : World ι → List (Op ι) → Option (List (Outcome ι))
  | _, [] => some []
  | w, op :: ops => do
      let (w, out) ← runOp E w op
      let outs ← runOps E w ops
      some (out :: outs)

def runTo (E : Env) : World ι → List (Op ι) → Option (World ι)
  | w, [] => some w
  | w, op :: ops => do
      let (w, _) ← runOp E w op
      runTo E w ops

/-- The states of a run, its first one included. -/
def worlds (E : Env) : World ι → List (Op ι) → List (World ι)
  | w, [] => [w]
  | w, op :: ops =>
      match runOp E w op with
      | some (w', _) => w :: worlds E w' ops
      | none => [w]

/-- The completed steps of a run, each with the state it was taken from. -/
def steps (E : Env) : World ι → List (Op ι) → List (World ι × Op ι)
  | _, [] => []
  | w, op :: ops =>
      match runOp E w op with
      | some (w', _) => (w, op) :: steps E w' ops
      | none => []

def Op.Migrates : Op ι → Prop
  | .get _ => False
  | _ => True

theorem worlds_head (w : World ι) (ops : List (Op ι)) : w ∈ worlds E w ops := by
  cases ops with
  | nil => simp [worlds]
  | cons op ops =>
    unfold worlds
    split <;> simp

abbrev ItemMap (ι : Type) := List UInt8 → Option ι

def mapOp (M : ItemMap ι) : Op ι → ItemMap ι
  | .set _ key item _ => Function.update M key (some item)
  | .get _ => M
  | .delete key => Function.update M key none

def Op.key : Op ι → List UInt8
  | .set _ key _ _ => key
  | .get key => key
  | .delete key => key

theorem mapOp_of_ne {M : ItemMap ι} (op : Op ι) {k : List UInt8} (h : k ≠ op.key) :
    mapOp M op k = M k := by
  cases op with
  | set granted key item keys => exact Function.update_of_ne h _ _
  | get key => rfl
  | delete key => exact Function.update_of_ne h _ _

/-- Each operation hands out the item of its key, and leaves that many keys present. -/
noncomputable def mapRun : ItemMap ι → List (Op ι) → List (Option ι × ℕ∞)
  | _, [] => []
  | M, op :: ops => (M op.key, {k | mapOp M op k ≠ none}.encard) :: mapRun (mapOp M op) ops

/-- The caller of a set stores an item with the key and keeps the keys of the items present. -/
def Stores (M : ItemMap ι) (itemKey : ι → List UInt8) : Op ι → Prop
  | .set _ key item keys =>
      keys item = key ∧ ∀ k p, k ≠ key → M k = some p → keys p = itemKey p
  | _ => True

def Op.itemKey (itemKey : ι → List UInt8) : Op ι → ι → List UInt8
  | .set _ _ _ keys => keys
  | _ => itemKey

def StoresAll : ItemMap ι → (ι → List UInt8) → List (Op ι) → Prop
  | _, _, [] => True
  | M, itemKey, op :: ops =>
      Stores M itemKey op ∧ StoresAll (mapOp M op) (op.itemKey itemKey) ops

/-- The items of the table, by their keys, are the map. -/
structure Refines (E : Env) (w : World ι) (M : ItemMap ι) : Prop where
  inv : TableInv E w.itemKey w.table
  map : Indexes w.itemKey w.table.bag M

theorem Refines.len {w : World ι} {M : ItemMap ι} (h : Refines E w M) :
    (hashtableLen w.table : ℕ∞) = {k | M k ≠ none}.encard := by
  rw [h.inv.len, h.map.card_eq]

/-- A lookup that hands out the item with the key, or tells its absence, reads the map. -/
theorem lookup_eq {itemKey : ι → List UInt8} {s : Multiset ι} {M : ItemMap ι}
    (h : Indexes itemKey s M) {key : List UInt8} {r : Option ι}
    (hhit : ∀ p, r = some p → p ∈ s ∧ itemKey p = key)
    (hmiss : r = none → ∀ p ∈ s, itemKey p ≠ key) : r = M key := by
  cases r with
  | none => exact ((h.absent key).mpr (hmiss rfl)).symm
  | some p => exact ((h.lookup key p).mpr (hhit p rfl)).symm

theorem set_refines {w : World ι} {M : ItemMap ι} (h : Refines E w M) (granted : Bool)
    {key : List UInt8} {item : ι} {keys : ι → List UInt8}
    (hst : Stores M w.itemKey (.set granted key item keys)) :
    ∃ w' out, runOp E w (.set granted key item keys) = some (w', out) ∧ w'.itemKey = keys ∧
      Refines E w' (Function.update M key (some item)) ∧ out.item = M key ∧
      out.len = hashtableLen w'.table := by
  obtain ⟨hitem, hkeep⟩ := hst
  obtain ⟨t', ref, found, rest, hrun, hslot⟩ := set_spec h.inv granted key
  have hfound : found = M key := by
    refine lookup_eq h.map (fun q hq => ?_) fun hn => (hslot.absent hn).2
    obtain ⟨hk, hbag⟩ := hslot.present q hq
    exact ⟨by rw [hbag]; exact Multiset.mem_cons_self q rest, hk⟩
  have hsame : ∀ x ∈ rest, keys x = w.itemKey x := by
    intro x hx
    cases hf : found with
    | none =>
      obtain ⟨rfl, hne⟩ := hslot.absent hf
      exact hkeep _ x (hne x hx) (h.map.of_mem hx)
    | some q =>
      obtain ⟨hk, hbag⟩ := hslot.present q hf
      have hnd := h.map.nodup
      rw [hbag, Multiset.map_cons, Multiset.nodup_cons, hk] at hnd
      refine hkeep _ x (fun he => hnd.1 ?_) (h.map.of_mem ?_)
      · exact Multiset.mem_map.mpr ⟨x, hx, he⟩
      · rw [hbag]
        exact Multiset.mem_cons_of_mem hx
  obtain ⟨hinv, hbag'⟩ := hslot.stored keys item hitem hsame
  refine ⟨⟨t'.writeSlot ref (some item), keys⟩,
    ⟨found, hashtableLen (t'.writeSlot ref (some item))⟩, ?_, rfl, ⟨hinv, ?_⟩, hfound, rfl⟩
  · simp -implicitDefEqProofs only [runOp, hrun, hslot.read, Option.bind_eq_bind, Option.bind_some]
  · rw [hbag']
    cases hf : found with
    | none =>
      obtain ⟨rfl, -⟩ := hslot.absent hf
      have hi := (h.map.congr hsame).insert (p := item) (by rw [hitem, ← hfound, hf])
      rwa [hitem] at hi
    | some q =>
      obtain ⟨hk, hbag⟩ := hslot.present q hf
      have hmap := h.map
      rw [hbag] at hmap
      have hi := hmap.replace hsame (hitem.trans hk.symm)
      rwa [hk] at hi

theorem get_refines {w : World ι} {M : ItemMap ι} (h : Refines E w M) (key : List UInt8) :
    runOp E w (.get key) = some (w, ⟨M key, hashtableLen w.table⟩) := by
  obtain ⟨r, hrun, hhit, hmiss⟩ := get_spec h.inv key
  rw [← lookup_eq h.map hhit hmiss]
  simp -implicitDefEqProofs only [runOp, hrun, Option.bind_eq_bind, Option.bind_some]

theorem delete_refines {w : World ι} {M : ItemMap ι} (h : Refines E w M) (key : List UInt8) :
    ∃ t', runOp E w (.delete key) = some (⟨t', w.itemKey⟩, ⟨M key, hashtableLen t'⟩) ∧
      Refines E ⟨t', w.itemKey⟩ (Function.update M key none) := by
  obtain ⟨t', r, hrun, hinv, hmiss, hhit⟩ := delete_spec h.inv key
  have hr : r = M key := by
    refine lookup_eq h.map (fun p hp => ?_) fun hn => (hmiss hn).2
    obtain ⟨hk, hbag⟩ := hhit p hp
    exact ⟨by rw [hbag]; exact Multiset.mem_cons_self p _, hk⟩
  refine ⟨t', ?_, hinv, ?_⟩
  · rw [← hr]
    simp -implicitDefEqProofs only [runOp, hrun, Option.bind_eq_bind, Option.bind_some]
  · have hmap := h.map
    cases hf : r with
    | none =>
      rw [hf] at hr
      rw [(hmiss hf).1, Function.update_eq_self_iff.mpr hr]
      exact hmap
    | some p =>
      obtain ⟨hk, hbag⟩ := hhit p hf
      rw [hbag] at hmap
      have hi := hmap.erase
      rwa [hk] at hi

/-- One operation of the table is one operation of the map. -/
theorem runOp_refines {w : World ι} {M : ItemMap ι} (h : Refines E w M) {op : Op ι}
    (hst : Stores M w.itemKey op) :
    ∃ w' out, runOp E w op = some (w', out) ∧ w'.itemKey = op.itemKey w.itemKey ∧
      Refines E w' (mapOp M op) ∧ out.item = M op.key ∧ out.len = hashtableLen w'.table := by
  cases op with
  | set granted key item keys => exact set_refines h granted hst
  | get key => exact ⟨w, _, get_refines h key, rfl, h, rfl, rfl⟩
  | delete key =>
    obtain ⟨t', hrun, href⟩ := delete_refines h key
    exact ⟨_, _, hrun, rfl, href, rfl, rfl⟩

theorem runOps_refines {w : World ι} {M : ItemMap ι} (h : Refines E w M) {ops : List (Op ι)}
    (hst : StoresAll M w.itemKey ops) :
    ∃ outs, runOps E w ops = some outs ∧
      outs.map (fun o => (o.item, (o.len : ℕ∞))) = mapRun M ops := by
  induction ops generalizing w M with
  | nil => exact ⟨[], rfl, rfl⟩
  | cons op ops ih =>
    obtain ⟨hop, hops⟩ := hst
    obtain ⟨w', out, hrun, hkeys, href, hitem, hlen⟩ := runOp_refines h hop
    rw [← hkeys] at hops
    obtain ⟨outs, hrest, hmap⟩ := ih href hops
    refine ⟨out :: outs, ?_, ?_⟩
    · simp -implicitDefEqProofs only [runOps, hrun, hrest, Option.bind_eq_bind, Option.bind_some]
    · rw [List.map_cons, hmap, hitem, hlen, href.len]
      rfl

/-- The state after a run holds what the map does. -/
theorem runTo_refines {w : World ι} {M : ItemMap ι} (h : Refines E w M) {ops : List (Op ι)}
    (hst : StoresAll M w.itemKey ops) :
    ∃ w' M', runTo E w ops = some w' ∧ Refines E w' M' := by
  induction ops generalizing w M with
  | nil => exact ⟨w, M, rfl, h⟩
  | cons op ops ih =>
    obtain ⟨hop, hops⟩ := hst
    obtain ⟨w₁, out, hrun, hkeys, href, -⟩ := runOp_refines h hop
    obtain ⟨w', M', hrest, h'⟩ := ih href (hkeys ▸ hops)
    refine ⟨w', M', ?_, h'⟩
    rw [runTo, hrun]
    exact hrest

theorem init_refines {granted : Bool} {leftover cap : ℕ} {t : Table ι} (hcap : cap < 2 ^ 64)
    (hinit : hashtableInit E granted leftover cap = some t) (itemKey : ι → List UInt8) :
    Refines E ⟨t, itemKey⟩ fun _ => none := by
  obtain ⟨hinv, hbag⟩ := init_spec hcap itemKey hinit
  exact ⟨hinv, hbag ▸ Indexes.empty itemKey⟩

/-- From a successful `hashtable_init` on, no run faults and every run answers as the map does. -/
theorem hashtable_refines_map {granted : Bool} {leftover cap : ℕ} {t : Table ι}
    (hcap : cap < 2 ^ 64) (hinit : hashtableInit E granted leftover cap = some t)
    (itemKey : ι → List UInt8) (ops : List (Op ι)) (hst : StoresAll (fun _ => none) itemKey ops) :
    ∃ outs, runOps E ⟨t, itemKey⟩ ops = some outs ∧
      outs.map (fun o => (o.item, (o.len : ℕ∞))) = mapRun (fun _ => none) ops :=
  runOps_refines (init_refines hcap hinit itemKey) hst

/-- Keys of one length collide, on a host with pages of 4096 bytes. -/
def lengthEnv : Env := ⟨fun key => BitVec.ofNat 64 (key.length * 256), 4096, pow_4096⟩

def lengthTable : Table (List UInt8) := (hashtableInit lengthEnv true 0 1).get (by decide)

/-- Keys of one byte are spread over the buckets, on a host with pages of 4096 bytes. -/
def byteEnv : Env :=
  ⟨fun key => BitVec.ofNat 64 ((key.headD 0).toNat * 256), 4096, pow_4096⟩

/-- Sets of the first `n` keys of one byte. -/
def byteSets (n : ℕ) : List (Op (List UInt8)) :=
  (List.range n).map fun i => .set true [UInt8.ofNat i] [UInt8.ofNat i] id

def oneBucketTable : Table (List UInt8) := (hashtableInit byteEnv true 0 1).get (by decide)

theorem oneBucketTable_init : hashtableInit byteEnv true 0 1 = some oneBucketTable :=
  (Option.some_get _).symm

theorem storesAll_byteSets (n : ℕ) (M : ItemMap (List UInt8)) : StoresAll M id (byteSets n) := by
  unfold byteSets
  induction List.range n generalizing M with
  | nil => trivial
  | cons i l ih => exact ⟨⟨rfl, fun _ _ _ _ => rfl⟩, ih _⟩

/-- A set, an overwrite and a delete on a table of one bucket. -/
theorem hashtable_refines_map_overwrite :
    ∃ outs, runOps lengthEnv ⟨lengthTable, id⟩
        [.set true [7] [7] id, .set false [7] [7] id, .delete [7]] = some outs ∧
      outs.map (fun o => (o.item, (o.len : ℕ∞))) = mapRun (fun _ => none)
        [.set true [7] [7] id, .set false [7] [7] id, .delete [7]] := by
  have hinit : hashtableInit lengthEnv true 0 1 = some lengthTable := (Option.some_get _).symm
  exact hashtable_refines_map (by decide) hinit id _
    (by simp [StoresAll, Stores, mapOp, Op.itemKey])

end Kvx.Hashtable
