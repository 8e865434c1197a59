import Kvx.ChainSearch
import Kvx.Pages

/-!
# The hash table

Two bucket arrays: every set or delete moves one bucket chain of the old array to the
new one while a migration runs. A step that reads a `NULL` item or a bucket outside
its array has the result `none`.
-/
namespace Kvx.Hashtable

open Kvx.Pages

/-- What the table is given from outside: the hash, and the page size of the host. -/
structure Env where
  xxh3 : List UInt8 → BitVec 64
  pageSize : ℕ
  page_pow : ∃ k ≤ 64, pageSize = 2 ^ k

theorem pow_4096 : ∃ k ≤ 64, 4096 = 2 ^ k := ⟨12, by decide, rfl⟩

/-- One mapping: the length `pages_map` reported for it, and the bucket array in it. -/
structure Mapping (ι : Type) where
  len : ℕ
  chains : List (Chain ι)
  deriving DecidableEq, Repr

/-- What the table asked of the system. An `unmap` records the length of the mapping it
hits and the length it was given. -/
inductive Event
  | map (len : ℕ)
  | unmap (len bytes : ℕ)
  | calloc (addr : ℕ)
  | free (addr : ℕ)
  deriving DecidableEq, Repr

/-- `struct hashtable`. The last two fields are not in the struct: the next address of
`calloc`, and what was asked of the system so far, the latest first. -/
structure Table (ι : Type) where
  scaleAtSize : ℕ
  migrationPos : ℕ
  oldSize : ℕ
  oldBytes : ℕ
  oldBucketCount : ℕ
  oldBuckets : Mapping ι
  newSize : ℕ
  newBytes : ℕ
  newBucketCount : ℕ
  newBuckets : Option (Mapping ι)
  fresh : ℕ
  trace : List Event
  deriving DecidableEq, Repr

variable {ι : Type}

def hashtableInitCap : ℕ := 128
def hashtableBucketSlots : ℕ := 8
def shardBits : ℕ := 8

/-- `sizeof(hashtable_bucket_t)`: a byte with its padding, the tags, eight pointers, `next`. -/
def sizeofBucket : ℕ := 88

/-- `(count * HASHTABLE_BUCKET_SLOTS) * (6.0 / 8.0)`, exact in a double for a power of two. -/
def scaleAt (count : ℕ) : ℕ := sizeT (count * hashtableBucketSlots) * 6 / 8

def bucketIdx (hash : BitVec 64) (count : ℕ) : ℕ := (hash >>> shardBits).toNat &&& (count - 1)

def hashTag (hash : BitVec 64) : BitVec 8 := (hash >>> 56).setWidth 8

/-- `leftover` is what `malloc` left in `new_bytes`, which `hashtable_init` does not write. -/
def hashtableInit (E : Env) (granted : Bool) (leftover cap : ℕ) : Option (Table ι) :=
  let cap := if cap = 0 then hashtableInitCap else cap
  if cap &&& (cap - 1) ≠ 0 then none
  else
    match pagesMap E.pageSize granted (sizeT (cap * sizeofBucket)) with
    | none => none
    | some bytes =>
        some {
          scaleAtSize := scaleAt cap
          migrationPos := 0
          oldSize := 0
          oldBytes := bytes
          oldBucketCount := cap
          oldBuckets := ⟨bytes, List.replicate cap Chain.zero⟩
          newSize := 0
          newBytes := leftover
          newBucketCount := 0
          newBuckets := none
          fresh := 0
          trace := [.map bytes] }

/-- Frees the chained buckets of the first `count` chains and unmaps the array. -/
def hashtableDestroyBuckets (trace : List Event) (buckets : Mapping ι) (count bytes : ℕ) :
    List Event :=
  let frees := (buckets.chains.take count).flatMap fun chain =>
    chain.next.map fun c => Event.free c.addr
  .unmap buckets.len bytes :: (frees.reverse ++ trace)

/-- Everything the table asked of the system in its life. -/
def hashtableDestroy (table : Table ι) : List Event :=
  let trace :=
    match table.newBuckets with
    | some new => hashtableDestroyBuckets table.trace new table.newBucketCount table.newBytes
    | none => table.trace
  hashtableDestroyBuckets trace table.oldBuckets table.oldBucketCount table.oldBytes

def hashtableMigrationRunning (table : Table ι) : Bool := table.newBuckets.isSome

def hashtableItemInNewBucket (table : Table ι) (hash : BitVec 64) : Bool :=
  if table.newBuckets.isNone then false
  else decide (bucketIdx hash table.oldBucketCount < table.migrationPos)

def hashtableCheckInitMigration (E : Env) (granted : Bool) (table : Table ι) : Table ι :=
  if table.oldSize < table.scaleAtSize ∨ table.newBuckets.isSome then table
  else
    let newCap := sizeT (table.oldBucketCount * 2)
    match pagesMap E.pageSize granted (sizeT (newCap * sizeofBucket)) with
    | none => table
    | some bytes =>
        { table with
          newBuckets := some ⟨bytes, List.replicate newCap Chain.zero⟩
          newBucketCount := newCap
          newBytes := bytes
          trace := .map bytes :: table.trace }

/-- `new` is `table->new_buckets`. The field `old_bytes` keeps its value. -/
def hashtableFinishMigration (table : Table ι) (new : Mapping ι) : Table ι :=
  { table with
    trace := .unmap table.oldBuckets.len table.oldBytes :: table.trace
    migrationPos := 0
    scaleAtSize := scaleAt table.newBucketCount
    oldBuckets := new
    oldBucketCount := table.newBucketCount
    oldSize := table.newSize
    newBuckets := none
    newBucketCount := 0
    newSize := 0 }

/-- The second search, with the bucket it appends to a full chain. -/
structure Located (ι : Type) where
  chain : Chain ι
  loc : Loc
  grown : Bool

def locate (itemKey : ι → List UInt8) (chain : Chain ι) (addr : ℕ) (tag : BitVec 8)
    (key : List UInt8) : Option (Located ι) := do
  let (loc, grown) ← hashtableFindItemSlotOrNextFreeSlotInBucket itemKey chain tag key
  some ⟨if grown then hashtableBucketInitChain chain addr else chain, loc, grown⟩

/-- The bookkeeping of the `calloc` inside `locate`. -/
def Table.noteCalloc (table : Table ι) (grown : Bool) : Table ι :=
  if grown then
    { table with fresh := table.fresh + 1, trace := .calloc table.fresh :: table.trace }
  else table

section Steps

variable (E : Env) (itemKey : ι → List UInt8)

/-- Returns the old bucket with the slot cleared; its tag and its pointer stay behind. -/
def hashtableMigrateSlot (table : Table ι) (oldSlotIdx : Fin 8) (oldBucket : Bucket ι)
    (item : Option ι) : Option (Table ι × Bucket ι) := do
  let oldBucket := hashtableBucketSetSlotState oldBucket oldSlotIdx .empty
  let table := { table with oldSize := table.oldSize - 1 }
  let key ← item.map itemKey
  let hash := E.xxh3 key
  let tag := hashTag hash
  let new ← table.newBuckets
  let newBucketIdx := bucketIdx hash table.newBucketCount
  let chain ← new.chains[newBucketIdx]?
  let found ← locate itemKey chain table.fresh tag key
  let table := table.noteCalloc found.grown
  let newBucket ← found.chain.buckets[found.loc.bucket]?
  if hashtableBucketGetSlotState newBucket found.loc.slot = .empty then
    let newBucket := hashtableBucketSetSlotState newBucket found.loc.slot .busy
    let newBucket := hashtableBucketSetSlotHashTag newBucket found.loc.slot tag
    let newBucket := hashtableBucketSetSlotItem newBucket found.loc.slot item
    let chain := found.chain.modify found.loc.bucket fun _ => newBucket
    some ({ table with
      newBuckets := some { new with chains := new.chains.set newBucketIdx chain }
      newSize := table.newSize + 1 }, oldBucket)
  else
    some ({ table with
      newBuckets := some { new with chains := new.chains.set newBucketIdx found.chain } },
      oldBucket)

/-- The `for` loop over the slots of a bucket. -/
def migrateSlotsFrom : List (Fin 8) → Table ι → Bucket ι → Option (Table ι × Bucket ι)
  | [], table, bucket => some (table, bucket)
  | i :: slots, table, bucket =>
      if hashtableBucketGetSlotState bucket i ≠ .busy then migrateSlotsFrom slots table bucket
      else do
        let (table, bucket) ←
          hashtableMigrateSlot E itemKey table i bucket (hashtableBucketGetSlotItem bucket i)
        migrateSlotsFrom slots table bucket

def hashtableMigrateSlots (table : Table ι) (bucket : Bucket ι) :
    Option (Table ι × Bucket ι) :=
  migrateSlotsFrom E itemKey (List.finRange 8) table bucket

/-- The `while (current)` loop: each chained bucket is migrated and freed. -/
def migrateChained : List (Chained ι) → Table ι → Option (Table ι)
  | [], table => some table
  | current :: next, table => do
      let (table, _) ← hashtableMigrateSlots E itemKey table current.bucket
      migrateChained next { table with trace := .free current.addr :: table.trace }

/-- `pos` names the bucket `&table->old_buckets[pos]`. -/
def hashtableMigrateBucket (table : Table ι) (pos : ℕ) : Option (Table ι) := do
  let bucket ← table.oldBuckets.chains[pos]?
  let (table, head) ← hashtableMigrateSlots E itemKey table bucket.head
  let old := { table.oldBuckets with chains := table.oldBuckets.chains.set pos ⟨head, []⟩ }
  migrateChained E itemKey bucket.next { table with oldBuckets := old }

def hashtableProcessMigrationStep (table : Table ι) : Option (Table ι) := do
  let table ← hashtableMigrateBucket E itemKey
    { table with migrationPos := table.migrationPos + 1 } table.migrationPos
  if table.migrationPos = table.oldBucketCount then
    let new ← table.newBuckets
    some (hashtableFinishMigration table new)
  else some table

def hashtableMaintenance (table : Table ι) : Option (Table ι) :=
  if hashtableMigrationRunning table then hashtableProcessMigrationStep E itemKey table
  else some table

inductive Side
  | old
  | new
  deriving DecidableEq, Repr

/-- The `item_t **` that `hashtable_set` returns. -/
structure SlotRef where
  side : Side
  idx : ℕ
  loc : Loc
  deriving DecidableEq, Repr

/-- What `hashtable_set_old` and `hashtable_set_new` do to their array. -/
structure ArraySet (ι : Type) where
  chains : List (Chain ι)
  idx : ℕ
  loc : Loc
  grown : Bool
  claimed : Bool

def arraySet (addr : ℕ) (chains : List (Chain ι)) (count : ℕ) (hash : BitVec 64)
    (tag : BitVec 8) (key : List UInt8) : Option (ArraySet ι) := do
  let idx := bucketIdx hash count
  let chain ← chains[idx]?
  let found ← locate itemKey chain addr tag key
  let bucket ← found.chain.buckets[found.loc.bucket]?
  if hashtableBucketGetSlotState bucket found.loc.slot = .empty then
    let bucket := hashtableBucketSetSlotState bucket found.loc.slot .busy
    let bucket := hashtableBucketSetSlotHashTag bucket found.loc.slot tag
    let chain := found.chain.modify found.loc.bucket fun _ => bucket
    some ⟨chains.set idx chain, idx, found.loc, found.grown, true⟩
  else some ⟨chains.set idx found.chain, idx, found.loc, found.grown, false⟩

def hashtableSetOld (table : Table ι) (hash : BitVec 64) (tag : BitVec 8) (key : List UInt8) :
    Option (Table ι × SlotRef) := do
  let r ← arraySet itemKey table.fresh table.oldBuckets.chains table.oldBucketCount hash tag key
  let table := table.noteCalloc r.grown
  some ({ table with
    oldBuckets := { table.oldBuckets with chains := r.chains }
    oldSize := if r.claimed then table.oldSize + 1 else table.oldSize }, ⟨.old, r.idx, r.loc⟩)

def hashtableSetNew (table : Table ι) (hash : BitVec 64) (tag : BitVec 8) (key : List UInt8) :
    Option (Table ι × SlotRef) := do
  let new ← table.newBuckets
  let r ← arraySet itemKey table.fresh new.chains table.newBucketCount hash tag key
  let table := table.noteCalloc r.grown
  some ({ table with
    newBuckets := some { new with chains := r.chains }
    newSize := if r.claimed then table.newSize + 1 else table.newSize }, ⟨.new, r.idx, r.loc⟩)

def hashtableSet (granted : Bool) (table : Table ι) (hash : BitVec 64) (key : List UInt8) :
    Option (Table ι × SlotRef) := do
  let table ← hashtableMaintenance E itemKey table
  let tag := hashTag hash
  if hashtableItemInNewBucket table hash then hashtableSetNew itemKey table hash tag key
  else hashtableSetOld itemKey (hashtableCheckInitMigration E granted table) hash tag key

def Table.side (table : Table ι) : Side → Option (List (Chain ι))
  | .old => some table.oldBuckets.chains
  | .new => table.newBuckets.map Mapping.chains

/-- The item pointer at `ref`. -/
def readChains (chains : List (Chain ι)) (ref : SlotRef) : Option (Option ι) := do
  let chain ← chains[ref.idx]?
  let bucket ← chain.buckets[ref.loc.bucket]?
  some (hashtableBucketGetSlotItem bucket ref.loc.slot)

/-- `*item_slot_ptr`. -/
def Table.readSlot (table : Table ι) (ref : SlotRef) : Option (Option ι) := do
  let chains ← table.side ref.side
  readChains chains ref

/-- `chains` with the item pointer at `ref` replaced. -/
def writeChains (chains : List (Chain ι)) (ref : SlotRef) (item : Option ι) : List (Chain ι) :=
  chains.modify ref.idx fun chain =>
    chain.modify ref.loc.bucket fun b => hashtableBucketSetSlotItem b ref.loc.slot item

/-- `*item_slot_ptr = item`. -/
def Table.writeSlot (table : Table ι) (ref : SlotRef) (item : Option ι) : Table ι :=
  match ref.side with
  | .old =>
      { table with oldBuckets :=
          { table.oldBuckets with chains := writeChains table.oldBuckets.chains ref item } }
  | .new =>
      { table with newBuckets :=
          table.newBuckets.map fun m => { m with chains := writeChains m.chains ref item } }

/-- What `hashtable_get_old` and `hashtable_get_new` do with their array. -/
def arrayGet (chains : List (Chain ι)) (count : ℕ) (hash : BitVec 64) (tag : BitVec 8)
    (key : List UInt8) : Option (Option ι) := do
  let chain ← chains[bucketIdx hash count]?
  match ← hashtableFindItemSlotInBucket itemKey chain tag key with
  | none => some none
  | some loc =>
      let bucket ← chain.buckets[loc.bucket]?
      some (hashtableBucketGetSlotItem bucket loc.slot)

def hashtableGetOld (table : Table ι) (hash : BitVec 64) (tag : BitVec 8) (key : List UInt8) :
    Option (Option ι) :=
  arrayGet itemKey table.oldBuckets.chains table.oldBucketCount hash tag key

def hashtableGetNew (table : Table ι) (hash : BitVec 64) (tag : BitVec 8) (key : List UInt8) :
    Option (Option ι) := do
  let new ← table.newBuckets
  arrayGet itemKey new.chains table.newBucketCount hash tag key

def hashtableGet (table : Table ι) (hash : BitVec 64) (key : List UInt8) : Option (Option ι) :=
  let tag := hashTag hash
  if hashtableItemInNewBucket table hash then hashtableGetNew itemKey table hash tag key
  else hashtableGetOld itemKey table hash tag key

/-- What `hashtable_delete_old` and `hashtable_delete_new` do to their array: `none` when the
key is absent, otherwise the new array and the item taken out. -/
def arrayDelete (chains : List (Chain ι)) (count : ℕ) (hash : BitVec 64) (tag : BitVec 8)
    (key : List UInt8) : Option (Option (List (Chain ι) × Option ι)) := do
  let idx := bucketIdx hash count
  let chain ← chains[idx]?
  match ← hashtableFindItemSlotInBucket itemKey chain tag key with
  | none => some none
  | some loc =>
      let bucket ← chain.buckets[loc.bucket]?
      let item := hashtableBucketGetSlotItem bucket loc.slot
      let bucket := hashtableBucketSetSlotState bucket loc.slot .empty
      let bucket := hashtableBucketSetSlotHashTag bucket loc.slot 0#8
      let bucket := hashtableBucketSetSlotItem bucket loc.slot none
      some (some (chains.set idx (chain.modify loc.bucket fun _ => bucket), item))

def hashtableDeleteOld (table : Table ι) (hash : BitVec 64) (tag : BitVec 8)
    (key : List UInt8) : Option (Table ι × Option ι) := do
  match ← arrayDelete itemKey table.oldBuckets.chains table.oldBucketCount hash tag key with
  | none => some (table, none)
  | some (chains, item) =>
      some ({ table with
        oldBuckets := { table.oldBuckets with chains := chains }
        oldSize := table.oldSize - 1 }, item)

def hashtableDeleteNew (table : Table ι) (hash : BitVec 64) (tag : BitVec 8)
    (key : List UInt8) : Option (Table ι × Option ι) := do
  let new ← table.newBuckets
  match ← arrayDelete itemKey new.chains table.newBucketCount hash tag key with
  | none => some (table, none)
  | some (chains, item) =>
      some ({ table with
        newBuckets := some { new with chains := chains }
        newSize := table.newSize - 1 }, item)

def hashtableDelete (table : Table ι) (hash : BitVec 64) (key : List UInt8) :
    Option (Table ι × Option ι) := do
  let table ← hashtableMaintenance E itemKey table
  let tag := hashTag hash
  if hashtableItemInNewBucket table hash then hashtableDeleteNew itemKey table hash tag key
  else hashtableDeleteOld itemKey table hash tag key

end Steps

def hashtableLen (table : Table ι) : ℕ := table.oldSize + table.newSize

def hashtableBucketCount (table : Table ι) : ℕ :=
  if table.newBuckets.isSome then table.newBucketCount else table.oldBucketCount

def hashtableMigrating (table : Table ι) : Bool := table.newBuckets.isSome

end Kvx.Hashtable
