import NteeDb.Core.Checkpoint

/-!
# Writing

The write path of `secindex.go`, and `Put`, `PutIndexed`, `Delete` and the reaper
of `db.go`, `PutBatch` of `batch.go` and the range deletes of `rangedel.go`.

Go iterates over a map in an order of its own choosing.  Where the order matters,
the operation takes it as an argument (`MapOrder`).
-/

namespace NteeDb.Core

open NteeDb.Verified
open Decimal BinaryFloat OrderedTree JsonCodec

/-- The orders in which the loops over maps visit their entries. -/
structure MapOrder where
  items : AnyMap → List (Bytes × AnyValue)
  perm : ∀ m, (items m).Perm m.items

/-- Visit in the order of the names. -/
def MapOrder.sorted : MapOrder := ⟨fun m => m.items, fun m => List.Perm.refl m.items⟩

/-- `resolveTTL`; durations are in nanoseconds. -/
def resolveTTL (now : Millis) : List Int64 → Except Err Int64
  | [] => .ok 0
  | [d] => if d ≤ 0 then .error .invalidTTL else .ok (now.ms + d / 1000000)
  | _ => .error .invalidTTL

/-! ## Index values of a write -/

/-- `isObjectValue` -/
def isObjectValue : Bytes → Bool
  | [] => false
  | c :: rest =>
      if c = 0x20 ∨ c = 0x09 ∨ c = 0x0D ∨ c = 0x0A then isObjectValue rest else c = 0x7B

/-- The loop over the explicit index values. -/
def addExplicit (secs : SecIndexes) (key : Bytes) :
    List (Bytes × AnyValue) → AnyMap → Except Err AnyMap
  | [], out => .ok out
  | (name, val) :: rest, out =>
      match secs.get name with
      | none => .error (.unknownIndex name)
      | some si =>
          match si.makeEntry val key with
          | .error e => .error e
          | .ok _ => addExplicit secs key rest (out.set (name, val))

/-- The loop over the declared indexes; an explicit value wins. -/
def addExtracted (secs : SecIndexes) (key value : Bytes) :
    List IndexDef → AnyMap → Except Err AnyMap
  | [], out => .ok out
  | d :: rest, out =>
      match d.extract.bind fun f => if (out.get d.name).isSome then none else f key value with
      | none => addExtracted secs key value rest out
      | some v =>
          match secs.get d.name with
          | none => .error .panic
          | some si =>
              match si.makeEntry v key with
              | .error e => .error e
              | .ok _ => addExtracted secs key value rest (out.set (d.name, v))

/-- `buildIndexValues` -/
def DB.buildIndexValues (db : DB) (ord : MapOrder) (key value : Bytes) (explicit : AnyMap) :
    Except Err AnyMap :=
  if db.idx.secs.items = [] ∧ explicit.items = [] then .ok Tree.empty
  else if isObjectValue value then
    (addExplicit db.idx.secs key (ord.items explicit) Tree.empty).bind
      (addExtracted db.idx.secs key value db.opts.indexes)
  else if explicit.items = [] then .ok Tree.empty
  else .error (.immediateValue key)

/-- The loop of `checkSelfEviction`; a value the index rejects is skipped. -/
def checkSelfEvictionOf (secs : SecIndexes) (key : Bytes) :
    List (Bytes × AnyValue) → Except Err Unit
  | [] => .ok ()
  | (name, val) :: rest =>
      match secs.get name with
      | none => checkSelfEvictionOf secs key rest
      | some si =>
          match si.wouldSelfEvict val key with
          | .ok true => .error (.selfEviction key name si.max)
          | _ => checkSelfEvictionOf secs key rest

/-- `checkSelfEviction` -/
def DB.checkSelfEviction (db : DB) (ord : MapOrder) (key : Bytes) (ix : AnyMap) : Except Err Unit :=
  checkSelfEvictionOf db.idx.secs key (ord.items ix)

/-! ## Appending a record -/

/-- `useBlobFor` -/
def DB.useBlobFor (db : DB) (size : Nat) : Bool :=
  0 < db.opts.blobThreshold && db.opts.blobThreshold ≤ Int64.ofNat size

/-- The record of a write: a large value goes to the blob file first. -/
def storeValue (key value : Bytes) (ix : AnyMap) (exp : Int64) (counter : Bool) :
    StoreM Record := do
  let w ← Faults.getWorld
  if !counter && w.db.useBlobFor value.length then do
    let ref ← appendBlob w.db.curGen value
    flushBlob w.db.curGen
    pure { key := key, blob := some { ref with gen := w.db.curGen }, ix := ix, exp := exp }
  else pure { key := key, value := value, ix := ix, counter := counter, exp := exp }

/-- `appendRecord` -/
def appendRecord (key value : Bytes) (ix : AnyMap) (exp : Int64) (durable counter : Bool) :
    StoreM Unit := do
  let r ← storeValue key value ix exp counter
  let loc ← appendSync r (.put ⟨key, value, exp⟩) durable
  updateDB fun db =>
    { db with idx := db.idx.put { key := key, off := loc.1, n := loc.2, exp := exp } ix }

/-- A tombstone. -/
def tombstone (key : Bytes) : Record := { key := key, deleted := true }

/-- `deleteLocked` -/
def deleteLocked (key : Bytes) : StoreM Unit := do
  let w ← Faults.getWorld
  let _ ← appendSync (tombstone key) (.del key) w.db.opts.syncEveryWrite
  updateDB fun db => { db with idx := db.idx.delete key, writes := db.writes + 1 }

/-! ## Retention -/

/-- The keys that `enforceMaxPerValue` evicts from an index for a value: the
lowest ones of the value's group, as many as it holds above the cap. -/
def SecIndex.victims (si : SecIndex) (val : AnyValue) : List Bytes :=
  if si.max ≤ 0 then []
  else
    match si.makeEntry val [] with
    | .error _ => []
    | .ok probe =>
        let lo := si.lowerBound probe
        let excess : Int := (si.upperBoundValue probe : Int) - lo - si.max.toInt
        (List.range excess.toNat).map fun i => (si.entryAt (lo + i)).pk

/-- The evictions for one index value. -/
def enforceOne (nv : Bytes × AnyValue) : StoreM Unit := do
  let w ← Faults.getWorld
  match w.db.idx.secs.get nv.1 with
  | none => pure ()
  | some si => Prog.forEach (si.victims nv.2) deleteLocked

/-- `enforceMaxPerValue` -/
def enforceMaxPerValue (ord : MapOrder) (ix : AnyMap) : StoreM Unit :=
  Prog.forEach (ord.items ix) enforceOne

/-! ## Put -/

/-- Count `n` writes. -/
def countWrites (n : Nat) : StoreM Unit :=
  updateDB fun db => { db with writes := db.writes + Int64.ofNat n }

/-- `write` -/
def write (ord : MapOrder) (key value : Bytes) (explicit : AnyMap) (exp : Int64) : StoreM Unit := do
  let w ← Faults.getWorld
  let ix ← Prog.ofExcept (w.db.buildIndexValues ord key value explicit)
  Prog.ofExcept (w.db.checkSelfEviction ord key ix)
  appendRecord key value ix exp w.db.opts.syncEveryWrite false
  enforceMaxPerValue ord ix
  countWrites 1
  maybeWriteHint

/-- `PutIndexed` -/
def putIndexed (ord : MapOrder) (key value : Bytes) (explicit : AnyMap) (ttl : List Int64) :
    StoreM Unit := do
  let w ← Faults.getWorld
  let exp ← Prog.ofExcept (resolveTTL w.now ttl)
  requireOpen
  write ord key value explicit exp

/-- `Put` -/
def put (ord : MapOrder) (key value : Bytes) (ttl : List Int64) : StoreM Unit :=
  putIndexed ord key value Tree.empty ttl

/-- `Delete` -/
def delete (key : Bytes) : StoreM Unit := do
  requireOpen
  let w ← Faults.getWorld
  match w.db.idx.pk.get key with
  | none => pure ()
  | some _ => do
      deleteLocked key
      maybeWriteHint

/-! ## PutBatch -/

/-- `PutItem` -/
structure PutItem where
  key : Bytes
  value : Bytes
  ix : AnyMap := Tree.empty
  ttl : Int64 := 0

/-- A validated item: its index values and its expiry. -/
structure CheckedItem where
  item : PutItem
  ix : AnyMap
  exp : Int64

/-- The checks on one item, against the state before the batch. -/
def DB.checkItem (db : DB) (now : Millis) (ord : MapOrder) (i : Nat) (it : PutItem) :
    Except Err CheckedItem :=
  match db.buildIndexValues ord it.key it.value it.ix with
  | .error e => .error (.batchItem i (some it.key) e)
  | .ok ix =>
      match db.checkSelfEviction ord it.key ix with
      | .error e => .error (.batchItem i none e)
      | .ok _ =>
          if it.ttl < 0 then .error (.batchItem i (some it.key) .invalidTTL)
          else .ok ⟨it, ix, if 0 < it.ttl then now.ms + it.ttl / 1000000 else 0⟩

/-- Pass 1 of `PutBatch`. -/
def DB.checkItems (db : DB) (now : Millis) (ords : Nat → MapOrder) :
    Nat → List PutItem → Except Err (List CheckedItem)
  | _, [] => .ok []
  | i, it :: rest => do
      let c ← db.checkItem now (ords i) i it
      let cs ← db.checkItems now ords (i + 1) rest
      return c :: cs

/-- Return an error of `c` as that of the `i`-th item. -/
def asBatchItem {α : Type} (i : Nat) (key : Bytes) (c : StoreM α) : StoreM α := do
  match ← Prog.attempt c with
  | .ok a => pure a
  | .error e => Prog.fail (if e.fatal then e else .batchItem i (some key) e)

/-- Pass 2 of `PutBatch`. -/
def appendItems : Nat → List CheckedItem → StoreM Unit
  | _, [] => pure ()
  | i, c :: rest => do
      asBatchItem i c.item.key (appendRecord c.item.key c.item.value c.ix c.exp false false)
      appendItems (i + 1) rest

/-- `fmt.Sprint` of an index value. -/
def sprint : AnyValue → Bytes
  | .str s => s
  | .f64 x => textOf binary64 printLayout x
  | .f32 x => textOf binary32 printLayout x
  | .int i => intDigits i.toInt
  | .number lit _ => lit
  | _ => []

/-- Enforcement for one touched pair of index and value, unless it was done. -/
def enforceSeen (seen : List Bytes) (nv : Bytes × AnyValue) : StoreM (List Bytes) :=
  if seen.contains (nv.1 ++ 0 :: sprint nv.2) then pure seen
  else do
    enforceOne nv
    pure (seen ++ [nv.1 ++ 0 :: sprint nv.2])

/-- The enforcement pass of `PutBatch`. -/
def enforceItems (ords : Nat → MapOrder) : Nat → List CheckedItem → List Bytes → StoreM Unit
  | _, [], _ => pure ()
  | i, c :: rest, seen => do
      let seen ← Prog.foldEach ((ords i).items c.ix) seen enforceSeen
      enforceItems ords (i + 1) rest seen

/-- `PutBatch`; `ords` gives the orders of the loops over the `i`-th item's maps. -/
def putBatch (ords : Nat → MapOrder) (items : List PutItem) : StoreM Unit := do
  requireOpen
  if items = [] then pure ()
  else do
    let w ← Faults.getWorld
    let checked ← Prog.ofExcept (w.db.checkItems w.now ords 0 items)
    appendItems 0 checked
    enforceItems ords 0 checked []
    doWhen w.db.opts.syncEveryWrite do
      flushBlob w.db.curGen
      flushMain
    countWrites items.length
    maybeWriteHint

/-! ## Range deletes -/

/-- The part of `removePkEntries` before the hint. -/
def removePkBody (doomed : List PkEntry) : StoreM Unit := do
  let w ← Faults.getWorld
  Prog.forEach doomed fun e => do
    let _ ← appendSync (tombstone e.key) (.del e.key) w.db.opts.syncEveryWrite
  updateDB fun db =>
    { db with idx := db.idx.removeAll doomed, writes := db.writes + Int64.ofNat doomed.length }

/-- `removePkEntries` -/
def removePkEntries (doomed : List PkEntry) : StoreM Nat :=
  if doomed = [] then pure 0
  else do
    removePkBody doomed
    writeHint
    pure doomed.length

/-- The entries that `RemoveByPkLess` removes. -/
def DB.pkLess (db : DB) (cutoff : Bytes) : List PkEntry :=
  db.idx.pk.items.takeWhile fun e => e.key < cutoff

/-- The entries that `RemoveByPkGreater` removes. -/
def DB.pkGreater (db : DB) (cutoff : Bytes) : List PkEntry :=
  (db.idx.pk.ascendFrom cutoff).filter fun e => cutoff < e.key

/-- `RemoveByPkLess` -/
def removeByPkLess (cutoff : Bytes) : StoreM Nat := do
  requireOpen
  let w ← Faults.getWorld
  removePkEntries (w.db.pkLess cutoff)

/-- `RemoveByPkGreater` -/
def removeByPkGreater (cutoff : Bytes) : StoreM Nat := do
  requireOpen
  let w ← Faults.getWorld
  removePkEntries (w.db.pkGreater cutoff)

/-! ## The reaper -/

/-- The reaper takes a queued request up: is the entry it saw still there and
expired? -/
def DB.reapable (db : DB) (now : Millis) (r : ReapReq) : Bool :=
  match db.idx.pk.get r.key with
  | none => false
  | some e => e.off = r.off && e.expiredAt now.ms

/-- One request; the value tells whether anything was reaped so far. -/
def reapOne (reaped : Bool) (r : ReapReq) : StoreM Bool := do
  let w ← Faults.getWorld
  if w.db.reapable w.now r then do
    deleteLocked r.key
    pure true
  else pure reaped

/-- `reapBatch`; an I/O error ends the batch without a word. -/
def reapBatch (batch : List ReapReq) : StoreM Unit := do
  let w ← Faults.getWorld
  if w.db.closed then pure ()
  else
    ignoreError do
      let reaped ← Prog.foldEach batch false reapOne
      doWhen reaped do
        doWhen w.db.opts.syncEveryWrite (ignoreError flushMain)
        maybeWriteHint

/-- The largest batch of one cycle. -/
def reapBatchCap : Nat := 64

/-- One cycle of `reapLoop`: take up to `n` requests off the queue and reap them. -/
def reapCycle (n : Nat) : StoreM Unit := do
  let w ← Faults.getWorld
  updateDB fun db => { db with reapCh := db.reapCh.drop (min n reapBatchCap) }
  reapBatch (w.db.reapCh.take (min n reapBatchCap))

end NteeDb.Core
