import NteeDb.Core.Open

/-!
# Reading

The read operations of `db.go` and the index queries of `secindex.go`.  A key
whose expiry has passed reads as missing and is handed to the reaper's queue; the
secondary indexes do not look at expiries.
-/

namespace NteeDb.Core

open NteeDb.Verified
open Lines OrderedTree JsonCodec

/-- Fail unless the store is open. -/
def requireOpen : StoreM Unit := do
  let w ← Faults.getWorld
  require (!w.db.closed) .closed

/-- The capacity of the reaper's queue. -/
def reapQueueCap : Nat := 1024

/-- `reapAsync`: a full queue drops the request. -/
def reapAsync (e : PkEntry) : StoreM Unit :=
  updateDB fun db =>
    if db.reapCh.length < reapQueueCap then { db with reapCh := db.reapCh ++ [⟨e.key, e.off⟩] }
    else db

/-- `pkGetLive` -/
def pkGetLive (key : Bytes) : StoreM (Option PkEntry) := do
  let w ← Faults.getWorld
  match w.db.idx.pk.get key with
  | none => pure none
  | some e =>
      if e.expiredAt w.now.ms then do
        reapAsync e
        pure none
      else pure (some e)

/-- Drop a newline at the end. -/
def trimNewline (buf : Bytes) : Bytes :=
  if buf.getLast? = some newline then buf.dropLast else buf

/-- The record that an entry locates in the log. -/
def Dir.recordAt (d : Dir) (e : PkEntry) : Except Err Record :=
  match readAt d.mainBytes e.off e.n.toInt.toNat with
  | .error err => .error err
  | .ok buf =>
      match unmarshalRecord (trimNewline buf) with
      | none => .error .unmarshal
      | some r => .ok r

/-- `readRecord`; a negative length makes the allocation of the buffer panic. -/
def readRecord (e : PkEntry) : StoreM Record := do
  require (decide (0 ≤ e.n)) .panic
  readStep fun w => w.dir.recordAt e

/-- `blobReadAt` -/
def blobReadAt (ref : BlobRef) : StoreM Bytes := do
  let w ← Faults.getWorld
  match w.db.blobStore ref.gen with
  | none => Prog.fail (.missingGeneration ref)
  | some bs => do
      require (decide (0 ≤ ref.size)) .panic
      require bs.isOpen .io
      readStep fun w => readAt (w.dir.blobBytes ref.gen) ref.off ref.size.toInt.toNat

/-- The value of a record, wherever it is stored. -/
def readValue (r : Record) : StoreM Bytes :=
  match r.blob with
  | none => pure r.value
  | some ref => blobReadAt ref

/-- The body that `Get` and `GetMany` share. -/
def lookup (key : Bytes) : StoreM (Option Bytes) := do
  match ← pkGetLive key with
  | none => pure none
  | some e => do
      let r ← readRecord e
      let v ← readValue r
      pure (some v)

/-- `Get` -/
def get (key : Bytes) : StoreM (Option Bytes) := do
  requireOpen
  lookup key

/-- `GetMany` -/
def getMany (keys : List Bytes) : StoreM (List (Option Bytes)) := do
  requireOpen
  Prog.foldEach keys [] fun found key => do
    let v ← lookup key
    pure (found ++ [v])

/-- `Has` -/
def has (key : Bytes) : StoreM Bool := do
  let w ← Faults.getWorld
  if w.db.closed then pure false
  else do
    let e ← pkGetLive key
    pure e.isSome

/-- `PrefixScan` -/
def prefixScan (p : Bytes) : StoreM (List Bytes) := do
  requireOpen
  let w ← Faults.getWorld
  Prog.foldEach (w.db.idx.pk.withPrefix p) [] fun keys e =>
    if e.expiredAt w.now.ms then do
      reapAsync e
      pure keys
    else pure (keys ++ [e.key])

/-- `Stats` -/
structure Stats where
  records : Nat := 0
  mainBytes : Int64 := 0
  blobBytes : Int64 := 0
  deriving DecidableEq

/-- `Stats()` -/
def DB.stats (db : DB) : Stats :=
  if db.closed then {}
  else ⟨db.idx.pk.len, db.size, db.blobs.items.foldl (fun n bs => n + bs.size) 0⟩

/-- `LiveBytes` -/
def DB.liveBytes (db : DB) : Int64 :=
  if db.closed then 0 else db.idx.pk.items.foldl (fun n e => n + e.n.toInt64) 0

/-! ## Index queries -/

/-- Run a query of a declared index. -/
def DB.query {α : Type} (db : DB) (name : Bytes) (q : SecIndex → Except Err α) : Except Err α :=
  if db.closed then .error .closed
  else
    match db.idx.secs.get name with
    | none => .error (.unknownIndex name)
    | some si => q si

/-- `ByIndex` -/
def DB.byIndex (db : DB) (name : Bytes) (val : AnyValue) (limit : Int64) :
    Except Err (List Bytes) :=
  db.query name (·.exact val limit)

/-- `ByIndexHas` -/
def DB.byIndexHas (db : DB) (name : Bytes) (val : AnyValue) : Except Err Bool :=
  db.query name (·.hasValue val)

/-- `ByIndexPrefix` -/
def DB.byIndexPrefix (db : DB) (name p : Bytes) (limit : Int64) : Except Err (List Bytes) :=
  db.query name (·.prefixQuery p limit)

/-- `ByIndexRange` -/
def DB.byIndexRange (db : DB) (name : Bytes) (lo hi : AnyValue) : Except Err (List Bytes) :=
  db.query name (·.rangeQuery lo hi)

end NteeDb.Core
