import NteeDb.Core.Counter

/-!
# Rewriting the main log

`compact.go` and `reindex.go`: `Compact`, `Reindex` and `BlobsRelieve` write the
live records to a new log behind the compaction gate, swap it in with one rename,
and rebuild the indexes.  Past the rename a failure disables the store.
-/

namespace NteeDb.Core

open NteeDb.Verified
open Lines OrderedTree JsonCodec

/-! ## Filters -/

/-- `filterIX`: the values of declared indexes that fit the index's kind. -/
def SecIndexes.filterIX (secs : SecIndexes) (ix : AnyMap) : AnyMap :=
  ix.filter fun nv =>
    match secs.get nv.1 with
    | none => false
    | some si => (si.makeEntry nv.2 []).toBool

/-- `filterIXKnown`: the values of declared or soft-dropped indexes. -/
def DB.filterIXKnown (db : DB) (ix : AnyMap) : AnyMap :=
  ix.filter fun nv => (db.idx.secs.get nv.1).isSome || (db.dropped.map Prod.fst).contains nv.1

/-- `compactTransform` -/
def compactTransform (r : Record) : StoreM Record := do
  let w ← Faults.getWorld
  pure { r with ix := w.db.filterIXKnown r.ix }

/-- The loop of `reindexTransform`. -/
def reExtract (secs : SecIndexes) (key value : Bytes) : List IndexDef → AnyMap → Except Err AnyMap
  | [], out => .ok out
  | d :: rest, out =>
      match d.extract.bind fun f => f key value with
      | none => reExtract secs key value rest out
      | some v =>
          match secs.get d.name with
          | none => .error .panic
          | some si =>
              match si.makeEntry v key with
              | .error e => .error e
              | .ok _ => reExtract secs key value rest (out.set (d.name, v))

/-- `reindexTransform` -/
def reindexTransform (r : Record) : StoreM Record := do
  let w ← Faults.getWorld
  let value ← readValue r
  let ix ← Prog.ofExcept
    (reExtract w.db.idx.secs r.key value w.db.opts.indexes (w.db.idx.secs.filterIX r.ix))
  pure { r with ix := ix }

/-- The transform of `BlobsRelieve`: move the blob to the new generation. -/
def relieveTransform (r : Record) : StoreM Record := do
  let r ← compactTransform r
  match r.blob with
  | none => pure r
  | some ref => do
      let val ← blobReadAt ref
      let w ← Faults.getWorld
      match w.db.relieve with
      | none => Prog.fail .panic
      | some bs => do
          let a ← bs.append val
          updateDB fun db => { db with relieve := some a.2 }
          pure { r with blob := some { a.1 with gen := bs.gen } }

/-! ## Building the new log -/

/-- What `buildRewrite` has built so far: the new primary index and the offset of
the next record. -/
structure Build where
  pk : PkIndex := Tree.empty
  off : Int64 := 0

/-- Append a line to the new log. -/
def Dir.appendCompact (d : Dir) (data : Bytes) : Dir :=
  { d with compact := some (d.compact.getD [] ++ data) }

/-- Write one record to the new log; the writer's buffer is not modelled. -/
def writeCompact (line : Bytes) : StoreM Unit := do
  let w ← Faults.getWorld
  require (decide ((w.dir.compact.getD []).length + (line.length + 1) < maxFileSize)) .io
  fileStep
    (fun w => { w with
      dir := w.dir.appendCompact (line ++ [newline])
      wrapped := w.wrapped || lengthWraps (line.length + 1) })
    (fun kept w => { w with dir := w.dir.appendCompact ((line ++ [newline]).take kept) })

/-- One entry of the scan in `buildRewrite`; an expired one is left out. -/
def rewriteEntry (transform : Record → StoreM Record) (now : Millis) (b : Build) (e : PkEntry) :
    StoreM Build :=
  if e.expiredAt now.ms then pure b
  else do
    let r ← readRecord e
    let r ← transform r
    match marshalRecord r with
    | none => Prog.fail .marshal
    | some line => do
        writeCompact line
        pure { pk := b.pk.load { key := e.key, off := b.off, n := lineLen line, ix := r.ix,
                                 exp := r.exp }
               off := b.off + (lineLen line).toInt64 }

/-- Create the new log, empty. -/
def createCompact : StoreM Unit :=
  atomicStep fun w => { w with dir := { w.dir with compact := some [] } }

/-- Remove the new log. -/
def removeCompact : StoreM Unit :=
  ignoreError (atomicStep fun w => { w with dir := { w.dir with compact := none } })

/-- `buildRewrite` -/
def buildRewrite (transform : Record → StoreM Record) : StoreM PkIndex := do
  createCompact
  let w ← Faults.getWorld
  let b ← Prog.foldEach w.db.idx.pk.items {} (rewriteEntry transform w.now)
  quietStep
  quietStep
  quietStep
  pure b.pk

/-! ## The swap -/

/-- `failStop` -/
def failStop {α : Type} (cause : Err) : StoreM α := do
  updateDB fun db => { db with closed := true, mainOpen := false }
  awaitHint
  Prog.fail (.disabled cause)

/-- Run `c`; when it returns an error, fail-stop. -/
def orFailStop {α : Type} (c : StoreM α) : StoreM α := do
  match ← Prog.attempt c with
  | .ok a => pure a
  | .error e => if e.fatal then Prog.fail e else failStop e

/-- The rename that commits a rewrite; the new log was synced when it was built. -/
def renameCompact : StoreM Unit :=
  atomicStep fun w =>
    { w with
      dir := { w.dir with main := w.dir.compact, compact := none }
      inode := w.inode + 1
      durable := { w.durable with main := (w.dir.compact.getD []).length } }

/-- Remove a blob file. -/
def removeBlob (gen : Int64) : StoreM Unit :=
  atomicStep fun w =>
    { w with
      dir := { w.dir with blobs := w.dir.blobs.delete (gen, []) }
      durable := w.durable.setBlob gen 0 }

/-- Close a retired generation and remove its file. -/
def retireGen (gen : Int64) : StoreM Unit := do
  ignoreError quietStep
  ignoreError (removeBlob gen)
  updateDB fun db => { db with blobs := db.blobs.delete { gen := gen } }

/-- After a `BlobsRelieve` every reference is to the new generation: retire the
others. -/
def retireOthers : StoreM Unit := do
  let w ← Faults.getWorld
  match w.db.relieve with
  | none => pure ()
  | some bs => do
      Prog.forEach (w.db.blobs.items.map BlobStore.gen) retireGen
      updateDB fun db => { db with blobs := db.blobs.set bs, curGen := bs.gen }

/-- The exclusive phase of `rewriteBody` before the hint. -/
def swapBody (pk : PkIndex) : StoreM Unit := do
  ignoreError closeMainHandles
  orFailStop renameCompact
  orFailStop openMainHandles
  updateDB fun db => { db with idx := { db.idx with pk := pk }.rebuildSec, writes := 0 }
  retireOthers

/-- The exclusive phase of `rewriteBody`. -/
def swap (pk : PkIndex) : StoreM Unit := do
  swapBody pk
  writeHint

/-- The fsync of the new generation of a `BlobsRelieve`, which must be durable before a
committed record refers to it. -/
def flushRelieve : StoreM Unit := do
  let w ← Faults.getWorld
  match w.db.relieve with
  | none => pure ()
  | some bs => onError (syncBlob bs.gen) removeCompact

/-- The long phase of `rewriteBody`, behind the gate only. -/
def buildPhase (transform : Record → StoreM Record) : StoreM PkIndex := do
  removeCompact
  let pk ← onError (buildRewrite transform) removeCompact
  flushRelieve
  pure pk

/-- `rewriteBody` -/
def rewriteBody (transform : Record → StoreM Record) : StoreM Unit := do
  let pk ← buildPhase transform
  swap pk

/-! ## The operations -/

/-- `raiseGate` -/
def raiseGate : StoreM Unit := do
  requireOpen
  updateDB fun db => { db with compacting := true }

/-- `lowerGate` -/
def lowerGate : StoreM Unit := updateDB fun db => { db with compacting := false }

/-- Run `c` behind the gate, which is lowered on every return. -/
def gated (c : StoreM Unit) : StoreM Unit := do
  raiseGate
  onError c lowerGate
  lowerGate

/-- `Compact` -/
def compact : StoreM Unit := gated (rewriteBody compactTransform)

/-- The schema entry of a declared index after `Reindex`. -/
def reindexedMeta (prospective : List Bytes) (d : IndexDef) : MetaIndex :=
  ⟨d.name, some d.kind, d.extract.isSome || !prospective.contains d.name, false⟩

/-- `markReindexed` -/
def markReindexed : StoreM Unit := do
  let w ← Faults.getWorld
  let extracted := (w.db.opts.indexes.filter fun d => d.extract.isSome).map IndexDef.name
  updateDB fun db => { db with
    prospective := db.prospective.filter fun n => !extracted.contains n
    dropped := [] }
  writeMeta (w.db.opts.indexes.map (reindexedMeta w.db.prospective))

/-- `Reindex` -/
def reindex : StoreM Unit := do
  gated (rewriteBody reindexTransform)
  markReindexed

/-- Open the new generation of a `BlobsRelieve`. -/
def openRelieve : StoreM Unit := do
  let w ← Faults.getWorld
  Faults.modify fun w => { w with wrapped := w.wrapped || w.db.curGen == maxInt64 }
  let bs ← openBlobs (w.db.curGen + 1)
  updateDB fun db => { db with relieve := some bs }

/-- The cleanup of `BlobsRelieve` after an error of its rewrite: unless the store
was disabled, close the new generation and remove its file. -/
def abandonRelieve : StoreM Unit := do
  let w ← Faults.getWorld
  match w.db.relieve with
  | none => pure ()
  | some bs =>
      if w.db.closed then pure ()
      else do
        -- the store may be in use by now: the swap installs it before the hint
        updateDB fun db => { db with
          blobs := match db.blobStore bs.gen with
            | none => db.blobs
            | some cur => db.blobs.set { cur with isOpen := false }
          relieve := none }
        ignoreError quietStep
        ignoreError (removeBlob bs.gen)

/-- `BlobsRelieve` -/
def blobsRelieve : StoreM Unit :=
  gated do
    openRelieve
    onError (rewriteBody relieveTransform) abandonRelieve
    updateDB fun db => { db with relieve := none }

/-! ## Occupancy of the blob files -/

/-- `BlobUsage` -/
structure BlobUsage where
  totalBytes : Int64
  liveBytes : Int64
  orphanedBytes : Int64
  generations : Nat
  deriving DecidableEq

/-- The bytes of the blob that the record refers to. -/
def Record.blobSize (r : Record) : Int64 :=
  match r.blob with
  | none => 0
  | some b => b.size.toInt64

/-- `BlobUsage()` -/
def blobUsage : StoreM BlobUsage := do
  requireOpen
  let w ← Faults.getWorld
  let total := w.db.blobs.items.foldl (fun n bs => n + bs.size) 0
  let live ← Prog.foldEach w.db.idx.pk.items 0 fun n e => do
    let r ← readRecord e
    pure (n + r.blobSize)
  pure ⟨total, live, total - live, w.db.blobs.items.length⟩

end NteeDb.Core
