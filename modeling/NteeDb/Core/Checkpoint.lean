import NteeDb.Core.Read

/-!
# Hint checkpoints and the background hint writer

`writeHint`, `maybeWriteHint` and `writeHintAsync` of `db.go`, and `Close`.  The
background writer is a job that holds its snapshot; its two steps, flushing the
files it was taken of and writing the hint if no checkpoint came in between, are
taken whenever the scheduler lets it.
-/

namespace NteeDb.Core

open NteeDb.Verified
open OrderedTree

/-- `writeIndexHint`: a temporary file, renamed over the hint.  `of` tells which
`main.jsonl` the entries were taken of. -/
def writeIndexHint (pk : PkIndex) (covers : Int64) (of : Nat) : StoreM Unit := do
  quietStep
  match hintBytes pk covers with
  | none => Prog.fail .marshal
  | some bytes => do
      quietStep
      quietStep
      quietStep
      atomicStep fun w => { w with dir := { w.dir with hint := some bytes }, hintInode := of }

/-- The first step of `writeHint`: invalidate the snapshot in flight. -/
def bumpHintGen : StoreM Unit := updateDB fun db => { db with hintGen := db.hintGen + 1 }

/-- The rest of `writeHint`: flush the blobs, then the log, then write the hint. -/
def checkpointHint : StoreM Unit := do
  let w ← Faults.getWorld
  flushBlob w.db.curGen
  flushMain
  writeIndexHint w.db.idx.pk w.db.size w.db.handles
  updateDB fun db => { db with writes := 0 }

/-- `writeHint` -/
def writeHint : StoreM Unit := do
  bumpHintGen
  checkpointHint

/-- What `maybeWriteHint` does to the store: take a snapshot once enough writes
have come together and no background writer is in flight. -/
def DB.maybeSnapshot (db : DB) : DB :=
  if db.opts.hintEveryN ≤ 0 ∨ db.writes < db.opts.hintEveryN ∨ db.job.isSome then db
  else { db with
    job := some { pk := db.idx.pk, covers := db.size, gen := db.hintGen, handles := db.handles,
                  blobGen := db.curGen }
    writes := 0 }

/-- `maybeWriteHint` -/
def maybeWriteHint : StoreM Unit := updateDB DB.maybeSnapshot

/-! ## The background writer -/

/-- The snapshot's handles are still open. -/
def DB.jobHandlesOpen (db : DB) (j : HintSnapshot) : Bool :=
  db.mainOpen && j.handles = db.handles &&
  ((db.blobStore j.blobGen).map BlobStore.isOpen).getD false

/-- The flushes of `writeHintAsync`; a closed handle makes them fail. -/
def flushJob (j : HintSnapshot) : StoreM Unit := do
  let w ← Faults.getWorld
  require (w.db.jobHandlesOpen j) .io
  syncBlob j.blobGen
  syncMain

/-- First step of the background writer; any error ends it. -/
def hintAsyncFlush : StoreM Unit := do
  let w ← Faults.getWorld
  match w.db.job with
  | none => pure ()
  | some j =>
      if j.flushed then pure ()
      else do
        match ← Prog.attempt (flushJob j) with
        | .ok _ => updateDB fun db => { db with job := some { j with flushed := true } }
        | .error e =>
            if e.fatal then Prog.fail e else updateDB fun db => { db with job := none }

/-- Second step of the background writer: unless a checkpoint came in between,
write the snapshot as the hint. -/
def hintAsyncWrite : StoreM Unit := do
  let w ← Faults.getWorld
  match w.db.job with
  | none => pure ()
  | some j =>
      if j.flushed then do
        doWhen (j.gen == w.db.hintGen) (ignoreError (writeIndexHint j.pk j.covers j.handles))
        updateDB fun db => { db with job := none }
      else pure ()

/-- `hintWG.Wait`: the background writer runs to its end. -/
def awaitHint : StoreM Unit := do
  hintAsyncFlush
  hintAsyncWrite

/-! ## Closing -/

/-- Close the `main.jsonl` handles. -/
def closeMainHandles : StoreM Unit := do
  updateDB fun db => { db with mainOpen := false }
  quietStep

/-- `Close`; the first error is returned, and every file is closed. -/
def close : StoreM Unit := do
  let w ← Faults.getWorld
  if w.db.closed then pure ()
  else do
    updateDB fun db => { db with closed := true }
    awaitHint
    onError writeHint (ignoreError closeMainHandles)
    closeMainHandles

end NteeDb.Core
