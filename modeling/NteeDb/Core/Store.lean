import NteeDb.Core.Hint
import NteeDb.Verified.Faults

/-!
# The store and its file steps

The state of an open store (`DB` of `db.go`) next to the files of its directory.
Every access to a file is a step that the system answers (`Faults.step`), so one
definition of an operation covers runs without errors, runs with failing steps
and crashes at any step.

Four components of the world are histories that no operation reads.  `acked` is
what the record-level mutations completed so far say the store holds; it changes
in the very step that writes a record to the main log.  `hintInode` tells which
`main.jsonl` the hint on disk was taken of.  `wrapped` tells that a length or a
generation number did not fit its machine integer.  `durable` tells how much of
each file an fsync has made safe from a power loss.
-/

namespace NteeDb.Core

open NteeDb.Verified
open Lines OrderedTree JsonCodec

/-- `Options` -/
structure Options where
  blobThreshold : Int64 := 65536
  syncEveryWrite : Bool := false
  hintEveryN : Int64 := 0
  indexes : List IndexDef := []

/-- `blobStore`: an open blob file and the size tracked for it. -/
structure BlobStore where
  gen : Int64
  size : Int64 := 0
  isOpen : Bool := true
  deriving DecidableEq

/-- `db.blobs` -/
abbrev BlobStores := Tree (keyLess fun b : BlobStore => b.gen.toInt)

instance BlobStores.strictComparator :
    StrictComparator (keyLess fun b : BlobStore => b.gen.toInt) :=
  inferInstance

/-- `hintSnapshot`, and whether its background writer has flushed the files.
`handles` and `blobGen` name the handles the snapshot holds. -/
structure HintSnapshot where
  pk : PkIndex
  covers : Int64
  gen : Nat
  handles : Nat
  blobGen : Int64
  flushed : Bool := false

/-- `reapReq` -/
structure ReapReq where
  key : Bytes
  off : Int64
  deriving DecidableEq

/-- `DB`.  A store that is not open (closed, fail-stopped, its process gone) has
`closed` set. -/
structure DB where
  opts : Options := {}
  /-- `main.size` -/
  size : Int64 := 0
  /-- Which `main.jsonl` the handles were opened on, and whether they are open. -/
  handles : Nat := 0
  mainOpen : Bool := false
  blobs : BlobStores := Tree.empty
  curGen : Int64 := 0
  idx : Indexes := ⟨Tree.empty, ⟨[], List.nodup_nil⟩⟩
  writes : Int64 := 0
  closed : Bool := true
  compacting : Bool := false
  hintGen : Nat := 0
  /-- The background hint writer in flight. -/
  job : Option HintSnapshot := none
  reapCh : List ReapReq := []
  /-- The new blob generation of a `BlobsRelieve` in flight. -/
  relieve : Option BlobStore := none
  prospective : List Bytes := []
  dropped : List (Bytes × ValueKind) := []

/-- A reading of the wall clock, in milliseconds; it stays far from overflow. -/
structure Millis where
  ms : Int64
  bounded : ms.toInt < 2 ^ 62

/-- The clock may read zero. -/
theorem Millis.zero_bounded : (0 : Int64).toInt < 2 ^ 62 := by decide

/-- What a mutation made known of a key. -/
structure Ack where
  key : Bytes
  value : Bytes
  exp : Int64
  deriving DecidableEq

/-- The contents after a run of mutations. -/
abbrev Contents := Tree (keyLess Ack.key)

instance Contents.strictComparator : StrictComparator (keyLess Ack.key) := inferInstance

/-- A record-level mutation. -/
inductive Mutation where
  | put (a : Ack)
  | del (key : Bytes)
  deriving DecidableEq

/-- What is known of a key. -/
def Contents.get (t : Contents) (key : Bytes) : Option Ack := t.get? ⟨key, [], 0⟩

/-- The contents after one more mutation. -/
def Contents.apply (t : Contents) : Mutation → Contents
  | .put a => t.set a
  | .del key => t.delete ⟨key, [], 0⟩

/-- How long a prefix of each file has been synced. -/
structure Durable where
  main : Nat := 0
  blobs : Int64 → Nat := fun _ => 0

/-- The files, the store open on them, and the clock. -/
structure World where
  dir : Dir := {}
  db : DB := {}
  now : Millis
  /-- Which file `main.jsonl` is; a rename over it installs another one. -/
  inode : Nat := 0
  hintInode : Nat := 0
  wrapped : Bool := false
  acked : Contents := Tree.empty
  durable : Durable := {}

/-- A program of the store. -/
abbrev StoreM := Prog (Env World) Err

/-! ## File steps -/

/-- One access to a file. -/
def fileStep (act : World → World) (torn : Nat → World → World) : StoreM Unit :=
  Faults.step Err.io Err.crash act torn

/-- A step that changes no file: close, stat, opening an existing file, the fsync of a
temporary file. -/
def quietStep : StoreM Unit := fileStep id fun _ => id

/-- A step that is carried out or not at all: create, rename, remove, truncate. -/
def atomicStep (act : World → World) : StoreM Unit := fileStep act fun _ => id

/-- Read from a file. -/
def readStep {α : Type} (f : World → Except Err α) : StoreM α := do
  quietStep
  let w ← Faults.getWorld
  Prog.ofExcept (f w)

/-- Change the state of the open store. -/
def updateDB (f : DB → DB) : StoreM Unit := Faults.modify fun w => { w with db := f w.db }

/-- Go on only if `b` holds. -/
def require (b : Bool) (e : Err) : StoreM Unit := if b then pure () else Prog.fail e

/-- Run `c` if `b` holds. -/
def doWhen (b : Bool) (c : StoreM Unit) : StoreM Unit := if b then c else pure ()

/-- The error ends the process. -/
def Err.fatal : Err → Bool
  | .crash => true
  | .panic => true
  | _ => false

/-- Run `c`; when it returns an error, run `cleanup`, then return that error. -/
def onError {α : Type} (c : StoreM α) (cleanup : StoreM Unit) : StoreM α := do
  match ← Prog.attempt c with
  | .ok a => pure a
  | .error e => do
      doWhen (!e.fatal) cleanup
      Prog.fail e

/-- Run `c` and drop an error it returns. -/
def ignoreError (c : StoreM Unit) : StoreM Unit := do
  match ← Prog.attempt c with
  | .ok _ => pure ()
  | .error e => if e.fatal then Prog.fail e else pure ()

/-- No file grows to 2^63 bytes: the system refuses such a write. -/
def maxFileSize : Nat := 9223372036854775808

/-- The 32-bit length of `n` bytes is another number. -/
def lengthWraps (n : Nat) : Bool := decide (2147483648 ≤ n)

/-- `ReadAt` into a buffer of `n` bytes. -/
def readAt (bytes : Bytes) (off : Int64) (n : Nat) : Except Err Bytes :=
  if off < 0 then .error .io
  else if ((bytes.drop off.toInt.toNat).take n).length = n then
    .ok ((bytes.drop off.toInt.toNat).take n)
  else .error .io

/-- `WriteAt`: replace bytes in place; a gap past the end is filled with zeros. -/
def overwrite (bytes : Bytes) (pos : Nat) (data : Bytes) : Bytes :=
  bytes.take pos ++ List.replicate (pos - bytes.length) 0 ++ data ++ bytes.drop (pos + data.length)

/-- The bytes of `main.jsonl`. -/
def Dir.mainBytes (d : Dir) : Bytes := d.main.getD []

/-- Append to `main.jsonl`. -/
def Dir.appendMain (d : Dir) (data : Bytes) : Dir := { d with main := some (d.mainBytes ++ data) }

/-- The bytes of a blob file. -/
def Dir.blobBytes (d : Dir) (gen : Int64) : Bytes := (d.blob gen).getD []

/-- Append to a blob file. -/
def Dir.appendBlob (d : Dir) (gen : Int64) (data : Bytes) : Dir :=
  { d with blobs := d.blobs.set (gen, d.blobBytes gen ++ data) }

/-- `db.blobs[gen]` -/
def DB.blobStore (db : DB) (gen : Int64) : Option BlobStore := db.blobs.get? { gen := gen }

/-! ## Syncing -/

/-- The durable prefixes once a blob file has been synced at a length. -/
def Durable.setBlob (d : Durable) (gen : Int64) (n : Nat) : Durable :=
  { d with blobs := fun g => if g = gen then n else d.blobs g }

/-- The fsync of `main.jsonl`. -/
def syncMain : StoreM Unit :=
  atomicStep fun w => { w with durable := { w.durable with main := w.dir.mainBytes.length } }

/-- The fsync of a blob file. -/
def syncBlob (gen : Int64) : StoreM Unit :=
  atomicStep fun w => { w with durable := w.durable.setBlob gen (w.dir.blobBytes gen).length }

/-! ## Appending -/

/-- `appendSync` on `main.jsonl`: write a record as one line and report where it
is and how long.  `m` is the mutation that the line completes. -/
def appendSync (r : Record) (m : Mutation) (sync : Bool) : StoreM (Int64 × Int32) := do
  match marshalRecord r with
  | none => Prog.fail .marshal
  | some line => do
      let w ← Faults.getWorld
      require (decide (w.dir.mainBytes.length + (line.length + 1) < maxFileSize)) .io
      fileStep
        (fun w => { w with
          dir := w.dir.appendMain (line ++ [newline])
          wrapped := w.wrapped || lengthWraps (line.length + 1)
          acked := w.acked.apply m })
        (fun kept w => { w with dir := w.dir.appendMain ((line ++ [newline]).take kept) })
      doWhen sync syncMain
      updateDB fun db => { db with size := db.size + (lineLen line).toInt64 }
      pure (w.db.size, lineLen line)

/-- `append` on a blob store, with the store after it; the caller fills in the
generation. -/
def BlobStore.append (bs : BlobStore) (value : Bytes) : StoreM (BlobRef × BlobStore) := do
  require bs.isOpen .io
  let w ← Faults.getWorld
  require (decide ((w.dir.blobBytes bs.gen).length + value.length < maxFileSize)) .io
  fileStep
    (fun w => { w with
      dir := w.dir.appendBlob bs.gen value
      wrapped := w.wrapped || lengthWraps value.length })
    (fun kept w => { w with dir := w.dir.appendBlob bs.gen (value.take kept) })
  pure (⟨bs.size, Int32.ofNat value.length, 0⟩,
    { bs with size := bs.size + Int64.ofNat value.length })

/-- `append` on the store of a generation. -/
def appendBlob (gen : Int64) (value : Bytes) : StoreM BlobRef := do
  let w ← Faults.getWorld
  match w.db.blobStore gen with
  | none => Prog.fail .panic
  | some bs => do
      let r ← bs.append value
      updateDB fun db => { db with blobs := db.blobs.set r.2 }
      pure r.1

/-- `flush` on a blob store. -/
def flushBlob (gen : Int64) : StoreM Unit := do
  let w ← Faults.getWorld
  match w.db.blobStore gen with
  | none => pure ()
  | some bs => do
      require bs.isOpen .io
      syncBlob gen

/-- `flush` on the main log. -/
def flushMain : StoreM Unit := syncMain

end NteeDb.Core
