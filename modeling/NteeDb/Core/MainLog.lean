import NteeDb.Core.Indexes
import NteeDb.Verified.Lines

/-!
# The files of a store, and the scan of the main log

`mainlog.go` and the replay callback of `db.go`.  A store's directory holds the
main log, its index hint, the log a rewrite is building, the blob files by
generation and the index schema.

The scan reads complete lines until one does not decode or the callback stops
it, and reports the offset just past the last line it accepted.  That offset is
a running sum of 32-bit lengths, not a position of the file.
-/

namespace NteeDb.Core

open NteeDb.Verified
open Lines OrderedTree

/-- `metaIndex`: one index of `meta.json`. -/
structure MetaIndex where
  name : Bytes
  kind : Option ValueKind
  complete : Bool
  dropped : Bool := false
  deriving DecidableEq

/-- Blob files by generation. -/
abbrev BlobFiles := Tree (keyLess fun b : Int64 × Bytes => b.1.toInt)

instance BlobFiles.strictComparator :
    StrictComparator (keyLess fun b : Int64 × Bytes => b.1.toInt) :=
  inferInstance

/-- The files of a store. -/
structure Dir where
  main : Option Bytes := none
  hint : Option Bytes := none
  compact : Option Bytes := none
  blobs : BlobFiles := Tree.empty
  schema : List MetaIndex := []
  deriving DecidableEq

/-- The size the system reports for a file. -/
def fileSize (bytes : Bytes) : Int64 := Int64.ofNat bytes.length

/-- The blob file of a generation. -/
def Dir.blob (d : Dir) (gen : Int64) : Option Bytes := (d.blobs.get? (gen, [])).map Prod.snd

/-- `blobSizeOf`: a missing generation has size 0. -/
def Dir.blobSizeOf (d : Dir) (gen : Int64) : Int64 := ((d.blob gen).map fileSize).getD 0

/-! ## Scanning -/

/-- The 32-bit length recorded for a line, its newline included. -/
def lineLen (line : Bytes) : Int32 := Int32.ofNat (line.length + 1)

/-- The loop of `scanMainLog`; a callback that returns `none` stops the scan. -/
def scanLines {σ : Type} (fn : σ → Record → Int64 → Int32 → Option σ) :
    List Bytes → Int64 → σ → σ × Int64
  | [], off, s => (s, off)
  | line :: rest, off, s =>
      match unmarshalRecord line with
      | none => (s, off)
      | some r =>
          match fn s r off (lineLen line) with
          | none => (s, off)
          | some s' => scanLines fn rest (off + (lineLen line).toInt64) s'

/-- `scanMainLog` -/
def scanMainLog {σ : Type} (main : Option Bytes) (start : Int64)
    (fn : σ → Record → Int64 → Int32 → Option σ) (s : σ) : Except Err (σ × Int64) :=
  match main with
  | none => .ok (s, start)
  | some bytes =>
      if start < 0 then .error .io
      else .ok (scanLines fn (splitLines (bytes.drop start.toInt.toNat)).1 start s)

/-! ## Replay -/

/-- A blob reference that ends past its generation file. -/
def Dir.dangling (d : Dir) (r : Record) : Bool :=
  match r.blob with
  | none => false
  | some b => d.blobSizeOf b.gen < b.off + b.size.toInt64

/-- What one record does to the indexes. -/
def Indexes.apply (ix : Indexes) (r : Record) (off : Int64) (n : Int32) : Indexes :=
  if r.isTombstone then ix.delete r.key
  else ix.put { key := r.key, off := off, n := n, exp := r.exp } r.ix

/-- The callback of `replayTail`. -/
def Dir.replayRecord (d : Dir) (ix : Indexes) (r : Record) (off : Int64) (n : Int32) :
    Option Indexes :=
  if d.dangling r then none else some (ix.apply r off n)

end NteeDb.Core
