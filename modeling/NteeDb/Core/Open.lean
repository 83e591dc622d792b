import NteeDb.Core.Store

/-!
# Opening a store

`Open`, `load`, `replayTail` and `adoptSchema` of `db.go`: rebuild the indexes
from the hint and the tail of the log past it, or from the whole log; cut off what
the scan did not accept; take over the declared indexes; open the files.
-/

namespace NteeDb.Core

open NteeDb.Verified
open Lines OrderedTree

/-! ## Loading the indexes -/

/-- Add a declared index with an empty tree, if its name is new. -/
def SecIndexes.declare (secs : SecIndexes) (d : IndexDef) : Except Err SecIndexes :=
  if d.name = [] then .error .indexNameRequired
  else if h : d.name ∈ secs.items.map SecIndex.name then .error (.duplicateIndex d.name)
  else .ok {
    items := secs.items ++ [newSecIndex d]
    nodup := by
      rw [List.map_append, List.nodup_append]
      refine ⟨secs.nodup, List.nodup_singleton _, ?_⟩
      intro a ha b hb
      rw [List.map_singleton, List.mem_singleton] at hb
      rintro rfl
      rw [hb] at ha
      exact h ha }

/-- The declared indexes, all empty. -/
def declareAll : List IndexDef → SecIndexes → Except Err SecIndexes
  | [], secs => .ok secs
  | d :: ds, secs => (secs.declare d).bind (declareAll ds)

/-- No index. -/
def noIndexes : SecIndexes := ⟨[], List.nodup_nil⟩

/-- The hint that `load` starts from: one that loads and does not claim to cover
more than the log holds. -/
def Dir.usableHint (d : Dir) : Option (List PkEntry × Int64) := do
  let (es, covers) ← loadIndexHint d.hint
  let bytes ← d.main
  if covers ≤ fileSize bytes then some (es, covers) else none

/-- Read a file whose absence, damage or failing read all count as `none`. -/
def optionalRead {α : Type} (f : World → Option α) : StoreM (Option α) := do
  match ← Prog.attempt quietStep with
  | .ok _ => do
      let w ← Faults.getWorld
      pure (f w)
  | .error e => if e.fatal then Prog.fail e else pure none

/-- Cut the log off at `goodEnd` when it is longer. -/
def truncateMain (goodEnd : Int64) : StoreM Unit := do
  let w ← Faults.getWorld
  if goodEnd < fileSize w.dir.mainBytes then do
    require (decide (0 ≤ goodEnd)) .io
    atomicStep fun w =>
      { w with
        dir := { w.dir with main := w.dir.main.map (·.take goodEnd.toInt.toNat) }
        durable := { w.durable with main := min w.durable.main goodEnd.toInt.toNat } }
  else pure ()

/-- `replayTail` -/
def replayTail (start : Int64) (ix : Indexes) : StoreM Indexes := do
  let r ← readStep fun w => scanMainLog w.dir.main start w.dir.replayRecord ix
  truncateMain r.2
  pure r.1

/-- `load` -/
def load (secs : SecIndexes) : StoreM Indexes := do
  match ← optionalRead fun w => w.dir.usableHint with
  | some (es, covers) => replayTail covers (es.foldl Indexes.loadEntry ⟨Tree.empty, secs⟩)
  | none => replayTail 0 ⟨Tree.empty, secs⟩

/-! ## The index schema -/

/-- `writeMeta`: the names go through JSON. -/
def writeMeta (indexes : List MetaIndex) : StoreM Unit := do
  quietStep
  atomicStep fun w =>
    { w with dir := { w.dir with
        schema := indexes.map fun mi => { mi with name := Utf8.sanitize mi.name } } }

/-- The last entry of a name, as a map filled in order holds it. -/
def lastNamed (prior : List MetaIndex) (name : Bytes) : Option MetaIndex :=
  (prior.filter fun mi => mi.name = name).getLast?

/-- The schema entry of a declared index. -/
def adoptIndex (prior : List MetaIndex) (hadData : Bool) (d : IndexDef) : MetaIndex :=
  match lastNamed prior d.name with
  | some mi =>
      if mi.kind = some d.kind ∧ mi.dropped = false then ⟨d.name, some d.kind, mi.complete, false⟩
      else ⟨d.name, some d.kind, !hadData, false⟩
  | none => ⟨d.name, some d.kind, !hadData, false⟩

/-- The prior indexes that are no longer declared. -/
def undeclared (prior : List MetaIndex) (defs : List IndexDef) : List MetaIndex :=
  prior.filter fun mi => !(defs.map IndexDef.name).contains mi.name

/-- `adoptSchema`: the prospective and the dropped indexes. -/
def adoptSchema (defs : List IndexDef) (hadData : Bool) :
    StoreM (List Bytes × List (Bytes × ValueKind)) := do
  let prior := (← optionalRead fun w => some w.dir.schema).getD []
  let adopted := defs.map (adoptIndex prior hadData)
  let gone := undeclared prior defs
  writeMeta (adopted ++ gone.map fun mi => { mi with dropped := true })
  pure ((adopted.filter fun mi => !mi.complete).map MetaIndex.name,
    gone.filterMap fun mi => mi.kind.map fun k => (mi.name, k))

/-! ## Opening the files -/

/-- `openMainHandles`; the log is created when it is missing. -/
def openMainHandles : StoreM Unit := do
  atomicStep fun w => { w with dir := { w.dir with main := some w.dir.mainBytes } }
  quietStep
  quietStep
  quietStep
  Faults.modify fun w =>
    { w with db := { w.db with
        size := fileSize w.dir.mainBytes, handles := w.inode, mainOpen := true } }

/-- `openBlobs`; the file is created when it is missing. -/
def openBlobs (gen : Int64) : StoreM BlobStore := do
  atomicStep fun w => { w with dir := w.dir.appendBlob gen [] }
  quietStep
  let w ← Faults.getWorld
  pure { gen := gen, size := fileSize (w.dir.blobBytes gen) }

/-- `discoverBlobGens` -/
def Dir.discoverBlobGens (d : Dir) : List Int64 := (d.blobs.items.map Prod.fst).filter (0 ≤ ·)

/-- The generation that new blobs go to: the highest one present. -/
def highestGen (gens : List Int64) : Int64 := gens.foldl (fun cur g => if cur < g then g else cur) 0

/-- Open every generation in the list. -/
def openGens (gens : List Int64) : StoreM BlobStores :=
  Prog.foldEach gens Tree.empty fun blobs g => do
    let bs ← openBlobs g
    pure (blobs.set bs)

/-- The options with the blob threshold defaulted. -/
def Options.withDefaults (opts : Options) : Options :=
  if opts.blobThreshold = 0 then { opts with blobThreshold := 65536 } else opts

/-- `Open` -/
def openStore (opts : Options) : StoreM Unit := do
  let w ← Faults.getWorld
  require w.db.closed .locked
  let secs ← Prog.ofExcept (declareAll opts.indexes noIndexes)
  let idx ← load secs
  let schema ← adoptSchema opts.indexes (decide (0 < idx.pk.len))
  openMainHandles
  let w ← Faults.getWorld
  let gens := w.dir.discoverBlobGens
  let cur := highestGen gens
  let blobs ← openGens (if gens.contains cur then gens else gens ++ [cur])
  updateDB fun db =>
    { opts := opts.withDefaults, size := db.size, handles := db.handles, mainOpen := true,
      blobs := blobs, curGen := cur, idx := idx, closed := false, prospective := schema.1,
      dropped := schema.2 }

end NteeDb.Core
