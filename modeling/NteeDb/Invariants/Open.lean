import NteeDb.Invariants.Rules

/-!
# What opening a store does

Without refused file steps, `Open` loads the indexes that the hint and the log
determine (`Dir.loaded`), cuts the log off where the scan ended, and opens a store
on the files; cut off anywhere, it leaves every other file as it was.
-/

namespace NteeDb.Core

open NteeDb.Verified
open Faults OrderedTree

/-! ## Blob files and stores by generation -/

theorem Dir.blob_appendBlob (d : Dir) (g gen : Int64) (data : Bytes) :
    (d.appendBlob g data).blob gen
      = if gen = g then some (d.blobBytes g ++ data) else d.blob gen := by
  have hget := (d.blobs : BlobFiles).get?_set (g, d.blobBytes g ++ data) (gen, [])
  rw [Dir.blob, Dir.appendBlob, hget]
  simp only [Int64.toInt_inj]
  split
  · rfl
  · rfl

theorem Dir.blobBytes_appendBlob (d : Dir) (g gen : Int64) (data : Bytes) :
    (d.appendBlob g data).blobBytes gen
      = if gen = g then d.blobBytes g ++ data else d.blobBytes gen := by
  rw [Dir.blobBytes, Dir.blob_appendBlob]
  split
  · rfl
  · rfl

/-- Opening a blob file changes no blob. -/
theorem Dir.blobBytes_appendBlob_nil (d : Dir) (g gen : Int64) :
    (d.appendBlob g []).blobBytes gen = d.blobBytes gen := by
  rw [Dir.blobBytes_appendBlob]
  split
  · next h => rw [h, List.append_nil]
  · rfl

theorem blobStores_get_set (t : BlobStores) (bs : BlobStore) (gen : Int64) :
    (t.set bs).get? { gen := gen } = if gen = bs.gen then some bs else t.get? { gen := gen } := by
  have hget := (t : BlobStores).get?_set bs { gen := gen }
  rw [hget]
  simp only [Int64.toInt_inj]

theorem blobStores_get_delete (t : BlobStores) (g gen : Int64) :
    (t.delete { gen := g }).get? { gen := gen }
      = if gen = g then none else t.get? { gen := gen } := by
  have hget := (t : BlobStores).get?_delete { gen := g } { gen := gen }
  rw [hget]
  simp only [Int64.toInt_inj]

theorem highestGen_spec (gens : List Int64) :
    0 ≤ highestGen gens ∧ (∀ g ∈ gens, g ≤ highestGen gens) ∧
      (highestGen gens ∈ gens ∨ highestGen gens = 0) := by
  have hfold : ∀ (gens : List Int64) (cur : Int64), 0 ≤ cur →
      cur ≤ gens.foldl (fun cur g => if cur < g then g else cur) cur ∧
      (∀ g ∈ gens, g ≤ gens.foldl (fun cur g => if cur < g then g else cur) cur) ∧
      (gens.foldl (fun cur g => if cur < g then g else cur) cur ∈ gens ∨
        gens.foldl (fun cur g => if cur < g then g else cur) cur = cur) := by
    intro gens
    induction gens with
    | nil => intro cur _; exact ⟨Int64.le_refl cur, by simp, Or.inr rfl⟩
    | cons g gens ih =>
        intro cur hcur
        rw [List.foldl_cons]
        by_cases hlt : cur < g
        · rw [if_pos hlt]
          have hg : cur ≤ g := Int64.le_of_lt hlt
          obtain ⟨hle, hall, hmem⟩ := ih g (Int64.le_trans hcur hg)
          refine ⟨Int64.le_trans hg hle, List.forall_mem_cons.mpr ⟨hle, hall⟩, Or.inl ?_⟩
          rcases hmem with hmem | heq
          · exact List.mem_cons_of_mem g hmem
          · rw [heq]
            exact List.mem_cons_self ..
        · rw [if_neg hlt]
          obtain ⟨hle, hall, hmem⟩ := ih cur hcur
          refine ⟨hle, List.forall_mem_cons.mpr ⟨Int64.le_trans (Int64.not_lt.mp hlt) hle, hall⟩,
            ?_⟩
          exact hmem.imp_left (List.mem_cons_of_mem g)
  obtain ⟨hle, hall, hmem⟩ := hfold gens 0 (Int64.le_refl 0)
  exact ⟨hle, hall, hmem⟩

/-! ## The outcome -/

/-- What `load` computes when no read is refused: the indexes, and where the scan
ended. -/
def Dir.loaded (d : Dir) (secs : SecIndexes) : Except Err (Indexes × Int64) :=
  match d.usableHint with
  | some hint =>
      scanMainLog d.main hint.2 d.replayRecord
        (hint.1.foldl Indexes.loadEntry ⟨Tree.empty, secs⟩)
  | none => scanMainLog d.main 0 d.replayRecord ⟨Tree.empty, secs⟩

/-- The log cut off where a scan ended. -/
def cutOff (bytes : Bytes) (goodEnd : Int64) : Bytes :=
  if goodEnd < fileSize bytes then bytes.take goodEnd.toInt.toNat else bytes

/-- Nothing but the log, the schema, empty blob files and the open store differs. -/
structure Untouched (w₀ w : World) : Prop where
  hint : w.dir.hint = w₀.dir.hint
  compact : w.dir.compact = w₀.dir.compact
  blob : ∀ gen, w.dir.blobBytes gen = w₀.dir.blobBytes gen
  inode : w.inode = w₀.inode
  hintInode : w.hintInode = w₀.hintInode
  acked : w.acked = w₀.acked
  now : w.now = w₀.now
  wrapped : w.wrapped = w₀.wrapped
  mainSynced : w.durable.main ≤ w₀.durable.main
  blobsSynced : w.durable.blobs = w₀.durable.blobs
  present : ∀ gen, (w₀.dir.blob gen).isSome = true → (w.dir.blob gen).isSome = true

theorem Untouched.refl (w : World) : Untouched w w :=
  ⟨rfl, rfl, fun _ => rfl, rfl, rfl, rfl, rfl, rfl, le_refl _, rfl, fun _ h => h⟩

/-- The store that `w.db` is has just been opened on the files of `w`. -/
structure FreshlyOpen (opts : Options) (idx : Indexes) (w : World) : Prop where
  opts : w.db.opts = opts.withDefaults
  size : w.db.size = fileSize w.dir.mainBytes
  handles : w.db.handles = w.inode
  mainOpen : w.db.mainOpen = true
  idx : w.db.idx = idx
  closed : w.db.closed = false
  compacting : w.db.compacting = false
  hintGen : w.db.hintGen = 0
  job : w.db.job = none
  relieve : w.db.relieve = none
  reapCh : w.db.reapCh = []
  curGen : 0 ≤ w.db.curGen
  cur : (w.dir.blob w.db.curGen).isSome = true
  fresh : ∀ gen, w.db.curGen < gen → w.dir.blob gen = none
  stores : ∀ gen, w.db.blobStore gen = if 0 ≤ gen ∧ (w.dir.blob gen).isSome = true then
    some { gen := gen, size := fileSize (w.dir.blobBytes gen) } else none

/-- The schema that `Open` leaves on disk. -/
def adoptedSchema (prior : List MetaIndex) (defs : List IndexDef) (hadData : Bool) :
    List MetaIndex :=
  (defs.map (adoptIndex prior hadData) ++
    (undeclared prior defs).map fun mi : MetaIndex => { mi with dropped := true }).map
      fun mi : MetaIndex => { mi with name := Utf8.sanitize mi.name }

/-- The declared indexes that may miss records, as `Open` finds them. -/
def adoptedProspective (prior : List MetaIndex) (defs : List IndexDef) (hadData : Bool) :
    List Bytes :=
  ((defs.map (adoptIndex prior hadData)).filter fun mi => !mi.complete).map MetaIndex.name

/-- The soft-dropped indexes, as `Open` finds them. -/
def adoptedDropped (prior : List MetaIndex) (defs : List IndexDef) : List (Bytes × ValueKind) :=
  (undeclared prior defs).filterMap fun mi => mi.kind.map fun k => (mi.name, k)

/-- The schema of the open store of `w` is the one on disk in `w₀`, adopted. -/
structure SchemaAdopted (opts : Options) (hadData : Bool) (w₀ w : World) : Prop where
  schema : w.dir.schema = adoptedSchema w₀.dir.schema opts.indexes hadData
  prospective : w.db.prospective = adoptedProspective w₀.dir.schema opts.indexes hadData
  dropped : w.db.dropped = adoptedDropped w₀.dir.schema opts.indexes

/-- `Open` on the files of `w₀` has opened the store of `w`. -/
structure Opened (opts : Options) (idx : Indexes) (goodEnd : Int64) (w₀ w : World) : Prop where
  untouched : Untouched w₀ w
  main : w.dir.main = some (cutOff w₀.dir.mainBytes goodEnd)
  store : FreshlyOpen opts idx w
  adopted : SchemaAdopted opts (decide (0 < idx.pk.len)) w₀ w

/-- `Open` on the files of `w₀` was cut off in `w`: the log is whole, or cut off
where the scan ended. -/
structure OpenCut (goodEnd : Int64) (w₀ w : World) : Prop where
  untouched : Untouched w₀ w
  main : w.dir.mainBytes = w₀.dir.mainBytes ∨ w.dir.mainBytes = cutOff w₀.dir.mainBytes goodEnd

/-- `Open` was cut off by a crash. -/
def OpenCrash (A : Answer → Prop) (goodEnd : Int64) (w₀ : World) (e : Err) (w : World) : Prop :=
  e = .crash ∧ A .crash ∧ OpenCut goodEnd w₀ w

/-! ## The steps -/

section Steps

variable {A : Answer → Prop} {w₀ : World} {goodEnd : Int64} {schema : List MetaIndex}

/-- The log has been cut off; the blob files are as they were. -/
structure Loaded (goodEnd : Int64) (schema : List MetaIndex) (w₀ w : World) : Prop where
  untouched : Untouched w₀ w
  main : w.dir.mainBytes = cutOff w₀.dir.mainBytes goodEnd
  blobs : w.dir.blobs = w₀.dir.blobs
  closed : w.db.closed = w₀.db.closed
  schema : w.dir.schema = schema

theorem Loaded.cut {w : World} (h : Loaded goodEnd schema w₀ w) : OpenCut goodEnd w₀ w :=
  ⟨h.untouched, Or.inr h.main⟩

theorem truncateMain_spec (hA : ∀ k, ¬ A (.fail k)) (hpos : 0 ≤ goodEnd) :
    Spec A (fun w => w = w₀) (truncateMain goodEnd) (fun _ => Loaded goodEnd w₀.dir.schema w₀)
      (OpenCrash A goodEnd w₀) := by
  refine Spec.bind_getWorld ?_
  rintro w rfl
  refine Spec.ite (fun hlt => ?_) fun hle => ?_
  · refine Spec.bind_require (fun _ _ hneg => ?_) fun _ => ?_
    · exact absurd hpos (of_decide_eq_false hneg)
    · refine Spec.atomicStep ?_ (fun k _ hk _ => absurd hk (hA k)) ?_
      · rintro v rfl
        refine ⟨⟨rfl, rfl, fun _ => rfl, rfl, rfl, rfl, rfl, rfl, min_le_left _ _, rfl,
          fun _ h => h⟩, ?_, rfl, rfl, rfl⟩
        rw [cutOff, if_pos hlt, Dir.mainBytes, Dir.mainBytes]
        cases v.dir.main with
        | none => rw [Option.map_none, Option.getD_none, List.take_nil]
        | some bytes => rfl
      · rintro v hc rfl
        exact ⟨rfl, hc, Untouched.refl v, Or.inl rfl⟩
  · refine Spec.pure ?_
    rintro v rfl
    exact ⟨Untouched.refl v, by rw [cutOff, if_neg hle], rfl, rfl, rfl⟩

theorem replayTail_spec (hA : ∀ k, ¬ A (.fail k)) {start : Int64} {ix idx : Indexes}
    (hscan : scanMainLog w₀.dir.main start w₀.dir.replayRecord ix = .ok (idx, goodEnd))
    (hpos : 0 ≤ goodEnd) :
    Spec A (fun w => w = w₀) (replayTail start ix) (fun i w => i = idx ∧
      Loaded goodEnd w₀.dir.schema w₀ w) (OpenCrash A goodEnd w₀) := by
  refine Spec.bind (Q := fun r w => r = (idx, goodEnd) ∧ w = w₀) ?_ fun r => ?_
  · refine Spec.readStep ?_ ?_ (fun k _ hk _ => absurd hk (hA k)) ?_
    · rintro r w rfl hr
      rw [hscan] at hr
      cases hr
      exact ⟨rfl, rfl⟩
    · rintro e w rfl he
      rw [hscan] at he
      cases he
    · rintro w hc rfl
      exact ⟨rfl, hc, Untouched.refl w, Or.inl rfl⟩
  · refine Spec.of_pure ?_
    rintro rfl
    exact Spec.bind (truncateMain_spec hA hpos) fun _ => Spec.pure fun _ h => ⟨rfl, h⟩

theorem load_spec (hA : ∀ k, ¬ A (.fail k)) {secs : SecIndexes} {idx : Indexes}
    (hload : w₀.dir.loaded secs = .ok (idx, goodEnd)) (hpos : 0 ≤ goodEnd) :
    Spec A (fun w => w = w₀) (load secs) (fun i w => i = idx ∧ Loaded goodEnd w₀.dir.schema w₀ w)
      (OpenCrash A goodEnd w₀) := by
  refine Spec.bind (Q := fun u w => u = w₀.dir.usableHint ∧ w = w₀) ?_ fun u => ?_
  · refine Spec.optionalRead ?_ (fun k _ hk _ => absurd hk (hA k)) ?_
    · rintro w rfl
      exact ⟨rfl, rfl⟩
    · rintro w hc rfl
      exact ⟨rfl, hc, Untouched.refl w, Or.inl rfl⟩
  · refine Spec.of_pure fun hu => ?_
    rw [Dir.loaded, ← hu] at hload
    cases u with
    | none => exact replayTail_spec hA hload hpos
    | some hint => exact replayTail_spec hA hload hpos

/-- A step that leaves the loaded state as it is. -/
private theorem quiet_loaded (hA : ∀ k, ¬ A (.fail k)) :
    Spec A (Loaded goodEnd schema w₀) quietStep (fun _ => Loaded goodEnd schema w₀)
      (OpenCrash A goodEnd w₀) :=
  Spec.quietStep (fun _ h => h) (fun k _ hk _ => absurd hk (hA k)) fun _ hc h => ⟨rfl, hc, h.cut⟩

theorem adoptSchema_spec (hA : ∀ k, ¬ A (.fail k)) (defs : List IndexDef) (hadData : Bool) :
    Spec A (Loaded goodEnd schema w₀) (adoptSchema defs hadData)
      (fun r w => r = (adoptedProspective schema defs hadData, adoptedDropped schema defs) ∧
        Loaded goodEnd (adoptedSchema schema defs hadData) w₀ w)
      (OpenCrash A goodEnd w₀) := by
  refine Spec.bind (Spec.optionalRead (Q := fun prior w => prior = some schema ∧
    Loaded goodEnd schema w₀ w) (fun w h => ⟨by rw [h.schema], h⟩)
    (fun k _ hk _ => absurd hk (hA k)) fun _ hc h => ⟨rfl, hc, h.cut⟩) fun prior => ?_
  refine Spec.of_pure ?_
  rintro rfl
  refine Spec.bind (Q := fun _ w => Loaded goodEnd (adoptedSchema schema defs hadData) w₀ w)
    ?_ fun _ => Spec.pure fun _ h => ⟨rfl, h⟩
  refine Spec.bind (quiet_loaded hA) fun _ => ?_
  refine Spec.atomicStep (fun w h => ?_) (fun k _ hk _ => absurd hk (hA k))
    fun _ hc h => ⟨rfl, hc, h.cut⟩
  exact ⟨⟨h.untouched.hint, h.untouched.compact, h.untouched.blob, h.untouched.inode,
    h.untouched.hintInode, h.untouched.acked, h.untouched.now, h.untouched.wrapped,
    h.untouched.mainSynced, h.untouched.blobsSynced, h.untouched.present⟩, h.main,
    h.blobs, h.closed, rfl⟩

/-- The main log is open, and nothing of the blobs has changed. -/
structure MainOpened (goodEnd : Int64) (schema : List MetaIndex) (w₀ w : World) : Prop
    extends Loaded goodEnd schema w₀ w where
  present : w.dir.main.isSome = true
  size : w.db.size = fileSize w.dir.mainBytes
  handles : w.db.handles = w.inode

theorem openMainHandles_spec (hA : ∀ k, ¬ A (.fail k)) :
    Spec A (Loaded goodEnd schema w₀) openMainHandles (fun _ => MainOpened goodEnd schema w₀)
      (OpenCrash A goodEnd w₀) := by
  have hquiet : Spec A (fun w => Loaded goodEnd schema w₀ w ∧ w.dir.main.isSome = true) quietStep
      (fun _ w => Loaded goodEnd schema w₀ w ∧ w.dir.main.isSome = true)
      (OpenCrash A goodEnd w₀) :=
    Spec.quietStep (fun _ h => h) (fun k _ hk _ => absurd hk (hA k))
    fun _ hc h => ⟨rfl, hc, h.1.cut⟩
  refine Spec.bind (Spec.atomicStep
    (Q := fun _ w => Loaded goodEnd schema w₀ w ∧ w.dir.main.isSome = true) (fun w h => ?_)
    (fun k _ hk _ => absurd hk (hA k)) fun _ hc h => ⟨rfl, hc, h.cut⟩) fun _ => ?_
  · exact ⟨⟨⟨h.untouched.hint, h.untouched.compact, h.untouched.blob, h.untouched.inode,
      h.untouched.hintInode, h.untouched.acked, h.untouched.now, h.untouched.wrapped,
    h.untouched.mainSynced, h.untouched.blobsSynced, h.untouched.present⟩, h.main,
      h.blobs, h.closed, h.schema⟩, rfl⟩
  · refine Spec.bind hquiet fun _ => Spec.bind hquiet fun _ =>
      Spec.bind hquiet fun _ => Spec.modify fun w h => ?_
    have hu := h.1.untouched
    exact ⟨⟨⟨hu.hint, hu.compact, hu.blob, hu.inode, hu.hintInode, hu.acked, hu.now, hu.wrapped,
      hu.mainSynced, hu.blobsSynced, hu.present⟩,
      h.1.main, h.1.blobs, h.1.closed, h.1.schema⟩, h.2, rfl, rfl⟩

/-! ## The blob files -/

theorem mem_discoverBlobGens {d : Dir} {gen : Int64} :
    gen ∈ d.discoverBlobGens ↔ 0 ≤ gen ∧ (d.blob gen).isSome = true := by
  rw [Dir.discoverBlobGens, List.mem_filter, decide_eq_true_iff, and_comm, Dir.blob,
    Option.isSome_map, Option.isSome_iff_exists, List.mem_map]
  refine and_congr_right fun _ => ?_
  constructor
  · rintro ⟨b, hb, rfl⟩
    exact ⟨b, Tree.get?_eq_some.mpr ⟨hb, rfl⟩⟩
  · rintro ⟨b, hb⟩
    obtain ⟨hmem, hkey⟩ := Tree.get?_eq_some.mp hb
    exact ⟨b, hmem, (Int64.toInt_inj.mp hkey)⟩

/-- The generations of `gens` but the last `xs` are open. -/
structure GensOpen (goodEnd : Int64) (schema : List MetaIndex) (w₀ : World) (gens xs : List Int64)
    (blobs : BlobStores) (w : World) : Prop where
  untouched : Untouched w₀ w
  main : w.dir.main = some (cutOff w₀.dir.mainBytes goodEnd)
  size : w.db.size = fileSize w.dir.mainBytes
  handles : w.db.handles = w.inode
  sub : ∀ gen ∈ xs, gen ∈ gens
  present : ∀ gen ∈ gens, gen ∉ xs → (w.dir.blob gen).isSome = true
  others : ∀ gen, gen ∉ gens → w.dir.blob gen = w₀.dir.blob gen
  stores : ∀ gen, gen ∉ xs → blobs.get? { gen := gen } = if gen ∈ gens then
    some { gen := gen, size := fileSize (w.dir.blobBytes gen) } else none
  schema : w.dir.schema = schema

theorem GensOpen.cut {gens xs : List Int64} {blobs : BlobStores} {w : World}
    (h : GensOpen goodEnd schema w₀ gens xs blobs w) : OpenCut goodEnd w₀ w :=
  ⟨h.untouched, Or.inr (by rw [Dir.mainBytes, h.main, Option.getD_some])⟩

/-- Creating a missing blob file of the list. -/
theorem GensOpen.create {gens xs : List Int64} {blobs : BlobStores} {w : World} {gen : Int64}
    (h : GensOpen goodEnd schema w₀ gens (gen :: xs) blobs w) :
    GensOpen goodEnd schema w₀ gens (gen :: xs) blobs
    { w with dir := w.dir.appendBlob gen [] } := by
  have hmem : gen ∈ gens := h.sub gen (List.mem_cons_self ..)
  have hbytes := fun g => Dir.blobBytes_appendBlob_nil w.dir gen g
  refine ⟨⟨h.untouched.hint, h.untouched.compact, fun g => ?_, h.untouched.inode,
    h.untouched.hintInode, h.untouched.acked, h.untouched.now, h.untouched.wrapped,
    h.untouched.mainSynced, h.untouched.blobsSynced, fun g hg => ?_⟩, h.main, h.size,
    h.handles, h.sub, fun g hg hxs => ?_, fun g hg => ?_, fun g hxs => ?_, h.schema⟩
  · rw [hbytes, h.untouched.blob]
  · rw [Dir.blob_appendBlob]
    split
    · rfl
    · exact h.untouched.present g hg
  · rw [Dir.blob_appendBlob, if_neg (List.ne_of_not_mem_cons hxs)]
    exact h.present g hg hxs
  · rw [Dir.blob_appendBlob, if_neg (ne_of_mem_of_not_mem hmem hg).symm]
    exact h.others g hg
  · rw [hbytes]
    exact h.stores g hxs

/-- Putting an open blob file into the table. -/
theorem GensOpen.add {gens xs : List Int64} {blobs : BlobStores} {w : World} {gen : Int64}
    (h : GensOpen goodEnd schema w₀ gens (gen :: xs) blobs w)
    (hsome : (w.dir.blob gen).isSome = true) : GensOpen goodEnd schema w₀ gens xs
      (blobs.set { gen := gen, size := fileSize (w.dir.blobBytes gen) }) w := by
  have hmem : gen ∈ gens := h.sub gen (List.mem_cons_self ..)
  refine ⟨h.untouched, h.main, h.size, h.handles, fun g hg => h.sub g (List.mem_cons_of_mem gen hg),
    fun g hg hxs => ?_, h.others, fun g hxs => ?_, h.schema⟩
  · by_cases heq : g = gen
    · rw [heq]
      exact hsome
    · exact h.present g hg (List.not_mem_cons_of_ne_of_not_mem heq hxs)
  · rw [blobStores_get_set]
    by_cases heq : g = gen
    · rw [if_pos heq, heq, if_pos hmem]
    · rw [if_neg heq]
      exact h.stores g (List.not_mem_cons_of_ne_of_not_mem heq hxs)

theorem openGens_spec (hA : ∀ k, ¬ A (.fail k)) (schema : List MetaIndex) (gens : List Int64) :
    Spec A (GensOpen goodEnd schema w₀ gens gens Tree.empty) (openGens gens)
      (GensOpen goodEnd schema w₀ gens [])
      (OpenCrash A goodEnd w₀) := by
  refine Spec.foldEach (I := fun xs blobs => GensOpen goodEnd schema w₀ gens xs blobs)
    (fun gen xs blobs => ?_) gens Tree.empty
  refine Spec.bind (Q := fun bs w => GensOpen goodEnd schema w₀ gens xs (blobs.set bs) w) ?_
    fun bs => Spec.pure fun _ h => h
  refine Spec.bind (Q := fun _ w => GensOpen goodEnd schema w₀ gens (gen :: xs) blobs w ∧
      (w.dir.blob gen).isSome = true)
    (Spec.atomicStep (fun w h => ⟨h.create, ?_⟩) (fun k _ hk _ => absurd hk (hA k))
      fun _ hc h => ⟨rfl, hc, h.cut⟩) fun _ => ?_
  · rw [Dir.blob_appendBlob, if_pos rfl]
    rfl
  · refine Spec.bind (Q := fun _ w => GensOpen goodEnd schema w₀ gens (gen :: xs) blobs w ∧
        (w.dir.blob gen).isSome = true)
      (Spec.quietStep (fun _ h => h) (fun k _ hk _ => absurd hk (hA k))
        fun _ hc h => ⟨rfl, hc, h.1.cut⟩) fun _ => ?_
    refine Spec.bind_getWorld fun w hw => Spec.pure ?_
    rintro v rfl
    exact hw.1.add hw.2

end Steps

/-! ## `Open` -/

/-- The generations that `Open` opens: those present, and 0 when there is none. -/
def openedGens (gens : List Int64) : List Int64 :=
  if gens.contains (highestGen gens) then gens else gens ++ [highestGen gens]

theorem mem_openedGens {d : Dir} {gen : Int64} :
    gen ∈ openedGens d.discoverBlobGens ↔
      gen ∈ d.discoverBlobGens ∨ gen = highestGen d.discoverBlobGens := by
  rw [openedGens]
  split
  · next h =>
      rw [List.contains_iff_mem] at h
      exact ⟨Or.inl, fun hor => hor.elim id fun heq => heq ▸ h⟩
  · rw [List.mem_append, List.mem_singleton]

theorem MainOpened.gensOpen {w₀ w : World} {goodEnd : Int64} {schema : List MetaIndex}
    (h : MainOpened goodEnd schema w₀ w) (gens : List Int64) :
    GensOpen goodEnd schema w₀ gens gens Tree.empty w := by
  refine ⟨h.untouched, ?_, h.size, h.handles, fun _ hg => hg, fun g hg hn => absurd hg hn,
    fun g _ => ?_, fun g hg => ?_, h.schema⟩
  · rw [← h.main]
    exact Option.eq_some_of_isSome h.present |>.trans (congrArg some (Option.get_eq_getD ..))
  · rw [Dir.blob, Dir.blob, h.blobs]
  · rw [if_neg hg]
    rfl

/-- With every generation open, the store is. -/
theorem GensOpen.opened {w₀ w : World} {goodEnd : Int64} {gens : List Int64} {blobs : BlobStores}
    (hgens : gens = openedGens w₀.dir.discoverBlobGens) {opts : Options} {idx : Indexes}
    (h : GensOpen goodEnd (adoptedSchema w₀.dir.schema opts.indexes
      (decide (0 < idx.pk.len))) w₀ gens [] blobs w) :
    Opened opts idx goodEnd w₀
      { w with db := {
          opts := opts.withDefaults, size := w.db.size, handles := w.db.handles,
          mainOpen := true, blobs := blobs, curGen := highestGen w₀.dir.discoverBlobGens,
          idx := idx, closed := false,
          prospective := adoptedProspective w₀.dir.schema opts.indexes (decide (0 < idx.pk.len))
          dropped := adoptedDropped w₀.dir.schema opts.indexes } } := by
  obtain ⟨hpos, hmax, _⟩ := highestGen_spec w₀.dir.discoverBlobGens
  have hmem : ∀ gen, gen ∈ gens ↔ 0 ≤ gen ∧ (w.dir.blob gen).isSome = true := by
    intro gen
    constructor
    · intro hg
      refine ⟨?_, h.present gen hg (List.not_mem_nil)⟩
      rw [hgens, mem_openedGens, mem_discoverBlobGens] at hg
      exact hg.elim And.left fun heq => heq ▸ hpos
    · rintro ⟨h0, hsome⟩
      by_contra hg
      rw [h.others gen hg] at hsome
      rw [hgens, mem_openedGens, mem_discoverBlobGens] at hg
      exact hg (Or.inl ⟨h0, hsome⟩)
  refine ⟨⟨h.untouched.hint, h.untouched.compact, h.untouched.blob, h.untouched.inode,
    h.untouched.hintInode, h.untouched.acked, h.untouched.now, h.untouched.wrapped,
    h.untouched.mainSynced, h.untouched.blobsSynced, h.untouched.present⟩, h.main, ?_, h.schema,
    rfl, rfl⟩
  refine ⟨rfl, h.size, h.handles, rfl, rfl, rfl, rfl, rfl, rfl, rfl, rfl, hpos, ?_,
    fun gen hlt => ?_, fun gen => ?_⟩
  · refine h.present _ ?_ List.not_mem_nil
    rw [hgens, mem_openedGens]
    exact Or.inr rfl
  · have hnot : gen ∉ gens := by
      rw [hgens, mem_openedGens]
      rintro (hg | rfl)
      · exact Int64.not_le.mpr hlt (hmax gen hg)
      · exact Int64.lt_irrefl hlt
    rw [← Option.not_isSome_iff_eq_none]
    exact fun hsome => hnot ((hmem gen).mpr ⟨Int64.le_of_lt (Int64.lt_of_le_of_lt hpos hlt), hsome⟩)
  · refine (h.stores gen List.not_mem_nil).trans ?_
    simp only [hmem]

/-- `Open` when no file step is refused. -/
theorem openStore_spec {A : Answer → Prop} (hA : ∀ k, ¬ A (.fail k)) {w₀ : World} {opts : Options}
    {secs : SecIndexes} {idx : Indexes} {goodEnd : Int64} (hclosed : w₀.db.closed = true)
    (hdecl : declareAll opts.indexes noIndexes = .ok secs)
    (hload : w₀.dir.loaded secs = .ok (idx, goodEnd)) (hpos : 0 ≤ goodEnd) :
    Spec A (fun w => w = w₀) (openStore opts) (fun _ => Opened opts idx goodEnd w₀)
      (OpenCrash A goodEnd w₀) := by
  refine Spec.bind_getWorld fun w hw => ?_
  subst w
  refine Spec.bind_require (fun w _ hopen => ?_) fun _ => ?_
  · rw [hclosed] at hopen
    cases hopen
  rw [hdecl]
  refine Spec.bind_ofExcept (by rintro e w ⟨⟩) ?_
  rintro s ⟨⟩
  refine Spec.bind (load_spec hA hload hpos) fun i => Spec.of_pure ?_
  rintro rfl
  refine Spec.bind (adoptSchema_spec hA opts.indexes _) fun schema => Spec.of_pure ?_
  rintro rfl
  refine Spec.bind (openMainHandles_spec hA) fun _ => ?_
  refine Spec.bind_getWorld fun w hw => ?_
  have hdisc : w.dir.discoverBlobGens = w₀.dir.discoverBlobGens := by
    rw [Dir.discoverBlobGens, Dir.discoverBlobGens, hw.blobs]
  rw [hdisc]
  refine Spec.bind ((openGens_spec hA
    (adoptedSchema w₀.dir.schema opts.indexes (decide (0 < i.pk.len)))
    (openedGens w₀.dir.discoverBlobGens)).pre ?_) fun blobs => ?_
  · rintro v rfl
    exact hw.gensOpen _
  · exact Spec.updateDB fun v hv => hv.opened rfl

end NteeDb.Core
