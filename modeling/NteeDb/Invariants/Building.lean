import NteeDb.Invariants.Counters

/-!
# Building the new log of a rewrite

While a rewrite builds its new log the store goes on as it was: only the new log, and
for `BlobsRelieve` the file of the new generation, are written (`Aside`).  The new log
is at every point a sound log of its own, once the directory is seen as it will be after
the rename (`Dir.swapped`): it holds what the unexpired cells become under the transform
of the rewrite, for the entries copied so far (`Progress`).

## Main results

* `rewriteEntry_spec` — one entry of the scan.
* `buildRewrite_spec`, `buildPhase_spec` — the whole build, for any transform that
  `Rewrites` describes.
* `rewrites_compact`, `rewrites_reindex`, `rewrites_relieve` — the three transforms.
-/

namespace NteeDb.Core

open NteeDb.Verified
open Faults Lines OrderedTree JsonCodec

variable {A : Answer → Prop} {m : Mode} {w v : World} {g : Option Int64}

/-! ## Beside the store -/

/-- The directory once the new log is in place. -/
def Dir.swapped (d : Dir) : Dir := { d with main := d.compact, compact := none }

/-- The bytes of the new generation, if there is one. -/
def Dir.asideBytes (d : Dir) (g : Option Int64) : Bytes := g.elim [] d.blobBytes

/-- The blob files are those of `d`, and perhaps that of the new generation. -/
structure Dir.Beside (g : Option Int64) (d d' : Dir) : Prop where
  others : ∀ gen, g ≠ some gen → d'.blob gen = d.blob gen
  sized : ∀ gen ∈ g, (d'.blobBytes gen).length < maxFileSize

/-- Nothing has changed but the new log and the new generation. -/
structure Strayed (g : Option Int64) (w v : World) : Prop where
  main : v.dir.main = w.dir.main
  hint : v.dir.hint = w.dir.hint
  schema : v.dir.schema = w.dir.schema
  beside : w.dir.Beside g v.dir
  db : ∃ c r, v.db = { w.db with compacting := c, relieve := r }
  inode : v.inode = w.inode
  hintInode : v.hintInode = w.hintInode
  now : v.now = w.now
  acked : v.acked = w.acked

/-- A rewrite is under way beside the store: its new generation is there and open. -/
structure Aside (g : Option Int64) (w v : World) : Prop extends Strayed g w v where
  present : ∀ gen ∈ g, (v.dir.blob gen).isSome = true
  relieve : v.db.relieve.map BlobStore.gen = g

/-- The store of the new generation knows the size of its file. -/
def Ready (v : World) : Prop :=
  ∀ bs ∈ v.db.relieve, bs = { gen := bs.gen, size := fileSize (v.dir.blobBytes bs.gen) }

/-- The new generation is one that no record of the store refers to. -/
def FreshGen (g : Option Int64) (d : Dir) : Prop := ∀ gen ∈ g, 0 ≤ gen ∧ d.blob gen = none

theorem FreshGen.ne {d : Dir} (h : FreshGen g d) {gen : Int64} (hgen : (d.blob gen).isSome = true) :
    g ≠ some gen := by
  rintro rfl
  rw [(h gen rfl).2] at hgen
  cases hgen

section Beside

variable {d d' : Dir}

theorem Dir.Beside.blobBytes (h : d.Beside g d') {gen : Int64} (hgen : g ≠ some gen) :
    d'.blobBytes gen = d.blobBytes gen := by rw [Dir.blobBytes, Dir.blobBytes, h.others gen hgen]

theorem Dir.Beside.holds (h : d.Beside g d') (hfresh : FreshGen g d) {b : BlobRef}
    (hb : d.Holds b) : d'.Holds b := by
  have hne := hfresh.ne hb.present
  exact ⟨hb.gen, by rw [h.others _ hne]; exact hb.present, hb.off, hb.size,
    by rw [h.blobBytes hne]; exact hb.fits⟩

theorem Dir.Beside.valueOf (h : d.Beside g d') (hfresh : FreshGen g d) {r : Record}
    (hr : d.SoundRecord r) : d'.valueOf r = d.valueOf r := by
  rw [Dir.valueOf, Dir.valueOf]
  cases hb : r.blob with
  | none => rfl
  | some b =>
      dsimp only
      rw [h.blobBytes (hfresh.ne (hr.blob b hb).present)]

theorem Dir.Beside.extends (h : d.Beside g d') (hfresh : FreshGen g d) {ls : List Bytes}
    (hls : ∀ l ∈ ls, ∃ r, d.SoundLine l r) : d.Extends d' ls := by
  intro l hl r b hr hb
  obtain ⟨r', hr'⟩ := hls l hl
  rw [hr'.unmarshal] at hr
  cases hr
  have hne := hfresh.ne (hr'.record.blob b hb).present
  exact ⟨by rw [h.others _ hne]; exact (hr'.record.blob b hb).present, [],
    by rw [h.blobBytes hne, List.append_nil]⟩

theorem Dir.Beside.wellSized (h : d.Beside g d') (hmain : d'.mainBytes.length < maxFileSize)
    (hd : d.WellSized) : d'.WellSized := by
  refine ⟨hmain, fun gen => ?_⟩
  by_cases hgen : g = some gen
  · exact h.sized gen hgen
  · rw [h.blobBytes hgen]
    exact hd.2 gen

end Beside

theorem Strayed.mainBytes (h : Strayed g w v) : v.dir.mainBytes = w.dir.mainBytes := by
  rw [Dir.mainBytes, Dir.mainBytes, h.main]

theorem Strayed.log (h : Strayed g w v) : v.dir.log = w.dir.log := by
  rw [Dir.log, Dir.log, h.mainBytes]

/-- The files of the store are as sound as they were. -/
theorem Strayed.onDisk (h : Strayed g w v) (hfresh : FreshGen g w.dir) (hw : OnDisk m w) :
    OnDisk m v ∧ v.dir.cells = w.dir.cells := by
  have hlog := hw.1.log
  have hext := h.beside.extends hfresh hlog.lines
  have hsized : v.dir.WellSized :=
    h.beside.wellSized (by rw [h.mainBytes]; exact hlog.sized.1) hlog.sized
  have hcells := hlog.cells_extend h.mainBytes hext
  refine ⟨⟨?_, fun hm => ?_, fun hm => ?_⟩, hcells⟩
  · rw [h.inode, h.hintInode]
    exact hw.1.extend h.mainBytes h.hint hext hsized
  · rw [h.now, h.acked]
    exact (hw.2.1 hm).of_cells hcells
  · rw [FreshHint, h.hint, h.inode, h.hintInode]
    exact hw.2.2 hm

theorem Strayed.inFlight (h : Strayed g w v) (hw : InFlight w) : InFlight v := by
  obtain ⟨c, r, hdb⟩ := h.db
  intro j hj
  rw [hdb] at hj
  rw [hdb, h.inode]
  exact (hw j hj).of_log (by rw [h.log, List.append_nil])

theorem Strayed.located (h : Strayed g w v) (hfresh : FreshGen g w.dir) {key : Bytes} {e : PkEntry}
    {p : Placed} (hp : Located w key e p) : Located v key e p := by
  refine ⟨by rw [h.log]; exact hp.last, hp.live, hp.key, hp.exp, hp.ix,
    ⟨hp.sound.key, hp.sound.ix, fun b hb => h.beside.holds hfresh (hp.sound.blob b hb)⟩,
    hp.off, hp.n, hp.length, ?_⟩
  rw [← hp.read, Dir.recordAt, Dir.recordAt, h.mainBytes]

/-- The stores of the blobs of the old generations are as they were. -/
theorem Strayed.blobStore (h : Strayed g w v) (hfresh : FreshGen g w.dir) (hw : Serving w)
    {r : Record} (hr : w.dir.SoundRecord r) : ∀ b, r.blob = some b →
      v.db.blobStore b.gen = some { gen := b.gen, size := fileSize (v.dir.blobBytes b.gen) } := by
  intro b hb
  obtain ⟨c, s, hdb⟩ := h.db
  rw [hdb, h.beside.blobBytes (hfresh.ne (hr.blob b hb).present)]
  exact hw.blobStore hr b hb

/-! ## Transforms -/

/-- A record that the scan of a rewrite copies. -/
structure Dir.LiveRecord (d : Dir) (r : Record) : Prop where
  sound : d.SoundRecord r
  live : r.deleted = false
  text : r.text = []

/-- The record `r'` takes the place of `r`, the new generation going from `b` to `b'`. -/
structure Moved (g : Option Int64) (w : World) (F : Bytes → Cell → Cell) (b : Bytes) (r r' : Record)
    (b' : Bytes) : Prop where
  stores : ∀ d, w.dir.Beside g d → (∀ gen ∈ g, (d.blob gen).isSome = true) → d.asideBytes g = b' →
    d.Stores r' r.key (w.dir.valueOf r) r'.ix r.exp r.counter
  blob : r'.blob.isSome = r.blob.isSome
  refs : ∀ ref, r'.blob = some ref → ∀ gen ∈ g, ref.gen = gen
  storable : ∀ line, marshalRecord r' = some line → Storable r'.ix
  grows : ∃ more, b' = b ++ more
  cell : { w.dir.cellOf r with ix := r'.ix.readBack } = F r.key (w.dir.cellOf r)

/-- What a transform does, beside the store `w`: record by record `T`, cell by cell `F`. -/
structure Rewrites (A : Answer → Prop) (g : Option Int64) (w : World)
    (transform : Record → StoreM Record) (T : Bytes → Record → Record → Bytes → Prop)
    (F : Bytes → Cell → Cell) : Prop where
  spec : ∀ v r, Aside g w v → Ready v → w.dir.LiveRecord r →
    Spec A (fun x => x = v) (transform r)
      (fun r' x => Aside g w x ∧ Ready x ∧ x.dir.compact = v.dir.compact ∧
        Unless (fun x => v.wrapped = false ∧ T (v.dir.asideBytes g) r r' (x.dir.asideBytes g)) x)
      (fun e x => Aside g w x ∧ e ≠ .panic)
  moved : ∀ b r r' b', w.dir.LiveRecord r → T b r r' b' → Moved g w F b r r' b'

/-- The new record keeps the value where it is. -/
theorem Dir.LiveRecord.moved {r : Record} (hr : w.dir.LiveRecord r) (hfresh : FreshGen g w.dir)
    {F : Bytes → Cell → Cell} {ix : AnyMap}
    (hrefs : ∀ gen ∈ g, r.blob = none)
    (hix : ∀ line, marshalRecord { r with ix := ix } = some line → Storable ix)
    (hcell : { w.dir.cellOf r with ix := ix.readBack } = F r.key (w.dir.cellOf r)) (b : Bytes) :
    Moved g w F b r { r with ix := ix } b :=
  ⟨fun d hd _ _ => ⟨rfl, show d.valueOf r = _ from hd.valueOf hfresh hr.sound, rfl, rfl,
    rfl, hr.text,
      hr.live, fun b hb => hd.holds hfresh (hr.sound.blob b hb)⟩,
    rfl, fun ref href gen hgen => absurd ((hrefs gen hgen).symm.trans href) (by rintro ⟨⟩), hix,
    ⟨[], (List.append_nil b).symm⟩, hcell⟩

/-! ### Compact -/

/-- A cell without the values of unknown indexes. -/
def compactCell (db : DB) (_ : Bytes) (c : Cell) : Cell := { c with ix := db.filterIXKnown c.ix }

/-- The record of a compacted log. -/
def compactStep (db : DB) (b : Bytes) (r r' : Record) (b' : Bytes) : Prop :=
  r' = { r with ix := db.filterIXKnown r.ix } ∧ b' = b

theorem Dir.SoundRecord.settled_known {d : Dir} {r : Record} (h : d.SoundRecord r) (db : DB) :
    Settled (db.filterIXKnown r.ix) := h.ix.filter _

theorem Strayed.filterIXKnown (h : Strayed g w v) (ix : AnyMap) :
    v.db.filterIXKnown ix = w.db.filterIXKnown ix := by
  obtain ⟨c, r, hdb⟩ := h.db
  rw [hdb]
  rfl

theorem compactTransform_cases (A : Answer → Prop) (v : World) (r : Record) :
    Spec A (fun x => x = v) (compactTransform r)
      (fun r' x => x = v ∧ r' = { r with ix := v.db.filterIXKnown r.ix }) fun _ _ => False := by
  unfold compactTransform
  refine Spec.bind_getWorld ?_
  rintro v rfl
  exact Spec.pure fun x hx => ⟨hx, rfl⟩

theorem rewrites_compact (A : Answer → Prop) (w : World) :
    Rewrites A none w compactTransform (compactStep w.db) (compactCell w.db) := by
  refine ⟨fun v r hv hready _ => ?_, ?_⟩
  · refine (compactTransform_cases A v r).post ?_ fun _ _ hx => hx.elim
    rintro r' x ⟨rfl, rfl⟩
    exact ⟨hv, hready, rfl, fun hwrap => ⟨hwrap, by rw [hv.filterIXKnown], rfl⟩⟩
  · rintro b r r' b' hr ⟨rfl, rfl⟩
    have hset := hr.sound.settled_known w.db
    refine hr.moved (by rintro gen ⟨⟩) (by rintro gen ⟨⟩) (fun _ _ => hset.storable) ?_ b'
    rw [hset.readBack_eq]
    rfl

/-! ### Reindex -/

theorem reExtract_eq (secs : SecIndexes) (key value : Bytes) (defs : List IndexDef)
    (out : AnyMap) : reExtract secs key value defs out = collect secs key IndexDef.name
      (fun d _ => d.extract.bind fun f => f key value) (fun _ => .panic) defs out := by
  fun_induction reExtract secs key value defs out with
  | case1 => rfl
  | case2 out d rest hv ih => simp [collect, hv, ih]
  | case3 out d rest v hv hsi => simp [collect, hv, hsi]
  | case4 out d rest v hv si hsi e he => simp [collect, hv, hsi, he]
  | case5 out d rest v hv si hsi e he ih => simp [collect, hv, hsi, he, ih]

theorem reExtract_mem {secs : SecIndexes} {key value : Bytes} {defs : List IndexDef}
    {out out' : AnyMap} (h : reExtract secs key value defs out = .ok out') :
    ∀ nv ∈ out', nv ∈ out ∨ Extracted defs key value nv ∧ Accepted secs nv := by
  rw [reExtract_eq] at h
  intro nv hnv
  rcases collect_mem h nv hnv with hout | ⟨⟨d, hd, hname, _, hval⟩, hacc⟩
  · exact Or.inl hout
  · exact Or.inr ⟨⟨d, hd, hname, hval⟩, hacc⟩

/-- What the loop over the declared indexes leaves: the value that an index extracts, or the one it
had. -/
theorem reExtract_get {secs : SecIndexes} {key value : Bytes} {defs : List IndexDef}
    {out out' : AnyMap} (hnames : (defs.map IndexDef.name).Nodup)
    (h : reExtract secs key value defs out = .ok out') :
    (∀ d ∈ defs, out'.get d.name = (d.extract.bind fun f => f key value).or (out.get d.name)) ∧
      ∀ name, name ∉ defs.map IndexDef.name → out'.get name = out.get name := by
  rw [reExtract_eq] at h
  exact collect_get hnames h

theorem reExtract_ne_panic {ix : Indexes} {defs : List IndexDef} (h : ix.InStep defs)
    {key value : Bytes} {out : AnyMap} :
    reExtract ix.secs key value defs out ≠ .error .panic := by
  rw [reExtract_eq]
  exact collect_ne_panic fun d hd hnone => absurd hnone (h.get_ne_none hd)

theorem mem_filterIX {secs : SecIndexes} {ix : AnyMap} {nv : Bytes × AnyValue}
    (h : nv ∈ secs.filterIX ix) : nv ∈ ix ∧ Accepted secs nv := by
  obtain ⟨hmem, hkept⟩ := Tree.mem_filter.mp h
  refine ⟨hmem, ?_⟩
  split at hkept
  · cases hkept
  · next si hsi =>
      cases he : si.makeEntry nv.2 [] with
      | error e =>
          rw [he] at hkept
          cases hkept
      | ok e => exact accepted_of_makeEntry hsi he

/-- The index values that `Reindex` gives a record. -/
def DB.reExtracted (db : DB) (key value : Bytes) (ix : AnyMap) : Except Err AnyMap :=
  reExtract db.idx.secs key value db.opts.indexes (db.idx.secs.filterIX ix)

/-- A cell with the index values that `Reindex` gives it. -/
def reindexCell (db : DB) (key : Bytes) (c : Cell) : Cell :=
  match db.reExtracted key c.value c.ix with
  | .ok ix => { c with ix := ix.readBack }
  | .error _ => c

/-- The record of a reindexed log. -/
def reindexStep (w : World) (b : Bytes) (r r' : Record) (b' : Bytes) : Prop :=
  (∃ ix, w.db.reExtracted r.key (w.dir.valueOf r) r.ix = .ok ix ∧ r' = { r with ix := ix }) ∧ b' = b

theorem reExtracted_storable {db : DB} (hdefs : CarriedDefs db.opts.indexes) {key value : Bytes}
    (hkey : Utf8.valid key = true) {ix ix' : AnyMap} (hix : Settled ix)
    (h : db.reExtracted key value ix = .ok ix') {r : Record} (hr : r.ix = ix') {line : Bytes}
    (hline : marshalRecord r = some line) : Storable ix' := by
  subst hr
  have hacc : AcceptedMap db.idx.secs r.ix := by
    intro nv hnv
    rcases reExtract_mem h nv hnv with hmem | hx
    · exact (mem_filterIX hmem).2
    · exact hx.2
  refine Storable.of_carried (scalar_of_marshal hacc hline) fun nv hnv => ?_
  · rcases reExtract_mem h nv hnv with hmem | ⟨⟨d, hd, hname, hval⟩, _⟩
    · exact hix.storable.carried nv (mem_filterIX hmem).1
    · exact ⟨hname ▸ (hdefs d hd).1, (hdefs d hd).2 key value nv.2 hkey hval⟩

theorem rewrites_reindex (A : Answer → Prop) (hw : Serving w) :
    Rewrites A none w reindexTransform (reindexStep w) (reindexCell w.db) := by
  have hfresh : FreshGen none w.dir := by rintro gen ⟨⟩
  refine ⟨fun v r hv hready hr => ?_, ?_⟩
  · obtain ⟨c, s, hdb⟩ := hv.db
    have hsound : v.dir.SoundRecord r :=
      ⟨hr.sound.key, hr.sound.ix, fun b hb => hv.beside.holds hfresh (hr.sound.blob b hb)⟩
    unfold reindexTransform
    refine Spec.bind_getWorld ?_
    rintro v rfl
    refine Spec.bind ((readValue_cases A hsound (hv.blobStore hfresh hw hr.sound)).errors ?_)
      fun value => ?_
    · rintro e x ⟨rfl, he⟩
      exact ⟨hv, he.ne_panic⟩
    refine Spec.of_world ?_
    rintro x ⟨rfl, rfl⟩
    rw [hdb, hv.beside.valueOf hfresh hr.sound]
    refine Spec.bind_ofExcept ?_ fun ix hix => Spec.pure ?_
    · rintro e y he rfl
      refine ⟨hv, ?_⟩
      rintro rfl
      exact reExtract_ne_panic hw.inStep he
    · rintro y rfl
      exact ⟨hv, hready, rfl, fun hwrap => ⟨hwrap, ⟨ix, hix, rfl⟩, rfl⟩⟩
  · rintro b r r' b' hr ⟨⟨ix, hix, rfl⟩, rfl⟩
    refine hr.moved hfresh (by rintro gen ⟨⟩)
      (fun line hline => reExtracted_storable hw.carried hr.sound.key hr.sound.ix hix rfl hline) ?_
      b'
    rw [reindexCell, show (w.dir.cellOf r).ix = r.ix from rfl,
      show (w.dir.cellOf r).value = w.dir.valueOf r from rfl, hix]
    rfl

/-! ### BlobsRelieve -/

/-- The record of a relieved log: a blob is copied to the end of the new generation. -/
def relieveStep (gen : Int64) (w : World) (b : Bytes) (r r' : Record) (b' : Bytes) : Prop :=
  match r.blob with
  | none => r' = { r with ix := w.db.filterIXKnown r.ix } ∧ b' = b
  | some _ =>
      r' = { r with
        ix := w.db.filterIXKnown r.ix
        blob := some ⟨fileSize b, Int32.ofNat (w.dir.valueOf r).length, gen⟩ } ∧
      b' = b ++ w.dir.valueOf r ∧ b.length < maxFileSize ∧
      lengthWraps (w.dir.valueOf r).length = false

/-- The new generation has grown. -/
theorem Aside.grow {gen : Int64} (h : Aside (some gen) w v) {value : Bytes}
    (hroom : (v.dir.blobBytes gen).length + value.length < maxFileSize) {r : Option BlobStore}
    (hr : r.map BlobStore.gen = some gen) (b : Bool) :
    Aside (some gen) w { v with
      dir := v.dir.appendBlob gen value, wrapped := b, db := { v.db with relieve := r } } := by
  obtain ⟨c, s, hdb⟩ := h.db
  refine ⟨⟨h.main, h.hint, h.schema, ⟨fun gen' hgen' => ?_, ?_⟩, ⟨c, r, by rw [hdb]⟩, h.inode,
    h.hintInode, h.now, h.acked⟩, ?_, hr⟩
  · have hne : gen' ≠ gen := fun heq => hgen' (by rw [heq])
    rw [Dir.blob_appendBlob, if_neg hne, h.beside.others gen' hgen']
  · rintro _ ⟨⟩
    rw [Dir.blobBytes_appendBlob, if_pos rfl, List.length_append]
    exact hroom
  · rintro _ ⟨⟩
    rw [Dir.blob_appendBlob, if_pos rfl]
    rfl

theorem Aside.relieved {gen : Int64} (h : Aside (some gen) w v) (hready : Ready v) :
    v.db.relieve = some { gen := gen, size := fileSize (v.dir.blobBytes gen) } := by
  obtain ⟨bs, hbs, hgen⟩ := Option.map_eq_some_iff.mp h.relieve
  have heq := hready bs hbs
  rw [hgen] at heq
  rw [hbs, heq]

theorem relieveTransform_spec (A : Answer → Prop) {gen : Int64} (hw : Serving w)
    (hfresh : FreshGen (some gen) w.dir) {r : Record} (hv : Aside (some gen) w v) (hready : Ready v)
    (hr : w.dir.LiveRecord r) :
    Spec A (fun x => x = v) (relieveTransform r)
      (fun r' x => Aside (some gen) w x ∧ Ready x ∧ x.dir.compact = v.dir.compact ∧
        Unless (fun x => v.wrapped = false ∧
          relieveStep gen w (v.dir.blobBytes gen) r r' (x.dir.blobBytes gen)) x)
      (fun e x => Aside (some gen) w x ∧ e ≠ .panic) := by
  have hrelieve := hv.relieved hready
  unfold relieveTransform
  refine Spec.bind ((compactTransform_cases A v r).errors
    fun _ _ hx => hx.elim) fun r' => Spec.of_world ?_
  rintro x ⟨rfl, rfl⟩
  rw [hv.filterIXKnown]
  cases hb : r.blob with
  | none =>
      refine Spec.pure ?_
      rintro y rfl
      refine ⟨hv, hready, rfl, fun hwrap => ⟨hwrap, ?_⟩⟩
      rw [relieveStep, hb]
      exact ⟨rfl, rfl⟩
  | some ref =>
      have hholds := hv.beside.holds hfresh (hr.sound.blob ref hb)
      have hvalue : x.dir.valueOf r = w.dir.valueOf r := hv.beside.valueOf hfresh hr.sound
      rw [Dir.valueOf, hb] at hvalue
      refine Spec.bind ((blobReadAt_cases A hholds
        (hv.blobStore hfresh hw hr.sound ref hb)).errors ?_) fun value => ?_
      · rintro e y ⟨rfl, he⟩
        exact ⟨hv, he.ne_panic⟩
      refine Spec.of_world ?_
      rintro y ⟨rfl, rfl⟩
      dsimp only at hvalue
      rw [hvalue]
      refine Spec.bind_getWorld ?_
      rintro y rfl
      rw [hrelieve]
      refine Spec.bind ((BlobStore.append_cases A y _ (w.dir.valueOf r)).errors ?_) fun a => ?_
      · intro e z hz
        cases hz with
        | refused => exact ⟨hv, by rintro ⟨⟩⟩
        | crash => exact ⟨hv, by rintro ⟨⟩⟩
        | torn _ hroom =>
            refine ⟨hv.grow ?_ hv.relieve y.wrapped, by rintro ⟨⟩⟩
            rw [List.length_take]
            dsimp only at hroom
            omega
      refine Spec.of_world ?_
      rintro z ⟨rfl, hroom, rfl⟩
      refine Spec.bind (Spec.updateDB (Q := fun _ z => z = { y with
        dir := y.dir.appendBlob gen (w.dir.valueOf r)
        wrapped := y.wrapped || lengthWraps (w.dir.valueOf r).length
        db := { y.db with relieve := some {
          gen := gen
          size := fileSize (y.dir.blobBytes gen) + Int64.ofNat (w.dir.valueOf r).length } } }) ?_)
        fun _ => Spec.pure ?_
      · rintro z rfl
        rfl
      · rintro z rfl
        have hbytes : (y.dir.appendBlob gen (w.dir.valueOf r)).blobBytes gen
            = y.dir.blobBytes gen ++ w.dir.valueOf r := by
          rw [Dir.blobBytes_appendBlob, if_pos rfl]
        refine ⟨hv.grow hroom rfl _, ?_, rfl, fun hwrap => ?_⟩
        · rintro bs ⟨⟩
          dsimp only
          rw [hbytes, fileSize_append]
        · obtain ⟨hbefore, hfits⟩ := Bool.or_eq_false_iff.mp hwrap
          rw [relieveStep, hb]
          exact ⟨hbefore, rfl, hbytes, lt_of_le_of_lt (Nat.le_add_right _ _) hroom, hfits⟩

theorem rewrites_relieve (A : Answer → Prop) {gen : Int64} (hw : Serving w)
    (hfresh : FreshGen (some gen) w.dir) :
    Rewrites A (some gen) w relieveTransform (relieveStep gen w) (compactCell w.db) := by
  refine ⟨fun v r hv hready hr => relieveTransform_spec A hw hfresh hv hready hr, ?_⟩
  intro b r r' b' hr hstep
  have hset := hr.sound.settled_known w.db
  have hcell : { w.dir.cellOf r with ix := (w.db.filterIXKnown r.ix).readBack }
      = compactCell w.db r.key (w.dir.cellOf r) := by
    rw [hset.readBack_eq]
    rfl
  unfold relieveStep at hstep
  split at hstep
  · next hb =>
      obtain ⟨rfl, rfl⟩ := hstep
      exact hr.moved hfresh (fun _ _ => hb) (fun _ _ => hset.storable) hcell b'
  · next ref hb =>
      obtain ⟨rfl, rfl, hsized, hfits⟩ := hstep
      refine ⟨fun d _ hpresent hbytes => ?_, by rw [hb]; rfl, ?_, fun _ _ => hset.storable,
        ⟨_, rfl⟩, hcell⟩
      · obtain ⟨hholds, hvalue⟩ :=
          Dir.holds_last (hfresh gen rfl).1 (hpresent gen rfl) hbytes hsized hfits rfl
        refine ⟨rfl, hvalue, rfl, rfl, rfl, hr.text, hr.live, ?_⟩
        rintro _ ⟨⟩
        exact hholds
      · rintro _ ⟨⟩ _ ⟨⟩
        rfl

/-! ## The scan -/

/-- The records `rs'` that `T` made of `rs`, one after the other. -/
inductive Chain (T : Bytes → Record → Record → Bytes → Prop) (b₀ : Bytes) :
    List Record → List Record → Bytes → Prop
  | nil : Chain T b₀ [] [] b₀
  | snoc {rs rs' : List Record} {r r' : Record} {b b' : Bytes} (h : Chain T b₀ rs rs' b)
      (hstep : T b r r' b') : Chain T b₀ (rs ++ [r]) (rs' ++ [r']) b'

/-- The entries that a rewrite copies. -/
def copied (now : Int64) (es : List PkEntry) : List PkEntry := es.filter fun e => !e.expiredAt now

/-- The new log once the entries `done` have been scanned: its lines are those of the
records `rs'` that took the place of `rs`. -/
structure Progress (g : Option Int64) (w : World) (T : Bytes → Record → Record → Bytes → Prop)
    (F : Bytes → Cell → Cell) (done : List PkEntry) (b : Build) (v : World) (ls : List Bytes)
    (rs rs' : List Record) : Prop where
  compact : v.dir.compact = some (joinLines ls)
  off : b.off = Int64.ofNat (joinLines ls).length
  log : LogSound v.dir.swapped ls
  mirrors : Mirrors (pkOf (placed 0 ls)) b.pk
  records : List.Forall₂ (fun e r => w.dir.recordAt e = .ok r) (copied w.now.ms done) rs
  chain : Chain T [] rs rs' (v.dir.asideBytes g)
  lines : List.Forall₂ (fun r l => marshalRecord r = some l) rs' ls
  refs : ∀ l ∈ ls, ∀ r ref, unmarshalRecord l = some r → r.blob = some ref →
    ∀ gen ∈ g, ref.gen = gen
  cells : ∀ key, v.dir.swapped.cells key
    = if key ∈ done.map PkEntry.key then (w.live key).map (F key) else none

section Scan

variable {T : Bytes → Record → Record → Bytes → Prop} {F : Bytes → Cell → Cell}
  {done : List PkEntry} {b : Build} {ls : List Bytes} {rs rs' : List Record} {e : PkEntry}

theorem Aside.appendCompact (h : Aside g w v) (data : Bytes) (b : Bool) :
    Aside g w { v with dir := v.dir.appendCompact data, wrapped := b } :=
  ⟨⟨h.main, h.hint, h.schema, ⟨h.beside.others, h.beside.sized⟩, h.db, h.inode, h.hintInode, h.now,
    h.acked⟩, h.present, h.relieve⟩

/-- The ways `writeCompact` can go. -/
theorem writeCompact_spec (A : Answer → Prop) (h : Aside g w v) (line : Bytes) :
    Spec A (fun x => x = v) (writeCompact line)
      (fun _ x => x = { v with
          dir := v.dir.appendCompact (line ++ [newline])
          wrapped := v.wrapped || lengthWraps (line.length + 1) } ∧
        (v.dir.compact.getD []).length + (line.length + 1) < maxFileSize)
      (fun e x => Aside g w x ∧ e ≠ .panic) := by
  unfold writeCompact
  refine Spec.bind_getWorld ?_
  rintro v rfl
  refine Spec.bind_require ?_ fun hroom => Spec.fileStep ?_ ?_ ?_
  · rintro x rfl _
    exact ⟨h, by rintro ⟨⟩⟩
  · rintro x rfl
    exact ⟨rfl, of_decide_eq_true hroom⟩
  · rintro kept x _ rfl
    exact ⟨h.appendCompact _ _, by rintro ⟨⟩⟩
  · rintro x _ rfl
    exact ⟨h, by rintro ⟨⟩⟩

theorem Strayed.swapped_wellSized (h : Strayed g w v) (hw : w.dir.WellSized)
    (hlen : (v.dir.compact.getD []).length < maxFileSize) : v.dir.swapped.WellSized := by
  have hbeside : w.dir.Beside g v.dir.swapped := ⟨h.beside.others, h.beside.sized⟩
  exact hbeside.wellSized hlen hw

/-- The new log and what it refers to stay while the new generation grows. -/
theorem Aside.swapped_extends {x : World} (hv : Aside g w v) (hx : Aside g w x) {more : Bytes}
    (hgrows : x.dir.asideBytes g = v.dir.asideBytes g ++ more)
    (hls : ∀ l ∈ ls, ∃ r, v.dir.swapped.SoundLine l r) :
    v.dir.swapped.Extends x.dir.swapped ls := by
  intro l hl r b hr hb
  obtain ⟨r', hr'⟩ := hls l hl
  rw [hr'.unmarshal] at hr
  cases hr
  by_cases hgen : g = some b.gen
  · refine ⟨hx.present b.gen hgen, more, ?_⟩
    rw [hgen] at hgrows
    exact hgrows
  · refine ⟨?_, [], ?_⟩
    · show (x.dir.blob b.gen).isSome = true
      rw [hx.beside.others _ hgen, ← hv.beside.others _ hgen]
      exact (hr'.record.blob b hb).present
    · show x.dir.blobBytes b.gen = v.dir.blobBytes b.gen ++ []
      rw [hx.beside.blobBytes hgen, hv.beside.blobBytes hgen, List.append_nil]

/-- The new log after the transform of the next record. -/
theorem Progress.transformed {x : World} (hp : Progress g w T F done b v ls rs rs')
    (hw : w.dir.WellSized) (hv : Aside g w v) (hx : Aside g w x)
    (hcompact : x.dir.compact = v.dir.compact) {more : Bytes}
    (hgrows : x.dir.asideBytes g = v.dir.asideBytes g ++ more) :
    LogSound x.dir.swapped ls ∧ x.dir.swapped.cells = v.dir.swapped.cells := by
  have hext := hv.swapped_extends hx hgrows hp.log.lines
  have hmain : x.dir.swapped.mainBytes = v.dir.swapped.mainBytes := by
    show x.dir.compact.getD [] = v.dir.compact.getD []
    rw [hcompact]
  refine ⟨hp.log.extend hmain hext (hx.swapped_wellSized hw ?_), hp.log.cells_extend hmain hext⟩
  rw [hcompact]
  exact hp.log.sized.1

theorem copied_append (now : Int64) (done : List PkEntry) (e : PkEntry) :
    copied now (done ++ [e]) = copied now done ++ if e.expiredAt now then [] else [e] := by
  rw [copied, List.filter_append, List.filter_singleton]
  cases e.expiredAt now <;> rfl

/-- An expired entry is left out. -/
theorem Progress.skip (hp : Progress g w T F done b v ls rs rs') (hnone : w.live e.key = none)
    (hexp : e.expiredAt w.now.ms = true) : Progress g w T F (done ++ [e]) b v ls rs rs' := by
  refine { hp with records := ?_, cells := fun key => ?_ }
  · rw [copied_append, if_pos hexp, List.append_nil]
    exact hp.records
  · rw [hp.cells, List.map_append]
    by_cases hkey : key = e.key
    · rw [hkey, hnone]
      simp
    · simp [hkey]

/-- The line of a copied record is written, after its transform. -/
theorem Progress.copy {x : World} {r r' : Record} {line : Bytes}
    (hp : Progress g w T F done b v ls rs rs') (hw : w.dir.WellSized) (hv : Aside g w v)
    (hx : Aside g w x) (hcompact : x.dir.compact = v.dir.compact)
    (hstep : T (v.dir.asideBytes g) r r' (x.dir.asideBytes g)) (hr : w.dir.LiveRecord r)
    (hmoved : Moved g w F (v.dir.asideBytes g) r r' (x.dir.asideBytes g))
    (hline : marshalRecord r' = some line) (hfits : lengthWraps (line.length + 1) = false)
    (hroom : (x.dir.compact.getD []).length + (line.length + 1) < maxFileSize)
    (hkey : r.key = e.key) (hread : w.dir.recordAt e = .ok r)
    (hlive : e.expiredAt w.now.ms = false) (hcell : w.live e.key = some (w.dir.cellOf r))
    (wrapped : Bool) :
    Progress g w T F (done ++ [e])
      { pk := b.pk.load
          { key := e.key, off := b.off, n := lineLen line, ix := r'.ix, exp := r'.exp }
        off := b.off + (lineLen line).toInt64 }
      { x with dir := x.dir.appendCompact (line ++ [newline]), wrapped := wrapped }
      (ls ++ [line]) (rs ++ [r]) (rs' ++ [r']) := by
  obtain ⟨more, hgrows⟩ := hmoved.grows
  obtain ⟨hlog, hcells⟩ := hp.transformed hw hv hx hcompact hgrows
  have hstores : x.dir.swapped.Stores r' r.key (w.dir.valueOf r) r'.ix r.exp r.counter :=
    hmoved.stores _ ⟨hx.beside.others, hx.beside.sized⟩ hx.present rfl
  have hix := hmoved.storable line hline
  have hvalid : Utf8.valid r'.key = true := by
    rw [hstores.key]
    exact hr.sound.key
  have hwritten : Written r' line := ⟨hstores.text, hix.scalar, hline⟩
  have hsound : x.dir.swapped.SoundLine line r'.readBack :=
    hwritten.soundLine hvalid hix hstores.blob hfits
  have hrkey : r'.readBack.key = e.key := by rw [Record.readBack_key hvalid, hstores.key, hkey]
  have hbytes : x.dir.compact = some (joinLines ls) := by rw [hcompact, hp.compact]
  have happ : LogSound (x.dir.appendCompact (line ++ [newline])).swapped (ls ++ [line]) :=
    hlog.append hsound hroom
  refine ⟨?_, ?_, happ, ?_, ?_, hp.chain.snoc hstep,
    List.rel_append hp.lines (.cons hline .nil), ?_, fun key => ?_⟩
  · show some (x.dir.compact.getD [] ++ (line ++ [newline])) = _
    rw [hbytes, joinLines_append]
    rfl
  · dsimp only
    rw [hp.off, lineLen_toInt64 hfits, ← Int64.ofNat_add, joinLines_append, List.length_append]
    simp [joinLines]
  · dsimp only
    rw [PkIndex.load, hp.off]
    refine hp.mirrors.put hlog.decodes hwritten.unmarshal (hkey ▸ hr.sound.key) hix hrkey rfl rfl
      hstores.deleted
  · rw [copied_append, if_neg (by rw [hlive]; decide)]
    exact List.rel_append hp.records (.cons hread .nil)
  · intro l hl s ref hs href
    rcases List.mem_append.mp hl with hl | hl
    · exact hp.refs l hl s ref hs href
    · rw [List.mem_singleton.mp hl, hwritten.unmarshal] at hs
      cases hs
      exact hmoved.refs ref href
  · show (x.dir.swapped.appendMain (line ++ [newline])).cells key = _
    rw [hlog.cells_append hsound hroom, hcells, hstores.cell, hrkey, Function.update_apply,
      hp.cells, List.map_append]
    by_cases heq : key = e.key
    · rw [if_pos heq, heq, if_pos (by simp), hcell, Option.map_some, ← hkey, ← hmoved.cell,
        hmoved.blob]
      rfl
    · rw [if_neg heq]
      simp [heq]

/-- One entry of the scan. -/
theorem rewriteEntry_spec {transform : Record → StoreM Record}
    (htr : Rewrites A g w transform T F) (hw : Sound m w) (hopen : w.db.closed = false)
    (hfresh : FreshGen g w.dir) (he : w.db.idx.pk.get e.key = some e) (hv : Aside g w v)
    (hready : Ready v)
    (hp : Unless (fun v => ∃ ls rs rs', Progress g w T F done b v ls rs rs') v) :
    Spec A (fun x => x = v) (rewriteEntry transform w.now b e)
      (fun b' x => Aside g w x ∧ Ready x ∧
        Unless (fun x => ∃ ls rs rs', Progress g w T F (done ++ [e]) b' x ls rs rs') x)
      (fun err x => Aside g w x ∧ err ≠ .panic) := by
  obtain ⟨p, hloc⟩ := hw.located hopen he
  have hcell : w.live e.key = unexpired Cell.exp w.now.ms (some (w.dir.cellOf p.record)) := by
    rw [World.live, hloc.cell]
  have hexp : (w.dir.cellOf p.record).exp = e.exp := hloc.exp
  rw [unexpired_some, hexp, ← expiredAt_eq] at hcell
  refine Spec.ite (fun hdead => ?_) fun halive => ?_
  · refine Spec.pure ?_
    rintro x rfl
    rw [if_pos hdead] at hcell
    refine ⟨hv, hready, fun hwrap => ?_⟩
    obtain ⟨ls, rs, rs', hp⟩ := hp hwrap
    exact ⟨ls, rs, rs', hp.skip hcell hdead⟩
  rw [if_neg halive] at hcell
  have hlive : e.expiredAt w.now.ms = false := Bool.eq_false_iff.mpr halive
  have hr : w.dir.LiveRecord p.record := by
    obtain ⟨_, pre, line, post, _, hline, _, _⟩ := lastRecord_some hloc.last
    exact ⟨hloc.sound, hloc.live, text_of_unmarshal hline⟩
  refine Spec.bind ((readRecord_cases A (hv.located hfresh hloc)).errors ?_)
    fun r => Spec.of_world ?_
  · rintro err x ⟨rfl, herr⟩
    exact ⟨hv, herr.ne_panic⟩
  rintro x ⟨rfl, rfl⟩
  refine Spec.bind (htr.spec x p.record hv hready hr) fun r' => Spec.of_world ?_
  rintro y ⟨hy, hready', hcompact, hstep⟩
  cases hline : marshalRecord r' with
  | none =>
      refine Spec.fail ?_
      rintro z rfl
      exact ⟨hy, by rintro ⟨⟩⟩
  | some line =>
      refine Spec.bind (writeCompact_spec A hy line) fun _ => Spec.pure ?_
      rintro z ⟨rfl, hroom⟩
      refine ⟨hy.appendCompact _ _, hready', fun hwrap => ?_⟩
      obtain ⟨hwrap, hfits⟩ := Bool.or_eq_false_iff.mp hwrap
      obtain ⟨hbefore, hstep⟩ := hstep hwrap
      obtain ⟨ls, rs, rs', hp⟩ := hp hbefore
      exact ⟨_, _, _, hp.copy hw.1.1.log.sized hv hy hcompact hstep hr
        (htr.moved _ _ _ _ hr hstep) hline hfits hroom hloc.key hloc.read hlive hcell _⟩

/-- The new log of a finished build, next to its index. -/
structure Built (g : Option Int64) (w : World) (T : Bytes → Record → Record → Bytes → Prop)
    (F : Bytes → Cell → Cell) (pk : PkIndex) (v : World) (ls : List Bytes) (rs rs' : List Record) :
    Prop where
  compact : v.dir.compact = some (joinLines ls)
  log : LogSound v.dir.swapped ls
  mirrors : Mirrors (pkOf (placed 0 ls)) pk
  records : List.Forall₂ (fun e r => w.dir.recordAt e = .ok r)
    (copied w.now.ms w.db.idx.pk.items) rs
  chain : Chain T [] rs rs' (v.dir.asideBytes g)
  lines : List.Forall₂ (fun r l => marshalRecord r = some l) rs' ls
  refs : ∀ l ∈ ls, ∀ r ref, unmarshalRecord l = some r → r.blob = some ref →
    ∀ gen ∈ g, ref.gen = gen
  cells : ∀ key, v.dir.swapped.cells key = (w.live key).map (F key)

theorem Progress.built (hp : Progress g w T F w.db.idx.pk.items b v ls rs rs') (hw : Sound m w)
    (hopen : w.db.closed = false) : Built g w T F b.pk v ls rs rs' := by
  refine ⟨hp.compact, hp.log, hp.mirrors, hp.records, hp.chain, hp.lines, hp.refs, fun key => ?_⟩
  rw [hp.cells]
  split
  · rfl
  · next habsent =>
      have hnone : w.db.idx.pk.get key = none := by
        cases hget : w.db.idx.pk.get key with
        | none => rfl
        | some e =>
            obtain ⟨hmem, hkey⟩ := PkIndex.get_eq_some.mp hget
            exact absurd (List.mem_map.mpr ⟨e, hmem, hkey⟩) habsent
      rw [hw.live_none hopen hnone]
      rfl

/-- The new log before the scan. -/
theorem Aside.created (hv : Aside g w v) (hw : w.dir.WellSized) (hbytes : v.dir.asideBytes g = []) :
    Aside g w { v with dir := { v.dir with compact := some [] } } ∧
      Progress g w T F [] {} { v with dir := { v.dir with compact := some [] } } [] [] [] := by
  have haside : Aside g w { v with dir := { v.dir with compact := some [] } } :=
    ⟨⟨hv.main, hv.hint, hv.schema, ⟨hv.beside.others, hv.beside.sized⟩, hv.db, hv.inode,
      hv.hintInode, hv.now, hv.acked⟩, hv.present, hv.relieve⟩
  have hlog : LogSound (Dir.swapped { v.dir with compact := some [] }) [] :=
    ⟨rfl, by rintro l ⟨⟩, haside.swapped_wellSized hw (show 0 < maxFileSize by decide)⟩
  refine ⟨haside, rfl, rfl, hlog, mirrors_empty, .nil, ?_, .nil, by rintro l ⟨⟩, fun key => ?_⟩
  · show Chain T [] [] [] (v.dir.asideBytes g)
    rw [hbytes]
    exact .nil
  · rw [hlog.cells_eq]
    rfl

/-- `buildRewrite` next to a sound store. -/
theorem buildRewrite_spec {transform : Record → StoreM Record}
    (htr : Rewrites A g w transform T F) (hw : Sound m w) (hopen : w.db.closed = false)
    (hfresh : FreshGen g w.dir) (hv : Aside g w v) (hready : Ready v)
    (hbytes : v.dir.asideBytes g = []) :
    Spec A (fun x => x = v) (buildRewrite transform)
      (fun pk x => Aside g w x ∧ Ready x ∧
        Unless (fun x => ∃ ls rs rs', Built g w T F pk x ls rs rs') x)
      (fun e x => Aside g w x ∧ e ≠ .panic) := by
  unfold buildRewrite
  refine Spec.bind (Spec.atomicStep (Q := fun _ x => Aside g w x ∧ Ready x ∧
    Progress g w T F [] {} x [] [] []) ?_ ?_ ?_) fun _ => ?_
  · rintro x rfl
    obtain ⟨haside, hstart⟩ := hv.created (T := T) (F := F) hw.1.1.log.sized hbytes
    exact ⟨haside, hready, hstart⟩
  · rintro k x _ rfl
    exact ⟨hv, by rintro ⟨⟩⟩
  · rintro x _ rfl
    exact ⟨hv, by rintro ⟨⟩⟩
  refine Spec.bind_getWorld ?_
  rintro u ⟨hu, hru, hstart⟩
  obtain ⟨c, r, hdb⟩ := hu.db
  have hitems : u.db.idx.pk.items = w.db.idx.pk.items := by rw [hdb]
  rw [hitems, hu.now]
  -- the entries of `rest` are still to be scanned
  refine Spec.bind (Q := fun (b : Build) x => Aside g w x ∧ Ready x ∧
    Unless (fun x => ∃ ls rs rs', Progress g w T F w.db.idx.pk.items b x ls rs rs') x) ?_
    fun b => ?_
  · refine (Spec.foldEach (I := fun rest (b : Build) x => Aside g w x ∧ Ready x ∧
      ∃ done, done ++ rest = w.db.idx.pk.items ∧
        Unless (fun x => ∃ ls rs rs', Progress g w T F done b x ls rs rs') x)
      (fun e rest b => ?_) w.db.idx.pk.items {}).conseq ?_ ?_ fun _ _ hx => hx
    · refine Spec.of_world ?_
      rintro x ⟨hx, hrx, done, hdone, hp⟩
      have hmem : e ∈ w.db.idx.pk.items := by
        rw [← hdone]
        simp
      refine (rewriteEntry_spec htr hw hopen hfresh (PkIndex.get_eq_some.mpr ⟨hmem, rfl⟩) hx hrx
        hp).post ?_ fun _ _ h => h
      rintro b' y ⟨hy, hry, hp'⟩
      exact ⟨hy, hry, done ++ [e], by rw [← hdone, List.append_assoc]; rfl, hp'⟩
    · rintro x rfl
      exact ⟨hu, hru, [], rfl, fun _ => ⟨[], [], [], hstart⟩⟩
    · rintro b x ⟨hx, hrx, done, hdone, hp⟩
      rw [List.append_nil] at hdone
      rw [← hdone]
      exact ⟨hx, hrx, hp⟩
  · have hquiet : Spec A (fun x => Aside g w x ∧ Ready x ∧
        Unless (fun x => ∃ ls rs rs', Progress g w T F w.db.idx.pk.items b x ls rs rs') x) quietStep
        (fun _ x => Aside g w x ∧ Ready x ∧
          Unless (fun x => ∃ ls rs rs', Progress g w T F w.db.idx.pk.items b x ls rs rs') x)
        (fun e x => Aside g w x ∧ e ≠ .panic) :=
      Spec.quietStep (fun _ h => h) (fun _ x _ h => ⟨h.1, by rintro ⟨⟩⟩)
      fun x _ h => ⟨h.1, by rintro ⟨⟩⟩
    refine Spec.bind hquiet fun _ => Spec.bind hquiet fun _ =>
      Spec.bind hquiet fun _ => Spec.pure ?_
    rintro x ⟨hx, hrx, hp⟩
    refine ⟨hx, hrx, fun hwrap => ?_⟩
    obtain ⟨ls, rs, rs', hp⟩ := hp hwrap
    exact ⟨ls, rs, rs', hp.built hw hopen⟩

theorem Aside.noCompact (hv : Aside g w v) :
    Aside g w { v with dir := { v.dir with compact := none } } :=
  ⟨⟨hv.main, hv.hint, hv.schema, ⟨hv.beside.others, hv.beside.sized⟩, hv.db, hv.inode, hv.hintInode,
    hv.now, hv.acked⟩, hv.present, hv.relieve⟩

/-- The new log is removed, whatever has become of it. -/
theorem removeCompact_cases (A : Answer → Prop) (v : World) :
    Spec A (fun x => x = v) removeCompact
      (fun _ x => x = { v with dir := { v.dir with compact := none } } ∨ x = v)
      (fun e x => x = v ∧ e = .crash) := by
  unfold removeCompact
  refine Spec.ignoreError (Spec.atomicStep (Q := fun _ x =>
    x = { v with dir := { v.dir with compact := none } } ∨ x = v)
    (E := fun e x => x = v ∧ (e = .io ∨ e = .crash)) ?_ ?_ ?_) ?_ ?_
  · rintro x rfl
    exact Or.inl rfl
  · rintro k x _ rfl
    exact ⟨rfl, Or.inl rfl⟩
  · rintro x _ rfl
    exact ⟨rfl, Or.inr rfl⟩
  · rintro e x _ ⟨rfl, _⟩
    exact Or.inr rfl
  · rintro e x hfatal ⟨rfl, rfl | rfl⟩
    · cases hfatal
    · exact ⟨rfl, rfl⟩

/-- The cleanup of a build. -/
theorem removeCompact_aside (A : Answer → Prop) {e : Err} (he : e ≠ .panic) :
    Spec A (Aside g w) removeCompact (fun _ x => Aside g w x ∧ e ≠ .panic)
      (fun e x => Aside g w x ∧ e ≠ .panic) := by
  refine Spec.of_world fun v hv => (removeCompact_cases A v).post ?_ ?_
  · rintro _ x (rfl | rfl)
    · exact ⟨hv.noCompact, he⟩
    · exact ⟨hv, he⟩
  · rintro e x ⟨rfl, rfl⟩
    exact ⟨hv, by rintro ⟨⟩⟩

/-- `buildPhase` next to a sound store. -/
theorem buildPhase_spec {transform : Record → StoreM Record}
    (htr : Rewrites A g w transform T F) (hw : Sound m w) (hopen : w.db.closed = false)
    (hfresh : FreshGen g w.dir) (hv : Aside g w v) (hready : Ready v)
    (hbytes : v.dir.asideBytes g = []) :
    Spec A (fun x => x = v) (buildPhase transform)
      (fun pk x => Aside g w x ∧ Ready x ∧
        Unless (fun x => ∃ ls rs rs', Built g w T F pk x ls rs rs') x)
      (fun e x => Aside g w x ∧ e ≠ .panic) := by
  unfold buildPhase
  refine Spec.bind ((removeCompact_cases A v).errors ?_) fun _ => Spec.of_world fun u hu => ?_
  · rintro e x ⟨rfl, rfl⟩
    exact ⟨hv, by rintro ⟨⟩⟩
  have hstart : Aside g w u ∧ Ready u ∧ u.dir.asideBytes g = [] := by
    rcases hu with rfl | rfl
    · exact ⟨hv.noCompact, hready, hbytes⟩
    · exact ⟨hv, hready, hbytes⟩
  obtain ⟨hu, hru, hbu⟩ := hstart
  refine Spec.bind (Spec.onError (buildRewrite_spec htr hw hopen hfresh hu hru hbu) ?_
    fun _ _ _ h => h) fun pk => ?_
  · exact fun e _ => Spec.of_world fun x hx =>
      (removeCompact_aside A hx.2).pre fun y hy => hy ▸ hx.1
  refine Spec.bind (Q := fun _ x => Aside g w x ∧ Ready x ∧
    Unless (fun x => ∃ ls rs rs', Built g w T F pk x ls rs rs') x) ?_ fun _ => Spec.pure
      fun _ h => h
  unfold flushRelieve
  refine Spec.bind_getWorld ?_
  rintro x ⟨hx, hrx, hbuilt⟩
  cases x.db.relieve with
  | none =>
      refine Spec.pure ?_
      rintro y rfl
      exact ⟨hx, hrx, hbuilt⟩
  | some bs =>
      refine Spec.onError (F := fun e y => Aside g w y ∧ e ≠ .panic) (Spec.atomicStep ?_ ?_ ?_) ?_
        fun _ _ _ h => h
      · rintro y rfl
        refine ⟨⟨⟨hx.main, hx.hint, hx.schema, hx.beside, hx.db, hx.inode, hx.hintInode, hx.now,
          hx.acked⟩, hx.present, hx.relieve⟩, hrx, fun hwrap => ?_⟩
        obtain ⟨ls, rs, rs', hb⟩ := hbuilt hwrap
        exact ⟨ls, rs, rs', hb.compact, hb.log, hb.mirrors, hb.records, hb.chain, hb.lines, hb.refs,
          hb.cells⟩
      · rintro k y _ rfl
        exact ⟨hx, by rintro ⟨⟩⟩
      · rintro y _ rfl
        exact ⟨hx, by rintro ⟨⟩⟩
      · exact fun e _ => Spec.of_world fun y hy =>
          (removeCompact_aside A hy.2).pre fun z hz => hz ▸ hy.1

end Scan

end NteeDb.Core
