import NteeDb.Invariants.Swapping

/-!
# Compact, Reindex and BlobsRelieve

A rewrite that returns nil leaves a sound store whose log holds what the unexpired cells
have become (`Rewritten`).  One that fails before the rename leaves the store as it was;
later failures stop it, or leave the new log without its hint.

## Main results

* `compact_spec`, `reindex_spec`, `blobsRelieve_spec` — the operations, for all answers of
  the system.
-/

namespace NteeDb.Core

open NteeDb.Verified
open Faults Lines OrderedTree JsonCodec

variable {A : Answer → Prop} {m : Mode} {w v x y z : World} {g : Option Int64}
  {T : Bytes → Record → Record → Bytes → Prop} {F : Bytes → Cell → Cell} {pk : PkIndex}
  {ls : List Bytes} {rs rs' : List Record}

/-! ## A rewrite that went through -/

/-- The new log was built beside `w`, ending in `x`, then swapped in, ending in `y`; the hint
was written last. -/
structure Recast (A : Answer → Prop) (g : Option Int64) (w : World)
    (T : Bytes → Record → Record → Bytes → Prop) (F : Bytes → Cell → Cell) (z x : World)
    (pk : PkIndex) (ls : List Bytes) (rs rs' : List Record) (y : World) : Prop where
  aside : Aside g w x
  built : Built g w T F pk x ls rs rs'
  swapped : Swapped A g w x pk y
  re : Rehinted y z

/-- A rewrite of `w` went through. -/
def Rewritten (A : Answer → Prop) (g : Option Int64) (w : World)
    (T : Bytes → Record → Record → Bytes → Prop) (F : Bytes → Cell → Cell) (z : World) : Prop :=
  ∃ x pk ls rs rs' y, Recast A g w T F z x pk ls rs rs' y

theorem Rewritten.cells (h : Rewritten A g w T F z) (key : Bytes) :
    z.dir.cells key = (w.live key).map (F key) := by
  obtain ⟨x, pk, ls, rs, rs', y, h⟩ := h
  rw [h.re.cells]
  exact (h.swapped.committed.log h.built).2 key

/-- What a rewrite leaves alone. -/
structure Recasts (w z : World) : Prop where
  opts : z.db.opts = w.db.opts
  closed : z.db.closed = w.db.closed
  now : z.now = w.now
  acked : z.acked = w.acked
  inode : z.inode = w.inode + 1
  schema : z.dir.schema = w.dir.schema
  prospective : z.db.prospective = w.db.prospective
  dropped : z.db.dropped = w.db.dropped

theorem Rewritten.recasts (h : Rewritten A g w T F z) : Recasts w z := by
  obtain ⟨x, pk, ls, rs, rs', y, h⟩ := h
  obtain ⟨c, r, blobs, _, hdb⟩ := h.swapped.db
  obtain ⟨⟨hint, hdir⟩, ⟨n, gen, job, hzdb⟩, hinode, hnow, hacked⟩ := h.re
  have hcommitted := h.swapped.committed
  exact ⟨by rw [hzdb, hdb], by rw [hzdb, hdb], hnow.trans hcommitted.now,
    hacked.trans hcommitted.acked, hinode.trans hcommitted.inode,
    by rw [hdir]; exact hcommitted.schema, by rw [hzdb, hdb], by rw [hzdb, hdb]⟩

theorem Rewritten.curGen (h : Rewritten A g w T F z) : z.db.curGen = g.getD w.db.curGen := by
  obtain ⟨x, pk, ls, rs, rs', y, h⟩ := h
  obtain ⟨c, r, blobs, _, hdb⟩ := h.swapped.db
  obtain ⟨_, ⟨n, gen, job, hzdb⟩, _⟩ := h.re
  rw [hzdb, hdb]

/-- The gate is no concern of what a rewrite leaves, nor is the store it prepared. -/
theorem Rewritten.settle (h : Rewritten A g w T F z) (c : Bool) (r : Option BlobStore) :
    Rewritten A g w T F { z with db := { z.db with compacting := c, relieve := r } } := by
  obtain ⟨x, pk, ls, rs, rs', y, h⟩ := h
  obtain ⟨c', r', blobs, hblobs, hdb⟩ := h.swapped.db
  obtain ⟨hdir, ⟨n, gen, job, hzdb⟩, hinode, hnow, hacked⟩ := h.re
  have hc := h.swapped.committed
  refine ⟨x, pk, ls, rs, rs', { y with db := { y.db with compacting := c, relieve := r } }, h.aside,
    h.built, ⟨⟨hc.main, hc.schema, hc.kept, hc.others, hc.inode, hc.hintInode, hc.now, hc.acked⟩,
      h.swapped.compact, h.swapped.hint, h.swapped.hintInode, h.swapped.retired, h.swapped.stores,
      c, r, blobs, hblobs, ?_⟩,
    hdir, ⟨n, gen, job, ?_⟩, hinode, hnow, hacked⟩
  · dsimp only
    rw [hdb]
  · dsimp only
    rw [hzdb]

theorem Rewritten.serving (h : Rewritten A g w T F z) (hw : Sound m w) (hopen : w.db.closed = false)
    (hfresh : ∀ gen ∈ g, 0 ≤ gen ∧ w.db.curGen < gen) (hA : g = none ∨ ∀ k, ¬ A (.fail k)) :
    Serving z := by
  obtain ⟨x, pk, ls, rs, rs', y, h⟩ := h
  exact h.re.serving (h.swapped.serving hw hopen h.built h.aside hfresh hA)

/-! ## The body of a rewrite -/

theorem OnDisk.fresh (h : OnDisk m.cutOff z) (hfresh : FreshHint z) : OnDisk m z :=
  ⟨h.1, h.2.1, fun _ => hfresh⟩

/-- How the body of a rewrite may end without a value: before the rename, at it or after
it, or with the hint not written. -/
inductive BodyFailed (A : Answer → Prop) (m : Mode) (g : Option Int64) (w : World)
    (T : Bytes → Record → Record → Bytes → Prop) (F : Bytes → Cell → Cell) : Err → World → Prop
  | early {e : Err} {z : World} (aside : Aside g w z) (panic : e ≠ .panic) :
      BodyFailed A m g w T F e z
  | stranded {e : Err} {z : World} (h : Stranded m w e z) : BodyFailed A m g w T F e z
  | late {z : World} (rewritten : Rewritten A g w T F z)
      (relieve : z.db.relieve.map BlobStore.gen = g) (disk : OnDisk m.cutOff z)
      (flight : InFlight z) (fail : ∃ k, A (.fail k)) : BodyFailed A m g w T F .io z

/-- `swap` of a finished build. -/
theorem swap_spec (hw : Sound m w) (hopen : w.db.closed = false) (hfresh : FreshGen g w.dir)
    (hF : Preserves F) (hx : Aside g w x) (hready : Ready x) (hb : Built g w T F pk x ls rs rs') :
    Spec A (fun v => v = x) (swap pk)
      (fun _ z => Rewritten A g w T F z ∧ z.db.relieve.map BlobStore.gen = g ∧ OnDisk m z ∧
        InFlight z ∧ FreshHint z)
      (BodyFailed A m g w T F) := by
  unfold swap
  refine Spec.bind ((swapBody_spec hw hx hb hF hopen hfresh hready).errors
    fun _ _ hv => .stranded hv) fun _ => Spec.of_world ?_
  rintro y ⟨hy, hrelieve⟩
  have hrewritten : ∀ z, Rehinted y z →
      Rewritten A g w T F z ∧ z.db.relieve.map BlobStore.gen = g := by
    intro z hre
    exact ⟨⟨x, pk, ls, rs, rs', y, hx, hb, hy, hre⟩, by rw [hre.relieve, hrelieve, hx.relieve]⟩
  refine (writeHint_cases (hy.committed.onDisk hb hw.1 hF) (hy.inFlight hw)
    (hy.hintable hw hopen hb)).post ?_ ?_
  · rintro _ z ⟨hdisk, hflight, hre, hhint⟩
    exact ⟨(hrewritten z hre).1, (hrewritten z hre).2, hdisk.fresh hhint, hflight, hhint⟩
  · rintro e z ⟨hdisk, hflight, hre, rfl | ⟨rfl, hfail⟩⟩
    · exact .stranded (.crash hdisk)
    · exact .late (hrewritten z hre).1 (hrewritten z hre).2 hdisk hflight hfail

/-- `rewriteBody` next to a sound store. -/
theorem rewriteBody_spec {transform : Record → StoreM Record} (htr : Rewrites A g w transform T F)
    (hw : Sound m w) (hopen : w.db.closed = false) (hfresh : FreshGen g w.dir) (hF : Preserves F)
    (hv : Aside g w v) (hready : Ready v) (hbytes : v.dir.asideBytes g = []) :
    Spec A (fun u => u = v) (rewriteBody transform)
      (fun _ => Unless fun z => Rewritten A g w T F z ∧ z.db.relieve.map BlobStore.gen = g ∧
        OnDisk m z ∧ InFlight z ∧ FreshHint z)
      (fun e => Unless (BodyFailed A m g w T F e)) := by
  unfold rewriteBody
  refine Spec.bind ((buildPhase_spec htr hw hopen hfresh hv hready hbytes).errors
    fun e u hu _ => .early hu.1 hu.2) fun pk => ?_
  refine (Spec.unless (P := fun x => Aside g w x ∧ Ready x ∧
    ∃ ls rs rs', Built g w T F pk x ls rs rs')
    (swap_keeps pk fun hk => nomatch hk) ?_).pre fun x hx hwrap => ⟨hx.1, hx.2.1, hx.2.2 hwrap⟩
  rintro x _ ⟨hx, hrx, ls, rs, rs', hb⟩
  exact (swap_spec hw hopen hfresh hF hx hrx hb).post (fun _ _ hu _ => hu) fun _ _ hu _ => hu

/-! ## Behind the gate -/

/-- The gate is raised. -/
def World.gate (w : World) : World := { w with db := { w.db with compacting := true } }

theorem raiseGate_cases (A : Answer → Prop) (w : World) :
    Spec A (fun v => v = w) raiseGate (fun _ v => v = w.gate ∧ w.db.closed = false)
      (fun e v => v = w ∧ e = .closed ∧ w.db.closed = true) := by
  unfold raiseGate
  refine Spec.bind (requireOpen_cases A w) fun _ => Spec.updateDB ?_
  rintro v ⟨rfl, hopen⟩
  exact ⟨rfl, hopen⟩

/-- The gate and the wrapped lengths are no concern of the files. -/
theorem Strayed.start (g : Option Int64) (hw : w.dir.WellSized) (c : Bool) (r : Option BlobStore)
    (b : Bool) :
    Strayed g w { w with db := { w.db with compacting := c, relieve := r }, wrapped := b } :=
  ⟨rfl, rfl, rfl, ⟨fun _ _ => rfl, fun gen _ => hw.2 gen⟩, ⟨_, _, rfl⟩, rfl, rfl, rfl, rfl⟩

theorem Strayed.weaken (h : Strayed none w v) (hw : w.dir.WellSized) (g : Option Int64) :
    Strayed g w v := by
  refine ⟨h.main, h.hint, h.schema,
    ⟨fun gen _ => h.beside.others gen (by rintro ⟨⟩), fun gen _ => ?_⟩,
    h.db, h.inode, h.hintInode, h.now, h.acked⟩
  rw [h.beside.blobBytes (by rintro ⟨⟩)]
  exact hw.2 gen

theorem Strayed.settle (h : Strayed g w v) (c : Bool) (r : Option BlobStore) :
    Strayed g w { v with db := { v.db with compacting := c, relieve := r } } := by
  obtain ⟨c', r', hdb⟩ := h.db
  refine ⟨h.main, h.hint, h.schema, h.beside, ⟨c, r, ?_⟩, h.inode, h.hintInode, h.now, h.acked⟩
  dsimp only
  rw [hdb]

/-- A store beside which a rewrite came to nothing is as sound as before. -/
theorem Strayed.sound (h : Strayed none w v) (hw : Sound m w) (hrelieve : v.db.relieve = none) :
    Sound m v := by
  have hfresh : FreshGen none w.dir := by rintro gen ⟨⟩
  obtain ⟨c, r, hdb⟩ := h.db
  refine ⟨(h.onDisk hfresh hw.1).1, h.inFlight hw.2.1, fun hopen => ?_⟩
  rw [hdb] at hopen
  have hstore := hw.2.2 hopen
  have hblob : ∀ gen, v.dir.blob gen = w.dir.blob gen :=
    fun gen => h.beside.others gen (by rintro ⟨⟩)
  refine ⟨by rw [hdb]; exact hstore.carried, by rw [h.main]; exact hstore.main, ?_, ?_,
    by rw [hdb]; exact hstore.isOpen, by rw [hdb]; exact hstore.cur_nonneg, ?_, fun gen hlt => ?_,
    fun gen => ?_, hrelieve, by rw [hdb]; exact hstore.inStep, ?_⟩
  · rw [hdb, h.mainBytes]
    exact hstore.size_eq
  · rw [hdb, h.inode]
    exact hstore.handles_eq
  · rw [hdb, hblob]
    exact hstore.cur_present
  · rw [hdb] at hlt
    rw [hblob]
    exact hstore.highest gen hlt
  · rw [hdb, Dir.blobBytes, hblob]
    exact hstore.store gen
  · rw [hdb, h.log]
    exact hstore.mirrors

/-- How `Compact` and the rewrite of `Reindex` may end without a value. -/
inductive RewriteFailed (A : Answer → Prop) (m : Mode) (w : World)
    (T : Bytes → Record → Record → Bytes → Prop) (F : Bytes → Cell → Cell) : Err → World → Prop
  | closed (h : w.db.closed = true) : RewriteFailed A m w T F .closed w
  | early {e : Err} {v : World} (open_ : w.db.closed = false) (stray : Strayed none w v)
      (relieve : v.db.relieve = none) (fatal : e.fatal = false) : RewriteFailed A m w T F e v
  | stranded {e : Err} {v : World} (h : Stranded m w e v) : RewriteFailed A m w T F e v
  | late {v : World} (open_ : w.db.closed = false) (rewritten : Rewritten A none w T F v)
      (sound : Sound m.cutOff v) (fail : ∃ k, A (.fail k)) : RewriteFailed A m w T F .io v

theorem Stranded.settle {e : Err} (h : Stranded m w e v) (c : Bool) (r : Option BlobStore) :
    Stranded m w e { v with db := { v.db with compacting := c, relieve := r } } := by
  cases h with
  | crash hdisk => exact .crash hdisk
  | disabled hdisk hclosed hjob hschema hnow hsurvives =>
      exact .disabled hdisk hclosed hjob hschema hnow hsurvives

/-- A rewrite of the log alone, behind the gate. -/
theorem gated_spec {transform : Record → StoreM Record} (h : Sound m w)
    (htr : w.db.closed = false → Rewrites A none w transform T F) (hF : Preserves F) :
    Spec A (fun v => v = w) (gated (rewriteBody transform))
      (fun _ => Unless fun v => w.db.closed = false ∧ Sound m v ∧ FreshHint v ∧
        Rewritten A none w T F v)
      (fun e => Unless (RewriteFailed A m w T F e)) := by
  have hfresh : FreshGen none w.dir := by rintro gen ⟨⟩
  unfold gated
  refine Spec.bind ((raiseGate_cases A w).errors ?_) fun _ => Spec.of_world ?_
  · rintro e v ⟨rfl, rfl, hclosed⟩ _
    exact .closed hclosed
  rintro _ ⟨rfl, hopen⟩
  have hstart : Aside none w w.gate := by
    have hrelieve : w.db.relieve = none := (h.2.2 hopen).noRelieve
    exact ⟨Strayed.start none h.1.1.log.sized true w.db.relieve w.wrapped, by rintro gen ⟨⟩,
      by rw [World.gate, hrelieve]; rfl⟩
  have hready : Ready w.gate := by
    rintro bs hbs
    rw [show w.gate.db.relieve = none from (h.2.2 hopen).noRelieve] at hbs
    cases hbs
  -- a store that serves from the new log, once the gate is lowered
  have hsound : ∀ {m' : Mode} {z : World}, Rewritten A none w T F z →
      z.db.relieve.map BlobStore.gen = none → OnDisk m' z → InFlight z →
      Sound m' { z with db := { z.db with compacting := false } } ∧
        Rewritten A none w T F { z with db := { z.db with compacting := false } } := by
    intro m' z hz hrelieve hdisk hflight
    have hserving := hz.serving h hopen (by rintro gen ⟨⟩) (Or.inl rfl)
    exact ⟨⟨hdisk, hflight, fun _ => hserving.inStore (Option.map_eq_none_iff.mp hrelieve)⟩,
      hz.settle false z.db.relieve⟩
  refine Spec.bind (Spec.onError (rewriteBody_spec (htr hopen) h hopen hfresh hF hstart hready
    rfl) (fun e hfatal => Spec.updateDB fun z hz hwrap => ?_) fun e z hfatal hz hwrap => ?_)
    fun _ =>
    Spec.updateDB fun z hz hwrap => ?_
  · cases hz hwrap with
    | early haside _ =>
        exact .early hopen (haside.toStrayed.settle false z.db.relieve)
          (Option.map_eq_none_iff.mp haside.relieve) hfatal
    | stranded hs => exact .stranded (hs.settle false z.db.relieve)
    | late hz hrelieve hdisk hflight hfail =>
        obtain ⟨hs, hr⟩ := hsound hz hrelieve hdisk hflight
        exact .late hopen hr hs hfail
  · cases hz hwrap with
    | early haside hpanic =>
        rw [Err.crash_of_fatal hfatal hpanic]
        exact .stranded (.crash (haside.onDisk hfresh h.1).1.cutOff)
    | stranded hs => exact .stranded hs
    | late _ _ _ _ _ => cases hfatal
  · obtain ⟨hz, hrelieve, hdisk, hflight, hhint⟩ := hz hwrap
    obtain ⟨hs, hr⟩ := hsound hz hrelieve hdisk hflight
    exact ⟨hopen, hs, hhint, hr⟩

/-! ## Compact -/

theorem preserves_compact (db : DB) : Preserves (compactCell db) := fun _ _ => rfl

/-- `Compact` of a sound store. -/
theorem compact_spec (h : Sound m w) :
    Spec A (fun v => v = w) compact
      (fun _ => Unless fun v => w.db.closed = false ∧ Sound m v ∧ FreshHint v ∧
        Rewritten A none w (compactStep w.db) (compactCell w.db) v)
      (fun e => Unless (RewriteFailed A m w (compactStep w.db) (compactCell w.db) e)) :=
  gated_spec h (fun _ => rewrites_compact A w) (preserves_compact w.db)

/-! ## Reindex -/

theorem preserves_reindex (db : DB) : Preserves (reindexCell db) := by
  intro key c
  rw [reindexCell]
  split <;> rfl

/-- The store once `Reindex` has marked its indexes complete. -/
def DB.marked (db : DB) : DB :=
  { db with
    prospective := db.prospective.filter fun n =>
      !((db.opts.indexes.filter fun d => d.extract.isSome).map IndexDef.name).contains n
    dropped := [] }

/-- The schema that `Reindex` writes. -/
def DB.markedSchema (db : DB) : List MetaIndex :=
  (db.opts.indexes.map (reindexedMeta db.prospective)).map fun mi =>
    { mi with name := Utf8.sanitize mi.name }

/-- The world after `markReindexed`. -/
def World.marked (z : World) : World :=
  { z with dir := { z.dir with schema := z.db.markedSchema }, db := z.db.marked }

theorem markReindexed_cases (A : Answer → Prop) (z : World) :
    Spec A (fun v => v = z) markReindexed (fun _ v => v = z.marked)
      (fun e v => v = { z with db := z.db.marked } ∧ Unanswered A e) := by
  unfold markReindexed
  refine Spec.bind_getWorld ?_
  rintro z rfl
  refine Spec.bind (Spec.updateDB (Q := fun _ v => v = { z with db := z.db.marked }) ?_)
    fun _ => ?_
  · rintro v rfl
    rfl
  unfold writeMeta
  refine Spec.bind (Spec.quietStep (fun _ hv => hv)
    (fun k v hk hv => ⟨hv, Or.inr ⟨rfl, k, hk⟩⟩) fun v _ hv => ⟨hv, Or.inl rfl⟩) fun _ =>
    Spec.atomicStep ?_ (fun k v hk hv => ⟨hv, Or.inr ⟨rfl, k, hk⟩⟩) fun v _ hv => ⟨hv, Or.inl rfl⟩
  rintro v rfl
  rfl

theorem Sound.marked (h : Sound m z) : Sound m z.marked ∧ Sound m { z with db := z.db.marked } := by
  refine ⟨⟨⟨⟨?_, h.1.1.hint, h.1.1.order⟩, h.1.2.1, h.1.2.2⟩, ?_, ?_⟩, h.1, h.2.1, h.2.2⟩
  · have hext : z.dir.Extends z.marked.dir z.dir.log := Dir.extends_of_blobs h.1.1.log.lines rfl
    exact h.1.1.log.extend rfl hext h.1.1.log.sized
  · exact fun j hj => ⟨(h.2.1 j hj).gen, (h.2.1 j hj).handles, (h.2.1 j hj).current,
      (h.2.1 j hj).scalar, (h.2.1 j hj).hint⟩
  · intro hopen
    have hs := h.2.2 hopen
    exact ⟨hs.carried, hs.main, hs.size_eq, hs.handles_eq, hs.isOpen, hs.cur_nonneg, hs.cur_present,
      hs.highest, hs.store, hs.noRelieve, hs.inStep, hs.mirrors⟩

/-- How `Reindex` may end without a value; the last case is a schema that was not
written. -/
inductive ReindexFailed (A : Answer → Prop) (m : Mode) (w : World) : Err → World → Prop
  | rewrite {e : Err} {v : World} (h : RewriteFailed A m w (reindexStep w) (reindexCell w.db) e v) :
      ReindexFailed A m w e v
  | unmarked {e : Err} {z : World} (open_ : w.db.closed = false) (sound : Sound m z)
      (rewritten : Rewritten A none w (reindexStep w) (reindexCell w.db) z) (he : Unanswered A e) :
      ReindexFailed A m w e { z with db := z.db.marked }

/-- `Reindex` of a sound store. -/
theorem reindex_spec (h : Sound m w) :
    Spec A (fun v => v = w) reindex
      (fun _ => Unless fun v => ∃ z, w.db.closed = false ∧ Sound m z ∧ FreshHint z ∧
        Rewritten A none w (reindexStep w) (reindexCell w.db) z ∧ v = z.marked)
      (fun e => Unless (ReindexFailed A m w e)) := by
  unfold reindex
  refine Spec.bind ((gated_spec h (fun hopen => rewrites_reindex A (h.2.2 hopen).serving)
    (preserves_reindex w.db)).errors
    fun e v hv hwrap => .rewrite (hv hwrap)) fun _ => ?_
  refine Spec.unless (Keeps.bind Keeps.getWorld fun _ =>
    Keeps.bind (Keeps.updateDB fun _ hv => hv) fun _ => writeMeta_keeps _) ?_
  rintro z _ ⟨hopen, hz, hhint, hrew⟩
  refine (markReindexed_cases A z).post ?_ ?_
  · rintro _ v rfl _
    exact ⟨z, hopen, hz, hhint, hrew, rfl⟩
  · rintro e v ⟨rfl, he⟩ _
    exact .unmarked hopen hz hrew he

/-! ## BlobsRelieve -/

/-- The generation that `BlobsRelieve` writes to. -/
def DB.nextGen (db : DB) : Int64 := db.curGen + 1

theorem nextGen_fresh (h : InStore w) (hmax : w.db.curGen ≠ maxInt64) :
    0 ≤ w.db.nextGen ∧ w.db.curGen < w.db.nextGen := by
  have hnonneg : (0 : Int) ≤ w.db.curGen.toInt := Int64.le_iff_toInt_le.mp h.cur_nonneg
  have hlt := w.db.curGen.toInt_lt
  have hne : w.db.curGen.toInt ≠ 2 ^ 63 - 1 :=
    fun heq => hmax (Int64.toInt_inj.mp (heq.trans (by decide)))
  have hnext : w.db.nextGen.toInt = w.db.curGen.toInt + 1 := by
    rw [DB.nextGen, Int64.toInt_add]
    show Int.bmod (w.db.curGen.toInt + 1) _ = _
    rw [Int.bmod_def]
    norm_num at hne hlt ⊢
    omega
  rw [Int64.le_iff_toInt_le, Int64.lt_iff_toInt_lt, hnext]
  exact ⟨show (0 : Int) ≤ _ by omega, by omega⟩

/-- The files once the new generation has been created. -/
theorem Strayed.create {gen : Int64} (hw : w.dir.WellSized) (hnone : w.dir.blob gen = none)
    (c : Bool) (r : Option BlobStore) (b : Bool) :
    Strayed (some gen) w { w with
      dir := w.dir.appendBlob gen [], db := { w.db with compacting := c, relieve := r }
      wrapped := b } := by
  refine ⟨rfl, rfl, rfl, ⟨fun gen' hgen' => ?_, ?_⟩, ⟨_, _, rfl⟩, rfl, rfl, rfl, rfl⟩
  · dsimp only
    rw [Dir.blob_appendBlob, if_neg (by rintro rfl; exact hgen' rfl)]
  · intro gen' _
    dsimp only
    rw [Dir.blobBytes_appendBlob_nil]
    exact hw.2 gen'

/-- The new generation is there, empty and open. -/
theorem openRelieve_spec (h : Sound m w) (hopen : w.db.closed = false)
    (hmax : w.db.curGen ≠ maxInt64) :
    Spec A (fun v => v = w.gate) openRelieve
      (fun _ v => Aside (some w.db.nextGen) w v ∧ Ready v ∧
        v.dir.asideBytes (some w.db.nextGen) = [])
      (fun e v => Strayed (some w.db.nextGen) w v ∧ v.db.relieve = none ∧ Unanswered A e ∧
        (e.fatal = false → Strayed none w v ∨ ∃ k, A (.fail k))) := by
  have hnone : w.dir.blob w.db.nextGen = none :=
    (h.2.2 hopen).highest _ (nextGen_fresh (h.2.2 hopen) hmax).2
  have hrelieve : w.db.relieve = none := (h.2.2 hopen).noRelieve
  have hsized := h.1.1.log.sized
  have hbytes : (w.dir.appendBlob w.db.nextGen []).blobBytes w.db.nextGen = [] := by
    rw [Dir.blobBytes_appendBlob_nil, Dir.blobBytes, hnone]
    rfl
  unfold openRelieve
  refine Spec.bind_getWorld ?_
  rintro _ rfl
  refine Spec.bind (Spec.modify (S := fun _ v => ∃ b, v = { w.gate with wrapped := b }) ?_)
    fun _ => Spec.of_world ?_
  · rintro v rfl
    exact ⟨_, rfl⟩
  rintro _ ⟨b, rfl⟩
  show Spec A _ (openBlobs w.db.nextGen >>= _) _ _
  refine Spec.bind (Q := fun bs v =>
    bs = { gen := w.db.nextGen, size := fileSize [] } ∧
    v = { w.gate with dir := w.dir.appendBlob w.db.nextGen [], wrapped := b }) ?_ fun bs =>
      Spec.updateDB ?_
  · unfold openBlobs
    refine Spec.bind (Spec.atomicStep (Q := fun _ v =>
      v = { w.gate with dir := w.dir.appendBlob w.db.nextGen [], wrapped := b }) ?_ ?_ ?_)
      fun _ => ?_
    · rintro v rfl
      rfl
    · rintro k v hk rfl
      exact ⟨Strayed.start _ hsized true w.db.relieve b, hrelieve, Or.inr ⟨rfl, k, hk⟩,
        fun _ => Or.inl (Strayed.start _ hsized true w.db.relieve b)⟩
    · rintro v _ rfl
      exact ⟨Strayed.start _ hsized true w.db.relieve b, hrelieve, Or.inl rfl,
        by rintro ⟨⟩⟩
    refine Spec.bind (Spec.quietStep (Q := fun _ v =>
      v = { w.gate with dir := w.dir.appendBlob w.db.nextGen [], wrapped := b })
      (fun _ hv => hv) ?_ ?_) fun _ => ?_
    · rintro k v hk rfl
      exact ⟨Strayed.create hsized hnone true w.db.relieve b, hrelieve, Or.inr ⟨rfl, k, hk⟩,
        fun _ => Or.inr ⟨k, hk⟩⟩
    · rintro v _ rfl
      exact ⟨Strayed.create hsized hnone true w.db.relieve b, hrelieve, Or.inl rfl,
        by rintro ⟨⟩⟩
    refine Spec.bind_getWorld ?_
    rintro _ rfl
    refine Spec.pure ?_
    rintro v rfl
    exact ⟨by rw [hbytes], rfl⟩
  · rintro v ⟨rfl, rfl⟩
    refine ⟨⟨Strayed.create hsized hnone true _ b, ?_, rfl⟩, ?_, hbytes⟩
    · rintro _ ⟨⟩
      dsimp only
      rw [Dir.blob_appendBlob, if_pos rfl]
      rfl
    · rintro _ ⟨⟩
      dsimp only
      rw [hbytes]

/-- The world once `BlobsRelieve` has given its store up. -/
def World.abandon (z : World) (bs : BlobStore) : World :=
  { z with db := { z.db with
      blobs := match z.db.blobStore bs.gen with
        | none => z.db.blobs
        | some cur => z.db.blobs.set { cur with isOpen := false }
      relieve := none } }

/-- The world once the file of a generation has been removed. -/
def World.unlinked (z : World) (gen : Int64) : World :=
  { z with
    dir := { z.dir with blobs := z.dir.blobs.delete (gen, []) }
    durable := z.durable.setBlob gen 0 }

/-- The ways `abandonRelieve` can go. -/
theorem abandonRelieve_cases (A : Answer → Prop) {bs : BlobStore}
    (hrelieve : z.db.relieve = some bs) : Spec A (fun v => v = z) abandonRelieve
      (fun _ v => (z.db.closed = true ∧ v = z) ∨ z.db.closed = false ∧
        (v = (z.abandon bs).unlinked bs.gen ∨ v = z.abandon bs ∧ ∃ k, A (.fail k)))
      (fun e v => e = .crash ∧ v = z.abandon bs) := by
  unfold abandonRelieve
  refine Spec.bind_getWorld ?_
  rintro z rfl
  rw [hrelieve]
  refine Spec.ite (fun hclosed => ?_) fun hopen => ?_
  · refine Spec.pure ?_
    rintro v rfl
    exact Or.inl ⟨hclosed, rfl⟩
  have hopen : z.db.closed = false := Bool.eq_false_iff.mpr hopen
  refine Spec.bind (Spec.updateDB (Q := fun _ v => v = z.abandon bs) ?_) fun _ => ?_
  · rintro v rfl
    rfl
  have hfatal : ∀ (e : Err) (v : World), e.fatal = true → v = z.abandon bs ∧ Unanswered A e →
      e = .crash ∧ v = z.abandon bs := by
    rintro e v hfatal ⟨rfl, he⟩
    exact ⟨Err.crash_of_fatal hfatal he.ne_panic, rfl⟩
  refine Spec.bind (Spec.ignoreError (Q := fun _ v => v = z.abandon bs)
    (F := fun e v => v = z.abandon bs ∧ Unanswered A e) (Spec.quietStep (fun _ hv => hv)
      (fun k v hk hv => ⟨hv, Or.inr ⟨rfl, k, hk⟩⟩) fun v _ hv => ⟨hv, Or.inl rfl⟩)
    (fun _ _ _ hv => hv.1) hfatal) fun _ => ?_
  refine Spec.ignoreError (F := fun e v => v = z.abandon bs ∧ Unanswered A e) (Spec.atomicStep ?_
    (fun k v hk hv => ⟨hv, Or.inr ⟨rfl, k, hk⟩⟩) fun v _ hv => ⟨hv, Or.inl rfl⟩) ?_ hfatal
  · rintro v rfl
    exact Or.inr ⟨hopen, Or.inl rfl⟩
  · rintro e v hnonfatal ⟨rfl, rfl | ⟨_, hfail⟩⟩
    · cases hnonfatal
    · exact Or.inr ⟨hopen, Or.inr ⟨rfl, hfail⟩⟩

/-- A store that has stopped is left alone. -/
theorem abandonRelieve_closed (hclosed : z.db.closed = true) :
    Spec A (fun v => v = z) abandonRelieve (fun _ v => v = z) fun _ _ => False := by
  unfold abandonRelieve
  refine Spec.bind_getWorld ?_
  rintro z rfl
  cases z.db.relieve with
  | none => exact Spec.pure fun _ hv => hv
  | some bs =>
      exact Spec.ite (fun _ => Spec.pure fun _ hv => hv)
        fun hopen => absurd hclosed hopen

/-- How `BlobsRelieve` may end without a value.  In the last case the new log was in place
when its generation was given up. -/
inductive RelieveFailed (A : Answer → Prop) (m : Mode) (w : World) : Err → World → Prop
  | closed (h : w.db.closed = true) : RelieveFailed A m w .closed w
  | early {e : Err} {v : World} (open_ : w.db.closed = false)
      (stray : Strayed (some w.db.nextGen) w v) (relieve : v.db.relieve = none)
      (gone : Strayed none w v ∨ ∃ k, A (.fail k)) (fatal : e.fatal = false) :
      RelieveFailed A m w e v
  | stranded {e : Err} {v : World} (h : Stranded m w e v) : RelieveFailed A m w e v
  | late {v z : World} (open_ : w.db.closed = false)
      (rewritten : Rewritten A (some w.db.nextGen) w (relieveStep w.db.nextGen w)
        (compactCell w.db) z)
      (disk : OnDisk m.cutOff z) (flight : InFlight z) (fail : ∃ k, A (.fail k)) {bs : BlobStore}
      (relieve : z.db.relieve = some bs) (gen : bs.gen = w.db.nextGen)
      (given : ∃ c, v = { (z.abandon bs).unlinked bs.gen with
          db := { (z.abandon bs).db with compacting := c } } ∨
        v = { z.abandon bs with db := { (z.abandon bs).db with compacting := c } }) :
      RelieveFailed A m w .io v

/-- A generation given up before the rename leaves nothing but perhaps its file. -/
theorem Aside.abandoned {bs : BlobStore} (hz : Aside (some bs.gen) w z)
    (hfresh : FreshGen (some bs.gen) w.dir) (hw : InStore w) :
    Strayed (some bs.gen) w (z.abandon bs) ∧ Strayed none w ((z.abandon bs).unlinked bs.gen) := by
  obtain ⟨c, r, hdb⟩ := hz.db
  have hstore : z.db.blobStore bs.gen = none := by
    rw [hdb]
    refine (hw.store bs.gen).trans (if_neg ?_)
    rw [(hfresh bs.gen rfl).2]
    rintro ⟨_, ⟨⟩⟩
  have habandon : z.abandon bs = { z with db := { z.db with relieve := none } } := by
    rw [World.abandon, hstore]
  have hdb' : ∃ c r, (z.abandon bs).db = { w.db with compacting := c, relieve := r } := by
    rw [habandon, hdb]
    exact ⟨c, none, rfl⟩
  have hdir : (z.abandon bs).dir = z.dir := rfl
  refine ⟨⟨hz.main, hz.hint, hz.schema, hz.beside, hdb', hz.inode, hz.hintInode, hz.now, hz.acked⟩,
    ⟨hz.main, hz.hint, hz.schema, ⟨fun gen _ => ?_, by rintro gen ⟨⟩⟩, hdb', hz.inode,
      hz.hintInode, hz.now, hz.acked⟩⟩
  rw [World.unlinked, Dir.blob_delete, hdir]
  by_cases heq : gen = bs.gen
  · rw [if_pos heq, heq, (hfresh bs.gen rfl).2]
  · rw [if_neg heq, hz.beside.others gen (by rintro ⟨⟩; exact heq rfl)]

/-- When the number of the new generation wraps, that is never forgotten. -/
theorem openRelieve_wraps (hmax : w.db.curGen = maxInt64) :
    Spec A (fun v => v = w.gate) openRelieve (fun _ => Watched { wrapped := true })
      fun _ => Watched { wrapped := true } := by
  unfold openRelieve
  refine Spec.bind_getWorld ?_
  rintro _ rfl
  refine Spec.bind (Spec.modify (S := fun _ => Watched { wrapped := true }) ?_) fun _ =>
    Keeps.bind (openBlobs_keeps _) fun _ => Keeps.updateDB fun _ hv => hv
  rintro v rfl
  refine watched_wrapped.mpr ?_
  rw [show w.gate.db.curGen = maxInt64 from hmax]
  simp

theorem relieveBody_wraps (hmax : w.db.curGen = maxInt64) :
    Spec A (fun v => v = w.gate)
      (do openRelieve
          onError (rewriteBody relieveTransform) abandonRelieve
          updateDB fun db => { db with relieve := none })
      (fun _ => Watched { wrapped := true }) fun _ => Watched { wrapped := true } :=
  Spec.bind (openRelieve_wraps hmax) fun _ =>
    Keeps.bind (Keeps.onError (rewriteBody_keeps relieveTransform_keeps) abandonRelieve_keeps)
      fun _ => Keeps.updateDB fun _ hv => hv

/-- `BlobsRelieve` behind the gate. -/
theorem relieveBody_spec (h : Sound m w) (hopen : w.db.closed = false)
    (hmax : w.db.curGen ≠ maxInt64) :
    Spec A (fun v => v = w.gate)
      (do openRelieve
          onError (rewriteBody relieveTransform) abandonRelieve
          updateDB fun db => { db with relieve := none })
      (fun _ => Unless fun v => OnDisk m v ∧ InFlight v ∧ FreshHint v ∧ v.db.relieve = none ∧
        Rewritten A (some w.db.nextGen) w (relieveStep w.db.nextGen w) (compactCell w.db) v)
      (fun e => Unless (RelieveFailed A m w e)) := by
  have hstore := h.2.2 hopen
  have hnext := nextGen_fresh hstore hmax
  have hfresh : FreshGen (some w.db.nextGen) w.dir := by
    rintro _ ⟨⟩
    exact ⟨hnext.1, hstore.highest _ hnext.2⟩
  refine Spec.bind ((openRelieve_spec h hopen hmax).errors ?_) fun _ => Spec.of_world ?_
  · rintro e v ⟨hstray, hrelieve, he, hgone⟩ _
    cases hfatal : e.fatal with
    | false => exact .early hopen hstray hrelieve (hgone hfatal) hfatal
    | true =>
        rw [Err.crash_of_fatal hfatal he.ne_panic]
        exact .stranded (.crash (hstray.onDisk hfresh h.1).1.cutOff)
  rintro x ⟨hx, hready, hbytes⟩
  refine Spec.bind (Spec.onError (rewriteBody_spec (rewrites_relieve A hstore.serving hfresh) h
    hopen hfresh (preserves_compact w.db) hx hready hbytes) ?_ ?_) fun _ => Spec.updateDB ?_
  · intro e hfatal
    refine Spec.unless abandonRelieve_keeps ?_
    intro z _ hz
    cases hz with
    | early hz hpanic =>
        obtain ⟨bs, hbs, hgen⟩ := Option.map_eq_some_iff.mp hz.relieve
        rw [← hgen] at hz hfresh
        obtain ⟨hkept, hgone⟩ := hz.abandoned hfresh hstore
        refine (abandonRelieve_cases A hbs).post ?_ ?_
        · rintro _ v (⟨hclosed, rfl⟩ | ⟨_, rfl | ⟨rfl, hfail⟩⟩) _
          · obtain ⟨c, r, hdb⟩ := hz.db
            rw [hdb] at hclosed
            exact absurd (hopen.symm.trans hclosed) (by decide)
          · exact .early hopen (hgone.weaken h.1.1.log.sized _) rfl (Or.inl hgone) hfatal
          · exact .early hopen (hgen ▸ hkept) rfl (Or.inr hfail) hfatal
        · rintro e v ⟨rfl, rfl⟩ _
          exact .stranded (.crash (hkept.onDisk hfresh h.1).1.cutOff)
    | stranded hs =>
        cases hs with
        | crash _ => cases hfatal
        | disabled hdisk hclosed hjob hschema hnow hsurvives =>
            refine (abandonRelieve_closed hclosed).post ?_ fun _ _ hv => hv.elim
            rintro _ v rfl _
            exact .stranded (.disabled hdisk hclosed hjob hschema hnow hsurvives)
    | late hz hrelieve hdisk hflight hfail =>
        obtain ⟨bs, hbs, hgen⟩ := Option.map_eq_some_iff.mp hrelieve
        have hzopen : z.db.closed = false := hz.recasts.closed.trans hopen
        refine (abandonRelieve_cases A hbs).post ?_ ?_
        · rintro _ v (⟨hclosed, rfl⟩ | ⟨_, rfl | ⟨rfl, _⟩⟩) _
          · exact absurd (hzopen.symm.trans hclosed) (by decide)
          · exact .late hopen hz hdisk hflight hfail hbs hgen ⟨z.db.compacting, Or.inl rfl⟩
          · exact .late hopen hz hdisk hflight hfail hbs hgen ⟨z.db.compacting, Or.inr rfl⟩
        · rintro e v ⟨rfl, rfl⟩ _
          exact .stranded (.crash hdisk)
  · intro e z hfatal hz hwrap
    cases hz hwrap with
    | early hz hpanic =>
        rw [Err.crash_of_fatal hfatal hpanic]
        exact .stranded (.crash (hz.onDisk hfresh h.1).1.cutOff)
    | stranded hs => exact .stranded hs
    | late _ _ _ _ _ => cases hfatal
  · intro z hz hwrap
    obtain ⟨hrew, _, hdisk, hflight, hhint⟩ := hz hwrap
    exact ⟨hdisk, hflight, hhint, rfl, hrew.settle z.db.compacting none⟩

/-- `BlobsRelieve` of a sound store. -/
theorem blobsRelieve_cases (h : Sound m w) :
    Spec A (fun v => v = w) blobsRelieve
      (fun _ => Unless fun v => w.db.closed = false ∧ w.db.curGen ≠ maxInt64 ∧ OnDisk m v ∧
        InFlight v ∧ FreshHint v ∧ v.db.relieve = none ∧
        Rewritten A (some w.db.nextGen) w (relieveStep w.db.nextGen w) (compactCell w.db) v)
      (fun e => Unless (RelieveFailed A m w e)) := by
  unfold blobsRelieve gated
  refine Spec.bind ((raiseGate_cases A w).errors ?_) fun _ => Spec.of_world ?_
  · rintro e v ⟨rfl, rfl, hclosed⟩ _
    exact .closed hclosed
  rintro _ ⟨rfl, hopen⟩
  by_cases hmax : w.db.curGen = maxInt64
  · have hwrapped := fun (Q : World → Prop) v (hv : Watched { wrapped := true } v) =>
      (show Unless Q v from fun hwrap => absurd ((watched_wrapped.mp hv).symm.trans hwrap)
        (by decide))
    exact (Spec.bind (Spec.onError (relieveBody_wraps hmax)
      (fun _ _ => Keeps.updateDB fun _ hv => hv) fun _ _ _ hv => hv) fun _ =>
      Keeps.updateDB fun _ hv => hv).post
      (fun _ v hv => hwrapped _ v hv) fun _ v hv => hwrapped _ v hv
  · refine Spec.bind (Spec.onError (relieveBody_spec h hopen hmax)
      (fun e hfatal => Spec.updateDB fun z hz hwrap => ?_) fun e z hfatal hz hwrap => ?_) fun _ =>
      Spec.updateDB fun z hz hwrap => ?_
    · cases hz hwrap with
      | closed hclosed => exact absurd (hopen.symm.trans hclosed) (by decide)
      | early hopen hstray hrelieve hgone hfatal =>
          refine .early hopen (hstray.settle false z.db.relieve) hrelieve ?_ hfatal
          exact hgone.imp_left fun hgone => hgone.settle false z.db.relieve
      | stranded hs => exact .stranded (hs.settle false z.db.relieve)
      | late hopen hrew hdisk hflight hfail hbs hgen hgiven =>
          obtain ⟨c, rfl | rfl⟩ := hgiven
          · exact .late hopen hrew hdisk hflight hfail hbs hgen ⟨false, Or.inl rfl⟩
          · exact .late hopen hrew hdisk hflight hfail hbs hgen ⟨false, Or.inr rfl⟩
    · exact hz hwrap
    · obtain ⟨hdisk, hflight, hhint, hrelieve, hrew⟩ := hz hwrap
      exact ⟨hopen, hmax, hdisk, hflight, hhint, hrelieve, hrew.settle false z.db.relieve⟩

end NteeDb.Core
