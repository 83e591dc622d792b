import NteeDb.Invariants.Checkpoints

/-!
# The mutations of a sound store

`PutIndexed`, `Delete`, `PutBatch`, the range deletes and the reaper, when no file step is
refused: the store stays sound, and what the operation does to the indexes and to the
contents of the log is told by a function of them.
-/

namespace NteeDb.Core

open NteeDb.Verified
open Faults Lines OrderedTree JsonCodec

variable {A : Answer → Prop} {m : Mode} {w : World}

/-! ## Snapshots -/

/-- A snapshot of a sound store. -/
theorem Sound.snapshot (h : Sound m w) (hopen : w.db.closed = false) (n : Int64) (gen : Int64) :
    Sound m { w with db := { w.db with
      job := some { pk := w.db.idx.pk, covers := w.db.size, gen := w.db.hintGen,
                    handles := w.db.handles, blobGen := gen }
      writes := n } } := by
  have hstore := h.2.2 hopen
  refine ⟨h.1, fun j hj => ?_, fun _ => hstore⟩
  cases hj
  refine ⟨le_refl _, le_of_eq hstore.handles_eq, fun _ => hstore.handles_eq, hstore.mirrors.scalar,
    fun _ => ?_⟩
  have hcovers : w.db.size = Int64.ofNat (joinLines w.dir.log).length := by
    rw [hstore.size_eq, fileSize, ← h.1.1.log.main]
  show HintOf w.dir.log _ w.db.size
  rw [hcovers]
  exact HintOf.all hstore.mirrors

theorem Sound.maybeSnapshot (h : Sound m w) (hopen : w.db.closed = false) :
    Sound m { w with db := w.db.maybeSnapshot } ∧ Frame w { w with db := w.db.maybeSnapshot } ∧
      SameContents w { w with db := w.db.maybeSnapshot } := by
  rw [DB.maybeSnapshot]
  split
  · exact ⟨h, Frame.refl w, rfl, rfl⟩
  · exact ⟨h.snapshot hopen 0 w.db.curGen, ⟨rfl, rfl, rfl, rfl, rfl, rfl, rfl, rfl⟩, rfl, rfl⟩

/-- Counting the writes and taking a snapshot leave what follows of the contents. -/
theorem countAndHint_spec (h : Sound m w) (hopen : w.db.closed = false) (n : Nat) :
    Spec A (fun v => v = w) (do countWrites n; maybeWriteHint)
      (fun _ v => Sound m v ∧ Frame w v ∧ SameContents w v) (fun _ _ => False) := by
  refine Spec.bind (Spec.updateDB (Q := fun _ v => v = { w with
    db := { w.db with writes := w.db.writes + Int64.ofNat n } }) ?_) fun _ => Spec.updateDB ?_
  · rintro v rfl
    rfl
  · rintro v rfl
    have hcounted : Sound m { w with
        db := { w.db with writes := w.db.writes + Int64.ofNat n } } := h
    obtain ⟨hsound, hframe, hsame⟩ := hcounted.maybeSnapshot hopen
    exact ⟨hsound, ⟨hframe.opts, hframe.closed, hframe.now, hframe.inode, hframe.curGen,
      hframe.schema, hframe.prospective, hframe.dropped⟩, hsame.idx, hsame.cells⟩

/-! ## The checks of a write -/

theorem requireOpen_cases (A : Answer → Prop) (w : World) :
    Spec A (fun v => v = w) requireOpen (fun _ v => v = w ∧ w.db.closed = false)
      (fun e v => v = w ∧ e = .closed ∧ w.db.closed = true) := by
  unfold requireOpen
  refine Spec.bind_getWorld ?_
  rintro w rfl
  exact Spec.require (fun v hv hopen => ⟨hv, by simpa using hopen⟩)
    fun v hv hclosed => ⟨hv, rfl, by simpa using hclosed⟩

/-- After the check the store is open. -/
theorem Spec.bind_requireOpen {α : Type} {A : Answer → Prop} {w : World} {f : Unit → StoreM α}
    {Q : α → World → Prop} {E : Err → World → Prop}
    (hclosed : w.db.closed = true → E .closed w)
    (hopen : w.db.closed = false → Spec A (fun v => v = w) (f ()) Q E) :
    Spec A (fun v => v = w) (requireOpen >>= f) Q E := by
  refine Spec.bind ((requireOpen_cases A w).errors ?_) fun _ => Spec.of_world ?_
  · rintro e v ⟨rfl, rfl, h⟩
    exact hclosed h
  · rintro v ⟨rfl, h⟩
    exact hopen h

theorem resolveTTL_error {now : Millis} {ttl : List Int64} {e : Err}
    (h : resolveTTL now ttl = .error e) : e = .invalidTTL := by
  unfold resolveTTL at h
  split at h
  · cases h
  · split at h
    · cases h
      rfl
    · cases h
  · cases h
    rfl

theorem makeEntry_ne_panic {si : SecIndex} {val : AnyValue} {pk : Bytes} :
    si.makeEntry val pk ≠ .error .panic := by
  rw [SecIndex.makeEntry]
  split
  · split <;> rintro ⟨⟩
  · split <;> rintro ⟨⟩

/-- The loops over index values panic only for an index without a tree. -/
theorem collect_ne_panic {α : Type} {secs : SecIndexes} {key : Bytes} {name : α → Bytes}
    {val : α → Option AnyValue → Option AnyValue} {missing : α → Err} {items : List α}
    {out : AnyMap} (h : ∀ a ∈ items, secs.get (name a) = none → missing a ≠ .panic) :
    collect secs key name val missing items out ≠ .error .panic := by
  induction items generalizing out with
  | nil => rintro ⟨⟩
  | cons a rest ih =>
      rw [List.forall_mem_cons] at h
      unfold collect
      split
      · exact ih h.2
      · split
        · next hnone => exact fun heq => h.1 hnone (Except.error.inj heq)
        · split
          · next e he =>
              rintro ⟨⟩
              exact makeEntry_ne_panic he
          · exact ih h.2

theorem addExplicit_ne_panic {secs : SecIndexes} {key : Bytes} {items : List (Bytes × AnyValue)}
    {out : AnyMap} : addExplicit secs key items out ≠ .error .panic := by
  rw [addExplicit_eq]
  exact collect_ne_panic fun _ _ _ => by rintro ⟨⟩

/-- Every declared index has its tree. -/
theorem Indexes.InStep.get {ix : Indexes} {defs : List IndexDef} (h : ix.InStep defs) {d : IndexDef}
    (hd : d ∈ defs) : ∃ si, ix.secs.get d.name = some si ∧ si.kind = d.kind ∧
      si.max = d.maxPerValue := by
  have hmem : (newSecIndex d).decl ∈ ix.secs.decls := by
    rw [h.declared]
    exact List.mem_map.mpr ⟨d, hd, rfl⟩
  obtain ⟨si, hsi, hdecl⟩ := List.mem_map.mp hmem
  exact ⟨si, SecIndexes.get_eq_some.mpr ⟨hsi, congrArg Decl.name hdecl⟩, congrArg Decl.kind hdecl,
    congrArg Decl.max hdecl⟩

theorem Indexes.InStep.get_ne_none {ix : Indexes} {all : List IndexDef} (h : ix.InStep all)
    {d : IndexDef} (hd : d ∈ all) : ix.secs.get d.name ≠ none := by
  obtain ⟨si, hsi, _⟩ := h.get hd
  rw [hsi]
  rintro ⟨⟩

theorem addExtracted_ne_panic {ix : Indexes} {defs : List IndexDef} (h : ix.InStep defs)
    {key value : Bytes} {out : AnyMap} :
    addExtracted ix.secs key value defs out ≠ .error .panic := by
  rw [addExtracted_eq]
  exact collect_ne_panic fun d hd hnone => absurd hnone (h.get_ne_none hd)

theorem buildIndexValues_ne_panic {db : DB} (h : db.idx.InStep db.opts.indexes) {ord : MapOrder}
    {key value : Bytes} {explicit : AnyMap} :
    db.buildIndexValues ord key value explicit ≠ .error .panic := by
  rw [DB.buildIndexValues]
  split
  · rintro ⟨⟩
  · split
    · cases hexp : addExplicit db.idx.secs key (ord.items explicit) Tree.empty with
      | error e =>
          rintro ⟨⟩
          exact addExplicit_ne_panic hexp
      | ok out => exact addExtracted_ne_panic h
    · split <;> rintro ⟨⟩

theorem checkSelfEvictionOf_error {secs : SecIndexes} {key : Bytes}
    {items : List (Bytes × AnyValue)} {e : Err}
    (h : checkSelfEvictionOf secs key items = .error e) :
    ∃ nv ∈ items, ∃ si, secs.get nv.1 = some si ∧ si.wouldSelfEvict nv.2 key = .ok true ∧
      e = .selfEviction key nv.1 si.max := by
  induction items with
  | nil => cases h
  | cons item rest ih =>
      rw [List.exists_mem_cons_iff]
      unfold checkSelfEvictionOf at h
      split at h
      · exact .inr (ih h)
      · next si hsi =>
          split at h
          · next htrue =>
              cases h
              exact .inl ⟨si, hsi, htrue, rfl⟩
          · exact .inr (ih h)

/-! ## Put -/

/-- A write has been checked. -/
structure Checked (w : World) (ord : MapOrder) (key value : Bytes) (explicit ix : AnyMap) :
    Prop where
  built : w.db.buildIndexValues ord key value explicit = .ok ix
  kept : w.db.checkSelfEviction ord key ix = .ok ()

/-- What a write leaves: the record is written, then the evictions are made. -/
structure PutDone (w v : World) (ord : MapOrder) (key value : Bytes) (ix : AnyMap) (exp : Int64) :
    Prop where
  idx : ∃ off n, v.db.idx
    = (w.db.idx.put { key := key, off := off, n := n, exp := exp } ix).enforce (ord.items ix)
  cells : ∀ k, v.dir.cells k = Function.update w.dir.cells key
      (some ⟨value, exp, false, ix.readBack, w.db.useBlobFor value.length⟩) k ∨ v.dir.cells k = none
  storable : Storable ix

theorem Storable.encodable {ix : AnyMap} (h : Storable ix) : AnyMap.Encodable ix := by
  obtain ⟨js, hjs, _⟩ := AnyMap.decode_encode h.scalar
  exact AnyMap.encodable_of_encodeMembers hjs

/-- Why a write was not made, other than for a file step that was not carried out. -/
inductive Rejected (w : World) (ord : MapOrder) (key value : Bytes) (explicit : AnyMap) : Err → Prop
  | build {e : Err} (h : w.db.buildIndexValues ord key value explicit = .error e) :
      Rejected w ord key value explicit e
  | selfEviction {ix : AnyMap} {e : Err} (hbuilt : w.db.buildIndexValues ord key value explicit
      = .ok ix)
      (h : w.db.checkSelfEviction ord key ix = .error e) : Rejected w ord key value explicit e
  | marshal {ix : AnyMap} (hchecked : Checked w ord key value explicit ix) (h : ¬ ix.Scalar) :
      Rejected w ord key value explicit .marshal

/-- `write` of a sound store. -/
theorem write_spec (hA : ∀ k, ¬ A (.fail k)) (h : Sound m w) (hopen : w.db.closed = false)
    (ord : MapOrder) {key : Bytes} (hkey : Utf8.valid key = true) (value : Bytes)
    {explicit : AnyMap} (hexp : CarriedMap explicit) (exp : Int64) :
    Spec A (fun v => v = w) (write ord key value explicit exp)
      (fun _ => Unless fun v => Sound m v ∧ Frame w v ∧ ∃ ix, Checked w ord key value explicit ix ∧
        PutDone w v ord key value ix exp)
      (fun e => Unless fun v => Failed m e v ∧
        ((e = .io ∨ e = .crash) ∨ Rejected w ord key value explicit e)) := by
  have hstore := h.2.2 hopen
  unfold write
  refine Spec.bind_getWorld ?_
  rintro w rfl
  refine Spec.bind_ofExcept ?_ fun ix hix => ?_
  · rintro e v he rfl _
    exact ⟨h.failed fun hpanic => buildIndexValues_ne_panic hstore.inStep (hpanic ▸ he),
      Or.inr (.build he)⟩
  refine Spec.bind_ofExcept ?_ fun _ hkept => ?_
  · rintro e v he rfl _
    have hrejected : Rejected v ord key value explicit e := .selfEviction hix he
    obtain ⟨_, _, _, _, _, rfl⟩ := checkSelfEvictionOf_error he
    exact ⟨h.failed (by rintro ⟨⟩), Or.inr hrejected⟩
  have hchecked : Checked w ord key value explicit ix := ⟨hix, hkept⟩
  have hacc : AcceptedMap w.db.idx.secs ix := fun nv hnv =>
    (buildIndexValues_mem hchecked.built nv hnv).2
  refine Spec.bind ((appendRecord_spec hA h hopen hkey value hacc
    (carried_buildIndexValues hstore.carried hkey hexp hchecked.built) exp
    w.db.opts.syncEveryWrite false).errors
    fun e v hv hwrap => ?_) fun _ => ?_
  · obtain ⟨hfailed, hio | ⟨rfl, hscalar⟩⟩ := hv hwrap
    · exact ⟨hfailed, Or.inl hio⟩
    · exact ⟨hfailed, Or.inr (.marshal hchecked hscalar)⟩
  refine Spec.bind (Q := fun _ => Unless fun v => Sound m v ∧ Frame w v ∧
    PutDone w v ord key value ix exp) ?_ fun _ => ?_
  · refine Spec.unless (Keeps.forEach enforceOne_keeps _) ?_
    rintro u _ ⟨hu, hframe, hwrote⟩
    refine (enforceMaxPerValue_spec hA hu (hframe.closed.trans hopen) ord
      hwrote.storable.encodable).post (fun _ v hv hwrap => ?_)
      fun e v hv hwrap => ⟨(hv hwrap).1, Or.inl (hv hwrap).2⟩
    obtain ⟨hv, hframe', hidx, hshrinks⟩ := hv hwrap
    obtain ⟨off, n, hput⟩ := hwrote.idx
    refine ⟨hv, hframe.trans hframe', ⟨off, n, by rw [hidx, hput]⟩, fun k => ?_, hwrote.storable⟩
    have hk := hshrinks k
    rwa [hwrote.cells] at hk
  · refine Spec.unless (Keeps.bind (countWrites_keeps 1) fun _ => maybeWriteHint_keeps) ?_
    rintro u _ ⟨hu, hframe, hdone⟩
    refine (countAndHint_spec hu (hframe.closed.trans hopen) 1).post
      (fun _ v hv _ => ?_) fun _ _ hv => hv.elim
    obtain ⟨hv, hframe', hsame⟩ := hv
    refine ⟨hv, hframe.trans hframe', ix, hchecked, ?_, fun k => ?_, hdone.storable⟩
    · rw [hsame.idx]
      exact hdone.idx
    · rw [hsame.cells]
      exact hdone.cells k

/-- `PutIndexed` of a sound store. -/
theorem putIndexed_spec (hA : ∀ k, ¬ A (.fail k)) (h : Sound m w) (ord : MapOrder) {key : Bytes}
    (hkey : Utf8.valid key = true) (value : Bytes) {explicit : AnyMap} (hexp : CarriedMap explicit)
    (ttl : List Int64) :
    Spec A (fun v => v = w) (putIndexed ord key value explicit ttl)
      (fun _ => Unless fun v => Sound m v ∧ Frame w v ∧ w.db.closed = false ∧
        ∃ exp ix, resolveTTL w.now ttl = .ok exp ∧ Checked w ord key value explicit ix ∧
          PutDone w v ord key value ix exp)
      (fun e => Unless fun v => Failed m e v ∧ ((e = .io ∨ e = .crash) ∨
        resolveTTL w.now ttl = .error e ∨ e = .closed ∧ w.db.closed = true ∨
        Rejected w ord key value explicit e)) := by
  unfold putIndexed
  refine Spec.bind_getWorld ?_
  rintro w rfl
  refine Spec.bind_ofExcept ?_ fun exp httl => ?_
  · rintro e v he rfl _
    refine ⟨h.failed ?_, Or.inr (Or.inl he)⟩
    rw [resolveTTL_error he]
    rintro ⟨⟩
  refine Spec.bind_requireOpen (fun hclosed _ => ?_) fun hopen => ?_
  · exact ⟨h.failed (by rintro ⟨⟩), Or.inr (Or.inr (Or.inl ⟨rfl, hclosed⟩))⟩
  · refine (write_spec hA h hopen ord hkey value hexp exp).post
      (fun _ v hv hwrap => ?_) fun e v hv hwrap =>
        ⟨(hv hwrap).1, (hv hwrap).2.imp_right fun hrej => Or.inr (Or.inr hrej)⟩
    obtain ⟨hv, hframe, ix, hchecked, hdone⟩ := hv hwrap
    exact ⟨hv, hframe, hopen, exp, ix, httl, hchecked, hdone⟩

/-! ## Delete -/

/-- A cell that is not there cannot be deleted. -/
theorem update_none_of_absent (h : Sound m w) (hopen : w.db.closed = false) {key : Bytes}
    (habsent : w.db.idx.pk.get key = none) :
    Function.update w.dir.cells key none = w.dir.cells := by
  exact Function.update_eq_self_iff.mpr ((h.2.2 hopen).mirrors.cells_of_none habsent).symm

/-- The key of an entry is valid. -/
theorem Sound.valid_key (h : Sound m w) (hopen : w.db.closed = false) {key : Bytes} {e : PkEntry}
    (he : w.db.idx.pk.get key = some e) : Utf8.valid key = true := by
  obtain ⟨hmem, rfl⟩ := PkIndex.get_eq_some.mp he
  exact (h.2.2 hopen).mirrors.key e hmem

theorem maybeWriteHint_spec (h : Sound m w) (hopen : w.db.closed = false) :
    Spec A (fun v => v = w) maybeWriteHint
      (fun _ v => Sound m v ∧ Frame w v ∧ SameContents w v) (fun _ _ => False) := by
  refine Spec.updateDB ?_
  rintro v rfl
  exact h.maybeSnapshot hopen

/-- `Delete` of a sound store. -/
theorem delete_spec (hA : ∀ k, ¬ A (.fail k)) (h : Sound m w) (key : Bytes) :
    Spec A (fun v => v = w) (delete key)
      (fun _ => Unless fun v => Sound m v ∧ Frame w v ∧ w.db.closed = false ∧
        (v.db.idx = w.db.idx ∨ v.db.idx = w.db.idx.delete key) ∧
        v.dir.cells = Function.update w.dir.cells key none)
      (fun e => Unless (Failed m e)) := by
  unfold delete
  refine Spec.bind_requireOpen (fun _ _ => h.failed (by rintro ⟨⟩)) fun hopen => ?_
  refine Spec.bind_getWorld ?_
  rintro w rfl
  cases hget : w.db.idx.pk.get key with
  | none =>
      refine Spec.pure ?_
      rintro v rfl _
      exact ⟨h, Frame.refl v, hopen, Or.inl rfl, (update_none_of_absent h hopen hget).symm⟩
  | some e =>
      refine Spec.bind ((deleteLocked_spec hA h hopen (h.valid_key hopen hget)).errors
        fun _ _ hv hwrap => (hv hwrap).1) fun _ => ?_
      refine Spec.unless maybeWriteHint_keeps ?_
      rintro u _ ⟨hu, hframe, hidx, hcells⟩
      refine (maybeWriteHint_spec hu (hframe.closed.trans hopen)).post
        (fun _ v hv _ => ?_) fun _ _ hv => hv.elim
      obtain ⟨hv, hframe', hsame⟩ := hv
      exact ⟨hv, hframe.trans hframe', hopen, Or.inr (hsame.idx.trans hidx),
        hsame.cells.trans hcells⟩

/-! ## PutBatch -/

/-- The indexes once the items of a batch have been written, each at some place. -/
inductive PutItems : List CheckedItem → Indexes → Indexes → Prop
  | nil (ix : Indexes) : PutItems [] ix ix
  | cons {c : CheckedItem} {cs : List CheckedItem} {ix ix' : Indexes} {off : Int64} {n : Int32}
      (h : PutItems cs (ix.put { key := c.item.key, off := off, n := n, exp := c.exp } c.ix) ix') :
      PutItems (c :: cs) ix ix'

/-- What the log holds once the items of a batch have been written. -/
def DB.putCells (db : DB) (cells : Bytes → Option Cell) (cs : List CheckedItem) :
    Bytes → Option Cell :=
  cs.foldl (fun cells c => Function.update cells c.item.key
    (some ⟨c.item.value, c.exp, false, c.ix.readBack, db.useBlobFor c.item.value.length⟩)) cells

/-- The evictions for one index value, unless they were made. -/
def Indexes.enforceSeen (st : Indexes × List Bytes) (nv : Bytes × AnyValue) :
    Indexes × List Bytes :=
  if st.2.contains (nv.1 ++ 0 :: sprint nv.2) then st
  else (st.1.enforceOne nv, st.2 ++ [nv.1 ++ 0 :: sprint nv.2])

/-- The indexes after the enforcement pass of a batch. -/
def Indexes.enforceItems (ords : Nat → MapOrder) :
    Nat → List CheckedItem → Indexes × List Bytes → Indexes
  | _, [], st => st.1
  | i, c :: rest, st =>
      Indexes.enforceItems ords (i + 1) rest (((ords i).items c.ix).foldl Indexes.enforceSeen st)

theorem Frame.useBlobFor {v : World} (h : Frame w v) (n : Nat) :
    v.db.useBlobFor n = w.db.useBlobFor n := by
  rw [DB.useBlobFor, DB.useBlobFor, h.opts]

theorem Frame.putCells {v : World} (h : Frame w v) (cells : Bytes → Option Cell)
    (cs : List CheckedItem) : v.db.putCells cells cs = w.db.putCells cells cs := by
  simp only [DB.putCells, h.useBlobFor]

theorem asBatchItem_spec {α : Type} {P : World → Prop} {c : StoreM α} {Q : α → World → Prop}
    (i : Nat) (key : Bytes) (hc : Spec A P c (fun a => Unless (Q a)) fun e => Unless (Failed m e)) :
    Spec A P (asBatchItem i key c) (fun a => Unless (Q a)) fun e => Unless (Failed m e) := by
  unfold asBatchItem
  refine Spec.bind_attempt hc (fun _ => Spec.pure fun _ hv => hv) fun e =>
    Spec.fail fun v hv hwrap => ?_
  have hv := hv hwrap
  cases hfatal : e.fatal with
  | true => exact hv
  | false => exact ⟨by rintro ⟨⟩, by rintro ⟨⟩, fun _ hio => hv.sound hfatal hio⟩

theorem appendItems_spec (hA : ∀ k, ¬ A (.fail k)) {secs : SecIndexes} (cs : List CheckedItem) :
    ∀ (i : Nat) {w : World}, Sound m w → w.db.closed = false →
    (∀ c ∈ cs, Utf8.valid c.item.key = true ∧ AcceptedMap secs c.ix ∧ CarriedMap c.ix) →
    Spec A (fun v => v = w) (appendItems i cs)
      (fun _ => Unless fun v => Sound m v ∧ Frame w v ∧ PutItems cs w.db.idx v.db.idx ∧
        v.dir.cells = w.db.putCells w.dir.cells cs ∧ ∀ c ∈ cs, Storable c.ix)
      (fun e => Unless (Failed m e)) := by
  induction cs with
  | nil =>
      intro i w h _ _
      refine Spec.pure ?_
      rintro v rfl _
      exact ⟨h, Frame.refl v, .nil _, rfl, by simp⟩
  | cons c cs ih =>
      intro i w h hopen hcs
      rw [List.forall_mem_cons] at hcs
      obtain ⟨⟨hkey, hacc, hcar⟩, hcs⟩ := hcs
      refine Spec.bind (asBatchItem_spec i c.item.key
        ((appendRecord_spec hA h hopen hkey c.item.value hacc hcar c.exp false false).errors
          fun _ _ hv hwrap => (hv hwrap).1)) fun _ => ?_
      refine Spec.unless (appendItems_keeps (i + 1) cs) ?_
      rintro u _ ⟨hu, hframe, hwrote⟩
      refine (ih (i + 1) hu (hframe.closed.trans hopen) hcs).post
        (fun _ v hv hwrap => ?_) fun _ _ hv => hv
      obtain ⟨hv, hframe', hitems, hcells, hstorable⟩ := hv hwrap
      obtain ⟨off, n, hput⟩ := hwrote.idx
      refine ⟨hv, hframe.trans hframe', .cons (hput ▸ hitems), ?_,
        List.forall_mem_cons.mpr ⟨hwrote.storable, hstorable⟩⟩
      rw [hcells, hframe.putCells, hwrote.cells]
      rfl

theorem enforceSeen_spec (hA : ∀ k, ¬ A (.fail k)) (h : Sound m w) (hopen : w.db.closed = false)
    (seen : List Bytes) {nv : Bytes × AnyValue} (henc : nv.2.encode ≠ none) :
    Spec A (fun v => v = w) (enforceSeen seen nv)
      (fun seen' => Unless fun v => Sound m v ∧ Frame w v ∧
        (v.db.idx, seen') = Indexes.enforceSeen (w.db.idx, seen) nv ∧ Shrinks w v)
      (fun e => Unless (Failed m e)) := by
  unfold enforceSeen Indexes.enforceSeen
  refine Spec.ite (fun hseen => ?_) fun hseen => ?_
  · refine Spec.pure ?_
    rintro v rfl _
    exact ⟨h, Frame.refl v, (if_pos hseen).symm, Shrinks.refl v⟩
  · refine Spec.bind ((enforceOne_spec hA h hopen henc).errors fun _ _ hv hwrap => (hv hwrap).1)
      fun _ => Spec.pure fun v hv hwrap => ?_
    obtain ⟨hv, hframe, hidx, hshrinks⟩ := hv hwrap
    refine ⟨hv, hframe, ?_, hshrinks⟩
    rw [hidx]
    exact (if_neg hseen).symm

theorem enforceSeen_keeps {k : Watch} (seen : List Bytes) (nv : Bytes × AnyValue) :
    Keeps A (Watched k) (enforceSeen seen nv) :=
  Keeps.ite (fun _ => Keeps.pure _) fun _ =>
    Keeps.bind (enforceOne_keeps nv) fun _ => Keeps.pure _

theorem enforceItems_spec (hA : ∀ k, ¬ A (.fail k)) (ords : Nat → MapOrder)
    (cs : List CheckedItem) :
    ∀ (i : Nat) (seen : List Bytes) {w : World}, Sound m w → w.db.closed = false →
    (∀ c ∈ cs, Storable c.ix) →
    Spec A (fun v => v = w) (enforceItems ords i cs seen)
      (fun _ => Unless fun v => Sound m v ∧ Frame w v ∧
        v.db.idx = Indexes.enforceItems ords i cs (w.db.idx, seen) ∧ Shrinks w v)
      (fun e => Unless (Failed m e)) := by
  induction cs with
  | nil =>
      intro i seen w h _ _
      refine Spec.pure ?_
      rintro v rfl _
      exact ⟨h, Frame.refl v, rfl, Shrinks.refl v⟩
  | cons c cs ih =>
      intro i seen w h hopen hcs
      rw [List.forall_mem_cons] at hcs
      -- the pairs of this item still to come, enforced from here, give its final state
      refine Spec.bind (Q := fun seen' => Unless fun v => Sound m v ∧ Frame w v ∧
        (v.db.idx, seen')
          = ((ords i).items c.ix).foldl Indexes.enforceSeen (w.db.idx, seen) ∧ Shrinks w v) ?_
        fun seen' => ?_
      · refine (Spec.foldEach (I := fun rest seen' => Unless fun v => Sound m v ∧ Frame w v ∧
          rest.foldl Indexes.enforceSeen (v.db.idx, seen')
            = ((ords i).items c.ix).foldl Indexes.enforceSeen (w.db.idx, seen) ∧ Shrinks w v ∧
          ∀ nv ∈ rest, nv.2.encode ≠ none) ?_ ((ords i).items c.ix) seen).conseq ?_ ?_
          fun _ _ hv => hv
        · intro nv rest seen'
          refine Spec.unless (enforceSeen_keeps seen' nv) ?_
          rintro u _ ⟨hu, hframe, hidx, hshrinks, hall⟩
          rw [List.forall_mem_cons] at hall
          refine (enforceSeen_spec hA hu (hframe.closed.trans hopen) seen' hall.1).post
            (fun _ v hv hwrap => ?_) fun _ _ hv => hv
          obtain ⟨hv, hframe', hone, hshrinks'⟩ := hv hwrap
          refine ⟨hv, hframe.trans hframe', ?_, hshrinks.trans hshrinks', hall.2⟩
          rw [hone]
          exact hidx
        · rintro v rfl _
          refine ⟨h, Frame.refl v, rfl, Shrinks.refl v, fun nv hnv => ?_⟩
          exact hcs.1.encodable nv (((ords i).perm c.ix).mem_iff.mp hnv)
        · intro seen' v hv hwrap
          obtain ⟨hv, hframe, hidx, hshrinks, _⟩ := hv hwrap
          exact ⟨hv, hframe, hidx, hshrinks⟩
      · refine Spec.unless (enforceItems_keeps ords (i + 1) cs seen') ?_
        rintro u _ ⟨hu, hframe, hidx, hshrinks⟩
        refine (ih (i + 1) seen' hu (hframe.closed.trans hopen) hcs.2).post
          (fun _ v hv hwrap => ?_) fun _ _ hv => hv
        obtain ⟨hv, hframe', hrest, hshrinks'⟩ := hv hwrap
        refine ⟨hv, hframe.trans hframe', ?_, hshrinks.trans hshrinks'⟩
        rw [hrest, hidx]
        rfl

/-- What a batch leaves: all items are written, then the evictions are made. -/
structure BatchDone (w v : World) (ords : Nat → MapOrder) (cs : List CheckedItem) : Prop where
  idx : ∃ mid, PutItems cs w.db.idx mid ∧ v.db.idx = Indexes.enforceItems ords 0 cs (mid, [])
  cells : ∀ k, v.dir.cells k = w.db.putCells w.dir.cells cs k ∨ v.dir.cells k = none
  storable : ∀ c ∈ cs, Storable c.ix

theorem BatchDone.same {u v : World} {ords : Nat → MapOrder} {cs : List CheckedItem}
    (h : BatchDone w u ords cs) (hsame : SameContents u v) : BatchDone w v ords cs := by
  refine ⟨?_, fun k => ?_, h.storable⟩
  · rw [hsame.idx]
    exact h.idx
  · rw [hsame.cells]
    exact h.cells k

/-- The flushes at the end of a batch. -/
theorem flushBatch_spec (h : Sound m w) (sync : Bool) (gen : Int64) :
    Spec A (fun v => v = w) (doWhen sync do flushBlob gen; flushMain)
      (fun _ => Unless fun v => Sound m v ∧ Frame w v ∧ SameContents w v)
      (fun e => Unless (Failed m e)) := by
  have hdurable : ∀ s, Sound m { w with durable := s } ∧ Frame w { w with durable := s } ∧
      SameContents w { w with durable := s } :=
    fun s => ⟨h, ⟨rfl, rfl, rfl, rfl, rfl, rfl, rfl, rfl⟩, rfl, rfl⟩
  refine Spec.doWhen (fun _ => ?_) ?_
  · refine Spec.bind ((flushBlob_cases A w gen).errors ?_) fun _ => ?_
    · rintro e v ⟨rfl, he⟩ _
      exact h.failed_of_io_or_crash (io_or_crash_of_flush he)
    · refine Spec.of_world ?_
      rintro u ⟨s, rfl⟩
      refine (flushMain_cases A { w with durable := s }).post ?_ ?_
      · rintro _ v ⟨s', rfl⟩ _
        exact hdurable s'
      · rintro e v ⟨rfl, he⟩ _
        exact (hdurable s).1.failed_of_io_or_crash he.io_or_crash
  · rintro v rfl _ _
    exact hdurable v.durable

/-- `PutBatch` of a sound store. -/
theorem putBatch_spec (hA : ∀ k, ¬ A (.fail k)) (h : Sound m w) (ords : Nat → MapOrder)
    {items : List PutItem} (hitems : ∀ it ∈ items, Utf8.valid it.key = true ∧ CarriedMap it.ix) :
    Spec A (fun v => v = w) (putBatch ords items)
      (fun _ => Unless fun v => Sound m v ∧ Frame w v ∧ w.db.closed = false ∧
        ∃ cs, w.db.checkItems w.now ords 0 items = .ok cs ∧ BatchDone w v ords cs)
      (fun e => Unless (Failed m e)) := by
  unfold putBatch
  refine Spec.bind_requireOpen (fun _ _ => h.failed (by rintro ⟨⟩)) fun hopen => ?_
  refine Spec.ite (fun hnil => ?_) fun _ => ?_
  · refine Spec.pure ?_
    rintro v rfl _
    rw [hnil]
    exact ⟨h, Frame.refl v, hopen, [], rfl, ⟨_, .nil _, rfl⟩, fun _ => Or.inl rfl, by simp⟩
  refine Spec.bind_getWorld ?_
  rintro w rfl
  have hstore := h.2.2 hopen
  refine Spec.bind_ofExcept ?_ fun cs hcs => ?_
  · rintro e v he rfl _
    obtain ⟨j, key, cause, rfl⟩ := checkItems_error he
    exact h.failed (by rintro ⟨⟩)
  have hchecked : ∀ c ∈ cs, Utf8.valid c.item.key = true ∧ AcceptedMap w.db.idx.secs c.ix ∧
      CarriedMap c.ix := by
    intro c hc
    obtain ⟨hmap, hall⟩ := checkItems_ok hcs
    obtain ⟨j, hj⟩ := hall c hc
    have hmem : c.item ∈ items := hmap ▸ List.mem_map_of_mem hc
    exact ⟨(hitems _ hmem).1, checkItems_accepted hcs c hc,
      carried_buildIndexValues hstore.carried (hitems _ hmem).1 (hitems _ hmem).2
        (checkItem_ok hj).2.1⟩
  refine Spec.bind (appendItems_spec hA cs 0 h hopen hchecked) fun _ => ?_
  refine Spec.bind (Q := fun _ => Unless fun v => Sound m v ∧ Frame w v ∧
    BatchDone w v ords cs) ?_ fun _ => ?_
  · refine Spec.unless (enforceItems_keeps ords 0 cs []) ?_
    rintro u _ ⟨hu, hframe, hput, hcells, hstorable⟩
    refine (enforceItems_spec hA ords cs 0 [] hu (hframe.closed.trans hopen) hstorable).post
      (fun _ v hv hwrap => ?_) fun _ _ hv => hv
    obtain ⟨hv, hframe', hidx, hshrinks⟩ := hv hwrap
    refine ⟨hv, hframe.trans hframe', ⟨_, hput, hidx⟩, fun k => ?_, hstorable⟩
    have hk := hshrinks k
    rwa [hcells] at hk
  refine Spec.bind (Q := fun _ => Unless fun v => Sound m v ∧ Frame w v ∧
    BatchDone w v ords cs) ?_ fun _ => ?_
  · refine Spec.unless (Keeps.doWhen (Keeps.bind (flushBlob_keeps _) fun _ =>
      syncMain_keeps)) ?_
    rintro u _ ⟨hu, hframe, hdone⟩
    refine (flushBatch_spec hu _ _).post (fun _ v hv hwrap => ?_) fun _ _ hv => hv
    obtain ⟨hv, hframe', hsame⟩ := hv hwrap
    exact ⟨hv, hframe.trans hframe', hdone.same hsame⟩
  · refine Spec.unless (Keeps.bind (countWrites_keeps _) fun _ => maybeWriteHint_keeps) ?_
    rintro u _ ⟨hu, hframe, hdone⟩
    refine (countAndHint_spec hu (hframe.closed.trans hopen) _).post
      (fun _ v hv _ => ?_) fun _ _ hv => hv.elim
    obtain ⟨hv, hframe', hsame⟩ := hv
    exact ⟨hv, hframe.trans hframe', hopen, cs, hcs, hdone.same hsame⟩

/-! ## Range deletes -/

/-- The sweep of a range delete is the deletion of its keys. -/
theorem Indexes.InStep.removeAll_eq {ix : Indexes} {defs : List IndexDef} (h : ix.InStep defs)
    (doomed : List PkEntry) : ix.removeAll doomed = ix.deleteAll (doomed.map PkEntry.key) := by
  refine (h.removeAll doomed).ext (h.deleteAll _) ?_
  rw [Indexes.deleteAll_pk, List.foldl_map]
  rfl

/-- The part of a range delete before the hint. -/
theorem removePkBody_spec (hA : ∀ k, ¬ A (.fail k)) (h : Sound m w) (hopen : w.db.closed = false)
    {doomed : List PkEntry} (hdoomed : ∀ e ∈ doomed, e ∈ w.db.idx.pk) :
    Spec A (fun v => v = w) (removePkBody doomed)
      (fun _ => Unless fun v => Sound m v ∧ Frame w v ∧
        v.db.idx = w.db.idx.deleteAll (doomed.map PkEntry.key) ∧ Shrinks w v)
      (fun e => Unless (Failed m e)) := by
  have hstore := h.2.2 hopen
  unfold removePkBody
  refine Spec.bind_getWorld ?_
  rintro w rfl
  -- in the loop the log is ahead of the indexes: with those of the log the world is sound
  refine Spec.bind ((Spec.forEach (I := fun rest => Unless fun v => Frame w v ∧
    v.db.idx = w.db.idx ∧ Shrinks w v ∧ (∀ e ∈ rest, e ∈ w.db.idx.pk) ∧
    ∃ ix : Indexes, Sound m { v with db := { v.db with idx := ix } } ∧
      ix.deleteAll (rest.map PkEntry.key) = w.db.idx.deleteAll (doomed.map PkEntry.key)) ?_
    doomed).pre ?_) fun _ => Spec.updateDB ?_
  · intro e rest
    refine Spec.unless (Keeps.bind ((appendSync_keeps _ _ _).post
      (fun _ _ hv => hv.1) fun _ _ hv => hv) fun _ => Keeps.pure _) ?_
    rintro u _ ⟨hframe, hidx, hshrinks, hrest, ix, hu, hdel⟩
    rw [List.forall_mem_cons] at hrest
    have hopen' : u.db.closed = false := hframe.closed.trans hopen
    have hkey := hstore.mirrors.key e hrest.1
    have hdisk : OnDisk m u := hu.1
    refine Spec.bind ((appendSync_cases A u (tombstone e.key) (.del e.key) _).errors
      fun e' v hv hwrap => (hv.failed hA hdisk
        (fun hnone => absurd hnone (marshal_tombstone e.key)) (fun line hline hfits hroom =>
          (hu.delete hopen' hkey hline hfits hroom u.durable 0).2.1.1) hwrap).1)
      fun _ => Spec.pure ?_
    rintro v ⟨line, s, hline, hroom, -, rfl⟩ hwrap
    have hfits := (Bool.or_eq_false_iff.mp hwrap).2
    obtain ⟨_, hsound, hcells⟩ := hu.delete hopen' hkey hline hfits hroom s u.db.writes
    exact ⟨hframe.trans ⟨rfl, rfl, rfl, rfl, rfl, rfl, rfl, rfl⟩, hidx,
      hshrinks.trans (Shrinks.of_update hcells), hrest.2, ix.delete e.key, hsound, hdel⟩
  · rintro v rfl _
    exact ⟨Frame.refl v, rfl, Shrinks.refl v, hdoomed, v.db.idx, h, rfl⟩
  · intro v hv hwrap
    obtain ⟨hframe, hidx, hshrinks, _, ix, hsound, hdel⟩ := hv hwrap
    have hix : v.db.idx.removeAll doomed = ix := by
      rw [hidx, hstore.inStep.removeAll_eq, ← hdel]
      rfl
    refine ⟨?_, hframe.trans ⟨rfl, rfl, rfl, rfl, rfl, rfl, rfl, rfl⟩, ?_, hshrinks⟩
    · rw [hix]
      exact hsound
    · show v.db.idx.removeAll doomed = _
      rw [hidx, hstore.inStep.removeAll_eq]

theorem Live.failed (h : Live m w) {e : Err} (he : e = .io ∨ e = .crash) : Failed m e w := by
  rcases he with rfl | rfl
  · exact Failed.io
  · exact h.1.failed

/-- `removePkEntries` of a sound store. -/
theorem removePkEntries_spec (hA : ∀ k, ¬ A (.fail k)) (h : Sound m w) (hopen : w.db.closed = false)
    {doomed : List PkEntry} (hdoomed : ∀ e ∈ doomed, e ∈ w.db.idx.pk) :
    Spec A (fun v => v = w) (removePkEntries doomed)
      (fun n => Unless fun v => Sound m v ∧ Frame w v ∧ n = doomed.length ∧
        v.db.idx = w.db.idx.deleteAll (doomed.map PkEntry.key) ∧ Shrinks w v)
      (fun e => Unless (Failed m e)) := by
  unfold removePkEntries
  refine Spec.ite (fun hnil => ?_) fun _ => ?_
  · refine Spec.pure ?_
    rintro v rfl _
    rw [hnil]
    exact ⟨h, Frame.refl v, rfl, rfl, Shrinks.refl v⟩
  refine Spec.bind (removePkBody_spec hA h hopen hdoomed) fun _ => ?_
  refine Spec.bind (Q := fun _ => Unless fun v => Sound m v ∧ Frame w v ∧
    v.db.idx = w.db.idx.deleteAll (doomed.map PkEntry.key) ∧ Shrinks w v) ?_
    fun _ => Spec.pure fun v hv hwrap => ?_
  · refine Spec.unless writeHint_keeps ?_
    rintro u _ ⟨hu, hframe, hidx, hshrinks⟩
    refine (writeHint_spec (hu.live (hframe.closed.trans hopen))).post
      (fun _ v hv _ => ?_) fun e v hv _ => hv.1.failed hv.2.2.io_or_crash
    obtain ⟨hv, hre, _⟩ := hv
    obtain ⟨hframe', hsame⟩ := hre.frame
    have hrelieve := hre.relieve.trans (hu.2.2 (hframe.closed.trans hopen)).noRelieve
    refine ⟨hv.sound hrelieve, hframe.trans hframe', hsame.idx.trans hidx, fun k => ?_⟩
    rw [hsame.cells]
    exact hshrinks k
  · obtain ⟨hv, hframe, hidx, hshrinks⟩ := hv hwrap
    exact ⟨hv, hframe, rfl, hidx, hshrinks⟩

/-- A range delete of a sound store. -/
theorem removeRange_spec (hA : ∀ k, ¬ A (.fail k)) (h : Sound m w) {doomed : DB → List PkEntry}
    (hdoomed : ∀ db, ∀ e ∈ doomed db, e ∈ db.idx.pk) :
    Spec A (fun v => v = w) (do requireOpen; let w ← getWorld; removePkEntries (doomed w.db))
      (fun n => Unless fun v => Sound m v ∧ Frame w v ∧ w.db.closed = false ∧
        n = (doomed w.db).length ∧
        v.db.idx = w.db.idx.deleteAll ((doomed w.db).map PkEntry.key) ∧ Shrinks w v)
      (fun e => Unless (Failed m e)) := by
  refine Spec.bind_requireOpen (fun _ _ => h.failed (by rintro ⟨⟩)) fun hopen => ?_
  refine Spec.bind_getWorld ?_
  rintro w rfl
  refine (removePkEntries_spec hA h hopen (hdoomed w.db)).post
    (fun n v hv hwrap => ?_) fun _ _ hv => hv
  obtain ⟨hv, hframe, hn, hidx, hshrinks⟩ := hv hwrap
  exact ⟨hv, hframe, hopen, hn, hidx, hshrinks⟩

theorem mem_of_pkLess {db : DB} {cutoff : Bytes} : ∀ e ∈ db.pkLess cutoff, e ∈ db.idx.pk :=
  fun _ he => (List.takeWhile_sublist _).subset he

theorem mem_of_pkGreater {db : DB} {cutoff : Bytes} : ∀ e ∈ db.pkGreater cutoff, e ∈ db.idx.pk :=
  fun _ he => (List.mem_filter.mp (List.mem_filter.mp he).1).1

/-! ## The reaper -/

/-- Expired keys may have gone, nothing else has changed. -/
structure Reaped (w v : World) : Prop where
  idx : ∃ keys, v.db.idx = w.db.idx.deleteAll keys
  shrinks : Shrinks w v
  expired : ∀ key c, w.dir.cells key = some c → v.dir.cells key = none →
    expired c.exp w.now.ms = true

theorem Reaped.refl (w : World) : Reaped w w :=
  ⟨⟨[], rfl⟩, Shrinks.refl w, fun key c hc hnone => by rw [hc] at hnone; cases hnone⟩

theorem Reaped.trans {u v w : World} (h : Reaped u v) (h' : Reaped v w) (hnow : v.now = u.now) :
    Reaped u w := by
  obtain ⟨keys, hidx⟩ := h.idx
  obtain ⟨keys', hidx'⟩ := h'.idx
  refine ⟨⟨keys ++ keys', ?_⟩, h.shrinks.trans h'.shrinks, fun key c hc hnone => ?_⟩
  · rw [hidx', hidx, Indexes.deleteAll, Indexes.deleteAll, Indexes.deleteAll, List.foldl_append]
  · rcases h.shrinks key with hsame | hgone
    · rw [← hnow]
      exact h'.expired key c (hsame.trans hc) hnone
    · exact h.expired key c hc hgone

theorem Reaped.same {v x : World} (h : Reaped w v) (hsame : SameContents v x) : Reaped w x := by
  refine ⟨?_, fun key => ?_, fun key c hc hnone => h.expired key c hc ?_⟩
  · rw [hsame.idx]
    exact h.idx
  · rw [hsame.cells]
    exact h.shrinks key
  · rwa [hsame.cells] at hnone

/-- The expiry in the index is that of the cell. -/
theorem Sound.exp_of_cell (h : Sound m w) (hopen : w.db.closed = false) {key : Bytes} {e : PkEntry}
    (he : w.db.idx.pk.get key = some e) :
    ∃ c, w.dir.cells key = some c ∧ c.exp = e.exp ∧ c.ix = e.ix.readBack := by
  have hcells := (h.2.2 hopen).mirrors.cells key
  rw [he, Option.map_some] at hcells
  obtain ⟨c, hc, heq⟩ := Option.map_eq_some_iff.mp hcells
  exact ⟨c, hc, congrArg Prod.fst heq, congrArg Prod.snd heq⟩

/-- One request of the reaper. -/
theorem reapOne_spec (hA : ∀ k, ¬ A (.fail k)) (h : Sound m w) (hopen : w.db.closed = false)
    (reaped : Bool) (r : ReapReq) :
    Spec A (fun v => v = w) (reapOne reaped r)
      (fun _ => Unless fun v => Sound m v ∧ Frame w v ∧ Reaped w v)
      (fun e => Unless fun v => Safe m e v ∧ (e.fatal = false → v = w)) := by
  unfold reapOne
  refine Spec.bind_getWorld ?_
  rintro w rfl
  refine Spec.ite (fun hreap => ?_) fun _ => ?_
  · unfold DB.reapable at hreap
    cases hget : w.db.idx.pk.get r.key with
    | none =>
        rw [hget] at hreap
        cases hreap
    | some e =>
        rw [hget] at hreap
        have hexp : e.expiredAt w.now.ms = true := (Bool.and_eq_true_iff.mp hreap).2
        obtain ⟨c, hc, hcexp, _⟩ := h.exp_of_cell hopen hget
        refine Spec.bind ((deleteLocked_safe hA h hopen (h.valid_key hopen hget)).errors
          fun _ _ hv hwrap => ⟨(hv hwrap).1, (hv hwrap).2.2⟩)
          fun _ => Spec.pure fun v hv hwrap => ?_
        obtain ⟨hv, hframe, hidx, hcells⟩ := hv hwrap
        refine ⟨hv, hframe, ⟨[r.key], hidx⟩, Shrinks.of_update hcells, fun key c' hc' hnone => ?_⟩
        rw [hcells, Function.update_apply] at hnone
        split at hnone
        · next heq =>
            rw [heq, hc] at hc'
            cases hc'
            rw [hcexp]
            exact hexp
        · rw [hc'] at hnone
          cases hnone
  · refine Spec.pure ?_
    rintro v rfl _
    exact ⟨h, Frame.refl v, Reaped.refl v⟩

theorem reapOne_keeps {k : Watch} (reaped : Bool) (r : ReapReq) :
    Keeps A (Watched k) (reapOne reaped r) :=
  Keeps.bind Keeps.getWorld fun _ => Keeps.ite
    (fun _ => Keeps.bind (deleteLocked_keeps r.key) fun _ => Keeps.pure _)
    fun _ => Keeps.pure _

/-- The loop of the reaper over its batch. -/
theorem reapAll_spec (hA : ∀ k, ¬ A (.fail k)) (h : Sound m w) (hopen : w.db.closed = false)
    (batch : List ReapReq) :
    Spec A (fun v => v = w) (Prog.foldEach batch false reapOne)
      (fun _ => Unless fun v => Sound m v ∧ Frame w v ∧ Reaped w v)
      (fun e => Unless fun v => Safe m e v ∧ (e.fatal = false → Frame w v ∧ Reaped w v)) := by
  refine (Spec.foldEach (I := fun _ _ => Unless fun v => Sound m v ∧ Frame w v ∧ Reaped w v) ?_
    batch false).pre ?_
  · intro r rest reaped
    refine Spec.unless (reapOne_keeps reaped r) ?_
    rintro u _ ⟨hu, hframe, hreaped⟩
    refine (reapOne_spec hA hu (hframe.closed.trans hopen) reaped r).post
      (fun _ v hv hwrap => ?_) fun e v hv hwrap => ?_
    · obtain ⟨hv, hframe', hreaped'⟩ := hv hwrap
      exact ⟨hv, hframe.trans hframe', hreaped.trans hreaped' hframe.now⟩
    · obtain ⟨hsafe, hsame⟩ := hv hwrap
      refine ⟨hsafe, fun hfatal => ?_⟩
      rw [hsame hfatal]
      exact ⟨hframe, hreaped⟩
  · rintro v rfl _
    exact ⟨h, Frame.refl v, Reaped.refl v⟩

/-- What follows the loop of the reaper. -/
theorem reapEnd_spec (h : Sound m w) (hopen : w.db.closed = false) (reaped sync : Bool) :
    Spec A (fun v => v = w)
      (doWhen reaped do doWhen sync (ignoreError flushMain); maybeWriteHint)
      (fun _ => Unless fun v => Sound m v ∧ Frame w v ∧ SameContents w v)
      (fun e => Unless fun v => Safe m e v ∧ (e.fatal = false → Frame w v ∧ Reaped w v)) := by
  have hcrash : ∀ s, Safe m .crash { w with durable := s } := fun s =>
    Sound.safe (show Sound m { w with durable := s } from h) (by rintro ⟨⟩)
  refine Spec.doWhen (fun _ => ?_) ?_
  · refine Spec.bind (Spec.doWhen (Q := fun _ v => ∃ s, v = { w with durable := s })
      (fun _ => Spec.ignoreError (flushMain_cases A w) ?_ ?_) ?_) fun _ => ?_
    · rintro e v _ ⟨rfl, _⟩
      exact ⟨_, rfl⟩
    · rintro e v hfatal ⟨rfl, he⟩ _
      rcases he.io_or_crash with rfl | rfl
      · cases hfatal
      · exact ⟨hcrash _, fun hf => absurd hf (by decide)⟩
    · rintro v rfl _
      exact ⟨_, rfl⟩
    · refine Spec.of_world ?_
      rintro u ⟨s, rfl⟩
      have hu : Sound m { w with durable := s } := h
      have hdurable : Frame w { w with durable := s } := ⟨rfl, rfl, rfl, rfl, rfl, rfl, rfl, rfl⟩
      refine (maybeWriteHint_spec hu hopen).post (fun _ v hv _ => ?_) fun _ _ hv => hv.elim
      obtain ⟨hv, hframe, hsame⟩ := hv
      exact ⟨hv, hdurable.trans hframe, hsame.idx, hsame.cells⟩
  · rintro v rfl _ _
    exact ⟨h, Frame.refl v, rfl, rfl⟩

/-- `reapBatch` of a sound store. -/
theorem reapBatch_spec (hA : ∀ k, ¬ A (.fail k)) (h : Sound m w) (batch : List ReapReq) :
    Spec A (fun v => v = w) (reapBatch batch)
      (fun _ => Unless fun v => Sound m v ∧ Frame w v ∧ Reaped w v)
      (fun e => Unless fun v => e = .crash ∧ OnDisk m.cutOff v) := by
  unfold reapBatch
  refine Spec.bind_getWorld ?_
  rintro w rfl
  refine Spec.ite (fun _ => ?_) fun hopen => ?_
  · refine Spec.pure ?_
    rintro v rfl _
    exact ⟨h, Frame.refl v, Reaped.refl v⟩
  have hopen : w.db.closed = false := Bool.eq_false_iff.mpr hopen
  refine Spec.ignoreError (F := fun e => Unless fun v => Safe m e v ∧
    (e.fatal = false → Frame w v ∧ Reaped w v)) (Spec.bind (reapAll_spec hA h hopen batch)
      fun reaped => ?_) ?_ ?_
  · refine Spec.unless (Keeps.doWhen (Keeps.bind (Keeps.doWhen (Keeps.ignoreError
      syncMain_keeps)) fun _ => maybeWriteHint_keeps)) ?_
    rintro u _ ⟨hu, hframe, hreaped⟩
    refine (reapEnd_spec hu (hframe.closed.trans hopen) reaped _).post
      (fun _ v hv hwrap => ?_) fun e v hv hwrap => ?_
    · obtain ⟨hv, hframe', hsame⟩ := hv hwrap
      exact ⟨hv, hframe.trans hframe', hreaped.same hsame⟩
    · obtain ⟨hsafe, hrest⟩ := hv hwrap
      refine ⟨hsafe, fun hfatal => ?_⟩
      obtain ⟨hframe', hreaped'⟩ := hrest hfatal
      exact ⟨hframe.trans hframe', hreaped.trans hreaped' hframe.now⟩
  · intro e v hfatal hv hwrap
    obtain ⟨hsafe, hrest⟩ := hv hwrap
    exact ⟨hsafe.sound hfatal, hrest hfatal⟩
  · intro e v hfatal hv hwrap
    obtain ⟨hsafe, _⟩ := hv hwrap
    have hcrash := Err.crash_of_fatal hfatal hsafe.panic
    exact ⟨hcrash, hsafe.crash hcrash⟩

/-- One cycle of the reaper of a sound store. -/
theorem reapCycle_spec (hA : ∀ k, ¬ A (.fail k)) (h : Sound m w) (n : Nat) :
    Spec A (fun v => v = w) (reapCycle n)
      (fun _ => Unless fun v => Sound m v ∧ Frame w v ∧ Reaped w v)
      (fun e => Unless fun v => e = .crash ∧ OnDisk m.cutOff v) := by
  unfold reapCycle
  refine Spec.bind_getWorld ?_
  rintro w rfl
  refine Spec.bind (Spec.updateDB (Q := fun _ v => v = { w with db := { w.db with
    reapCh := w.db.reapCh.drop (min n reapBatchCap) } }) ?_) fun _ => ?_
  · rintro v rfl
    rfl
  have hu : Sound m { w with db := { w.db with
      reapCh := w.db.reapCh.drop (min n reapBatchCap) } } := h
  have htaken : Frame w { w with db := { w.db with
      reapCh := w.db.reapCh.drop (min n reapBatchCap) } } :=
        ⟨rfl, rfl, rfl, rfl, rfl, rfl, rfl, rfl⟩
  refine (reapBatch_spec hA hu _).post (fun _ v hv hwrap => ?_) fun _ _ hv => hv
  obtain ⟨hv, hframe, hreaped⟩ := hv hwrap
  exact ⟨hv, htaken.trans hframe, hreaped.idx, hreaped.shrinks, hreaped.expired⟩

end NteeDb.Core
