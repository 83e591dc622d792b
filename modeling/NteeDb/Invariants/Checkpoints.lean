import NteeDb.Invariants.Writes

/-!
# Checkpoints of a sound store

The synchronous checkpoint, the two steps of the background hint writer and `Close`: a
hint that is written is one of a prefix of the current log.  A snapshot that a checkpoint
has overtaken is never written.
-/

namespace NteeDb.Core

open NteeDb.Verified
open Faults Lines OrderedTree JsonCodec

variable {A : Answer → Prop} {m : Mode} {w : World}

/-- The world once a hint has been written. -/
def World.hinted (w : World) (bytes : Bytes) (of : Nat) : World :=
  { w with dir := { w.dir with hint := some bytes }, hintInode := of }

theorem flushMain_cases (A : Answer → Prop) (w : World) :
    Spec A (fun v => v = w) flushMain (fun _ v => ∃ s, v = { w with durable := s })
      (fun e v => v = w ∧ Unanswered A e) := by
  rw [flushMain]
  refine Spec.atomicStep ?_ (fun k v hk hv => ⟨hv, Or.inr ⟨rfl, k, hk⟩⟩)
    fun v _ hv => ⟨hv, Or.inl rfl⟩
  rintro v rfl
  exact ⟨_, rfl⟩

/-- The ways `writeIndexHint` can go. -/
theorem writeIndexHint_cases (A : Answer → Prop) (w : World) (pk : PkIndex) (covers : Int64)
    (of : Nat) :
    Spec A (fun v => v = w) (writeIndexHint pk covers of)
      (fun _ v => ∃ bytes, hintBytes pk covers = some bytes ∧ v = w.hinted bytes of)
      (fun e v => v = w ∧ (Unanswered A e ∨ e = .marshal ∧ hintBytes pk covers = none)) := by
  have hquiet : Spec A (fun v => v = w) quietStep (fun _ v => v = w)
      (fun e v => v = w ∧ (Unanswered A e ∨ e = .marshal ∧ hintBytes pk covers = none)) :=
    Spec.quietStep (fun _ hv => hv) (fun k v hk hv => ⟨hv, Or.inl (Or.inr ⟨rfl, k, hk⟩)⟩)
      fun v _ hv => ⟨hv, Or.inl (Or.inl rfl)⟩
  unfold writeIndexHint
  refine Spec.bind hquiet fun _ => ?_
  cases hbytes : hintBytes pk covers with
  | none => exact Spec.fail fun v hv => ⟨hv, Or.inr ⟨rfl, rfl⟩⟩
  | some bytes =>
      rw [hbytes] at hquiet
      refine Spec.bind hquiet fun _ => Spec.bind hquiet fun _ =>
        Spec.bind hquiet fun _ => Spec.atomicStep ?_
          (fun k v hk hv => ⟨hv, Or.inl (Or.inr ⟨rfl, k, hk⟩)⟩)
          fun v _ hv => ⟨hv, Or.inl (Or.inl rfl)⟩
      rintro v rfl
      exact ⟨bytes, rfl, rfl⟩

theorem hintBytes_ne_none {pk : PkIndex} (h : ∀ e ∈ pk, e.ix.Scalar) (covers : Int64) :
    hintBytes pk covers ≠ none := by
  obtain ⟨bytes, hbytes, _⟩ := loadIndexHint_hintBytes h covers
  rw [hbytes]
  exact Option.some_ne_none bytes

/-- A hint of the current log is on disk. -/
theorem OnDisk.hinted (h : OnDisk m w) {pk : PkIndex} {covers : Int64} {bytes : Bytes}
    (hscalar : ∀ e ∈ pk, e.ix.Scalar)
    (hof : HintOf w.dir.log (pk.items.map PkEntry.readBack) covers)
    (hbytes : hintBytes pk covers = some bytes) {of : Nat} (heq : of = w.inode) :
    OnDisk m (w.hinted bytes of) := by
  subst heq
  exact ⟨h.1.newHint hscalar hof hbytes, h.2.1, fun _ => Or.inr rfl⟩

/-! ## The synchronous checkpoint -/

/-- The open store is sound, whatever a `BlobsRelieve` in flight has prepared. -/
def Serving (w : World) : Prop :=
  StoreSound w.dir w.inode w.db.opts.indexes w.db.size w.db.handles w.db.mainOpen w.db.blobs
    w.db.curGen none w.db.idx

theorem InStore.serving (h : InStore w) : Serving w := { h with noRelieve := rfl }

theorem Serving.inStore (h : Serving w) (hrelieve : w.db.relieve = none) : InStore w :=
  { h with noRelieve := hrelieve }

/-- The files, the store and the background writer are sound. -/
def Live (m : Mode) (w : World) : Prop := OnDisk m w ∧ InFlight w ∧ Serving w

theorem Sound.live (h : Sound m w) (hopen : w.db.closed = false) : Live m w :=
  ⟨h.1, h.2.1, (h.2.2 hopen).serving⟩

theorem Live.sound (h : Live m w) (hrelieve : w.db.relieve = none) : Sound m w :=
  ⟨h.1, h.2.1, fun _ => h.2.2.inStore hrelieve⟩

/-- The hint, what is known of it, and the bookkeeping of the store may have changed. -/
structure Rehinted (w v : World) : Prop where
  dir : ∃ hint, v.dir = { w.dir with hint := hint }
  db : ∃ n gen job, v.db = { w.db with writes := n, hintGen := gen, job := job }
  inode : v.inode = w.inode
  now : v.now = w.now
  acked : v.acked = w.acked

theorem Rehinted.refl (w : World) : Rehinted w w := ⟨⟨_, rfl⟩, ⟨_, _, _, rfl⟩, rfl, rfl, rfl⟩

theorem Rehinted.trans {u v w : World} (h : Rehinted u v) (h' : Rehinted v w) : Rehinted u w := by
  obtain ⟨⟨hint, hdir⟩, ⟨n, gen, job, hdb⟩, hinode, hnow, hacked⟩ := h
  obtain ⟨⟨hint', hdir'⟩, ⟨n', gen', job', hdb'⟩, hinode', hnow', hacked'⟩ := h'
  exact ⟨⟨hint', by rw [hdir', hdir]⟩, ⟨n', gen', job', by rw [hdb', hdb]⟩, hinode'.trans hinode,
    hnow'.trans hnow, hacked'.trans hacked⟩

theorem Rehinted.frame {v : World} (h : Rehinted w v) : Frame w v ∧ SameContents w v := by
  obtain ⟨⟨hint, hdir⟩, ⟨n, gen, job, hdb⟩, hinode, hnow, _⟩ := h
  refine ⟨⟨?_, ?_, hnow, hinode, ?_, ?_, ?_, ?_⟩, ?_, ?_⟩ <;> first | rw [hdb] | rw [hdir]
  rfl

theorem Rehinted.serving {v : World} (h : Rehinted w v) (hstore : Serving w) : Serving v := by
  obtain ⟨⟨hint, hdir⟩, ⟨n, gen, job, hdb⟩, hinode, _, _⟩ := h
  rw [Serving, hdir, hdb, hinode]
  exact StoreSound.newHint hstore hint

theorem Rehinted.relieve {v : World} (h : Rehinted w v) : v.db.relieve = w.db.relieve := by
  obtain ⟨_, ⟨n, gen, job, hdb⟩, _⟩ := h
  rw [hdb]

/-- The world once the snapshot in flight has been invalidated. -/
def World.bumped (w : World) : World := { w with db := { w.db with hintGen := w.db.hintGen + 1 } }

theorem InFlight.bump (h : InFlight w) : InFlight w.bumped := by
  intro j hj
  have hj := h j hj
  refine ⟨Nat.le_succ_of_le hj.gen, hj.handles, fun hgen => ?_, hj.scalar, hj.hint⟩
  have hle := hj.gen
  rw [hgen] at hle
  exact absurd hle (Nat.not_succ_le_self _)

/-- What a checkpoint needs of the open store. -/
structure Hintable (w : World) : Prop where
  size : w.db.size = fileSize w.dir.mainBytes
  handles : w.db.handles = w.inode
  mirrors : Mirrors (pkOf (placed 0 w.dir.log)) w.db.idx.pk
  current : ∀ bs, w.db.blobStore w.db.curGen = some bs → bs.isOpen = true

theorem Serving.hintable (h : Serving w) : Hintable w := by
  refine ⟨h.size_eq, h.handles_eq, h.mirrors, fun bs hbs => ?_⟩
  rw [DB.blobStore, h.current] at hbs
  cases hbs
  rfl

/-- The checkpoint after the snapshot in flight has been invalidated. -/
theorem checkpointHint_cases (hdisk : OnDisk m w) (hflight : InFlight w) (h : Hintable w) :
    Spec A (fun v => v = w) checkpointHint
      (fun _ v => OnDisk m v ∧ InFlight v ∧ Rehinted w v ∧ FreshHint v)
      (fun e v => OnDisk m v ∧ InFlight v ∧ Rehinted w v ∧ Unanswered A e) := by
  have hcovers : w.db.size = Int64.ofNat (joinLines w.dir.log).length := by
    rw [h.size, fileSize, ← hdisk.1.log.main]
  have hof : HintOf w.dir.log (w.db.idx.pk.items.map PkEntry.readBack) w.db.size := by
    rw [hcovers]
    exact HintOf.all h.mirrors
  have hscalar := h.mirrors.scalar
  have hdurable : ∀ s, OnDisk m { w with durable := s } ∧ InFlight { w with durable := s } ∧
      Rehinted w { w with durable := s } :=
    fun s => ⟨hdisk, hflight, ⟨_, rfl⟩, ⟨_, _, _, rfl⟩, rfl, rfl, rfl⟩
  unfold checkpointHint
  refine Spec.bind_getWorld ?_
  rintro w rfl
  refine Spec.bind ((flushBlob_cases A w w.db.curGen).errors ?_) fun _ => ?_
  · rintro e v ⟨rfl, he | ⟨_, bs, hbs, hclosed⟩⟩
    · exact ⟨hdisk, hflight, Rehinted.refl v, he⟩
    · rw [h.current bs hbs] at hclosed
      cases hclosed
  refine Spec.bind (Q := fun _ v => ∃ s, v = { w with durable := s }) ?_ fun _ => ?_
  · refine Spec.of_world ?_
    rintro u ⟨s, rfl⟩
    refine (flushMain_cases A { w with durable := s }).post ?_ ?_
    · rintro _ v ⟨s', rfl⟩
      exact ⟨s', rfl⟩
    · rintro e v ⟨rfl, he⟩
      exact ⟨hdisk, hflight, (hdurable s).2.2, he⟩
  refine Spec.bind (Q := fun _ v => OnDisk m v ∧ InFlight v ∧ Rehinted w v ∧ FreshHint v) ?_
    fun _ => ?_
  · refine Spec.of_world ?_
    rintro u ⟨s, rfl⟩
    refine (writeIndexHint_cases A { w with durable := s } w.db.idx.pk w.db.size
      w.db.handles).post ?_ ?_
    · rintro _ v ⟨bytes, hbytes, rfl⟩
      have hdisk' : OnDisk m { w with durable := s } := hdisk
      exact ⟨hdisk'.hinted hscalar hof hbytes h.handles, fun j hj => (hflight j hj).newHint _,
        ⟨⟨_, rfl⟩, ⟨_, _, _, rfl⟩, rfl, rfl, rfl⟩, Or.inr h.handles⟩
    · rintro e v ⟨rfl, he | ⟨_, hnone⟩⟩
      · exact ⟨hdisk, hflight, (hdurable s).2.2, he⟩
      · exact absurd hnone (hintBytes_ne_none hscalar _)
  · refine Spec.updateDB ?_
    rintro v ⟨hdisk, hflight, hre, hfresh⟩
    exact ⟨hdisk, hflight, hre.trans ⟨⟨_, rfl⟩, ⟨_, _, _, rfl⟩, rfl, rfl, rfl⟩, hfresh⟩

/-- `writeHint`, where the snapshot in flight is sound once it has been invalidated. -/
theorem writeHint_cases (hdisk : OnDisk m w) (hflight : InFlight w.bumped) (h : Hintable w) :
    Spec A (fun v => v = w) writeHint
      (fun _ v => OnDisk m v ∧ InFlight v ∧ Rehinted w v ∧ FreshHint v)
      (fun e v => OnDisk m v ∧ InFlight v ∧ Rehinted w v ∧ Unanswered A e) := by
  have hdisk : OnDisk m w.bumped := hdisk
  have hbumped : Hintable w.bumped := ⟨h.size, h.handles, h.mirrors, h.current⟩
  have hre : Rehinted w w.bumped := ⟨⟨_, rfl⟩, ⟨_, _, _, rfl⟩, rfl, rfl, rfl⟩
  unfold writeHint
  refine Spec.bind (Spec.updateDB (Q := fun _ v => v = w.bumped) ?_) fun _ => ?_
  · rintro v rfl
    rfl
  exact (checkpointHint_cases hdisk hflight hbumped).post
    (fun _ _ hv => ⟨hv.1, hv.2.1, hre.trans hv.2.2.1, hv.2.2.2⟩)
    fun _ _ hv => ⟨hv.1, hv.2.1, hre.trans hv.2.2.1, hv.2.2.2⟩

/-- `writeHint` of a sound store. -/
theorem writeHint_spec (h : Live m w) :
    Spec A (fun v => v = w) writeHint
      (fun _ v => Live m v ∧ Rehinted w v ∧ FreshHint v)
      (fun e v => Live m v ∧ Rehinted w v ∧ Unanswered A e) :=
  (writeHint_cases h.1 h.2.1.bump h.2.2.hintable).post
    (fun _ _ hv => ⟨⟨hv.1, hv.2.1, hv.2.2.1.serving h.2.2⟩, hv.2.2.1, hv.2.2.2⟩)
    fun _ _ hv => ⟨⟨hv.1, hv.2.1, hv.2.2.1.serving h.2.2⟩, hv.2.2.1, hv.2.2.2⟩

/-! ## The background writer -/

theorem flushJob_cases (A : Answer → Prop) (w : World) (j : HintSnapshot) :
    Spec A (fun v => v = w) (flushJob j) (fun _ v => ∃ s, v = { w with durable := s })
      (fun e v => (∃ s, v = { w with durable := s }) ∧ (e = .io ∨ e = .crash)) := by
  unfold flushJob
  refine Spec.bind_getWorld ?_
  rintro w rfl
  refine Spec.bind_require ?_ fun _ => ?_
  · rintro v rfl _
    exact ⟨⟨_, rfl⟩, Or.inl rfl⟩
  refine Spec.bind (Spec.atomicStep (Q := fun _ v => ∃ s, v = { w with durable := s }) ?_ ?_ ?_)
    fun _ => Spec.atomicStep ?_ ?_ ?_
  · rintro v rfl
    exact ⟨_, rfl⟩
  · rintro _ v _ rfl
    exact ⟨⟨_, rfl⟩, Or.inl rfl⟩
  · rintro v _ rfl
    exact ⟨⟨_, rfl⟩, Or.inr rfl⟩
  · rintro v ⟨s, rfl⟩
    exact ⟨_, rfl⟩
  · exact fun _ v _ hv => ⟨hv, Or.inl rfl⟩
  · exact fun v _ hv => ⟨hv, Or.inr rfl⟩

/-- A snapshot that a fail-stop may still let be written. -/
structure JobKept (d : Dir) (inode : Nat) (j : HintSnapshot) : Prop where
  handles : j.handles ≤ inode
  scalar : ∀ e ∈ j.pk, e.ix.Scalar
  hint : j.handles = inode → HintOf d.log (j.pk.items.map PkEntry.readBack) j.covers

theorem JobSound.kept {d : Dir} {inode hintGen : Nat} {j : HintSnapshot}
    (h : JobSound d inode hintGen j) : JobKept d inode j := ⟨h.handles, h.scalar, h.hint⟩

/-- The snapshot in flight may be written at any time.  If the hint is to be of the current
log, so must be a snapshot that no checkpoint has overtaken. -/
def Pending (m : Mode) (w : World) : Prop := ∀ j ∈ w.db.job, JobKept w.dir w.inode j ∧
  (m.freshHint = true → j.gen = w.db.hintGen → j.handles = w.inode)

theorem InFlight.pending (h : InFlight w) : Pending m w :=
  fun j hj => ⟨(h j hj).kept, fun _ => (h j hj).current⟩

/-- The background writer has gone on. -/
structure WroteOn (w v : World) : Prop where
  re : Rehinted w v
  gen : v.db.hintGen = w.db.hintGen
  job : v.db.job = none ∨ ∃ j b, w.db.job = some j ∧ v.db.job = some { j with flushed := b }

theorem WroteOn.refl (w : World) : WroteOn w w := by
  refine ⟨Rehinted.refl w, rfl, ?_⟩
  cases hjob : w.db.job with
  | none => exact Or.inl rfl
  | some j => exact Or.inr ⟨j, j.flushed, rfl, rfl⟩

theorem WroteOn.log {v : World} (h : WroteOn w v) : v.dir.log = w.dir.log := by
  obtain ⟨hint, hdir⟩ := h.re.dir
  rw [hdir]
  rfl

theorem WroteOn.inFlight {v : World} (h : WroteOn w v) (hw : InFlight w) : InFlight v := by
  intro j hj
  rcases h.job with hnone | ⟨j', b, hj', hjob⟩
  · rw [hnone] at hj
    cases hj
  · rw [hjob] at hj
    cases hj
    have hkept := hw j' hj'
    rw [h.gen, h.re.inode]
    exact ⟨hkept.gen, hkept.handles, hkept.current, hkept.scalar,
      fun heq => by rw [h.log]; exact hkept.hint heq⟩

theorem WroteOn.pending {v : World} (h : WroteOn w v) (hw : Pending m w) : Pending m v := by
  intro j hj
  rcases h.job with hnone | ⟨j', b, hj', hjob⟩
  · rw [hnone] at hj
    cases hj
  · rw [hjob] at hj
    cases hj
    obtain ⟨hkept, hcurrent⟩ := hw j' hj'
    rw [h.gen, h.re.inode]
    exact ⟨⟨hkept.handles, hkept.scalar, fun heq => by rw [h.log]; exact hkept.hint heq⟩, hcurrent⟩

/-- The flushes of the background writer. -/
theorem hintAsyncFlush_cases (hdisk : OnDisk m w) :
    Spec A (fun v => v = w) hintAsyncFlush
      (fun _ v => OnDisk m v ∧ WroteOn w v ∧ ∀ j ∈ v.db.job, j.flushed = true)
      (fun e v => e = .crash ∧ OnDisk m v) := by
  unfold hintAsyncFlush
  refine Spec.bind_getWorld ?_
  rintro w rfl
  cases hjob : w.db.job with
  | none =>
      refine Spec.pure ?_
      rintro v rfl
      exact ⟨hdisk, WroteOn.refl v, by rw [hjob]; rintro j ⟨⟩⟩
  | some j =>
      refine Spec.ite (fun hflushed => ?_) fun _ => ?_
      · refine Spec.pure ?_
        rintro v rfl
        refine ⟨hdisk, WroteOn.refl v, ?_⟩
        rw [hjob]
        rintro _ ⟨⟩
        exact hflushed
      refine Spec.bind (Spec.attempt (S := fun r v =>
        (∃ s, v = { w with durable := s }) ∧ ∀ e, r = .error e → e = .io ∨ e = .crash)
        ((flushJob_cases A w j).post (fun _ _ hv => ⟨hv, by rintro e ⟨⟩⟩)
          fun e _ hv => ⟨hv.1, fun e' he => by cases he; exact hv.2⟩)) fun r => ?_
      refine Spec.of_world ?_
      rintro u ⟨⟨s, rfl⟩, herr⟩
      cases r with
      | ok _ =>
          refine Spec.updateDB ?_
          rintro v rfl
          refine ⟨hdisk, ⟨⟨⟨_, rfl⟩, ⟨_, _, _, rfl⟩, rfl, rfl, rfl⟩, rfl,
            Or.inr ⟨j, true, hjob, rfl⟩⟩, ?_⟩
          rintro _ ⟨⟩
          rfl
      | error e =>
          rcases herr e rfl with rfl | rfl
          · refine Spec.ite (fun hfatal => absurd hfatal (by decide)) fun _ => Spec.updateDB ?_
            rintro v rfl
            exact ⟨hdisk, ⟨⟨⟨_, rfl⟩, ⟨_, _, _, rfl⟩, rfl, rfl, rfl⟩, rfl,
              Or.inl rfl⟩, by rintro j' ⟨⟩⟩
          · refine Spec.fail ?_
            rintro v rfl
            exact ⟨rfl, hdisk⟩

/-- A hint that may be of an earlier log is on disk. -/
theorem OnDisk.pending (h : OnDisk m w) {j : HintSnapshot} (hj : JobKept w.dir w.inode j)
    (hcurrent : m.freshHint = true → j.handles = w.inode) {bytes : Bytes}
    (hbytes : hintBytes j.pk j.covers = some bytes) : OnDisk m (w.hinted bytes j.handles) := by
  by_cases heq : j.handles = w.inode
  · exact h.hinted hj.scalar (hj.hint heq) hbytes heq
  · have hext : w.dir.Extends { w.dir with hint := some bytes } w.dir.log :=
      Dir.extends_of_blobs h.1.log.lines rfl
    exact ⟨⟨h.1.log.extend rfl hext h.1.log.sized, fun hof => absurd hof heq, hj.handles⟩, h.2.1,
      fun hm => absurd (hcurrent hm) heq⟩

/-- The last step of the background writer. -/
theorem hintAsyncWrite_cases (hdisk : OnDisk m w) (hpending : Pending m w) :
    Spec A (fun v => v = w) hintAsyncWrite
      (fun _ v => OnDisk m v ∧ WroteOn w v ∧ ((∀ j ∈ w.db.job, j.flushed = true) → v.db.job = none))
      (fun e v => e = .crash ∧ OnDisk m v) := by
  unfold hintAsyncWrite
  refine Spec.bind_getWorld ?_
  rintro w rfl
  cases hjob : w.db.job with
  | none =>
      refine Spec.pure ?_
      rintro v rfl
      exact ⟨hdisk, WroteOn.refl v, fun _ => hjob⟩
  | some j =>
      obtain ⟨hkept, hcurrent⟩ := hpending j hjob
      refine Spec.ite (fun _ => ?_) fun hflushed => ?_
      · refine Spec.bind (Spec.doWhen (Q := fun _ v => OnDisk m v ∧ Rehinted w v ∧
          v.db.hintGen = w.db.hintGen) (fun hgen => ?_) ?_) fun _ => Spec.updateDB ?_
        · -- no checkpoint came in between
          have hhint : ∀ bytes, hintBytes j.pk j.covers = some bytes →
              OnDisk m (w.hinted bytes j.handles) ∧ Rehinted w (w.hinted bytes j.handles) :=
            fun bytes hbytes => ⟨hdisk.pending hkept
              (fun hm => hcurrent hm (by simpa using hgen)) hbytes,
              ⟨_, rfl⟩, ⟨_, _, _, rfl⟩, rfl, rfl, rfl⟩
          refine Spec.ignoreError ((writeIndexHint_cases A w j.pk j.covers j.handles).post ?_
            fun _ _ hv => hv) ?_ ?_
          · rintro _ v ⟨bytes, hbytes, rfl⟩
            exact ⟨(hhint bytes hbytes).1, (hhint bytes hbytes).2, rfl⟩
          · rintro e v _ ⟨rfl, _⟩
            exact ⟨hdisk, Rehinted.refl v, rfl⟩
          · rintro e v hfatal ⟨rfl, he | ⟨rfl, _⟩⟩
            · rcases he.io_or_crash with rfl | rfl
              · cases hfatal
              · exact ⟨rfl, hdisk⟩
            · cases hfatal
        · rintro v rfl _
          exact ⟨hdisk, Rehinted.refl v, rfl⟩
        · rintro v ⟨hv, hre, hgen⟩
          exact ⟨hv, ⟨hre.trans ⟨⟨_, rfl⟩, ⟨_, _, _, rfl⟩, rfl, rfl, rfl⟩, hgen, Or.inl rfl⟩,
            fun _ => rfl⟩
      · refine Spec.pure ?_
        rintro v rfl
        exact ⟨hdisk, WroteOn.refl v, fun hall => absurd (hall j rfl) hflushed⟩

/-- The background writer runs to its end. -/
theorem awaitHint_cases (hdisk : OnDisk m w) (hpending : Pending m w) :
    Spec A (fun v => v = w) awaitHint
      (fun _ v => OnDisk m v ∧ Rehinted w v ∧ v.db.job = none)
      (fun e v => e = .crash ∧ OnDisk m v) := by
  refine Spec.bind (hintAsyncFlush_cases hdisk) fun _ => Spec.of_world ?_
  rintro u ⟨hu, hwrote, hflushed⟩
  exact (hintAsyncWrite_cases hu (hwrote.pending hpending)).post
    (fun _ _ hv => ⟨hv.1, hwrote.re.trans hv.2.1.re, hv.2.2 hflushed⟩) fun _ _ hv => hv

/-! ## Close -/

theorem closeMainHandles_cases (A : Answer → Prop) (w : World) :
    Spec A (fun v => v = w) closeMainHandles
      (fun _ v => v = { w with db := { w.db with mainOpen := false } })
      (fun e v => v = { w with db := { w.db with mainOpen := false } } ∧
        (e = .io ∨ e = .crash)) := by
  unfold closeMainHandles
  refine Spec.bind (Spec.updateDB (Q := fun _ v => v = { w with
    db := { w.db with mainOpen := false } }) ?_) fun _ => Spec.quietStep (fun _ hv => hv)
      (fun _ v _ hv => ⟨hv, Or.inl rfl⟩) fun v _ hv => ⟨hv, Or.inr rfl⟩
  rintro v rfl
  rfl

/-- What a closed store leaves: sound files with what was in them. -/
structure Closed (m : Mode) (w v : World) : Prop where
  disk : OnDisk m v
  flight : InFlight v
  closed : v.db.closed = true
  cells : v.dir.cells = w.dir.cells
  schema : v.dir.schema = w.dir.schema
  now : v.now = w.now

theorem Closed.sound {v : World} (h : Closed m w v) : Sound m v :=
  ⟨h.disk, h.flight, fun hopen => absurd (h.closed.symm.trans hopen) (by decide)⟩

/-- `Close` of a sound store. -/
theorem close_spec (h : Sound m w) :
    Spec A (fun v => v = w) close
      (fun _ v => Closed m w v)
      (fun e v => (e = .io ∧ Closed m w v) ∨ (e = .crash ∧ OnDisk m v)) := by
  unfold close
  refine Spec.bind_getWorld ?_
  rintro w rfl
  refine Spec.ite (fun hclosed => ?_) fun hopen => ?_
  · refine Spec.pure ?_
    rintro v rfl
    exact ⟨h.1, h.2.1, hclosed, rfl, rfl, rfl⟩
  have hopen : w.db.closed = false := Bool.eq_false_iff.mpr hopen
  have hstore : Serving { w with db := { w.db with closed := true } } := (h.2.2 hopen).serving
  refine Spec.bind (Spec.updateDB (Q := fun _ v => v = { w with
    db := { w.db with closed := true } }) ?_) fun _ => ?_
  · rintro v rfl
    rfl
  refine Spec.bind ((awaitHint_cases (A := A) (m := m)
    (w := { w with db := { w.db with closed := true } }) h.1 h.2.1.pending).errors
    fun _ _ hv => Or.inr hv) fun _ => ?_
  -- the files are those of a sound store, whether or not the last hint is written
  have hend : ∀ v, Live m v → Rehinted { w with db := { w.db with closed := true } } v →
      Closed m w v ∧ Closed m w { v with db := { v.db with mainOpen := false } } := by
    intro v hlive hre
    obtain ⟨hframe, hsame⟩ := hre.frame
    exact ⟨⟨hlive.1, hlive.2.1, hframe.closed, hsame.cells, hframe.schema, hframe.now⟩,
      ⟨hlive.1, hlive.2.1, hframe.closed, hsame.cells, hframe.schema, hframe.now⟩⟩
  refine Spec.of_world fun u hu => ?_
  obtain ⟨hdisk, hre, hjob⟩ := hu
  have hflight : InFlight u := by
    intro j hj
    rw [hjob] at hj
    cases hj
  have hlive : Live m u := ⟨hdisk, hflight, hre.serving hstore⟩
  refine Spec.bind (Q := fun _ v => Live m v ∧
    Rehinted { w with db := { w.db with closed := true } } v) ?_ fun _ => ?_
  · refine Spec.onError ((writeHint_spec hlive).post (fun _ _ hv => ⟨hv.1, hre.trans hv.2.1⟩)
      fun _ _ hv => (⟨hv.1, hre.trans hv.2.1, hv.2.2⟩ : _ ∧ _ ∧ _)) ?_ ?_
    · intro e hfatal
      refine Spec.of_world ?_
      rintro v ⟨hv, hre', he⟩
      rcases he.io_or_crash with rfl | rfl
      · refine Spec.ignoreError ((closeMainHandles_cases A v).post ?_ fun _ _ hx => hx) ?_ ?_
        · rintro _ x rfl
          exact Or.inl ⟨rfl, (hend v hv hre').2⟩
        · rintro e x _ ⟨rfl, _⟩
          exact Or.inl ⟨rfl, (hend v hv hre').2⟩
        · rintro e x hfatal' ⟨rfl, rfl | rfl⟩
          · cases hfatal'
          · exact Or.inr ⟨rfl, (hend v hv hre').2.disk⟩
      · cases hfatal
    · rintro e v hfatal ⟨hv, hre', he⟩
      rcases he.io_or_crash with rfl | rfl
      · cases hfatal
      · exact Or.inr ⟨rfl, hv.1⟩
  · refine Spec.of_world ?_
    rintro v ⟨hv, hre'⟩
    refine (closeMainHandles_cases A v).post ?_ ?_
    · rintro _ x rfl
      exact (hend v hv hre').2
    · rintro e x ⟨rfl, rfl | rfl⟩
      · exact Or.inl ⟨rfl, (hend v hv hre').2⟩
      · exact Or.inr ⟨rfl, (hend v hv hre').2.disk⟩

end NteeDb.Core
