import NteeDb.Invariants.Groups
import NteeDb.Invariants.Sound

/-!
# The write path of a sound store

What each step of a write does to a sound world when no file step is refused.  As
long as nothing has wrapped the world stays sound, and the effect of the step on the
indexes and on what the log holds is told exactly; a step that is cut off leaves sound
files.

## Main results

* `appendRecord_spec`, `deleteLocked_spec` — one record more.
* `enforceMaxPerValue_spec` — the evictions, as a function of the indexes.
-/

namespace NteeDb.Core

open NteeDb.Verified
open Faults Lines OrderedTree JsonCodec

/-! ## As long as nothing has wrapped -/

/-- `P` holds unless a length has wrapped. -/
def Unless (P : World → Prop) (w : World) : Prop := w.wrapped = false → P w

/-- A program that does not forget a wrapped length may be started in any world that has
one. -/
theorem Spec.unless {α : Type} {A : Answer → Prop} {P : World → Prop} {c : StoreM α}
    {Q : α → World → Prop} {E : Err → World → Prop}
    (hkeeps : Keeps A (Watched { wrapped := true }) c)
    (h : ∀ w, w.wrapped = false → P w →
      Spec A (fun v => v = w) c (fun a => Unless (Q a)) fun e => Unless (E e)) :
    Spec A (Unless P) c (fun a => Unless (Q a)) fun e => Unless (E e) := by
  refine Spec.of_world fun w hw => ?_
  cases hwrap : w.wrapped with
  | false => exact h w hwrap (hw hwrap)
  | true =>
      have hbad : ∀ (Q : World → Prop) v, Watched { wrapped := true } v → Unless Q v := by
        intro Q v hv hfalse
        rw [watched_wrapped.mp hv] at hfalse
        cases hfalse
      refine Spec.conseq hkeeps ?_ (fun a v hv => hbad _ v hv) fun e v hv => hbad _ v hv
      rintro v rfl
      exact watched_wrapped.mpr hwrap

/-! ## Errors -/

/-- A file could not be written. -/
def Err.isIO : Err → Bool
  | .io => true
  | .batchItem _ _ e => e.isIO
  | .disabled _ => true
  | _ => false

theorem Err.crash_of_fatal {e : Err} (hfatal : e.fatal = true) (hpanic : e ≠ .panic) :
    e = .crash := by
  cases e with
  | crash => rfl
  | panic => exact absurd rfl hpanic
  | _ => cases hfatal

/-- The environment did not carry a step out. -/
def Unanswered (A : Answer → Prop) (e : Err) : Prop := e = .crash ∨ e = .io ∧ ∃ k, A (.fail k)

section Unanswered

variable {A : Answer → Prop} {e : Err}

theorem Unanswered.crash (hA : ∀ k, ¬ A (.fail k)) (h : Unanswered A e) : e = .crash := by
  rcases h with he | ⟨_, k, hk⟩
  · exact he
  · exact absurd hk (hA k)

theorem Unanswered.io_or_crash (h : Unanswered A e) : e = .io ∨ e = .crash := by
  rcases h with he | ⟨he, _⟩
  · exact Or.inr he
  · exact Or.inl he

theorem Unanswered.ne_panic (h : Unanswered A e) : e ≠ .panic := by
  rintro rfl
  rcases h.io_or_crash with he | he <;> cases he

end Unanswered

/-- What is followed of a store that was cut off. -/
def Mode.cutOff (m : Mode) : Mode := { m with freshHint := false }

/-- How an operation of a sound store may end without a value. -/
structure Failed (m : Mode) (e : Err) (w : World) : Prop where
  panic : e ≠ .panic
  crash : e = .crash → OnDisk m.cutOff w
  sound : e.fatal = false → e.isIO = false → Sound m w

theorem OnDisk.cutOff {m : Mode} {w : World} (h : OnDisk m w) : OnDisk m.cutOff w :=
  ⟨h.1, h.2.1, fun hf => absurd hf Bool.false_ne_true⟩

theorem Failed.io {m : Mode} {w : World} : Failed m .io w :=
  ⟨by rintro ⟨⟩, by rintro ⟨⟩, fun _ h => absurd h (by decide)⟩

theorem OnDisk.failed {m : Mode} {w : World} (h : OnDisk m w) : Failed m .crash w :=
  ⟨by rintro ⟨⟩, fun _ => h.cutOff, fun h _ => absurd h (by decide)⟩

theorem Sound.failed {m : Mode} {w : World} (h : Sound m w) {e : Err} (he : e ≠ .panic) :
    Failed m e w := ⟨he, fun _ => h.1.cutOff, fun _ _ => h⟩

/-- How an operation that changes nothing but by whole records may end without a value. -/
structure Safe (m : Mode) (e : Err) (w : World) : Prop where
  panic : e ≠ .panic
  crash : e = .crash → OnDisk m.cutOff w
  sound : e.fatal = false → Sound m w

theorem Safe.failed {m : Mode} {e : Err} {w : World} (h : Safe m e w) : Failed m e w :=
  ⟨h.panic, h.crash, fun hfatal _ => h.sound hfatal⟩

theorem Sound.safe {m : Mode} {w : World} (h : Sound m w) {e : Err} (he : e ≠ .panic) :
    Safe m e w := ⟨he, fun _ => h.1.cutOff, fun _ => h⟩

/-! ## Appending to the log -/

/-- How `appendSync` may end without a value. -/
inductive AppendFailed (A : Answer → Prop) (w : World) (r : Record) (μ : Mutation) :
    Err → World → Prop
  | marshal (h : marshalRecord r = none) : AppendFailed A w r μ .marshal w
  | full : AppendFailed A w r μ .io w
  | crash : AppendFailed A w r μ .crash w
  | torn {line : Bytes} {kept : Nat} (h : marshalRecord r = some line) (hA : A (.fail kept)) :
      AppendFailed A w r μ .io
        { w with dir := w.dir.appendMain ((line ++ [newline]).take kept) }
  | unsynced {line : Bytes} {kept : Nat} (h : marshalRecord r = some line) (hA : A (.fail kept)) :
      AppendFailed A w r μ .io (w.appended line μ)
  | crashSync {line : Bytes} (h : marshalRecord r = some line)
      (hroom : w.dir.mainBytes.length + (line.length + 1) < maxFileSize) :
      AppendFailed A w r μ .crash (w.appended line μ)

/-- The ways `appendSync` can go. -/
theorem appendSync_cases (A : Answer → Prop) (w : World) (r : Record) (μ : Mutation) (sync : Bool) :
    Spec A (fun v => v = w) (appendSync r μ sync)
      (fun loc v => ∃ line s, marshalRecord r = some line ∧
        w.dir.mainBytes.length + (line.length + 1) < maxFileSize ∧
        loc = (w.db.size, lineLen line) ∧
        v = { w.appended line μ with
              durable := s, db := { w.db with size := w.db.size + (lineLen line).toInt64 } })
      (AppendFailed A w r μ) := by
  unfold appendSync
  cases hline : marshalRecord r with
  | none =>
      refine Spec.fail ?_
      rintro v rfl
      exact .marshal hline
  | some line =>
      refine Spec.bind_getWorld ?_
      rintro w rfl
      refine Spec.bind (Spec.require (Q := fun _ v => v = w ∧
        w.dir.mainBytes.length + (line.length + 1) < maxFileSize) ?_ ?_) fun _ => ?_
      · rintro v rfl hroom
        exact ⟨rfl, of_decide_eq_true hroom⟩
      · rintro v rfl _
        exact .full
      refine Spec.bind (Spec.fileStep (Q := fun _ v => v = w.appended line μ ∧
        w.dir.mainBytes.length + (line.length + 1) < maxFileSize) ?_ ?_ ?_) fun _ => ?_
      · rintro v ⟨rfl, hroom⟩
        exact ⟨rfl, hroom⟩
      · rintro kept v hA ⟨rfl, _⟩
        exact .torn hline hA
      · rintro v _ ⟨rfl, _⟩
        exact .crash
      refine Spec.bind (Spec.doWhen (Q := fun _ v => (∃ s, v = { w.appended line μ with
        durable := s }) ∧ w.dir.mainBytes.length + (line.length + 1) < maxFileSize)
          (fun _ => ?_) ?_)
        fun _ => ?_
      · refine Spec.atomicStep ?_ ?_ ?_
        · rintro v ⟨rfl, hroom⟩
          exact ⟨⟨_, rfl⟩, hroom⟩
        · rintro k v hA ⟨rfl, _⟩
          exact .unsynced hline hA
        · rintro v _ ⟨rfl, hroom⟩
          exact .crashSync hline hroom
      · rintro v ⟨rfl, hroom⟩ _
        exact ⟨⟨_, rfl⟩, hroom⟩
      refine Spec.bind (Spec.updateDB (Q := fun _ v => (∃ s, v = { w.appended line μ with
        durable := s, db := { w.db with size := w.db.size + (lineLen line).toInt64 } }) ∧
        w.dir.mainBytes.length + (line.length + 1) < maxFileSize) ?_) fun _ => Spec.pure ?_
      · rintro v ⟨⟨s, rfl⟩, hroom⟩
        exact ⟨⟨s, rfl⟩, hroom⟩
      · rintro v ⟨⟨s, rfl⟩, hroom⟩
        exact ⟨line, s, rfl, hroom, rfl, rfl⟩

/-! ## Storing a value -/

/-- The indexes and what the log holds are the same. -/
structure SameContents (w v : World) : Prop where
  idx : v.db.idx = w.db.idx
  cells : v.dir.cells = w.dir.cells

theorem flushBlob_cases (A : Answer → Prop) (w : World) (gen : Int64) :
    Spec A (fun v => v = w) (flushBlob gen) (fun _ v => ∃ s, v = { w with durable := s })
      (fun e v => v = w ∧ (Unanswered A e ∨
        e = .io ∧ ∃ bs, w.db.blobStore gen = some bs ∧ bs.isOpen = false)) := by
  unfold flushBlob
  refine Spec.bind_getWorld ?_
  rintro w rfl
  cases w.db.blobStore gen with
  | none =>
      refine Spec.pure ?_
      rintro v rfl
      exact ⟨_, rfl⟩
  | some bs =>
      refine Spec.bind_require (fun v h hopen => ⟨h, Or.inr ⟨rfl, bs, rfl, hopen⟩⟩)
        fun _ => Spec.atomicStep ?_ ?_ ?_
      · rintro v rfl
        exact ⟨_, rfl⟩
      · exact fun k v hk h => ⟨h, Or.inl (Or.inr ⟨rfl, k, hk⟩)⟩
      · exact fun v _ h => ⟨h, Or.inl (Or.inl rfl)⟩

/-- A flush fails as a file step fails, or because the handle is closed. -/
theorem io_or_crash_of_flush {A : Answer → Prop} {e : Err} {φ : Prop}
    (h : Unanswered A e ∨ e = .io ∧ φ) : e = .io ∨ e = .crash := by
  rcases h with h | h
  · exact h.io_or_crash
  · exact Or.inl h.1

section Quiet

variable {A : Answer → Prop} {m : Mode} {w : World}

theorem Sound.failed_of_io_or_crash (h : Sound m w) {e : Err} (he : e = .io ∨ e = .crash) :
    Failed m e w := by
  rcases he with rfl | rfl
  · exact Failed.io
  · exact h.1.failed

/-- A file step was not carried out. -/
def Stopped (m : Mode) (e : Err) (w : World) : Prop := Failed m e w ∧ (e = .io ∨ e = .crash)

theorem Stopped.io : Stopped m .io w := ⟨Failed.io, Or.inl rfl⟩

theorem OnDisk.stopped (h : OnDisk m w) : Stopped m .crash w := ⟨h.failed, Or.inr rfl⟩

/-- The world once a value has been appended to the current blob file. -/
def World.blobbed (w : World) (value : Bytes) : World :=
  { w with
    dir := w.dir.appendBlob w.db.curGen value
    wrapped := w.wrapped || lengthWraps value.length
    db := { w.db with
      blobs := w.db.blobs.set {
        gen := w.db.curGen
        size := fileSize (w.dir.blobBytes w.db.curGen) + Int64.ofNat value.length } } }

/-- How `append` on a blob store may end without a value. -/
inductive BlobFailed (A : Answer → Prop) (w : World) (gen : Int64) (value : Bytes) :
    Err → World → Prop
  | refused : BlobFailed A w gen value .io w
  | crash : BlobFailed A w gen value .crash w
  | torn {kept : Nat} (hA : A (.fail kept))
      (hroom : (w.dir.blobBytes gen).length + value.length < maxFileSize) :
      BlobFailed A w gen value .io { w with dir := w.dir.appendBlob gen (value.take kept) }

/-- The ways `append` on a blob store can go. -/
theorem BlobStore.append_cases (A : Answer → Prop) (w : World) (bs : BlobStore) (value : Bytes) :
    Spec A (fun v => v = w) (bs.append value)
      (fun r v => v = { w with
          dir := w.dir.appendBlob bs.gen value
          wrapped := w.wrapped || lengthWraps value.length } ∧
        (w.dir.blobBytes bs.gen).length + value.length < maxFileSize ∧
        r = (⟨bs.size, Int32.ofNat value.length, 0⟩,
          { bs with size := bs.size + Int64.ofNat value.length }))
      (BlobFailed A w bs.gen value) := by
  unfold BlobStore.append
  refine Spec.bind_require ?_ fun _ => Spec.bind_getWorld ?_
  · rintro v rfl _
    exact .refused
  rintro w rfl
  refine Spec.bind_require ?_ fun hroom => ?_
  · rintro v rfl _
    exact .refused
  have hroom := of_decide_eq_true hroom
  refine Spec.bind (Spec.fileStep (Q := fun _ v => v = { w with
    dir := w.dir.appendBlob bs.gen value
    wrapped := w.wrapped || lengthWraps value.length }) ?_ ?_ ?_)
    fun _ => Spec.pure fun v hv => ⟨hv, hroom, rfl⟩
  · rintro v rfl
    rfl
  · rintro kept v hk rfl
    exact .torn hk hroom
  · rintro v _ rfl
    exact .crash

theorem appendBlob_spec (hA : ∀ k, ¬ A (.fail k)) (h : Sound m w) (hopen : w.db.closed = false)
    (value : Bytes) :
    Spec A (fun v => v = w) (appendBlob w.db.curGen value)
      (fun ref v => v = w.blobbed value ∧
        (w.dir.blobBytes w.db.curGen).length + value.length < maxFileSize ∧
        ref = ⟨fileSize (w.dir.blobBytes w.db.curGen), Int32.ofNat value.length, 0⟩)
      (Stopped m) := by
  have hstore : w.db.blobStore w.db.curGen
      = some { gen := w.db.curGen, size := fileSize (w.dir.blobBytes w.db.curGen) } :=
    (h.2.2 hopen).current
  unfold appendBlob
  refine Spec.bind_getWorld ?_
  rintro w rfl
  rw [hstore]
  refine Spec.bind ((BlobStore.append_cases A w _ value).errors ?_) fun r => ?_
  · intro e v hv
    cases hv with
    | refused => exact Stopped.io
    | crash => exact h.1.stopped
    | torn hk _ => exact absurd hk (hA _)
  · refine Spec.bind (Spec.updateDB (Q := fun _ v => v = w.blobbed value ∧
      (w.dir.blobBytes w.db.curGen).length + value.length < maxFileSize ∧
      r.1 = ⟨fileSize (w.dir.blobBytes w.db.curGen), Int32.ofNat value.length, 0⟩) ?_)
      fun _ => Spec.pure fun v hv => hv
    rintro v ⟨rfl, hroom, rfl⟩
    exact ⟨rfl, hroom, rfl⟩

theorem Frame.blobbed (w : World) (value : Bytes) (s : Durable) :
    Frame w { w.blobbed value with durable := s } := ⟨rfl, rfl, rfl, rfl, rfl, rfl, rfl, rfl⟩

/-- `storeValue` of a sound store. -/
theorem storeValue_spec (hA : ∀ k, ¬ A (.fail k)) (h : Sound m w) (hopen : w.db.closed = false)
    (key value : Bytes) (ix : AnyMap) (exp : Int64) (counter : Bool) :
    Spec A (fun v => v = w) (storeValue key value ix exp counter)
      (fun r => Unless fun v => Sound m v ∧ Frame w v ∧ SameContents w v ∧
        v.dir.Stores r key value ix exp counter ∧
        r.blob.isSome = (!counter && w.db.useBlobFor value.length))
      (fun e => Unless (Stopped m e)) := by
  unfold storeValue
  refine Spec.bind_getWorld ?_
  rintro w rfl
  refine Spec.ite (fun hblob => ?_) fun hinline => ?_
  · refine Spec.bind ((appendBlob_spec hA h hopen value).errors fun e v hv _ => hv) fun ref => ?_
    refine Spec.of_world ?_
    rintro v ⟨rfl, hroom, rfl⟩
    have hsound := fun s => (h.appendBlob hopen hroom (w.blobbed value).wrapped s).2
    refine Spec.bind ((flushBlob_cases A (w.blobbed value) w.db.curGen).errors ?_)
      fun _ => Spec.pure ?_
    · rintro e v ⟨rfl, he⟩ _
      have he := io_or_crash_of_flush he
      exact ⟨Sound.failed_of_io_or_crash (hsound w.durable) he, he⟩
    · rintro v ⟨s, rfl⟩ hwrap
      have hfits : lengthWraps value.length = false := (Bool.or_eq_false_iff.mp hwrap).2
      obtain ⟨hholds, hvalue⟩ :=
        Dir.holds_appendBlob h.1.1.log.sized (h.2.2 hopen).cur_nonneg hfits rfl
      refine ⟨hsound s, Frame.blobbed w value s, ⟨rfl, h.1.1.cells_appendBlob _ _⟩,
        ⟨rfl, hvalue, rfl, rfl, ?_, rfl, rfl, ?_⟩, hblob.symm⟩
      · rw [Bool.and_eq_true, Bool.not_eq_true'] at hblob
        exact hblob.1.symm
      · rintro b ⟨⟩
        exact hholds
  · refine Spec.pure ?_
    rintro v rfl _
    refine ⟨h, Frame.refl v, ⟨rfl, rfl⟩, ⟨rfl, rfl, rfl, rfl, rfl, rfl, rfl, by rintro b ⟨⟩⟩, ?_⟩
    exact (Bool.not_eq_true _ ▸ hinline : (!counter && v.db.useBlobFor value.length) = false).symm

/-! ## One record more -/

theorem AppendFailed.failed (hA : ∀ k, ¬ A (.fail k)) (h : OnDisk m w) {r : Record} {μ : Mutation}
    (hnone : marshalRecord r = none → Sound m w)
    (hdisk : ∀ line, marshalRecord r = some line → lengthWraps (line.length + 1) = false →
      w.dir.mainBytes.length + (line.length + 1) < maxFileSize → OnDisk m (w.appended line μ))
    {e : Err} {v : World} (hv : AppendFailed A w r μ e v) :
    Unless (fun v => Failed m e v ∧
      ((e = .io ∨ e = .crash) ∨ e = .marshal ∧ marshalRecord r = none)) v := by
  intro hwrap
  cases hv with
  | marshal hr => exact ⟨(hnone hr).failed (by rintro ⟨⟩), Or.inr ⟨rfl, hr⟩⟩
  | full => exact ⟨Failed.io, Or.inl (Or.inl rfl)⟩
  | crash => exact ⟨h.failed, Or.inl (Or.inr rfl)⟩
  | torn _ hk => exact absurd hk (hA _)
  | unsynced _ hk => exact absurd hk (hA _)
  | crashSync hline hroom =>
      exact ⟨(hdisk _ hline (Bool.or_eq_false_iff.mp hwrap).2 hroom).failed, Or.inl (Or.inr rfl)⟩

/-- Without a refused step nothing was written, or all of the line and then no more. -/
theorem AppendFailed.safe (hA : ∀ k, ¬ A (.fail k)) (h : Sound m w) {r : Record} {μ : Mutation}
    (hdisk : ∀ line, marshalRecord r = some line → lengthWraps (line.length + 1) = false →
      w.dir.mainBytes.length + (line.length + 1) < maxFileSize → OnDisk m (w.appended line μ))
    {e : Err} {v : World} (hv : AppendFailed A w r μ e v) (hr : marshalRecord r ≠ none) :
    Unless (fun v => Safe m e v ∧ (e = .io ∨ e = .crash) ∧ (e.fatal = false → v = w)) v := by
  intro hwrap
  cases hv with
  | marshal hnone => exact absurd hnone hr
  | full => exact ⟨h.safe (by rintro ⟨⟩), Or.inl rfl, fun _ => rfl⟩
  | crash => exact ⟨h.safe (by rintro ⟨⟩), Or.inr rfl, fun _ => rfl⟩
  | torn _ hk => exact absurd hk (hA _)
  | unsynced _ hk => exact absurd hk (hA _)
  | crashSync hline hroom =>
      have hdisk := hdisk _ hline (Bool.or_eq_false_iff.mp hwrap).2 hroom
      exact ⟨⟨by rintro ⟨⟩, fun _ => hdisk.cutOff, fun hfatal => absurd hfatal (by decide)⟩,
        Or.inr rfl, fun hfatal => absurd hfatal (by decide)⟩

/-- A value has been written for a key. -/
structure Wrote (w v : World) (key value : Bytes) (ix : AnyMap) (exp : Int64) (counter : Bool) :
    Prop where
  idx : ∃ off n, v.db.idx = w.db.idx.put { key := key, off := off, n := n, exp := exp } ix
  cells : v.dir.cells = Function.update w.dir.cells key (some
    ⟨value, exp, counter, ix.readBack, !counter && w.db.useBlobFor value.length⟩)
  storable : Storable ix

/-- `appendRecord` of a sound store. -/
theorem appendRecord_spec (hA : ∀ k, ¬ A (.fail k)) (h : Sound m w) (hopen : w.db.closed = false)
    {key : Bytes} (hkey : Utf8.valid key = true) (value : Bytes) {ix : AnyMap} {secs : SecIndexes}
    (hacc : AcceptedMap secs ix) (hcar : CarriedMap ix) (exp : Int64) (durable counter : Bool) :
    Spec A (fun v => v = w) (appendRecord key value ix exp durable counter)
      (fun _ => Unless fun v => Sound m v ∧ Frame w v ∧ Wrote w v key value ix exp counter)
      (fun e => Unless fun v => Failed m e v ∧
        ((e = .io ∨ e = .crash) ∨ e = .marshal ∧ ¬ ix.Scalar)) := by
  unfold appendRecord
  refine Spec.bind ((storeValue_spec hA h hopen key value ix exp counter).errors
    fun e v hv hwrap => ⟨(hv hwrap).1, Or.inl (hv hwrap).2⟩) fun r => ?_
  refine Spec.bind (Q := fun loc => Unless fun v => Sound m { v with db := { v.db with
      idx := v.db.idx.put { key := key, off := loc.1, n := loc.2, exp := exp } ix } } ∧
    Frame w v ∧ v.db.idx = w.db.idx ∧
    v.dir.cells = Function.update w.dir.cells key (some
      ⟨value, exp, counter, ix.readBack, !counter && w.db.useBlobFor value.length⟩) ∧
    Storable ix) ?_ fun loc => ?_
  · refine Spec.unless ((appendSync_keeps r _ durable).post (fun _ _ hv => hv.1)
      fun _ _ hv => hv) ?_
    rintro u _ ⟨hu, hframe, hsame, hr, hblob⟩
    have hopen' : u.db.closed = false := hframe.closed.trans hopen
    have hstorable : ∀ line, marshalRecord r = some line → Storable ix := fun line hline => by
      have hscalar := scalar_of_marshal (hr.ix ▸ hacc) hline
      rw [hr.ix] at hscalar
      exact Storable.of_carried hscalar hcar
    have hnone : marshalRecord r = none → ¬ ix.Scalar := fun hnone hscalar => by
      obtain ⟨line, hline⟩ := Written.exists hr.text (hr.ix ▸ hscalar)
      rw [hline.marshal] at hnone
      cases hnone
    refine (appendSync_cases A u r _ durable).post ?_ fun e v hv hwrap =>
      have hfailed := hv.failed hA hu.1 (fun _ => hu) (fun line hline hfits hroom =>
        (hu.put hopen' hr hkey (hstorable line hline) hline hfits hroom u.durable).2.1.1) hwrap
      ⟨hfailed.1, hfailed.2.imp_right fun he => ⟨he.1, hnone he.2⟩⟩
    rintro loc v ⟨line, s, hline, hroom, rfl, rfl⟩ hwrap
    have hfits := (Bool.or_eq_false_iff.mp hwrap).2
    obtain ⟨_, hsound, hcells⟩ := hu.put hopen' hr hkey (hstorable line hline) hline hfits hroom s
    refine ⟨hsound, hframe.trans ⟨rfl, rfl, rfl, rfl, rfl, rfl, rfl, rfl⟩, hsame.idx, ?_,
      hstorable line hline⟩
    rw [← hsame.cells, ← hblob]
    exact hcells
  · refine Spec.updateDB fun v hv hwrap => ?_
    obtain ⟨hsound, hframe, hidx, hcells, hstorable⟩ := hv hwrap
    refine ⟨hsound, hframe.trans ⟨rfl, rfl, rfl, rfl, rfl, rfl, rfl, rfl⟩,
      ⟨loc.1, loc.2, ?_⟩, hcells, hstorable⟩
    show v.db.idx.put _ ix = _
    rw [hidx]

theorem marshal_tombstone (key : Bytes) : marshalRecord (tombstone key) ≠ none := by
  obtain ⟨line, hline⟩ := Written.exists (r := tombstone key) rfl storable_empty.scalar
  rw [hline.marshal]
  exact Option.some_ne_none line

/-- `deleteLocked` of a sound store. -/
theorem deleteLocked_safe (hA : ∀ k, ¬ A (.fail k)) (h : Sound m w) (hopen : w.db.closed = false)
    {key : Bytes} (hkey : Utf8.valid key = true) :
    Spec A (fun v => v = w) (deleteLocked key)
      (fun _ => Unless fun v => Sound m v ∧ Frame w v ∧ v.db.idx = w.db.idx.delete key ∧
        v.dir.cells = Function.update w.dir.cells key none)
      (fun e => Unless fun v => Safe m e v ∧ (e = .io ∨ e = .crash) ∧
        (e.fatal = false → v = w)) := by
  unfold deleteLocked
  refine Spec.bind_getWorld ?_
  rintro w rfl
  refine Spec.bind ((appendSync_cases A w (tombstone key) (.del key) _).errors
    fun e v hv => hv.safe hA h
      (fun line hline hfits hroom => (h.delete hopen hkey hline hfits hroom w.durable 0).2.1.1)
      (marshal_tombstone key))
    fun _ => Spec.updateDB ?_
  rintro v ⟨line, s, hline, hroom, -, rfl⟩ hwrap
  have hfits := (Bool.or_eq_false_iff.mp hwrap).2
  obtain ⟨_, hsound, hcells⟩ := h.delete hopen hkey hline hfits hroom s (w.db.writes + 1)
  exact ⟨hsound, ⟨rfl, rfl, rfl, rfl, rfl, rfl, rfl, rfl⟩, rfl, hcells⟩

theorem deleteLocked_spec (hA : ∀ k, ¬ A (.fail k)) (h : Sound m w) (hopen : w.db.closed = false)
    {key : Bytes} (hkey : Utf8.valid key = true) :
    Spec A (fun v => v = w) (deleteLocked key)
      (fun _ => Unless fun v => Sound m v ∧ Frame w v ∧ v.db.idx = w.db.idx.delete key ∧
        v.dir.cells = Function.update w.dir.cells key none)
      (fun e => Unless (Stopped m e)) :=
  (deleteLocked_safe hA h hopen hkey).errors
    fun _ _ hv hwrap => ⟨(hv hwrap).1.failed, (hv hwrap).2.1⟩

/-! ## Evictions -/

/-- The indexes once keys have been deleted. -/
def Indexes.deleteAll (ix : Indexes) (keys : List Bytes) : Indexes := keys.foldl Indexes.delete ix

theorem Indexes.deleteAll_pk (ix : Indexes) (keys : List Bytes) :
    (ix.deleteAll keys).pk = keys.foldl PkIndex.remove ix.pk := by
  induction keys generalizing ix with
  | nil => rfl
  | cons key keys ih =>
      rw [Indexes.deleteAll, List.foldl_cons, List.foldl_cons, ← Indexes.delete_pk]
      exact ih (ix.delete key)

theorem Indexes.InStep.deleteAll {ix : Indexes} {defs : List IndexDef} (h : ix.InStep defs)
    (keys : List Bytes) : (ix.deleteAll keys).InStep defs := by
  induction keys generalizing ix with
  | nil => exact h
  | cons key keys ih => exact ih (h.delete key)

/-- The indexes after the evictions for one index value. -/
def Indexes.enforceOne (ix : Indexes) (nv : Bytes × AnyValue) : Indexes :=
  match ix.secs.get nv.1 with
  | none => ix
  | some si => ix.deleteAll (si.victims nv.2)

/-- The indexes after the evictions for a list of index values. -/
def Indexes.enforce (ix : Indexes) (nvs : List (Bytes × AnyValue)) : Indexes :=
  nvs.foldl Indexes.enforceOne ix

/-- Cells may have gone, nothing else has changed in the log. -/
def Shrinks (w v : World) : Prop :=
  ∀ key, v.dir.cells key = w.dir.cells key ∨ v.dir.cells key = none

theorem Shrinks.refl (w : World) : Shrinks w w := fun _ => Or.inl rfl

theorem Shrinks.trans {u v w : World} (h : Shrinks u v) (h' : Shrinks v w) : Shrinks u w := by
  intro key
  rcases h' key with hv | hnone
  · rw [hv]
    exact h key
  · exact Or.inr hnone

theorem Shrinks.of_update {w v : World} {key : Bytes}
    (h : v.dir.cells = Function.update w.dir.cells key none) : Shrinks w v := by
  intro k
  rw [h, Function.update_apply]
  split
  · exact Or.inr rfl
  · exact Or.inl rfl

theorem deleteAll_spec (hA : ∀ k, ¬ A (.fail k)) (h : Sound m w) (hopen : w.db.closed = false)
    {keys : List Bytes} (hkeys : ∀ key ∈ keys, Utf8.valid key = true) :
    Spec A (fun v => v = w) (Prog.forEach keys deleteLocked)
      (fun _ => Unless fun v => Sound m v ∧ Frame w v ∧ v.db.idx = w.db.idx.deleteAll keys ∧
        Shrinks w v)
      (fun e => Unless (Stopped m e)) := by
  -- the keys still to come, deleted from the present indexes, give the final ones
  refine (Spec.forEach (I := fun rest => Unless fun v => Sound m v ∧ Frame w v ∧
    v.db.idx.deleteAll rest = w.db.idx.deleteAll keys ∧ Shrinks w v ∧
    ∀ key ∈ rest, Utf8.valid key = true) ?_ keys).conseq ?_ ?_ fun _ _ hv => hv
  · intro key rest
    refine Spec.unless (deleteLocked_keeps key) ?_
    rintro u _ ⟨hu, hframe, hidx, hshrinks, hvalid⟩
    rw [List.forall_mem_cons] at hvalid
    refine (deleteLocked_spec hA hu (hframe.closed.trans hopen) hvalid.1).post
      (fun _ v hv hwrap => ?_) fun _ _ hv => hv
    obtain ⟨hv, hframe', hdel, hcells⟩ := hv hwrap
    refine ⟨hv, hframe.trans hframe', ?_, hshrinks.trans (Shrinks.of_update hcells), hvalid.2⟩
    rw [hdel]
    exact hidx
  · rintro v rfl _
    exact ⟨h, Frame.refl v, rfl, Shrinks.refl v, hkeys⟩
  · intro _ v hv hwrap
    obtain ⟨hv, hframe, hidx, hshrinks, _⟩ := hv hwrap
    exact ⟨hv, hframe, hidx, hshrinks⟩

/-- The keys an index evicts are keys of the store. -/
theorem victims_valid (h : Sound m w) (hopen : w.db.closed = false) {si : SecIndex}
    (hsi : si ∈ w.db.idx.secs.items) {val : AnyValue} (henc : val.encode ≠ none) :
    ∀ key ∈ si.victims val, Utf8.valid key = true := by
  intro key hkey
  have hstore := h.2.2 hopen
  obtain ⟨hmax, probe, hentry⟩ := SecIndex.of_mem_victims hkey
  have hprobe := SecIndex.nanFree_makeEntry henc hentry
  have hnan := hstore.inStep.inv.nanFree hsi
  rw [si.victims_eq hnan hmax hentry hprobe,
    si.group_eq hnan (SecIndex.makeEntry_pk hentry) hprobe] at hkey
  obtain ⟨e, he, rfl⟩ := List.mem_map.mp (List.mem_of_mem_take hkey)
  obtain ⟨p, hp, hidx⟩ := (hstore.inStep.inv.mem_iff si hsi e).mp (List.mem_filter.mp he).1
  rw [hidx.pk]
  exact hstore.mirrors.key p hp

theorem enforceOne_spec (hA : ∀ k, ¬ A (.fail k)) (h : Sound m w) (hopen : w.db.closed = false)
    {nv : Bytes × AnyValue} (henc : nv.2.encode ≠ none) :
    Spec A (fun v => v = w) (enforceOne nv)
      (fun _ => Unless fun v => Sound m v ∧ Frame w v ∧ v.db.idx = w.db.idx.enforceOne nv ∧
        Shrinks w v)
      (fun e => Unless (Stopped m e)) := by
  unfold enforceOne Indexes.enforceOne
  refine Spec.bind_getWorld ?_
  rintro w rfl
  cases hsi : w.db.idx.secs.get nv.1 with
  | none =>
      refine Spec.pure ?_
      rintro v rfl _
      exact ⟨h, Frame.refl v, rfl, Shrinks.refl v⟩
  | some si =>
      exact deleteAll_spec hA h hopen
        (victims_valid h hopen (SecIndexes.get_eq_some.mp hsi).1 henc)

/-- `enforceMaxPerValue` of a sound store. -/
theorem enforceMaxPerValue_spec (hA : ∀ k, ¬ A (.fail k)) (h : Sound m w)
    (hopen : w.db.closed = false) (ord : MapOrder) {ix : AnyMap} (henc : AnyMap.Encodable ix) :
    Spec A (fun v => v = w) (enforceMaxPerValue ord ix)
      (fun _ => Unless fun v => Sound m v ∧ Frame w v ∧
        v.db.idx = w.db.idx.enforce (ord.items ix) ∧ Shrinks w v)
      (fun e => Unless (Stopped m e)) := by
  refine (Spec.forEach (I := fun rest => Unless fun v => Sound m v ∧ Frame w v ∧
    v.db.idx.enforce rest = w.db.idx.enforce (ord.items ix) ∧ Shrinks w v ∧
    ∀ nv ∈ rest, nv.2.encode ≠ none) ?_ (ord.items ix)).conseq ?_ ?_ fun _ _ hv => hv
  · intro nv rest
    refine Spec.unless (enforceOne_keeps nv) ?_
    rintro u _ ⟨hu, hframe, hidx, hshrinks, hall⟩
    rw [List.forall_mem_cons] at hall
    refine (enforceOne_spec hA hu (hframe.closed.trans hopen) hall.1).post
      (fun _ v hv hwrap => ?_) fun _ _ hv => hv
    obtain ⟨hv, hframe', hone, hshrinks'⟩ := hv hwrap
    refine ⟨hv, hframe.trans hframe', ?_, hshrinks.trans hshrinks', hall.2⟩
    rw [hone]
    exact hidx
  · rintro v rfl _
    exact ⟨h, Frame.refl v, rfl, Shrinks.refl v,
      fun nv hnv => henc nv ((ord.perm ix).mem_iff.mp hnv)⟩
  · intro _ v hv hwrap
    obtain ⟨hv, hframe, hidx, hshrinks, _⟩ := hv hwrap
    exact ⟨hv, hframe, hidx, hshrinks⟩

end Quiet

end NteeDb.Core
