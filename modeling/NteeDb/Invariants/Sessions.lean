import NteeDb.Core.Runs
import NteeDb.Invariants.Reopen
import NteeDb.Invariants.Rewrites

/-!
# Runs of a sound store

Every operation whose file steps are not refused leaves a sound store sound, and one that
is cut off leaves sound files (`op_sound`).  So every world that a run from an empty
directory reaches is sound, as long as no length has wrapped (`sound_run`).
-/

namespace NteeDb.Core

open NteeDb.Verified
open Faults Lines OrderedTree JsonCodec

variable {A : Answer → Prop} {m : Mode} {w v : World}

/-! ## Operations -/

/-- The keys and index values that an operation writes survive JSON. -/
def Op.Carried : Op → Prop
  | .put _ key _ _ => Utf8.valid key = true
  | .putIndexed _ key _ ix _ => Utf8.valid key = true ∧ CarriedMap ix
  | .putBatch _ items => ∀ it ∈ items, Utf8.valid it.key = true ∧ CarriedMap it.ix
  | .incr key _ _ => Utf8.valid key = true
  | .topup key _ _ _ => Utf8.valid key = true
  | .take key _ _ _ => Utf8.valid key = true
  | _ => True

theorem Stranded.failed {e : Err} (h : Stranded m w e v) : Failed m e v := by
  cases h with
  | crash hdisk => exact ⟨by rintro ⟨⟩, fun _ => hdisk, fun hfatal => nomatch hfatal⟩
  | disabled _ _ _ _ _ _ => exact ⟨by rintro ⟨⟩, by rintro ⟨⟩, fun _ hio => nomatch hio⟩

theorem Err.ne_panic_of_nonfatal {e : Err} (h : e.fatal = false) : e ≠ .panic := by
  rintro rfl
  cases h

theorem RewriteFailed.failed {T : Bytes → Record → Record → Bytes → Prop} {F : Bytes → Cell → Cell}
    {e : Err} (h : RewriteFailed A m w T F e v) (hA : ∀ k, ¬ A (.fail k)) (hw : Sound m w) :
    Failed m e v := by
  cases h with
  | closed _ => exact hw.failed (by rintro ⟨⟩)
  | early _ hstray hrelieve hfatal =>
      exact (hstray.sound hw hrelieve).failed (Err.ne_panic_of_nonfatal hfatal)
  | stranded hs => exact hs.failed
  | late _ _ _ hfail =>
      obtain ⟨k, hk⟩ := hfail
      exact absurd hk (hA k)

theorem ReindexFailed.failed {e : Err} (h : ReindexFailed A m w e v) (hA : ∀ k, ¬ A (.fail k))
    (hw : Sound m w) : Failed m e v := by
  cases h with
  | rewrite h => exact h.failed hA hw
  | unmarked _ hs _ he => exact hs.marked.2.failed he.ne_panic

theorem RelieveFailed.failed {e : Err} (h : RelieveFailed A m w e v) (hA : ∀ k, ¬ A (.fail k))
    (hw : Sound m w) : Failed m e v := by
  cases h with
  | closed _ => exact hw.failed (by rintro ⟨⟩)
  | early _ _ hrelieve hgone hfatal =>
      rcases hgone with hstray | ⟨k, hk⟩
      · exact (hstray.sound hw hrelieve).failed (Err.ne_panic_of_nonfatal hfatal)
      · exact absurd hk (hA k)
  | stranded hs => exact hs.failed
  | late _ _ _ _ hfail _ _ _ =>
      obtain ⟨k, hk⟩ := hfail
      exact absurd hk (hA k)

/-- `BlobsRelieve` of a sound store none of whose file steps is refused. -/
theorem blobsRelieve_spec (hA : ∀ k, ¬ A (.fail k)) (h : Sound m w) :
    Spec A (fun v => v = w) blobsRelieve
      (fun _ => Unless fun v => w.db.closed = false ∧ w.db.curGen ≠ maxInt64 ∧ Sound m v ∧
        FreshHint v ∧
        Rewritten A (some w.db.nextGen) w (relieveStep w.db.nextGen w) (compactCell w.db) v)
      (fun e => Unless (RelieveFailed A m w e)) := by
  refine (blobsRelieve_cases h).post (fun _ v hv hwrap => ?_) fun _ _ hv => hv
  obtain ⟨hopen, hmax, hdisk, hflight, hhint, hrelieve, hrew⟩ := hv hwrap
  have hserving := hrew.serving h hopen (by rintro _ ⟨⟩; exact nextGen_fresh (h.2.2 hopen) hmax)
    (Or.inr hA)
  exact ⟨hopen, hmax, ⟨hdisk, hflight, fun _ => hserving.inStore hrelieve⟩, hhint, hrew⟩

/-- The background writer leaves a sound store sound. -/
theorem WroteOn.sound (h : WroteOn w v) (hw : Sound m w) (hdisk : OnDisk m v) : Sound m v := by
  refine ⟨hdisk, h.inFlight hw.2.1, fun hopen => ?_⟩
  have hopen : w.db.closed = false := h.re.frame.1.closed.symm.trans hopen
  exact (h.re.serving (hw.2.2 hopen).serving).inStore (h.re.relieve.trans (hw.2.2 hopen).noRelieve)

section Drop

variable {α : Type} {c : StoreM α}

/-- An operation is sound if its program is. -/
theorem dropValue_sound {Q : α → World → Prop}
    (h : Spec A (fun v => v = w) c (fun a => Unless (Q a)) fun e => Unless (Failed m e))
    (hQ : ∀ a v, Q a v → Sound m v) :
    Spec A (fun v => v = w) (dropValue c) (fun _ => Unless (Sound m))
    fun e => Unless (Failed m e) :=
  Spec.bind h fun a => Spec.pure fun v hv hwrap => hQ a v (hv hwrap)

/-- A lookup leaves a sound store sound. -/
theorem dropValue_queued {Q : α → World → Prop} {E : Err → World → Prop} (hw : Sound m w)
    (h : Spec A (fun v => v = w) c Q E) (hQ : ∀ a v, Q a v → Queued w v)
    (hE : ∀ e v, E e v → Queued w v ∧ e ≠ .panic) :
    Spec A (fun v => v = w) (dropValue c) (fun _ => Unless (Sound m))
    fun e => Unless (Failed m e) :=
  Spec.bind (h.errors fun e v hv _ => ((hE e v hv).1.sound hw).failed (hE e v hv).2) fun a =>
    Spec.pure fun v hv _ => (hQ a v hv).sound hw

theorem counterOp_sound {β : Type} (hA : ∀ k, ¬ A (.fail k)) (hw : Sound m w) {key : Bytes}
    (hkey : Utf8.valid key = true) (ttl : List Int64) {step : Int64 → Except Err (Option Int64 × β)}
    (hstep : ∀ cur e, step cur = .error e → e = .counterOverflow) :
    Spec A (fun v => v = w) (counterOp key ttl step) (fun _ => Unless (Sound m))
      fun e => Unless (Failed m e) :=
  (counterOp_spec hA hw hkey ttl hstep).post (fun _ _ hv hwrap => (hv hwrap).1)
    fun _ _ hv hwrap => (hv hwrap).1

theorem checkedCounterOp_sound {β : Type} (hA : ∀ k, ¬ A (.fail k)) (hw : Sound m w) {key : Bytes}
    (hkey : Utf8.valid key = true) (amount : Int64) (ttl : List Int64)
    {step : Int64 → Except Err (Option Int64 × β)}
    (hstep : ∀ cur e, step cur = .error e → e = .counterOverflow) :
    Spec A (fun v => v = w)
      (do require (decide (0 ≤ amount)) .negativeAmount; counterOp key ttl step)
      (fun _ => Unless (Sound m)) fun e => Unless (Failed m e) := by
  refine Spec.bind_require ?_ fun _ => counterOp_sound hA hw hkey ttl hstep
  rintro v rfl _ _
  exact hw.failed (by rintro ⟨⟩)

end Drop

theorem incrStep_error {delta cur : Int64} {e : Err} (h : incrStep delta cur = .error e) :
    e = .counterOverflow := by
  rw [incrStep] at h
  split at h
  · cases h
    rfl
  · cases h

theorem topupStep_error {amount max cur : Int64} {e : Err} :
    topupStep amount max cur ≠ .error e := by
  rintro ⟨⟩

theorem takeStep_error {amount left cur : Int64} {e : Err} :
    takeStep amount left cur ≠ .error e := by
  rw [takeStep]
  split <;> rintro ⟨⟩

/-- Every operation none of whose file steps is refused keeps a sound store sound. -/
theorem op_sound (hA : ∀ k, ¬ A (.fail k)) (hw : Sound m w) (o : Op) (ho : o.Carried) :
    Spec A (fun v => v = w) o.run (fun _ => Unless (Sound m)) fun e => Unless (Failed m e) := by
  cases o with
  | put ord key value ttl =>
      exact (putIndexed_spec hA hw ord ho value storable_empty.carried ttl).post
        (fun _ _ hv hwrap => (hv hwrap).1) fun _ _ hv hwrap => (hv hwrap).1
  | putIndexed ord key value ix ttl =>
      exact (putIndexed_spec hA hw ord ho.1 value ho.2 ttl).post
        (fun _ _ hv hwrap => (hv hwrap).1) fun _ _ hv hwrap => (hv hwrap).1
  | putBatch ords items =>
      exact (putBatch_spec hA hw ords ho).post (fun _ _ hv hwrap => (hv hwrap).1) fun _ _ hv => hv
  | delete key =>
      exact (delete_spec hA hw key).post (fun _ _ hv hwrap => (hv hwrap).1) fun _ _ hv => hv
  | removeByPkLess cutoff =>
      exact dropValue_sound (removeRange_spec hA hw fun _ => mem_of_pkLess) fun _ _ hv => hv.1
  | removeByPkGreater cutoff =>
      exact dropValue_sound (removeRange_spec hA hw fun _ => mem_of_pkGreater) fun _ _ hv => hv.1
  | incr key delta ttl =>
      exact dropValue_sound (counterOp_sound hA hw ho ttl fun _ _ => incrStep_error)
        fun _ _ hv => hv
  | topup key amount max ttl =>
      exact dropValue_sound (checkedCounterOp_sound hA hw ho amount ttl
        fun _ _ he => absurd he topupStep_error) fun _ _ hv => hv
  | take key amount left ttl =>
      exact dropValue_sound (checkedCounterOp_sound hA hw ho amount ttl
        fun _ _ he => absurd he takeStep_error) fun _ _ hv => hv
  | get key =>
      refine dropValue_queued hw (get_spec hA hw key) (fun _ _ hv => hv.1) ?_
      rintro e v ⟨hv, rfl | ⟨rfl, _⟩⟩ <;> exact ⟨hv, by rintro ⟨⟩⟩
  | getMany keys =>
      refine dropValue_queued hw (getMany_spec hA hw keys) (fun _ _ hv => hv.1) ?_
      rintro e v ⟨hv, rfl | ⟨rfl, _⟩⟩ <;> exact ⟨hv, by rintro ⟨⟩⟩
  | has key =>
      exact dropValue_queued hw (has_spec hw key) (fun _ _ hv => hv.1) fun _ _ hv => hv.elim
  | prefixScan p =>
      refine dropValue_queued hw (prefixScan_spec hw p) (fun _ _ hv => hv.1) ?_
      rintro e v ⟨rfl, rfl, _⟩
      exact ⟨Queued.refl v, by rintro ⟨⟩⟩
  | compact =>
      exact (compact_spec hw).post (fun _ _ hv hwrap => (hv hwrap).2.1)
        fun _ _ hv hwrap => (hv hwrap).failed hA hw
  | reindex =>
      refine (reindex_spec hw).post (fun _ _ hv hwrap => ?_)
        fun _ _ hv hwrap => (hv hwrap).failed hA hw
      obtain ⟨z, _, hz, _, _, rfl⟩ := hv hwrap
      exact hz.marked.1
  | blobsRelieve =>
      exact (blobsRelieve_spec hA hw).post (fun _ _ hv hwrap => (hv hwrap).2.2.1)
        fun _ _ hv hwrap => (hv hwrap).failed hA hw
  | close =>
      refine (close_spec hw).post (fun _ _ hv _ => hv.sound) ?_
      rintro e v (⟨rfl, _⟩ | ⟨rfl, hv⟩) _
      · exact Failed.io
      · exact hv.failed
  | reapCycle n =>
      refine (reapCycle_spec hA hw n).post (fun _ _ hv hwrap => (hv hwrap).1) ?_
      intro e v hv hwrap
      obtain ⟨rfl, hdisk⟩ := hv hwrap
      exact ⟨by rintro ⟨⟩, fun _ => hdisk, fun hfatal => nomatch hfatal⟩
  | hintAsyncFlush =>
      refine (hintAsyncFlush_cases hw.1).post (fun _ _ hv _ => hv.2.1.sound hw hv.1) ?_
      rintro e v ⟨rfl, hv⟩ _
      exact hv.failed
  | hintAsyncWrite =>
      refine (hintAsyncWrite_cases hw.1 hw.2.1.pending).post
        (fun _ _ hv _ => hv.2.1.sound hw hv.1) ?_
      rintro e v ⟨rfl, hv⟩ _
      exact hv.failed

/-! ## Events -/

/-- No file step is refused; the process may die at any. -/
def Answered (plan : List Answer) : Prop := ∀ k, Answer.fail k ∉ plan

theorem Answered.answers {plan : List Answer} (h : Answered plan) :
    Answers (fun a => ∀ k, a ≠ .fail k) plan := by
  rintro a ha k rfl
  exact h k ha

/-- An answer other than a refusal. -/
def Quiet (a : Answer) : Prop := ∀ k, a ≠ .fail k

theorem not_quiet_fail (k : Nat) : ¬ Quiet (.fail k) := fun h => h k rfl

/-- An operation ends with an error. -/
def Fails {α : Type} (c : StoreM α) (plan : List Answer) (w : World) (e : Err) : Prop :=
  (c ⟨w, plan⟩).1 = .error e

/-- What is written survives JSON. -/
def Event.Carried : Event → Prop
  | .openStore opts _ => CarriedDefs opts.indexes
  | .op o _ => o.Carried
  | _ => True

/-- No file step of the event is refused. -/
def Event.Quiet (w : World) : Event → Prop
  | .openStore _ plan => Answered plan
  | .op o plan => Answered plan ∧ ∀ e, Fails o.run plan w e → e.isIO = false
  | _ => True

/-- The process does not die within the event. -/
def Event.Whole (w : World) : Event → Prop
  | .openStore opts plan => ¬ Fails (NteeDb.Core.openStore opts) plan w .crash
  | .op o plan => ¬ Fails o.run plan w .crash
  | _ => True

/-- The events of a run that is followed in a mode.  Where the hint need not be fresh, an
`Open` must not come upon one that was taken of an earlier log. -/
structure Allowed (m : Mode) (w : World) (ev : Event) : Prop where
  carried : ev.Carried
  quiet : ev.Quiet w
  whole : m.freshHint = true → ev.Whole w
  hint : m.freshHint = false → ∀ opts plan, ev = .openStore opts plan →
    w.dir.usableHint.isSome = true → w.hintInode = w.inode
  clock : m.history = true → ∀ now, ev = .tick now → w.now.ms ≤ now.ms

/-- The program returns without an error. -/
def Succeeds {α : Type} (c : StoreM α) (plan : List Answer) (w : World) : Bool :=
  (c ⟨w, plan⟩).1.toBool

theorem Succeeds.not_fails {α : Type} {c : StoreM α} {plan : List Answer}
    (h : Succeeds c plan w = true) (e : Err) : ¬ Fails c plan w e := by
  intro hfails
  rw [Succeeds, hfails] at h
  cases h

theorem Allowed.op_of_ok {o : Op} {plan : List Answer} (ho : o.Carried) (hplan : Answered plan)
    (hok : Succeeds o.run plan w = true) : Allowed m w (.op o plan) :=
  ⟨ho, ⟨hplan, fun e he => absurd he (Succeeds.not_fails hok e)⟩, fun _ => Succeeds.not_fails hok _,
    fun _ _ _ hop => (nomatch hop), fun _ _ hop => (nomatch hop)⟩

theorem Allowed.open_of_ok {opts : Options} {plan : List Answer} (ho : CarriedDefs opts.indexes)
    (hplan : Answered plan) (hok : Succeeds (NteeDb.Core.openStore opts) plan w = true)
    (hhint : m.freshHint = false → w.dir.usableHint.isSome = true → w.hintInode = w.inode) :
    Allowed m w (.openStore opts plan) :=
  ⟨ho, hplan, fun _ => Succeeds.not_fails hok _, fun hm _ _ _ => hhint hm,
    fun _ _ hop => nomatch hop⟩

theorem Allowed.kill : Allowed m w .kill :=
  ⟨trivial, trivial, fun _ => trivial, fun _ _ _ hop => (nomatch hop), fun _ _ hop => (nomatch hop)⟩

theorem answered_nil : Answered [] := fun _ h => nomatch h

/-- What a specification says of the world after a program. -/
theorem exec_spec {α : Type} {c : StoreM α} {P : World → Prop} {Q : α → World → Prop}
    {E : Err → World → Prop} (h : Spec A P c Q E) (hw : P w) {plan : List Answer}
    (hplan : Answers A plan) {R : World → Prop} (hok : ∀ a v, Q a v → R v)
    (herr : ∀ e v, Fails c plan w e → E e v → R (if e.fatal then v.kill else v)) :
    R (exec c plan w) := by
  have hrun := h ⟨w, plan⟩ ⟨hw, hplan⟩
  unfold Fails at herr
  rw [exec]
  revert hrun herr
  cases c ⟨w, plan⟩ with
  | mk r s =>
      cases r with
      | ok a => exact fun _ hrun => hok a s.world hrun.1
      | error e => exact fun herr hrun => herr e s.world rfl hrun.1

/-- The files of a dead process. -/
theorem OnDisk.killed (h : OnDisk m w) : Sound m w.kill :=
  ⟨h, fun _ hj => (nomatch hj), fun hopen => (nomatch hopen)⟩

theorem Sound.tick (h : Sound m w) {now : Millis} (hle : m.history = true → w.now.ms ≤ now.ms) :
    Sound m { w with now := now } :=
  ⟨⟨h.1.1, fun hm => (h.1.2.1 hm).later (hle hm), h.1.2.2⟩, h.2.1, h.2.2⟩

/-- A usable hint is one that is there. -/
theorem Dir.hint_of_usable {d : Dir} (h : d.usableHint.isSome = true) : d.hint ≠ none := by
  intro hnone
  rw [Dir.usableHint, hnone] at h
  cases h

/-- `Open` comes upon a hint of the current log only. -/
theorem Allowed.usable {opts : Options} {plan : List Answer}
    (h : Allowed m w (.openStore opts plan))
    (hw : OnDisk m w) : w.dir.usableHint.isSome = true → w.hintInode = w.inode := by
  intro husable
  cases hm : m.freshHint with
  | false => exact h.hint hm opts plan rfl husable
  | true => exact (hw.2.2 hm).resolve_left (Dir.hint_of_usable husable)

/-- What an error leaves, once the process is gone if it was fatal. -/
theorem Failed.settled {e : Err} (h : Failed m e v) (hio : e.isIO = false)
    (hwhole : m.freshHint = true → e ≠ .crash) : Sound m (if e.fatal then v.kill else v) := by
  cases hfatal : e.fatal with
  | false => exact h.sound hfatal hio
  | true =>
      have hcrash := Err.crash_of_fatal hfatal h.panic
      have hm : m.cutOff = m := by
        cases m with
        | mk history freshHint =>
            cases freshHint with
            | false => rfl
            | true => exact absurd hcrash (hwhole rfl)
      have hdisk := h.crash hcrash
      rw [hm] at hdisk
      exact hdisk.killed

theorem Unless.killed {P : World → Prop} {e : Err}
    (h : (v.wrapped = false → P (if e.fatal then v.kill else v))) :
    Unless P (if e.fatal then v.kill else v) := by
  intro hwrap
  refine h ?_
  cases hfatal : e.fatal <;> rw [hfatal] at hwrap <;> exact hwrap

/-- An allowed event keeps a sound world sound, unless a length wraps. -/
theorem event_sound {ev : Event} (hev : Allowed m w ev) (hw : Unless (Sound m) w) :
    Unless (Sound m) (ev.apply w) := by
  have hA : ∀ k, ¬ ∀ k', Answer.fail k ≠ .fail k' := fun k h => h k rfl
  cases ev with
  | tick now => exact fun hwrap => (hw hwrap).tick fun hm => hev.clock hm now rfl
  | kill => exact fun hwrap => (hw hwrap).1.killed
  | op o plan =>
      have hspec := Spec.unless (A := fun a => ∀ k, a ≠ .fail k) (P := Sound m) (op_keeps o)
        fun w _ hw => op_sound hA hw o hev.carried
      refine exec_spec hspec hw hev.quiet.1.answers (fun _ _ hv => hv) fun e v hfails hv => ?_
      refine Unless.killed fun hwrap => (hv hwrap).settled (hev.quiet.2 e hfails) fun hm => ?_
      rintro rfl
      exact hev.whole hm hfails
  | openStore opts plan =>
      have hkeeps : Keeps (fun a => ∀ k, a ≠ .fail k) (Watched { wrapped := true })
          (openStore opts) :=
        (openStore_keeps opts).pre fun _ h => ⟨h, fun hk => nomatch hk⟩
      have hspec := Spec.unless (P := fun v => v = w ∧ Sound m w)
        (Q := fun _ => Sound m) (E := fun e v => Failed m e v ∧ e.isIO = false) hkeeps ?_
      · refine exec_spec hspec (fun hwrap => ⟨rfl, hw hwrap⟩) (Answered.answers hev.quiet)
          (fun _ _ hv => hv) fun e v hfails hv => ?_
        refine Unless.killed fun hwrap => (hv hwrap).1.settled (hv hwrap).2 fun hm => ?_
        rintro rfl
        exact hev.whole hm hfails
      · rintro u _ ⟨rfl, hw⟩
        refine (openStore_sound hA hw.1 (hev.usable hw.1) hev.carried).post
          (fun _ _ hv _ => hv.1) ?_
        rintro e v (⟨rfl, hv, _⟩ | ⟨rfl, hrefused⟩) _
        · exact ⟨hv.failed, rfl⟩
        · exact ⟨hw.failed (Err.ne_panic_of_nonfatal hrefused.harmless.1), hrefused.harmless.2⟩

/-! ## Runs -/

/-- An empty directory, with no store open. -/
theorem sound_empty (m : Mode) (now : Millis) : Sound m { now := now } := by
  refine ⟨⟨⟨⟨rfl, ?_, ?_, ?_⟩, ?_, le_refl _⟩, fun _ _ => rfl, fun _ => Or.inl rfl⟩, ?_, ?_⟩
  · rintro l ⟨⟩
  · show 0 < maxFileSize
    decide
  · intro gen
    show 0 < maxFileSize
    decide
  · rintro _ es covers ⟨⟩
  · rintro j ⟨⟩
  · rintro ⟨⟩

/-- Every world of a run from an empty directory is sound, unless a length has wrapped. -/
theorem sound_run {now : Millis} (h : Reaches (Allowed m) { now := now } w) : Unless (Sound m) w :=
  h.invariant (fun _ => sound_empty m now) fun _ _ => event_sound

end NteeDb.Core
