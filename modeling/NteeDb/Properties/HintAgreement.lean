import NteeDb.Invariants.Sessions

/-!
# The hint and the full scan

A background writer carries a snapshot of the index to the hint file while mutations,
checkpoints and rewrites go on; a generation number lets a checkpoint overtake it.  Whatever
the order of the steps, the hint that lies beside the log is of that log: its entries and a
replay from where it ends give what a replay of the whole log gives.

Two keys that JSON cannot tell apart break this: the log is replayed in the order of the
writes, the hint in the order of the keys.

## Main results

* `hint_agrees_with_scan` — the two ways to load the index, in every state of a run.
* `hint_reorders_keys` — two writes, with the other one winning in the hint.
-/

namespace NteeDb.Properties.HintAgreement

open NteeDb.Verified
open Faults Lines OrderedTree JsonCodec
open NteeDb.Core

/-! ## Checkpoints and the background writer -/

/-- A step of the background writer. -/
inductive Background where
  | flush
  | write

def Background.run : Background → StoreM Unit
  | .flush => hintAsyncFlush
  | .write => hintAsyncWrite

/-- A checkpoint, with steps of the background writer between the new generation number and
the hint. -/
def racedCheckpoint (steps : List Background) : StoreM Unit := do
  bumpHintGen
  Prog.forEach steps Background.run
  checkpointHint

/-- Every hint is of the log it lies beside. -/
def fresh : Mode := ⟨false, true⟩

/-- The states between the atomic steps of a run from an empty directory: operations, the
steps of the background writer between them, and checkpoints with such steps inside. -/
inductive Interleaved (now : Millis) : World → Prop
  | start : Interleaved now { now := now }
  | event {w : World} {ev : Event} (hw : Interleaved now w) (hev : Allowed fresh w ev) :
      Interleaved now (ev.apply w)
  | checkpoint {w : World} (hw : Interleaved now w) (hopen : w.db.closed = false)
      (steps : List Background) {plan : List Answer} (hplan : Answered plan)
      (hok : Succeeds (racedCheckpoint steps) plan w = true) :
      Interleaved now (exec (racedCheckpoint steps) plan w)

variable {A : Answer → Prop} {m : Mode} {w v : World}

/-- A step of the background writer, wherever it comes. -/
theorem background_spec (h : Live m w) (b : Background) :
    Spec A (fun v => v = w) b.run (fun _ v => Live m v ∧ Rehinted w v) fun e _ => e = .crash := by
  have hnext : ∀ v, OnDisk m v → WroteOn w v → Live m v ∧ Rehinted w v := fun v hdisk hv =>
    ⟨⟨hdisk, hv.inFlight h.2.1, hv.re.serving h.2.2⟩, hv.re⟩
  cases b with
  | flush =>
      exact (hintAsyncFlush_cases h.1).post (fun _ v hv => hnext v hv.1 hv.2.1) fun _ _ hv => hv.1
  | write =>
      exact (hintAsyncWrite_cases h.1 h.2.1.pending).post
        (fun _ v hv => hnext v hv.1 hv.2.1) fun _ _ hv => hv.1

/-- A checkpoint is not disturbed by the background writer. -/
theorem racedCheckpoint_spec (h : Live m w) (steps : List Background) :
    Spec A (fun v => v = w) (racedCheckpoint steps) (fun _ v => Live m v ∧ Rehinted w v)
      fun _ _ => True := by
  have hbump : Live m w.bumped ∧ Rehinted w w.bumped := by
    have hre : Rehinted w w.bumped := ⟨⟨_, rfl⟩, ⟨_, _, _, rfl⟩, rfl, rfl, rfl⟩
    exact ⟨⟨h.1, h.2.1.bump, hre.serving h.2.2⟩, hre⟩
  unfold racedCheckpoint
  refine Spec.bind (Spec.updateDB (Q := fun _ v => Live m v ∧ Rehinted w v) ?_) fun _ => ?_
  · intro v hv
    rw [hv]
    exact hbump
  refine Spec.bind (Q := fun _ v => Live m v ∧ Rehinted w v) ?_ fun _ => ?_
  · refine Spec.forEach (I := fun _ v => Live m v ∧ Rehinted w v) (fun b _ => ?_) steps
    refine Spec.of_world fun u hu => ?_
    exact (background_spec hu.1 b).post (fun _ v hv => ⟨hv.1, hu.2.trans hv.2⟩) fun _ _ _ => trivial
  · refine Spec.of_world fun u hu => ?_
    exact (checkpointHint_cases hu.1.1 hu.1.2.1 hu.1.2.2.hintable).post
      (fun _ v hv => ⟨⟨hv.1, hv.2.1, hv.2.2.1.serving hu.1.2.2⟩, hu.2.trans hv.2.2.1⟩)
      fun _ _ _ => trivial

theorem racedCheckpoint_keeps (steps : List Background) :
    Keeps A (Watched { wrapped := true }) (racedCheckpoint steps) := by
  refine Keeps.bind (Keeps.updateDB fun _ hv => hv) fun _ =>
    Keeps.bind (Keeps.forEach (fun b => ?_) steps) fun _ => checkpointHint_keeps
  cases b with
  | flush => exact hintAsyncFlush_keeps
  | write => exact hintAsyncWrite_keeps

/-- Every state of a run is sound, unless a length has wrapped. -/
theorem Interleaved.sound {now : Millis} (h : Interleaved now w) : Unless (Sound fresh) w := by
  induction h with
  | start => exact fun _ => sound_empty fresh now
  | event _ hev ih => exact event_sound hev ih
  | @checkpoint w _ hopen steps plan hplan hok ih =>
      have hspec : Spec (fun a => ∀ k, a ≠ .fail k) (Unless fun u => u = w ∧ Sound fresh w)
          (racedCheckpoint steps) (fun _ => Unless (Sound fresh))
          fun _ => Unless fun _ => True := by
        refine Spec.unless (racedCheckpoint_keeps steps) ?_
        rintro u _ ⟨rfl, hu⟩
        refine (racedCheckpoint_spec (hu.live hopen) steps).post
          (fun _ v hv _ => ?_) fun _ _ _ _ => trivial
        exact hv.1.sound (hv.2.relieve.trans (hu.2.2 hopen).noRelieve)
      exact exec_spec hspec (fun hwrap => ⟨rfl, ih hwrap⟩) hplan.answers (fun _ _ hv => hv)
        fun e _ hfails _ => absurd hfails (Succeeds.not_fails hok e)

/-! ## Loading the index -/

/-- The hint with the entries `es` that covers `covers` bytes leads to the indexes of the
whole log. -/
structure FastPath (w : World) (es : List PkEntry) (covers : Int64) (secs : SecIndexes) : Prop where
  /-- It ends where a record does. -/
  boundary : ∃ k, k ≤ w.dir.log.length ∧ covers = Int64.ofNat (joinLines (w.dir.log.take k)).length
  /-- It does not reach past the end of the log. -/
  within : 0 ≤ covers ∧ covers ≤ fileSize w.dir.mainBytes
  /-- Its entries and a replay of the rest are a replay of the whole. -/
  same : scanMainLog w.dir.main covers w.dir.replayRecord
    (es.foldl Indexes.loadEntry ⟨Tree.empty, secs⟩)
    = scanMainLog w.dir.main 0 w.dir.replayRecord ⟨Tree.empty, secs⟩

theorem HintOf.within {d : Dir} (hlog : LogSound d d.log) {es : List PkEntry} {covers : Int64}
    (h : HintOf d.log es covers) : 0 ≤ covers ∧ covers ≤ fileSize d.mainBytes := by
  obtain ⟨k, _, hcovers, _⟩ := h
  have hsplit : (joinLines (d.log.take k)).length + (joinLines (d.log.drop k)).length
      = d.mainBytes.length := by
    rw [← List.length_append, ← joinLines_append, List.take_append_drop, ← hlog.main]
  have hsized : d.mainBytes.length < 2 ^ 63 := hlog.sized.1
  have hto : covers.toInt = (joinLines (d.log.take k)).length := by
    rw [hcovers]
    exact Int64.toInt_ofNat_of_lt (by omega)
  have hend : (fileSize d.mainBytes).toInt = d.mainBytes.length := Int64.toInt_ofNat_of_lt hsized
  rw [Int64.le_iff_toInt_le, Int64.le_iff_toInt_le, hto, hend, Int64.toInt_zero]
  omega

/-- **The hint fast path agrees with the full scan.**  In every state between the steps of a
run without I/O errors, a hint that loads gives, with the replay of the rest of the log, the
same primary entries and trees as a replay from the start. -/
theorem hint_agrees_with_scan {now : Millis} (hrun : Interleaved now w) (hfits : w.wrapped = false)
    {es : List PkEntry} {covers : Int64} (hload : loadIndexHint w.dir.hint = some (es, covers))
    {defs : List IndexDef} {secs : SecIndexes} (hdecl : declareAll defs noIndexes = .ok secs) :
    FastPath w es covers secs := by
  have hsound := hrun.sound hfits
  have hinode : w.hintInode = w.inode := by
    refine (hsound.1.2.2 rfl).resolve_left fun hnone => ?_
    rw [hnone] at hload
    cases hload
  have hof := hsound.1.1.hint hinode es covers hload
  have hlog := hsound.1.1.log
  refine ⟨?_, HintOf.within hlog hof, ?_⟩
  · obtain ⟨k, hk, hcovers, _⟩ := hof
    exact ⟨k, hk, hcovers⟩
  have hsecs : ∀ si ∈ secs.items, si.tree = Tree.empty :=
    declareAll_empty hdecl fun si hsi => absurd hsi List.not_mem_nil
  have hdecls : secs.decls = defs.map fun d => (newSecIndex d).decl := declareAll_decls hdecl
  cases hmain : w.dir.main with
  | none =>
      -- no log, so the hint is empty
      have hempty : w.dir.log = [] := by
        rw [Dir.log, Dir.mainBytes, hmain]
        rfl
      obtain ⟨k, hk, hcovers, hes⟩ := hof
      rw [hempty, List.take_nil] at hcovers hes
      rw [hcovers, hes]
      rfl
  | some bytes =>
      have hsome : w.dir.main.isSome = true := by rw [hmain]; rfl
      obtain ⟨idx, hscan, hpk, hstep⟩ := hlog.scan_hint hsome hof hsecs hdecls
      obtain ⟨idx', hscan', hpk', hstep'⟩ :=
        hlog.scan_hint hsome (hintOf_zero w.dir.log) hsecs hdecls
      rw [← hmain, hscan, hstep.ext hstep' (hpk.trans hpk'.symm)]
      exact hscan'.symm

/-- A snapshot is taken of the first record, and written when there are two; then another one
is overtaken by a checkpoint. -/
def snapshots : World := runEvents { now := ⟨0, Millis.zero_bounded⟩ }
  [.openStore { hintEveryN := 1 } [], .op (.put .sorted [0x61] [0x31] []) [],
    .op (.put .sorted [0x62] [0x32] []) [], .op .hintAsyncFlush [], .op .hintAsyncWrite [],
    .op (.put .sorted [0x63] [0x33] []) []]

theorem interleaved_runEvents {now : Millis} {evs : List Event} (hw : Interleaved now w)
    (hevs : AllowedRun (Allowed fresh) w evs) : Interleaved now (runEvents w evs) := by
  induction evs generalizing w with
  | nil => exact hw
  | cons ev evs ih => exact ih (.event hw hevs.1) hevs.2

theorem interleaved_snapshots : Interleaved ⟨0, Millis.zero_bounded⟩ snapshots := by
  refine interleaved_runEvents .start
    ⟨.open_of_ok (List.forall_mem_nil _) answered_nil (by decide +kernel) ?_,
    .op_of_ok (show Utf8.valid [0x61] = true by decide) answered_nil (by decide +kernel),
    .op_of_ok (show Utf8.valid [0x62] = true by decide) answered_nil (by decide +kernel),
    .op_of_ok trivial answered_nil (by decide +kernel),
    .op_of_ok trivial answered_nil (by decide +kernel),
    .op_of_ok (show Utf8.valid [0x63] = true by decide) answered_nil (by decide +kernel), trivial⟩
  intro hfresh
  cases hfresh

theorem overtaken_snapshot_agrees : ∃ es covers,
    loadIndexHint (exec (racedCheckpoint [.flush, .write]) [] snapshots).dir.hint
      = some (es, covers) ∧
      FastPath (exec (racedCheckpoint [.flush, .write]) [] snapshots) es covers noIndexes := by
  have hrun : Interleaved ⟨0, Millis.zero_bounded⟩
      (exec (racedCheckpoint [.flush, .write]) [] snapshots) :=
    .checkpoint interleaved_snapshots (by decide +kernel) _ answered_nil (by decide +kernel)
  have hfits : (exec (racedCheckpoint [.flush, .write]) [] snapshots).wrapped
      = false := by decide +kernel
  have hload : (loadIndexHint (exec (racedCheckpoint [.flush, .write])
      [] snapshots).dir.hint).isSome = true := by decide +kernel
  generalize exec (racedCheckpoint [.flush, .write]) [] snapshots = v at hrun hfits hload ⊢
  obtain ⟨⟨es, covers⟩, hload⟩ := Option.isSome_iff_exists.mp hload
  exact ⟨es, covers, hload, hint_agrees_with_scan hrun hfits hload (show declareAll [] noIndexes
    = .ok _ from rfl)⟩

/-! ## Keys that JSON cannot tell apart -/

/-- Two keys that are written as U+FFFD, the higher one first. -/
def collision : World := runEvents { now := ⟨0, Millis.zero_bounded⟩ }
  [.openStore {} [], .op (.put .sorted [0xFF] [0x31] []) [], .op (.put .sorted [0xFE] [0x32] []) [],
    .op .close []]

/-- Where U+FFFD is found. -/
def placeOf (r : Except Err (Indexes × Int64)) : Option Int64 :=
  r.toOption.bind fun x => (x.1.pk.get [0xEF, 0xBF, 0xBD]).map PkEntry.off

/-- The scan ends with the record written last, the hint with that of the higher key. -/
theorem hint_reorders_keys : ∃ es covers, loadIndexHint collision.dir.hint = some (es, covers) ∧
    placeOf (scanMainLog collision.dir.main covers collision.dir.replayRecord
      (es.foldl Indexes.loadEntry ⟨Tree.empty, noIndexes⟩)) = some 0 ∧
    placeOf (scanMainLog collision.dir.main 0 collision.dir.replayRecord ⟨Tree.empty, noIndexes⟩)
      = some 23 := by
  have hload : (loadIndexHint collision.dir.hint).isSome = true := by decide +kernel
  obtain ⟨⟨es, covers⟩, hhint⟩ := Option.isSome_iff_exists.mp hload
  have hfast : placeOf (scanMainLog collision.dir.main
      ((loadIndexHint collision.dir.hint).getD ([], 0)).2
      collision.dir.replayRecord (((loadIndexHint collision.dir.hint).getD ([], 0)).1.foldl
        Indexes.loadEntry ⟨Tree.empty, noIndexes⟩)) = some 0 := by decide +kernel
  rw [hhint] at hfast
  exact ⟨es, covers, hhint, hfast, by decide +kernel⟩

end NteeDb.Properties.HintAgreement
