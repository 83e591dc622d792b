import NteeDb.Invariants.Exact
import NteeDb.Invariants.Sessions

/-!
# Crashes and the next `Open`

The process may die at any file step, between the steps of a rewrite too, and a rewrite may
stop the store.  The next `Open` cuts nothing off the log and finds, of what has not
expired, what the last mutations said; unless it comes upon a hint that was taken of a log
which a rename has replaced since.

`Open` accepts such a hint if it covers no more bytes than the new log has.  Then the
records in the covered part that the hint does not know of are lost.

## Main results

* `crash_safe` — what `Open` finds after any crash.
* `replaced_log_hint_accepted` — a record lost between the rename and the hint.
-/

namespace NteeDb.Properties.CrashSafety

open NteeDb.Verified
open Faults OrderedTree JsonCodec
open NteeDb.Core

/-! ## Rewrites that stop the store -/

/-- `Compact`, `Reindex` and `BlobsRelieve`. -/
def rewrites : Op → Bool
  | .compact => true
  | .reindex => true
  | .blobsRelieve => true
  | _ => false

/-- A rewrite, some of whose file steps may be refused, after which no store is open: the
process died, or the store was stopped. -/
def Stops (w : World) (ev : Event) : Prop :=
  ∃ o plan, ev = .op o plan ∧ rewrites o = true ∧ (ev.apply w).db.closed = true

/-- The history of the mutations is followed; the hint may be old. -/
def anyHint : Mode := ⟨true, false⟩

/-- The events of a run: none of their file steps is refused and the process may die at
any of them, or they are rewrites that end with no store open. -/
def Tolerated (w : World) (ev : Event) : Prop := Allowed anyHint w ev ∨ Stops w ev

variable {A : Answer → Prop} {w v : World}

theorem Stranded.sound {e : Err} (h : Stranded anyHint w e v) :
    Sound anyHint (if e.fatal then v.kill else v) := by
  cases h with
  | crash hdisk => exact OnDisk.killed hdisk
  | disabled hdisk hclosed hjob _ _ _ =>
      refine ⟨hdisk, fun j hj => ?_, fun hopen => ?_⟩
      · rw [Option.mem_def] at hj
        exact absurd (hjob.symm.trans hj) (by rintro ⟨⟩)
      · exact absurd (hclosed.symm.trans hopen) (by decide)

theorem RewriteFailed.sound {T : Bytes → Record → Record → Bytes → Prop} {F : Bytes → Cell → Cell}
    {e : Err} (h : RewriteFailed A anyHint w T F e v) (hw : Sound anyHint w) :
    Sound anyHint (if e.fatal then v.kill else v) := by
  cases h with
  | closed _ => exact hw
  | early _ hstray hrelieve hfatal =>
      rw [hfatal]
      exact hstray.sound hw hrelieve
  | stranded hs => exact Stranded.sound hs
  | late _ _ hsound _ => exact hsound

theorem ReindexFailed.sound {e : Err} (h : ReindexFailed A anyHint w e v) (hw : Sound anyHint w) :
    Sound anyHint (if e.fatal then v.kill else v) := by
  cases h with
  | rewrite h => exact RewriteFailed.sound h hw
  | unmarked _ hz _ _ =>
      split
      · exact hz.marked.2.1.killed
      · exact hz.marked.2

/-- The generation that a failed `BlobsRelieve` gives up is no concern of a store that has
stopped. -/
theorem RelieveFailed.sound {e : Err} (h : RelieveFailed A anyHint w e v) (hw : Sound anyHint w)
    (hclosed : (if e.fatal then v.kill else v).db.closed = true) :
    Sound anyHint (if e.fatal then v.kill else v) := by
  cases h with
  | closed _ => exact hw
  | early hopen hstray _ _ hfatal =>
      obtain ⟨c, r, hdb⟩ := hstray.db
      rw [hfatal, if_neg Bool.false_ne_true, hdb] at hclosed
      exact absurd (hopen.symm.trans hclosed) (by decide)
  | stranded hs => exact Stranded.sound hs
  | late hopen hrew _ _ _ _ _ hgiven =>
      have hz := hrew.recasts.closed.trans hopen
      obtain ⟨c, rfl | rfl⟩ := hgiven
      · exact absurd (hz.symm.trans hclosed) (by decide)
      · exact absurd (hz.symm.trans hclosed) (by decide)

/-- A rewrite that ends with no store open leaves sound files. -/
theorem stops_sound {ev : Event} (hev : Stops w ev) (hw : Unless (Sound anyHint) w) :
    Unless (Sound anyHint) (ev.apply w) := by
  obtain ⟨o, plan, rfl, ho, hclosed⟩ := hev
  have hspec : Spec (fun _ => True) (Unless (Sound anyHint)) o.run
      (fun _ => Unless fun v => v.db.closed = true → Sound anyHint v)
      (fun e => Unless fun v => (if e.fatal then v.kill else v).db.closed = true →
        Sound anyHint (if e.fatal then v.kill else v)) := by
    refine Spec.unless (op_keeps o) fun w _ hw => ?_
    cases o with
    | compact =>
        exact (compact_spec hw).post (fun _ _ hv hwrap _ => (hv hwrap).2.1)
          fun _ _ hv hwrap _ => RewriteFailed.sound (hv hwrap) hw
    | reindex =>
        refine (reindex_spec hw).post (fun _ _ hv hwrap _ => ?_)
          fun _ _ hv hwrap _ => ReindexFailed.sound (hv hwrap) hw
        obtain ⟨z, _, hz, _, _, rfl⟩ := hv hwrap
        exact hz.marked.1
    | blobsRelieve =>
        refine (blobsRelieve_cases hw).post (fun _ v hv hwrap hclosed => ?_)
          fun _ _ hv hwrap hclosed => RelieveFailed.sound (hv hwrap) hw hclosed
        obtain ⟨hopen, _, _, _, _, _, hrew⟩ := hv hwrap
        exact absurd ((hrew.recasts.closed.trans hopen).symm.trans hclosed) (by decide)
    | _ => cases ho
  refine exec_spec (R := fun v => v.db.closed = true → Unless (Sound anyHint) v) hspec hw
    (fun _ _ => trivial) (fun _ _ hv hclosed hwrap => hv hwrap hclosed)
    (fun e v _ hv hclosed => ?_) hclosed
  exact Unless.killed fun hwrap => hv hwrap hclosed

/-- Every world of a run with crashes has sound files, unless a length has wrapped. -/
theorem tolerated_run {now : Millis} (h : Reaches Tolerated { now := now } w) :
    Unless (Sound anyHint) w :=
  h.invariant (fun _ => sound_empty anyHint now) fun _ _ hev hw => hev.elim
    (fun hev => event_sound hev hw) fun hev => stops_sound hev hw

/-! ## The next Open -/

/-- The store opened in `v` on the files of `w` holds what the last mutations said. -/
structure Recovered (w v : World) : Prop where
  /-- No record is cut off. -/
  log : v.dir.mainBytes = w.dir.mainBytes
  /-- What the mutations said is not of `Open`'s making. -/
  history : v.acked = w.acked
  /-- The unexpired keys are there with their values, and no others are. -/
  contents : ∀ key, (get key ⟨v, []⟩).1
    = .ok ((unexpired Ack.exp v.now.ms (v.acked.get key)).map Ack.value)

theorem live_of_agrees (h : Agrees w.now.ms w.acked w.dir) (key : Bytes) :
    (w.live key).map Cell.value = (unexpired Ack.exp w.now.ms (w.acked.get key)).map Ack.value := by
  rw [← h key, World.live, unexpired_map fun _ => rfl, Option.map_map]
  rfl

/-- **Rewrites are crash-safe** as long as no `Open` comes upon a hint of a replaced log.
In every run with any number of crashes and of rewrites that stopped the store, an `Open`
that returns a store has recovered the last mutations. -/
theorem crash_safe {now : Millis} (hrun : Reaches Tolerated { now := now } w) {opts : Options}
    {plan : List Answer} (hev : Allowed anyHint w (.openStore opts plan))
    (hok : Succeeds (openStore opts) plan w = true) (hfits : w.wrapped = false) :
    Recovered w (exec (openStore opts) plan w) := by
  have hw := tolerated_run hrun hfits
  have hspec := openStore_sound (A := fun a => ∀ k, a ≠ .fail k) (fun k hk => hk k rfl) hw.1
    (hev.usable hw.1) hev.carried
  refine exec_spec hspec rfl (Answered.answers hev.quiet) ?_ fun e v hfails _ =>
    absurd hfails (Succeeds.not_fails hok e)
  rintro _ v ⟨hv, _, _, idx, _, _, hmain, hopened⟩
  refine ⟨?_, hopened.untouched.acked, fun key => ?_⟩
  · rw [Dir.mainBytes, hmain]
    rfl
  · rw [get_run, hv.fetch hopened.store.closed, live_of_agrees (hv.1.2.1 rfl)]

/-! ## Crashes after the rename -/

/-- The process dies in `Compact` right after the rename. -/
def afterRename : List Answer := List.replicate 11 .ok ++ [.crash]

theorem Allowed.crashed {o : Op} {plan : List Answer} (ho : o.Carried) (hplan : Answered plan)
    (hcrash : (o.run ⟨w, plan⟩).1 = .error .crash) : Allowed anyHint w (.op o plan) := by
  refine ⟨ho, ⟨hplan, fun e he => ?_⟩, by rintro ⟨⟩, by rintro _ _ _ ⟨⟩, by rintro _ _ ⟨⟩⟩
  cases hcrash.symm.trans he
  rfl

theorem answered_afterRename : Answered afterRename := by
  intro k hk
  rcases List.mem_append.mp hk with hk | hk
  · cases List.eq_of_mem_replicate hk
  · cases List.mem_singleton.mp hk

/-- Two records are put, and the process dies in `Compact`; there is no hint yet. -/
def firstCompact : List Event :=
  [.openStore {} [], .op (.put .sorted [0x62] [0x32] []) [], .op (.put .sorted [0x61] [0x31] []) [],
    .op .compact afterRename]

theorem first_compact_recovered :
    Recovered (runEvents { now := ⟨0, Millis.zero_bounded⟩ } firstCompact)
      (exec (openStore {}) [] (runEvents { now := ⟨0, Millis.zero_bounded⟩ } firstCompact)) := by
  have hhint : (runEvents { now := ⟨0, Millis.zero_bounded⟩ } firstCompact).dir.usableHint.isSome
      = false := by
    decide +kernel
  refine crash_safe (reaches_runEvents .start ?_)
    (.open_of_ok (List.forall_mem_nil _) answered_nil (by decide +kernel) fun _ husable => ?_)
    (by decide +kernel) (by decide +kernel)
  · refine ⟨.inl (.open_of_ok (List.forall_mem_nil _) answered_nil (by decide +kernel)
      fun _ husable => ?_), .inl (.op_of_ok (show Utf8.valid [0x62] = true by decide) answered_nil
        (by decide +kernel)),
      .inl (.op_of_ok (show Utf8.valid [0x61] = true by decide) answered_nil (by decide +kernel)),
      .inl (Allowed.crashed trivial answered_afterRename (by decide +kernel)), trivial⟩
    cases husable
  · rw [hhint] at husable
    cases husable

/-- The same, with a hint of the log that held only the record of `b`. -/
def secondCompact : List Event :=
  [.openStore {} [], .op (.put .sorted [0x62] [0x32] []) [], .op .close [], .openStore {} [],
    .op (.put .sorted [0x61] [0x31] []) [], .op .compact afterRename]

/-- In the new log the record of `a` comes first.  The hint covers as many bytes and does
not know of it, so `a` is lost. -/
theorem replaced_log_hint_accepted :
    Reaches Tolerated { now := ⟨0, Millis.zero_bounded⟩ }
        (runEvents { now := ⟨0, Millis.zero_bounded⟩ } secondCompact) ∧
      Succeeds (openStore {}) [] (runEvents { now := ⟨0, Millis.zero_bounded⟩ } secondCompact)
        = true ∧
      (get [0x61] ⟨exec (openStore {}) []
        (runEvents { now := ⟨0, Millis.zero_bounded⟩ } secondCompact), []⟩).1 = .ok none ∧
      (runEvents { now := ⟨0, Millis.zero_bounded⟩ } secondCompact).acked.get [0x61]
        = some ⟨[0x61], [0x31], 0⟩ := by
  refine ⟨reaches_runEvents .start ?_, by decide +kernel, by decide +kernel, by decide +kernel⟩
  refine ⟨.inl (.open_of_ok (List.forall_mem_nil _) answered_nil (by decide +kernel)
    fun _ husable => ?_), .inl (.op_of_ok (show Utf8.valid [0x62] = true by decide) answered_nil
      (by decide +kernel)),
    .inl (.op_of_ok trivial answered_nil (by decide +kernel)),
    .inl (.open_of_ok (List.forall_mem_nil _) answered_nil (by decide +kernel)
      fun _ _ => by decide +kernel),
    .inl (.op_of_ok (show Utf8.valid [0x61] = true by decide) answered_nil (by decide +kernel)),
    .inl (Allowed.crashed trivial answered_afterRename (by decide +kernel)), trivial⟩
  cases husable

end NteeDb.Properties.CrashSafety
