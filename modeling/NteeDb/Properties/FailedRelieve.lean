import NteeDb.Invariants.Exact
import NteeDb.Invariants.Sessions

/-!
# A `BlobsRelieve` that fails

When `BlobsRelieve` returns an error, either the store is still open and holds what it held
before, or it has been stopped and the next `Open` finds what it held; as long as the steps
of the final hint checkpoint are not refused.

When one of these is, the new log is in place and its values are in the new generation
only.  The cleanup goes by `db.closed` alone, takes the error for an early one, and removes
that generation.

## Main results

* `failed_relieve_keeps` — what an error leaves.
* `refused_hint_loses_blobs` — the values lost with the hint.
-/

namespace NteeDb.Properties.FailedRelieve

open NteeDb.Verified
open Faults OrderedTree JsonCodec
open NteeDb.Core

/-! ## Where the hint checkpoint starts -/

/-- `BlobsRelieve` up to the final hint checkpoint. -/
def relieveCommit : StoreM Unit := do
  raiseGate
  openRelieve
  let pk ← buildPhase relieveTransform
  swapBody pk

/-- No step of the final hint checkpoint is refused. -/
def HintAnswered (w : World) (plan : List Answer) : Prop :=
  ∀ s, relieveCommit ⟨w, plan⟩ = (.ok (), s) → Answered s.plan

/-- How a run of `onError` may have ended with an error. -/
theorem onError_error {α : Type} {c : StoreM α} {cleanup : StoreM Unit} {s s' : Env World} {e : Err}
    (h : onError c cleanup s = (.error e, s')) (hfatal : e.fatal = false) :
    ∃ e' t, c s = (.error e', t) ∧
      (cleanup t = (.ok (), s') ∧ e = e' ∨ cleanup t = (.error e, s')) := by
  unfold onError at h
  rw [Prog.run_bind, Prog.run_attempt] at h
  dsimp only at h
  cases hc : c s with
  | mk r t =>
      rw [hc] at h
      cases r with
      | ok a => cases h
      | error e' =>
          refine ⟨e', t, rfl, ?_⟩
          rcases Prog.run_bind_error h with hclean | ⟨⟨⟩, t', hclean, hfail⟩
          · cases hf : e'.fatal with
            | false =>
                rw [hf] at hclean
                exact Or.inr hclean
            | true =>
                rw [hf] at hclean
                cases hclean
          · cases hfail
            rw [hfatal] at hclean
            exact Or.inl ⟨hclean, rfl⟩

variable {m : Mode} {w v : World} {e : Err}

/-! ## The body -/

/-- An error of the rewrite that is not of its hint comes before the rename, or stops the
store. -/
theorem rewriteBody_failed (h : Sound m w) (hopen : w.db.closed = false)
    (hfresh : FreshGen (some w.db.nextGen) w.dir) {x : World} (hx : Aside (some w.db.nextGen) w x)
    (hready : Ready x) (hbytes : x.dir.asideBytes (some w.db.nextGen) = [])
    {plan rest : List Answer} (hrun : rewriteBody relieveTransform ⟨x, plan⟩
      = (.error e, ⟨v, rest⟩)) (hfatal : e.fatal = false)
    (hhint : ∀ s, (buildPhase relieveTransform >>= swapBody) ⟨x, plan⟩ = (.ok (), s) →
      Answered s.plan)
    (hfits : v.wrapped = false) :
    Aside (some w.db.nextGen) w v ∨ Stranded m w e v := by
  have hany : ∀ p : List Answer, Answers (fun _ => True) p := fun _ _ _ => trivial
  have hbuild :=
    buildPhase_spec (rewrites_relieve (fun _ => True) (h.2.2 hopen).serving hfresh) h hopen
    hfresh hx hready hbytes
  unfold rewriteBody at hrun
  rcases Prog.run_bind_error hrun with hb | ⟨pk, ⟨y, p⟩, hb, hswap⟩
  · exact Or.inl (hbuild.error rfl (hany _) hb).1
  obtain ⟨hy, hry, hbuilt⟩ := hbuild.ok rfl (hany _) hb
  have hbody : Spec (fun _ => True) (Unless fun u => u = y ∧ ∃ ls rs rs',
        Built (some w.db.nextGen) w (relieveStep w.db.nextGen w) (compactCell w.db) pk y ls rs rs')
      (swapBody pk)
      (fun _ => Unless fun u => (∃ ls rs rs',
        Built (some w.db.nextGen) w (relieveStep w.db.nextGen w)
        (compactCell w.db) pk y ls rs rs') ∧ Swapped (fun _ => True) (some w.db.nextGen) w y pk u)
      (fun e => Unless (Stranded m w e)) := by
    refine Spec.unless (swapBody_keeps pk fun hk => nomatch hk) ?_
    rintro u _ ⟨rfl, ls, rs, rs', hb⟩
    exact (swapBody_spec h hy hb (preserves_compact w.db) hopen hfresh hry).post
      (fun _ _ hu _ => ⟨⟨ls, rs, rs', hb⟩, hu.1⟩) fun _ _ hu _ => hu
  have hstart : Unless (fun u => u = y ∧ ∃ ls rs rs',
      Built (some w.db.nextGen) w (relieveStep w.db.nextGen w)
      (compactCell w.db) pk y ls rs rs') y :=
    fun hwrap => ⟨rfl, hbuilt hwrap⟩
  unfold swap at hswap
  rcases Prog.run_bind_error hswap with hs | ⟨⟨⟩, ⟨z, q⟩, hs, hlast⟩
  · exact Or.inr (hbody.error hstart (hany _) hs hfits)
  -- the log is in place: only a refused step of the checkpoint is left
  have hzfits : z.wrapped = false := by
    cases hz : z.wrapped with
    | false => rfl
    | true =>
        have hv := (writeHint_keeps (A := fun _ => True) (k := { wrapped := true })).error
          (watched_wrapped.mpr hz) (hany _) hlast
        rw [watched_wrapped.mp hv] at hfits
        cases hfits
  obtain ⟨⟨ls, rs, rs', hb'⟩, hz⟩ := hbody.ok hstart (hany _) hs hzfits
  have hanswered := hhint ⟨z, q⟩ (by rw [Prog.run_bind_ok hb]; exact hs)
  have hlate := (writeHint_cases (A := fun a => ∀ k, a ≠ .fail k)
    (hz.committed.onDisk hb' h.1 (preserves_compact w.db)) (hz.inFlight h)
    (hz.hintable h hopen hb')).error rfl hanswered.answers hlast
  rcases hlate.2.2.2 with rfl | ⟨_, k, hk⟩
  · cases hfatal
  · exact absurd rfl (hk k)

theorem raiseGate_run (hopen : w.db.closed = false) (plan : List Answer) :
    raiseGate ⟨w, plan⟩ = (.ok (), ⟨w.gate, plan⟩) := by
  have hrequire : requireOpen ⟨w, plan⟩ = (.ok (), ⟨w, plan⟩) := by
    unfold requireOpen
    rw [Prog.run_bind_ok (show getWorld _ = (.ok w, _) from rfl), hopen]
    rfl
  unfold raiseGate
  rw [Prog.run_bind_ok hrequire]
  rfl

/-- The cleanup returns no error. -/
theorem abandonRelieve_fatal {A : Answer → Prop} :
    Spec A (fun _ => True) abandonRelieve (fun _ _ => True) fun e _ => e.fatal = true := by
  have hignored : ∀ c : StoreM Unit, Spec A (fun _ => True) c (fun _ _ => True) (fun _ _ => True) →
      Spec A (fun _ => True) (ignoreError c) (fun _ _ => True) fun e _ => e.fatal = true :=
    fun c hc => Spec.ignoreError hc (fun _ _ _ _ => trivial) fun _ _ hfatal _ => hfatal
  unfold abandonRelieve
  refine Spec.bind_getWorld fun z _ => ?_
  cases z.db.relieve with
  | none => exact Spec.pure fun _ _ => trivial
  | some bs =>
      refine Spec.ite (fun _ => Spec.pure fun _ _ => trivial) fun _ => ?_
      refine Spec.bind (Spec.updateDB (Q := fun _ _ => True) fun _ _ => trivial) fun _ =>
        Spec.bind (hignored _ ?_) fun _ => hignored _ ?_
      · exact Spec.quietStep (fun _ _ => trivial) (fun _ _ _ _ => trivial) fun _ _ _ => trivial
      · exact Spec.atomicStep (fun _ _ => trivial) (fun _ _ _ _ => trivial) fun _ _ _ => trivial

/-- An error of `BlobsRelieve` that is not of its hint leaves the store as it was but for a
file of the new generation, or stops it. -/
theorem blobsRelieve_failed (h : Sound m w) (hopen : w.db.closed = false) {plan rest : List Answer}
    (hrun : blobsRelieve ⟨w, plan⟩ = (.error e, ⟨v, rest⟩)) (hfatal : e.fatal = false)
    (hhint : HintAnswered w plan) (hfits : v.wrapped = false) :
    w.db.curGen ≠ maxInt64 ∧ (Strayed (some w.db.nextGen) w v ∨ Stranded m w e v) := by
  have hany : ∀ p : List Answer, Answers (fun _ => True) p := fun _ _ _ => trivial
  unfold blobsRelieve gated at hrun
  rw [Prog.run_bind_ok (raiseGate_run hopen plan)] at hrun
  -- the gate is lowered in any case
  obtain ⟨u, hbody, hv⟩ : ∃ u, (do
        openRelieve
        onError (rewriteBody relieveTransform) abandonRelieve
        updateDB fun db => { db with relieve := none }) ⟨w.gate, plan⟩ = (.error e, ⟨u, rest⟩) ∧
      v = { u with db := { u.db with compacting := false } } := by
    rcases Prog.run_bind_error hrun with hrun | ⟨_, _, _, hlower⟩
    · obtain ⟨e', ⟨u, p⟩, hbody, ⟨hlower, rfl⟩ | hlower⟩ := onError_error hrun hfatal
      · cases hlower
        exact ⟨u, hbody, rfl⟩
      · cases hlower
    · cases hlower
  have hufits : u.wrapped = false := by
    rw [hv] at hfits
    exact hfits
  have hmax : w.db.curGen ≠ maxInt64 := by
    intro hmax
    have hwatched := (relieveBody_wraps (A := fun _ => True) hmax).error rfl (hany _) hbody
    rw [watched_wrapped.mp hwatched] at hufits
    cases hufits
  have hstore := h.2.2 hopen
  have hnext := nextGen_fresh hstore hmax
  have hfresh : FreshGen (some w.db.nextGen) w.dir := by
    intro gen hgen
    cases hgen
    exact ⟨hnext.1, hstore.highest _ hnext.2⟩
  refine ⟨hmax, ?_⟩
  suffices hu : Strayed (some w.db.nextGen) w u ∨ Stranded m w e u by
    rw [hv]
    exact hu.imp (fun hu => hu.settle false u.db.relieve) fun hu => hu.settle false u.db.relieve
  have hnew := openRelieve_spec (A := fun _ => True) h hopen hmax
  rcases Prog.run_bind_error hbody with ho | ⟨⟨⟩, ⟨x, p⟩, ho, hrest⟩
  · exact Or.inl (hnew.error rfl (hany _) ho).1
  obtain ⟨hx, hready, hbytes⟩ := hnew.ok rfl (hany _) ho
  rcases Prog.run_bind_error hrest with hrest | ⟨_, _, _, hlast⟩
  swap
  · cases hlast
  obtain ⟨e', ⟨y, q⟩, hrewrite, ⟨hclean, rfl⟩ | hclean⟩ := onError_error hrest hfatal
  swap
  · have habort := abandonRelieve_fatal.error trivial (hany _) hclean
    exact absurd (habort.symm.trans hfatal) (by decide)
  have hyfits : y.wrapped = false := by
    cases hy : y.wrapped with
    | false => rfl
    | true =>
        have hu := (abandonRelieve_keeps (A := fun _ => True) (k := { wrapped := true })).ok
          (watched_wrapped.mpr hy) (hany _) hclean
        rw [watched_wrapped.mp hu] at hufits
        cases hufits
  have hcommit : ∀ s, (buildPhase relieveTransform >>= swapBody) ⟨x, p⟩ = (.ok (), s) →
      Answered s.plan := by
    intro s hs
    refine hhint s ?_
    unfold relieveCommit
    rw [Prog.run_bind_ok (raiseGate_run hopen plan), Prog.run_bind_ok ho]
    exact hs
  rcases rewriteBody_failed h hopen hfresh hx hready hbytes hrewrite hfatal hcommit
    hyfits with hy | hy
  · obtain ⟨bs, hbs, hgen⟩ := Option.map_eq_some_iff.mp hy.relieve
    rw [← hgen] at hy hfresh
    obtain ⟨hkept, hgone⟩ := hy.abandoned hfresh hstore
    rcases (abandonRelieve_cases _ hbs).ok rfl (hany _) hclean with ⟨_, rfl⟩ | ⟨_, rfl | ⟨rfl, _⟩⟩
    · exact Or.inl (hgen ▸ hy.toStrayed)
    · exact Or.inl (hgone.weaken h.1.1.log.sized _)
    · exact Or.inl (hgen ▸ hkept)
  · cases hy with
    | crash _ => cases hfatal
    | disabled hdisk hclosed hjob hschema hnow hsurvives =>
        cases (abandonRelieve_closed hclosed).ok rfl (hany _) hclean
        exact Or.inr (.disabled hdisk hclosed hjob hschema hnow hsurvives)

/-! ## What the store returns -/

/-- The store of `v` returns what that of `w` did. -/
def SameValues (w v : World) : Prop := ∀ key, (get key ⟨v, []⟩).1 = (get key ⟨w, []⟩).1

/-- A file beside the store is not read. -/
theorem sameValues_of_strayed {g : Option Int64} (h : Sound m w) (hopen : w.db.closed = false)
    (hfresh : FreshGen g w.dir) (hv : Strayed g w v) : SameValues w v := by
  obtain ⟨c, r, hdb⟩ := hv.db
  have hrecord : v.dir.recordAt = w.dir.recordAt := by
    funext e
    rw [Dir.recordAt, Dir.recordAt, hv.mainBytes]
  intro key
  rw [get_run, get_run, World.fetch, World.fetch, hdb, hv.now, hrecord]
  dsimp only
  cases hget : w.db.idx.pk.get key with
  | none => rfl
  | some e =>
      obtain ⟨p, hp⟩ := h.located hopen hget
      have hvalue : v.valueAt p.record = w.valueAt p.record := by
        rw [World.valueAt, World.valueAt, hdb]
        cases hb : p.record.blob with
        | none => rfl
        | some b =>
            dsimp only
            rw [hv.beside.blobBytes (hfresh.ne (hp.sound.blob b hb).present)]
            rfl
      dsimp only
      rw [hp.read]
      dsimp only [Except.bind]
      rw [hvalue]

/-- A store that was stopped left behind what it held. -/
theorem sameValues_of_stopped (h : Sound m w) (hopen : w.db.closed = false)
    (hdisk : OnDisk m.cutOff v) (hnow : v.now = w.now) (hsurvives : Survives w v) {opts : Options}
    {plan : List Answer} (hopts : CarriedDefs opts.indexes) (hplan : Answered plan)
    (hok : Succeeds (openStore opts) plan v = true)
    (hhint : v.dir.usableHint.isSome = true → v.hintInode = v.inode) :
    SameValues w (exec (openStore opts) plan v) := by
  have hspec :=
    openStore_sound (A := fun a => ∀ k, a ≠ .fail k) (fun k hk => hk k rfl) hdisk hhint hopts
  refine exec_spec hspec rfl hplan.answers (fun _ u hu key => ?_) fun e u hfails _ =>
    absurd hfails (Succeeds.not_fails hok e)
  obtain ⟨hu, hcells, _, idx, _, _, _, hopened⟩ := hu
  have hlive := congrArg (Option.map Ack.value) (hsurvives key)
  rw [Option.map_map, Option.map_map] at hlive
  rw [get_run, get_run, hu.fetch hopened.store.closed, h.fetch hopen, World.live, hcells,
    hopened.untouched.now, hnow]
  exact congrArg Except.ok hlive

/-- **A failed `BlobsRelieve` loses no value** unless a step of its final hint checkpoint is
refused.  The store is still open and returns what it returned, or it was stopped and the
next `Open` returns it, where that does not come upon a hint of the replaced log. -/
theorem failed_relieve_keeps {now : Millis} (hrun : Reaches (Allowed m) { now := now } w)
    (hopen : w.db.closed = false) {plan rest : List Answer}
    (hrelieve : blobsRelieve ⟨w, plan⟩ = (.error e, ⟨v, rest⟩)) (hfatal : e.fatal = false)
    (hhint : HintAnswered w plan) (hfits : v.wrapped = false) :
    v.db.closed = false ∧ SameValues w v ∨
      v.db.closed = true ∧ ∀ opts plan', CarriedDefs opts.indexes → Answered plan' →
        Succeeds (openStore opts) plan' v = true →
        (v.dir.usableHint.isSome = true → v.hintInode = v.inode) →
        SameValues w (exec (openStore opts) plan' v) := by
  have hwrap : w.wrapped = false := by
    cases hw : w.wrapped with
    | false => rfl
    | true =>
        have hv := (op_keeps (A := fun _ => True) (k := { wrapped := true }) .blobsRelieve).error
          (watched_wrapped.mpr hw) (fun _ _ => trivial) hrelieve
        rw [watched_wrapped.mp hv] at hfits
        cases hfits
  have hsound := sound_run hrun hwrap
  obtain ⟨hmax, hstray | hstranded⟩ := blobsRelieve_failed hsound hopen hrelieve hfatal hhint hfits
  · have hnext := nextGen_fresh (hsound.2.2 hopen) hmax
    have hfresh : FreshGen (some w.db.nextGen) w.dir := by
      intro gen hgen
      cases hgen
      exact ⟨hnext.1, (hsound.2.2 hopen).highest _ hnext.2⟩
    obtain ⟨c, r, hdb⟩ := hstray.db
    exact Or.inl ⟨by rw [hdb]; exact hopen, sameValues_of_strayed hsound hopen hfresh hstray⟩
  · cases hstranded with
    | crash _ => cases hfatal
    | disabled hdisk hclosed _ _ hnow hsurvives =>
        exact Or.inr ⟨hclosed, fun opts plan' hopts hplan hok hfresh =>
          sameValues_of_stopped hsound hopen hdisk hnow hsurvives hopts hplan hok hfresh⟩

/-- A store with one value, in a blob. -/
def oneBlob : World := runEvents { now := ⟨0, Millis.zero_bounded⟩ }
  [.openStore { blobThreshold := 1 } [], .op (.put .sorted [0x61] [0x78, 0x79] []) []]

theorem reaches_oneBlob :
    Reaches (Allowed ⟨false, true⟩) { now := ⟨0, Millis.zero_bounded⟩ } oneBlob := by
  refine reaches_runEvents .start
    ⟨.open_of_ok (List.forall_mem_nil _) answered_nil (by decide +kernel) ?_,
    .op_of_ok (show Utf8.valid [0x61] = true by decide) answered_nil (by decide +kernel), trivial⟩
  intro hfresh
  cases hfresh

/-- The `n`-th file step is refused, the others are carried out. -/
def refusing (n : Nat) : List Answer := List.replicate n .ok ++ [.fail 0]

/-- `BlobsRelieve` fails while it builds the new log. -/
theorem refused_build_keeps :
    SameValues oneBlob (blobsRelieve ⟨oneBlob, refusing 7⟩).2.world := by
  have hrun : blobsRelieve ⟨oneBlob, refusing 7⟩ = (.error .io,
      ⟨(blobsRelieve ⟨oneBlob, refusing 7⟩).2.world,
        (blobsRelieve ⟨oneBlob, refusing 7⟩).2.plan⟩) :=
    run_of_error (by decide +kernel)
  have hhint : HintAnswered oneBlob (refusing 7) := by
    intro s hs
    have hfails : (relieveCommit ⟨oneBlob, refusing 7⟩).1 = .error .io := by decide +kernel
    rw [hs] at hfails
    cases hfails
  have hfits : (blobsRelieve ⟨oneBlob, refusing 7⟩).2.world.wrapped = false := by decide +kernel
  have hopen : (blobsRelieve ⟨oneBlob, refusing 7⟩).2.world.db.closed = false := by decide +kernel
  have hstart : oneBlob.db.closed = false := by decide +kernel
  generalize (blobsRelieve ⟨oneBlob, refusing 7⟩).2.world = v at hrun hfits hopen ⊢
  rcases failed_relieve_keeps reaches_oneBlob hstart hrun rfl hhint hfits with hkept | hstopped
  · exact hkept.2
  · exact absurd (hopen.symm.trans hstopped.1) (by decide)

/-- The first step of the hint checkpoint is refused: the store stays open and its value is
gone, for this process and for the next. -/
theorem refused_hint_loses_blobs :
    (get [0x61] ⟨oneBlob, []⟩).1 = .ok (some [0x78, 0x79]) ∧
      (blobsRelieve ⟨oneBlob, refusing 20⟩).1 = .error .io ∧
      (blobsRelieve ⟨oneBlob, refusing 20⟩).2.world.db.closed = false ∧
      (get [0x61] ⟨(blobsRelieve ⟨oneBlob, refusing 20⟩).2.world, []⟩).1 = .error .io ∧
      (get [0x61] ⟨exec (openStore {}) [] (blobsRelieve ⟨oneBlob, refusing 20⟩).2.world.kill, []⟩).1
        = .ok none := by
  decide +kernel

end NteeDb.Properties.FailedRelieve
