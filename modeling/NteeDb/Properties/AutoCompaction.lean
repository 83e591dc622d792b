import NteeDb.Core.Runs
import NteeDb.Invariants.Exact
import NteeDb.Invariants.Reclaiming
import NteeDb.Server.AutoCompact

/-!
# Auto-compaction settles

A pass measures what a rewrite would reclaim: the bytes of the log that are no live line, the
bytes of the blob files that no live record refers to, and the number of generations.  Right
after a rewrite that succeeded the first is nothing, and after a `BlobsRelieve` so is the second
and there is one generation.  With positive ratios and floors nothing to reclaim is never enough
to start a rewrite.

A `BlobsRelieve` opens the file of the next generation for appending, whatever is in it.  A file
that a failed one left behind is part of the new generation, and orphaned from the start
(`leftover_relieved_twice`).

## Main results

* `maybeCompact_trimmed` — no second `Compact`.
* `maybeCompact_consolidated` — nothing after a `BlobsRelieve`.
* `auto_compaction_settles` — at most two passes in a row rewrite the store.
-/

namespace NteeDb.Properties.AutoCompaction

open NteeDb.Verified
open Decimal Faults Json JsonCodec OrderedTree
open NteeDb.Core
open NteeDb.Net

/-! ## Nothing to reclaim -/

/-- Nothing is below any share of something. -/
theorem not_share {ratio : ℚ} (hratio : 0 < ratio) {n floor : Int64} (hfloor : 0 < floor)
    (hn : ¬ n < floor) : ¬ ratio * (n.toInt : ℚ) ≤ ((0 : Int64).toInt : ℚ) := by
  have hpos : 0 < n.toInt := by
    rw [Int64.lt_iff_toInt_lt, Int64.toInt_zero] at hfloor
    rw [Int64.lt_iff_toInt_lt, not_lt] at hn
    omega
  have hcast : (0 : ℚ) < (n.toInt : ℚ) := Int.cast_pos.mpr hpos
  rw [Int64.toInt_zero, Int.cast_zero, not_le]
  exact mul_pos hratio hcast

theorem stats_mainBytes {v : World} (h : v.db.closed = false) :
    v.db.stats.mainBytes = v.db.size := by
  rw [DB.stats, h]
  rfl

theorem mainNeedsCompact_trimmed (p : Policy) {v : World} (h : Trimmed v) :
    mainNeedsCompact p v.db.stats v.db = false := by
  unfold mainNeedsCompact
  rw [stats_mainBytes h.isOpen, h.live, Int64.sub_self]
  by_cases hfloor : v.db.size < p.mainMinBytes
  · rw [if_pos hfloor]
  · rw [if_neg hfloor]
    exact decide_eq_false (not_share p.mainRatio_pos p.mainMinBytes_pos hfloor)

/-! ## Passes -/

section Passes

variable {A : Answer → Prop}

theorem returned_spec {α : Type} {c : StoreM α} {P : World → Prop} {Q : α → World → Prop}
    {F E : Err → World → Prop} {R : Except Err α → World → Prop} (hc : Spec A P c Q F)
    (hok : ∀ a v, Q a v → R (.ok a) v) (herr : ∀ e v, e.fatal = false → F e v → R (.error e) v)
    (hfatal : ∀ e v, e.fatal = true → F e v → E e v) : Spec A P (returned c) R E := by
  refine Spec.bind_attempt hc (fun a => Spec.pure (hok a)) fun e => ?_
  refine Spec.ite (fun he => ?_) fun he => ?_
  · exact Spec.fail fun v hv => hfatal e v he hv
  · exact Spec.pure fun v hv => herr e v (by simpa using he) hv

theorem blobUsage_keeps (I : World → Prop) : Keeps A I blobUsage :=
  Keeps.bind requireOpen_keeps fun _ => Keeps.bind Keeps.getWorld fun _ =>
    Keeps.bind (Keeps.foldEach (fun _ e =>
      Keeps.bind (readRecord_keeps e) fun _ => Keeps.pure _) _ _) fun _ =>
    Keeps.pure _

theorem blobsNeedRelieve_keeps (I : World → Prop) (p : Policy) (st : Stats) :
    Keeps A I (blobsNeedRelieve p st) := by
  refine Keeps.ite (fun _ => Keeps.pure _) fun _ => ?_
  refine Spec.bind (returned_spec (R := fun _ => I) (blobUsage_keeps I) (fun _ _ h => h)
    (fun _ _ _ h => h) fun _ _ _ h => h) fun r => ?_
  cases r with
  | ok u => exact Keeps.pure _
  | error e => exact Keeps.pure _

/-- After a `Compact` a pass compacts no more. -/
theorem maybeCompact_trimmed (p : Policy) {w : World} (hw : Trimmed w) :
    Yields (fun v => v = w) (maybeCompact p) fun pass _ =>
      pass = .nothing ∨ ∃ r, pass = .relieved r := by
  refine Spec.bind_getWorld fun x hx => ?_
  subst hx
  refine Spec.bind (Yields.of_keeps (blobsNeedRelieve_keeps _ p _)) fun need => ?_
  cases need with
  | true =>
      exact Spec.bind (Yields.any _) fun r => Spec.pure fun _ _ => Or.inr ⟨r, rfl⟩
  | false =>
      refine Spec.bind_getWorld fun y hy => ?_
      subst hy
      rw [mainNeedsCompact_trimmed p hw]
      exact Spec.pure fun _ _ => Or.inl rfl

/-- The measurement of blobs that are all live fails only as the system makes it fail. -/
theorem blobUsage_consolidated {w : World} (hw : Consolidated w) :
    Spec A (fun v => v = w) blobUsage
      (fun u v => v = w ∧ u.totalBytes = w.db.stats.blobBytes ∧ u.orphanedBytes = 0 ∧
        u.generations = 1)
      fun e v => v = w ∧ (e = .io ∨ e = .crash ∧ A .crash) := by
  obtain ⟨⟨hopen, -⟩, bs, rs, hblobs, hsum, hread⟩ := hw
  have htotal : w.db.stats.blobBytes = bs.size := by
    rw [DB.stats, hopen, hblobs]
    exact Int64.zero_add bs.size
  refine Spec.bind (Q := fun _ v => v = w) ?_ fun _ => ?_
  · refine Spec.bind_getWorld fun x hx => ?_
    subst hx
    refine Spec.require (fun _ hv _ => hv) fun _ _ hclosed => ?_
    rw [hopen] at hclosed
    cases hclosed
  refine Spec.bind_getWorld fun x hx => ?_
  subst hx
  refine Spec.bind ((Spec.foldEach (I := fun rest n v => v = x ∧ ∃ done later,
    rs = done ++ later ∧ n = blobSizes done ∧
      List.Forall₂ (fun e r => 0 ≤ e.n ∧ x.dir.recordAt e = .ok r) rest later)
    (fun e rest n => ?_) x.db.idx.pk.items 0).pre ?_) fun live => Spec.pure ?_
  · refine Spec.of_world fun y ⟨hy, done, later, hrs, hn, hlater⟩ => ?_
    subst hy
    cases hlater with
    | cons he hrest =>
        rename_i r later
        refine Spec.bind (Q := fun r' v => v = y ∧ r' = r) ?_ fun r' => Spec.pure ?_
        · refine Spec.bind_require (fun v _ hneg => absurd he.1 (of_decide_eq_false hneg))
            fun _ => Spec.readStep ?_ ?_ ?_ ?_
          · intro r' v hv hr'
            subst hv
            rw [he.2] at hr'
            exact ⟨rfl, (Except.ok.inj hr').symm⟩
          · intro e' v hv hr'
            subst hv
            rw [he.2] at hr'
            cases hr'
          · intro _ v _ hv
            exact ⟨hv, Or.inl rfl⟩
          · intro v hcrash hv
            exact ⟨hv, Or.inr ⟨rfl, hcrash⟩⟩
        · intro v ⟨hv, hr'⟩
          subst hr'
          refine ⟨hv, done ++ [r'], later, ?_, ?_, hrest⟩
          · rw [hrs, List.append_assoc]
            rfl
          · rw [hn, blobSizes_snoc]
  · intro v hv
    exact ⟨hv, [], rs, rfl, rfl, hread⟩
  · intro v ⟨hv, done, later, hrs, hlive, hlater⟩
    cases hlater
    rw [List.append_nil] at hrs
    have hfold : x.db.blobs.items.foldl (fun n bs => n + bs.size) 0 = bs.size := by
      rw [hblobs]
      exact Int64.zero_add bs.size
    refine ⟨hv, hfold.trans htotal.symm, ?_, ?_⟩
    · dsimp only
      rw [hfold, hlive, ← hrs, hsum, Int64.sub_self]
    · dsimp only
      rw [hblobs]
      rfl

theorem blobsNeedRelieve_consolidated (p : Policy) {w : World} (hw : Consolidated w) :
    Spec A (fun v => v = w) (blobsNeedRelieve p w.db.stats) (fun need v => v = w ∧ need = false)
      fun e _ => e = .crash ∧ A .crash := by
  refine Spec.ite (fun _ => Spec.pure fun _ hv => ⟨hv, rfl⟩) fun hsize => ?_
  rw [not_or] at hsize
  refine Spec.bind (returned_spec (R := fun r v => v = w ∧ ∀ u, r = .ok u →
    u.totalBytes = w.db.stats.blobBytes ∧ u.orphanedBytes = 0 ∧ u.generations = 1)
    (blobUsage_consolidated hw) ?_ ?_ ?_) fun r => ?_
  · intro u v ⟨hv, hu⟩
    refine ⟨hv, fun u' hu' => ?_⟩
    cases hu'
    exact hu
  · intro e v _ ⟨hv, _⟩
    exact ⟨hv, fun u' hu' => by cases hu'⟩
  · intro e v hfatal ⟨_, he⟩
    rcases he with he | he
    · subst he
      cases hfatal
    · exact he
  cases r with
  | error e => exact Spec.pure fun _ hv => ⟨hv.1, rfl⟩
  | ok u =>
      refine Spec.pure fun v ⟨hv, hu⟩ => ⟨hv, ?_⟩
      obtain ⟨htotal, horphaned, hgens⟩ := hu u rfl
      rw [htotal, horphaned, hgens,
        decide_eq_false (not_share p.blobRatio_pos p.blobMinRelieveDataSize_pos hsize.2)]
      rfl

/-- After a `BlobsRelieve` a pass does nothing. -/
theorem maybeCompact_consolidated (p : Policy) {w : World} (hw : Consolidated w) :
    Spec A (fun v => v = w) (maybeCompact p) (fun pass _ => pass = .nothing)
      fun e _ => e = .crash ∧ A .crash := by
  refine Spec.bind_getWorld fun x hx => ?_
  subst hx
  refine Spec.bind (blobsNeedRelieve_consolidated p hw) fun need => ?_
  refine Spec.of_world fun y ⟨hy, hneed⟩ => ?_
  subst hy hneed
  refine Spec.bind_getWorld fun z hz => ?_
  subst hz
  rw [mainNeedsCompact_trimmed p hw.toTrimmed]
  exact Spec.pure fun _ _ => rfl

/-- What a pass leaves that rewrote the store. -/
theorem maybeCompact_leaves (p : Policy) {w : World} (hw : Reclaimable w) :
    Yields (fun v => v = w) (maybeCompact p) fun pass v =>
      (pass = .relieved (.ok ()) → Consolidated v) ∧ (pass = .compacted (.ok ()) → Trimmed v) := by
  refine Spec.bind_getWorld fun x hx => ?_
  subst hx
  refine Spec.bind (Yields.of_keeps (blobsNeedRelieve_keeps _ p _)) fun need => ?_
  cases need with
  | true =>
      refine Spec.bind (returned_spec (R := fun r v => r = .ok () → Consolidated v)
        (blobsRelieve_consolidated hw) (fun _ _ hv _ => hv) (fun _ _ _ _ hr => by cases hr)
        fun _ _ _ _ => trivial) fun r => Spec.pure ?_
      intro v hv
      refine ⟨fun hpass => hv ?_, fun hpass => by cases hpass⟩
      cases hpass
      rfl
  | false =>
      refine Spec.bind_getWorld fun y hy => ?_
      subst hy
      refine Spec.ite (fun _ => ?_) fun _ => Spec.pure ?_
      · refine Spec.bind (returned_spec (R := fun r v => r = .ok () → Trimmed v)
          (compact_trimmed hw) (fun _ _ hv _ => hv) (fun _ _ _ _ hr => by cases hr)
          fun _ _ _ _ => trivial) fun r => Spec.pure ?_
        intro v hv
        refine ⟨fun hpass => (by cases hpass), fun hpass => hv ?_⟩
        cases hpass
        rfl
      · intro v _
        exact ⟨fun hpass => (by cases hpass), fun hpass => by cases hpass⟩

end Passes

/-! ## Passes in a row -/

/-- The pass rewrote the store. -/
def Rewrote (pass : Pass) : Prop := pass = .relieved (.ok ()) ∨ pass = .compacted (.ok ())

theorem consolidated_later {v : World} (h : Consolidated v) (now : Millis) :
    Consolidated { v with now := now } := ⟨⟨h.isOpen, h.live⟩, h.blobs⟩

/-- A pass over a store whose blobs are all live, at any time, returns and does nothing. -/
theorem nothing_of_consolidated (p : Policy) {v : World} (hv : Consolidated v) (now : Millis)
    {plan : List Answer} (hplan : Answers (fun a => a ≠ .crash) plan) :
    ∃ s, maybeCompact p ⟨{ v with now := now }, plan⟩ = (.ok .nothing, s) := by
  have hrun := maybeCompact_consolidated (A := fun a => a ≠ .crash) p (consolidated_later hv now)
    ⟨{ v with now := now }, plan⟩ ⟨rfl, hplan⟩
  revert hrun
  cases maybeCompact p ⟨{ v with now := now }, plan⟩ with
  | mk r s =>
      cases r with
      | ok pass =>
          intro hpass
          have hnothing : pass = .nothing := hpass.1
          subst hnothing
          exact ⟨s, rfl⟩
      | error e =>
          intro herr
          exact absurd rfl herr.1.2

/-- **Auto-compaction settles.**  After a pass that ran `BlobsRelieve` the next one does nothing,
and after a pass that ran `Compact` the next one does nothing or runs `BlobsRelieve`, whatever
time has passed; so of three passes in a row one does nothing. -/
theorem auto_compaction_settles (p : Policy) {w v : World} {plan rest : List Answer} {pass : Pass}
    (hw : Reclaimable w) (hpass : maybeCompact p ⟨w, plan⟩ = (.ok pass, ⟨v, rest⟩)) (now : Millis) :
    (pass = .relieved (.ok ()) → ∀ plan', Answers (fun a => a ≠ .crash) plan' →
      ∃ s, maybeCompact p ⟨{ v with now := now }, plan'⟩ = (.ok .nothing, s)) ∧
    (pass = .compacted (.ok ()) → ∀ plan' next s,
      maybeCompact p ⟨{ v with now := now }, plan'⟩ = (.ok next, s) →
      next = .nothing ∨ ∃ r, next = .relieved r) ∧
    (Rewrote pass → ∀ plan' next v' rest', Reclaimable { v with now := now } →
      maybeCompact p ⟨{ v with now := now }, plan'⟩ = (.ok next, ⟨v', rest'⟩) → Rewrote next →
      ∀ later plan'', Answers (fun a => a ≠ .crash) plan'' →
        ∃ s, maybeCompact p ⟨{ v' with now := later }, plan''⟩ = (.ok .nothing, s)) := by
  obtain ⟨hrelieved, hcompacted⟩ := (maybeCompact_leaves p hw).ok rfl (fun _ _ => trivial) hpass
  have hnext : pass = .compacted (.ok ()) → ∀ plan' next s,
      maybeCompact p ⟨{ v with now := now }, plan'⟩ = (.ok next, s) →
      next = .nothing ∨ ∃ r, next = .relieved r := by
    intro hcompact plan' next s hrun
    have hv := hcompacted hcompact
    have hlater : Trimmed { v with now := now } := ⟨hv.isOpen, hv.live⟩
    exact (maybeCompact_trimmed p hlater).ok rfl (fun _ _ => trivial) hrun
  refine ⟨?_, hnext, ?_⟩
  · intro hrelieve plan' hplan
    exact nothing_of_consolidated p (hrelieved hrelieve) now hplan
  · intro hrewrote plan' next v' rest' hagain hrun hnextRewrote later plan'' hplan
    obtain ⟨hrelieved', -⟩ := (maybeCompact_leaves p hagain).ok rfl (fun _ _ => trivial) hrun
    -- the second pass can only have run BlobsRelieve
    have hrelieve : next = .relieved (.ok ()) := by
      rcases hnextRewrote with hnext' | hnext'
      · exact hnext'
      · exfalso
        rcases hrewrote with hrelieve | hcompact
        · have hlater := consolidated_later (hrelieved hrelieve) now
          have hnothing := (maybeCompact_consolidated (A := fun _ => True) p hlater).ok rfl
            (fun _ _ => trivial) hrun
          rw [hnothing] at hnext'
          cases hnext'
        · rcases hnext hcompact plan' next ⟨v', rest'⟩ hrun with hnothing | ⟨r, hr⟩
          · rw [hnothing] at hnext'
            cases hnext'
          · rw [hr] at hnext'
            cases hnext'
    exact nothing_of_consolidated p (hrelieved' hrelieve) later hplan

/-- A policy that rewrites at a quarter, whatever the size. -/
def quarter : Policy := newServer ⟨1 / 4, 1, true, 1 / 4, 1⟩

/-- A store that keeps values of two bytes or more as blobs has run some operations. -/
def afterOps (ops : List (Op × List Answer)) : World :=
  runEvents { now := ⟨0, Millis.zero_bounded⟩ }
    (.openStore { blobThreshold := 2 } [] :: ops.map fun op => .op op.1 op.2)

/-- One pass. -/
def passOf (w : World) : Except Err Pass × Env World := maybeCompact quarter ⟨w, []⟩

/-- A blob and a value in its line, which have been written once and twice. -/
def overwritten (value : Bytes) : World :=
  afterOps [(.put .sorted [0x62] [0x7A, 0x77] [], []), (.put .sorted [0x61] value [], []),
    (.put .sorted [0x61] [0x78] [], [])]

/-- What is live of it. -/
def live : List Record :=
  [{ key := [0x61], value := [0x78] }, { key := [0x62], blob := some ⟨0, 2, 0⟩ }]

theorem length_int64_le (i : Int64) : (intDigits i.toInt).length ≤ 20 := by
  have := i.toInt_lt
  have := i.le_toInt
  exact length_intDigits_le (by omega)

theorem length_ref_le (ref : BlobRef) :
    (print (.obj (Members.ofList ref.members))).length ≤ 80 := by
  have hoff := length_int64_le ref.off
  have hsize : (intDigits ref.size.toInt).length ≤ 20 := ref.size.toInt_toInt64 ▸ length_int64_le _
  have hgen := length_int64_le ref.gen
  have hnames : (printStr oName).length = 3 ∧ (printStr nName).length = 3 ∧
      (printStr gName).length = 3 := by decide +kernel
  have hlast : (printMembersTail (Members.ofList (omitEmpty (ref.gen = 0)
      (gName, .num (intDigits ref.gen.toInt))))).length ≤ 26 := by
    unfold omitEmpty
    split
    · decide
    · simp only [Members.ofList, print, printMembersTail, List.length_cons, List.length_append,
        List.length_nil]
      omega
  simp only [BlobRef.members, Members.ofList, print, printMembers, printMembersTail,
    List.length_cons, List.length_append]
  omega

/-- Wherever the blob goes, the lines fit. -/
theorem live_fits (db : DB) {r : Record} (hr : r ∈ live) (ref : BlobRef) {line : Bytes}
    (hline : marshalRecord (db.recast r ref) = some line) : Fits (line.length + 1) := by
  unfold Fits
  simp only [live, List.mem_cons, List.not_mem_nil, or_false] at hr
  rcases hr with rfl | rfl
  · have hsame : db.recast { key := [0x61], value := [0x78] } ref
        = { key := [0x61], value := [0x78] } := rfl
    rw [hsame] at hline
    cases hline
    decide +kernel
  · have hmoved : marshalRecord (db.recast { key := [0x62], blob := some ⟨0, 2, 0⟩ } ref)
        = some ([0x7B, 0x22, 0x6B, 0x22, 0x3A, 0x22, 0x62, 0x22, 0x2C, 0x22, 0x62, 0x22, 0x3A]
          ++ print (.obj (Members.ofList ref.members)) ++ [0x7D]) := rfl
    rw [hmoved] at hline
    cases hline
    have hlen := length_ref_le ref
    simp only [List.length_append, List.length_cons, List.length_nil]
    omega

theorem overwritten_reclaimable {value : Bytes}
    (hitems : (overwritten value).db.idx.pk.items.map (overwritten value).dir.recordAt
      = live.map .ok)
    (hrelieve : (overwritten value).db.relieve = none)
    (hfresh : (overwritten value).dir.blobBytes ((overwritten value).db.curGen + 1) = []) :
    Reclaimable (overwritten value) := by
  have hlive : ∀ e ∈ (overwritten value).db.idx.pk.items, ∀ r,
      (overwritten value).dir.recordAt e = .ok r → r ∈ live := by
    intro e he r hr
    have hmem : (Except.ok r : Except Err Record) ∈ live.map .ok :=
      hitems ▸ List.mem_map.mpr ⟨e, he, hr⟩
    obtain ⟨r', hr', hsame⟩ := List.mem_map.mp hmem
    cases hsame
    exact hr'
  refine ⟨hrelieve, fun e he r hr => ?_, fun e he r hr ref line => ?_, hfresh⟩
  · have hempty : ∀ r ∈ live, r.ix.items = [] := by decide +kernel
    intro nv (hnv : nv ∈ r.ix.items)
    rw [hempty r (hlive e he r hr)] at hnv
    cases hnv
  · exact live_fits _ (hlive e he r hr) ref

theorem passOf_run {w : World} {pass : Pass} (h : (passOf w).1 = .ok pass) :
    maybeCompact quarter ⟨w, []⟩ = (.ok pass, ⟨(passOf w).2.world, (passOf w).2.plan⟩) :=
    run_of_ok h

/-- An hour after the start. -/
def anHour : Millis := ⟨3600000, by decide⟩

/-- An orphaned blob is relieved and a dead line is compacted, and that is all. -/
theorem one_pass_is_enough :
    (∃ s, maybeCompact quarter ⟨{ (passOf (overwritten [0x78, 0x79])).2.world with
      now := anHour }, []⟩ = (.ok .nothing, s)) ∧
    ∀ next s, maybeCompact quarter ⟨{ (passOf (overwritten [0x79])).2.world with
      now := anHour }, []⟩ = (.ok next, s) → next = .nothing ∨ ∃ r, next = .relieved r := by
  constructor
  · have hpass : (passOf (overwritten [0x78, 0x79])).1 = .ok (.relieved (.ok ())) := by
      decide +kernel
    have hw : Reclaimable (overwritten [0x78, 0x79]) :=
      overwritten_reclaimable (by decide +kernel) (by decide +kernel) (by decide +kernel)
    obtain ⟨hnext, -⟩ := auto_compaction_settles quarter hw (passOf_run hpass) anHour
    exact hnext rfl [] fun _ h => by cases h
  · have hpass : (passOf (overwritten [0x79])).1 = .ok (.compacted (.ok ())) := by
      decide +kernel
    have hw : Reclaimable (overwritten [0x79]) :=
      overwritten_reclaimable (by decide +kernel) (by decide +kernel) (by decide +kernel)
    obtain ⟨-, hnext, -⟩ := auto_compaction_settles quarter hw (passOf_run hpass) anHour
    exact hnext rfl []

/-- A blob has been written twice, and a `BlobsRelieve` has failed at the write of the new log and
then at the removal of the new generation. -/
def leftover : World :=
  afterOps [(.put .sorted [0x61] [0x78, 0x79] [], []), (.put .sorted [0x61] [0x7A, 0x77] [], []),
    (.blobsRelieve, [.ok, .ok, .ok, .ok, .ok, .ok, .ok, .fail 0, .ok, .ok, .fail 0])]

/-- What the failed run left is orphaned in the generation of the next one, so that it is
followed by another. -/
theorem leftover_relieved_twice :
    (passOf leftover).1 = .ok (.relieved (.ok ())) ∧
      (passOf (passOf leftover).2.world).1 = .ok (.relieved (.ok ())) := by decide +kernel

end NteeDb.Properties.AutoCompaction
