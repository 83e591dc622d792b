import NteeDb.Invariants.Building

/-!
# Swapping the new log in

The rename commits a rewrite.  From then on the log is the new one, whatever happens to
the rest of the swap (`Committed`): a failure stops the store with sound files, and a
swap that goes through leaves a store whose indexes are those of the new log
(`Swapped`).

## Main results

* `swapBody_spec` — the swap up to the hint, for all answers of the system.
* `Swapped.onDisk`, `Swapped.hintable`, `Swapped.serving` — what it leaves.
-/

namespace NteeDb.Core

open NteeDb.Verified
open Faults Lines OrderedTree JsonCodec

variable {A : Answer → Prop} {m : Mode} {w x y z : World} {g : Option Int64}
  {T : Bytes → Record → Record → Bytes → Prop} {F : Bytes → Cell → Cell} {pk : PkIndex}
  {ls : List Bytes} {rs rs' : List Record}

/-! ## The files after the rename -/

/-- The new log of `x` has taken the place of the log of `w`.  Of the blob files, those it
refers to are still there. -/
structure Committed (g : Option Int64) (w x z : World) : Prop where
  main : z.dir.main = x.dir.compact
  schema : z.dir.schema = w.dir.schema
  kept : ∀ gen, g = none ∨ g = some gen → z.dir.blob gen = x.dir.blob gen
  others : ∀ gen, z.dir.blob gen = x.dir.blob gen ∨ z.dir.blob gen = none
  inode : z.inode = w.inode + 1
  hintInode : z.hintInode ≤ w.inode
  now : z.now = w.now
  acked : z.acked = w.acked

/-- The transform of the cells leaves the values and the expiries. -/
def Preserves (F : Bytes → Cell → Cell) : Prop := ∀ key c, (F key c).ack key = c.ack key

/-- The unexpired keys of `w` have the same values. -/
def Survives (w z : World) : Prop :=
  ∀ key, (unexpired Cell.exp w.now.ms (z.dir.cells key)).map (Cell.ack key)
    = (w.live key).map (Cell.ack key)

theorem unexpired_map {α β : Type} {f : α → β} {exp : α → Int64} {exp' : β → Int64}
    (hexp : ∀ a, exp' (f a) = exp a) (now : Int64) (o : Option α) :
    unexpired exp' now (o.map f) = (unexpired exp now o).map f := by
  cases o with
  | none => rfl
  | some a =>
      rw [Option.map_some, unexpired_some, unexpired_some, hexp]
      split <;> rfl

theorem unexpired_twice {α : Type} (exp : α → Int64) (now : Int64) (o : Option α) :
    unexpired exp now (unexpired exp now o) = unexpired exp now o := by
  cases o with
  | none => rfl
  | some a =>
      rw [unexpired_some]
      split
      · rfl
      · next hexp => rw [unexpired_some, if_neg hexp]

theorem Committed.mainBytes (h : Committed g w x z) :
    z.dir.mainBytes = x.dir.swapped.mainBytes := by
  rw [Dir.mainBytes, h.main]
  rfl

section Commit

variable (h : Committed g w x z) (hb : Built g w T F pk x ls rs rs')

include h hb

theorem Committed.extends : x.dir.swapped.Extends z.dir ls := by
  intro l hl r ref hr href
  have hkept : z.dir.blob ref.gen = x.dir.blob ref.gen := by
    refine h.kept ref.gen ?_
    cases g with
    | none => exact Or.inl rfl
    | some gen => exact Or.inr (by rw [hb.refs l hl r ref hr href gen rfl])
  obtain ⟨r', hr'⟩ := hb.log.lines l hl
  rw [hr'.unmarshal] at hr
  cases hr
  refine ⟨by rw [hkept]; exact (hr'.record.blob ref href).present, [], ?_⟩
  rw [Dir.blobBytes, hkept, List.append_nil]
  rfl

/-- The new log is sound, with the cells it was built from. -/
theorem Committed.log :
    LogSound z.dir ls ∧ ∀ key, z.dir.cells key = (w.live key).map (F key) := by
  have hext := h.extends hb
  have hmain := h.mainBytes
  refine ⟨hb.log.extend hmain hext ⟨by rw [hmain]; exact hb.log.sized.1, fun gen => ?_⟩,
    fun key => ?_⟩
  · rcases h.others gen with heq | hnone
    · rw [Dir.blobBytes, heq]
      exact hb.log.sized.2 gen
    · rw [Dir.blobBytes, hnone]
      decide
  · rw [hb.log.cells_extend hmain hext, hb.cells]

theorem Committed.survives (hF : Preserves F) : Survives w z := by
  intro key
  have hexp : ∀ c, (F key c).exp = c.exp := fun c => congrArg Ack.exp (hF key c)
  rw [(h.log hb).2, unexpired_map hexp, World.live, unexpired_twice, Option.map_map]
  congr 1
  funext c
  exact hF key c

/-- What is on disk is sound; the hint is that of an earlier log. -/
theorem Committed.onDisk (hw : OnDisk m w) (hF : Preserves F) : OnDisk m.cutOff z := by
  have hlog := (h.log hb).1
  have hsurvives := h.survives hb hF
  refine ⟨⟨by rw [hlog.log]; exact hlog, fun heq => ?_, ?_⟩, fun hm key => ?_, fun hm => nomatch hm⟩
  · have hle := h.hintInode
    rw [heq, h.inode] at hle
    exact absurd hle (Nat.not_succ_le_self _)
  · rw [h.inode]
    exact Nat.le_succ_of_le h.hintInode
  · have hagrees := hw.2.1 hm key
    have hexp : ∀ c : Cell, (c.ack key).exp = c.exp := fun _ => rfl
    rw [unexpired_map hexp] at hagrees ⊢
    rw [h.now, h.acked, hsurvives key, ← hagrees]
    rfl

end Commit

/-! ## The swap -/

/-- How a swap may end without a value: the process died, or the store stopped with the
files of the old log or of the new one. -/
inductive Stranded (m : Mode) (w : World) : Err → World → Prop
  | crash {z : World} (disk : OnDisk m.cutOff z) : Stranded m w .crash z
  | disabled {z : World} {cause : Err} (disk : OnDisk m.cutOff z) (closed : z.db.closed = true)
      (job : z.db.job = none) (schema : z.dir.schema = w.dir.schema) (now : z.now = w.now)
      (survives : Survives w z) : Stranded m w (.disabled cause) z

/-- `failStop` where the files are sound. -/
theorem failStop_spec {α : Type} (cause : Err) {Q : α → World → Prop} (hdisk : OnDisk m.cutOff y)
    (hpending : Pending m.cutOff y) (hschema : y.dir.schema = w.dir.schema) (hnow : y.now = w.now)
    (hsurvives : Survives w y) :
    Spec A (fun v => v = y) (failStop cause : StoreM α) Q (Stranded m w) := by
  have hstopped :
      OnDisk m.cutOff { y with db := { y.db with closed := true, mainOpen := false } } := hdisk
  unfold failStop
  refine Spec.bind (Spec.updateDB (Q := fun _ v => v = { y with
    db := { y.db with closed := true, mainOpen := false } }) ?_) fun _ => ?_
  · rintro v rfl
    rfl
  refine Spec.bind ((awaitHint_cases hstopped hpending).errors ?_) fun _ => Spec.fail ?_
  · rintro e v ⟨rfl, hv⟩
    exact .crash hv
  · rintro v ⟨hv, hre, hjob⟩
    obtain ⟨hframe, hsame⟩ := hre.frame
    refine .disabled hv hframe.closed hjob (hframe.schema.trans hschema) (hframe.now.trans hnow) ?_
    rw [Survives, hsame.cells]
    exact hsurvives

/-- A step of the swap that stops the store when it fails. -/
theorem orFailStop_spec {α : Type} {c : StoreM α} {Q : α → World → Prop}
    (hc : Spec A (fun v => v = x) c Q (fun e v => (e = .io ∨ e = .crash) ∧ OnDisk m.cutOff v ∧
      Pending m.cutOff v ∧ v.dir.schema = w.dir.schema ∧ v.now = w.now ∧ Survives w v)) :
    Spec A (fun v => v = x) (orFailStop c) Q (Stranded m w) := by
  unfold orFailStop
  refine Spec.bind_attempt hc (fun _ => Spec.pure fun _ hv => hv) fun e =>
    Spec.of_world ?_
  rintro v ⟨he, hdisk, hpending, hschema, hnow, hsurvives⟩
  refine Spec.ite (fun hfatal => ?_) fun _ =>
    failStop_spec e hdisk hpending hschema hnow hsurvives
  refine Spec.fail ?_
  rintro v rfl
  rcases he with rfl | rfl
  · cases hfatal
  · exact .crash hdisk

/-- The store after a swap, before its hint.  A retired generation whose file could not be
removed stays behind. -/
structure Swapped (A : Answer → Prop) (g : Option Int64) (w x : World) (pk : PkIndex) (z : World) :
    Prop where
  committed : Committed g w x z
  compact : z.dir.compact = none
  hint : z.dir.hint = w.dir.hint
  hintInode : z.hintInode = w.hintInode
  retired : ∀ gen gen', g = some gen → gen' ≠ gen → 0 ≤ gen' →
    z.dir.blob gen' = none ∨ ∃ k, A (.fail k)
  stores : ∀ gen, g = some gen → ∀ gen', z.db.blobs.get? { gen := gen' }
    = if gen' = gen then some { gen := gen, size := fileSize (x.dir.blobBytes gen) } else none
  db : ∃ c r blobs, (g = none → blobs = w.db.blobs) ∧ z.db = { w.db with
    size := fileSize z.dir.mainBytes
    handles := w.inode + 1
    mainOpen := true
    idx := { w.db.idx with pk := pk }.rebuildSec
    writes := 0
    compacting := c
    relieve := r
    blobs := blobs
    curGen := g.getD w.db.curGen }

/-! ### Retiring the old generations -/

theorem Dir.blob_delete (d : Dir) (g gen : Int64) :
    Dir.blob { d with blobs := d.blobs.delete (g, []) } gen
      = if gen = g then none else d.blob gen := by
  have hget := (d.blobs : BlobFiles).get?_delete (g, []) (gen, [])
  rw [Dir.blob, hget]
  simp only [Int64.toInt_inj]
  split <;> rfl

/-- The generations `done` have been retired. -/
structure Retiring (A : Answer → Prop) (y : World) (done : List Int64) (v : World) : Prop where
  same : ∃ files stores s, v = { y with
    dir := { y.dir with blobs := files }, db := { y.db with blobs := stores }, durable := s }
  kept : ∀ gen, gen ∉ done → v.dir.blob gen = y.dir.blob gen
  gone : ∀ gen ∈ done, v.dir.blob gen = none ∨ v.dir.blob gen = y.dir.blob gen ∧ ∃ k, A (.fail k)
  stores : ∀ gen, v.db.blobs.get? { gen := gen }
    = if gen ∈ done then none else y.db.blobs.get? { gen := gen }

theorem Retiring.start (y : World) : Retiring A y [] y :=
  ⟨⟨_, _, _, rfl⟩, fun _ _ => rfl, by rintro gen ⟨⟩, fun _ => rfl⟩

/-- The file of a generation is gone, or could not be removed. -/
theorem Retiring.step {done : List Int64} {gen : Int64} {u v : World} (h : Retiring A y done v)
    (hu : u = { v with
        dir := { v.dir with blobs := v.dir.blobs.delete (gen, []) }
        durable := v.durable.setBlob gen 0 } ∨ u = v ∧ ∃ k, A (.fail k)) :
    Retiring A y (done ++ [gen])
      { u with db := { u.db with blobs := u.db.blobs.delete { gen := gen } } } := by
  obtain ⟨files, stores, s, hv⟩ := h.same
  have hdb : u.db = v.db := by
    rcases hu with rfl | ⟨rfl, _⟩ <;> rfl
  refine ⟨?_, fun gen' hgen' => ?_, fun gen' hgen' => ?_, fun gen' => ?_⟩
  · rcases hu with rfl | ⟨rfl, _⟩
    · rw [hv]
      exact ⟨_, _, _, rfl⟩
    · rw [hv]
      exact ⟨_, _, _, rfl⟩
  · rw [List.mem_append, List.mem_singleton, not_or] at hgen'
    rcases hu with rfl | ⟨rfl, _⟩
    · dsimp only
      rw [Dir.blob_delete, if_neg hgen'.2]
      exact h.kept gen' hgen'.1
    · exact h.kept gen' hgen'.1
  · rcases hu with rfl | ⟨rfl, hfail⟩
    · dsimp only
      rw [Dir.blob_delete]
      by_cases heq : gen' = gen
      · rw [if_pos heq]
        exact Or.inl rfl
      · rw [if_neg heq]
        refine h.gone gen' ?_
        rcases List.mem_append.mp hgen' with hmem | hmem
        · exact hmem
        · exact absurd (List.mem_singleton.mp hmem) heq
    · by_cases hmem : gen' ∈ done
      · exact h.gone gen' hmem
      · exact Or.inr ⟨h.kept gen' hmem, hfail⟩
  · dsimp only
    rw [hdb, blobStores_get_delete, h.stores]
    by_cases heq : gen' = gen
    · rw [if_pos heq, if_pos (by rw [heq]; simp)]
    · rw [if_neg heq]
      simp [heq]

theorem retireGen_spec {done : List Int64} {v : World} (h : Retiring A y done v) (gen : Int64) :
    Spec A (fun u => u = v) (retireGen gen) (fun _ => Retiring A y (done ++ [gen]))
      (fun e u => e = .crash ∧ u = v) := by
  unfold retireGen
  have hio : ∀ (u : World) (e : Err), e.fatal = true → u = v ∧ Unanswered A e → e = .crash ∧
      u = v := by
    rintro u e hfatal ⟨rfl, he⟩
    rcases he.io_or_crash with rfl | rfl
    · cases hfatal
    · exact ⟨rfl, rfl⟩
  refine Spec.bind (Spec.ignoreError (Q := fun _ u => u = v)
    (F := fun e u => u = v ∧ Unanswered A e) (Spec.quietStep (fun _ hu => hu)
      (fun k u hk hu => ⟨hu, Or.inr ⟨rfl, k, hk⟩⟩) fun u _ hu => ⟨hu, Or.inl rfl⟩)
    (fun _ _ _ hu => hu.1) fun e u hfatal hu => hio u e hfatal hu) fun _ => ?_
  refine Spec.bind (Spec.ignoreError (Q := fun _ u => u = { v with
      dir := { v.dir with blobs := v.dir.blobs.delete (gen, []) }
      durable := v.durable.setBlob gen 0 } ∨ u = v ∧ ∃ k, A (.fail k))
    (F := fun e u => u = v ∧ Unanswered A e) (Spec.atomicStep ?_
      (fun k u hk hu => ⟨hu, Or.inr ⟨rfl, k, hk⟩⟩) fun u _ hu => ⟨hu, Or.inl rfl⟩)
    ?_ fun e u hfatal hu => hio u e hfatal hu) fun _ => Spec.updateDB fun u hu => h.step hu
  · rintro u rfl
    exact Or.inl rfl
  · rintro e u hfatal ⟨rfl, rfl | ⟨_, hfail⟩⟩
    · cases hfatal
    · exact Or.inr ⟨rfl, hfail⟩

/-- The loop that retires the generations of the store. -/
theorem retireGens_spec (y : World) (gens : List Int64) :
    Spec A (fun v => v = y) (Prog.forEach gens retireGen) (fun _ => Retiring A y gens)
      (fun e v => e = .crash ∧ ∃ done, (∀ gen ∈ done, gen ∈ gens) ∧ Retiring A y done v) := by
  refine (Spec.forEach (I := fun rest v => ∃ done, done ++ rest = gens ∧ Retiring A y done v)
    (fun gen rest => ?_) gens).conseq ?_ ?_ fun _ _ hv => hv
  · refine Spec.of_world ?_
    rintro v ⟨done, hdone, hv⟩
    refine (retireGen_spec hv gen).post ?_ ?_
    · intro _ u hu
      exact ⟨done ++ [gen], by rw [← hdone, List.append_assoc]; rfl, hu⟩
    · rintro e u ⟨rfl, rfl⟩
      refine ⟨rfl, done, fun gen' hgen' => ?_, hv⟩
      rw [← hdone]
      exact List.mem_append_left _ hgen'
  · rintro v rfl
    exact ⟨[], rfl, Retiring.start v⟩
  · rintro _ v ⟨done, hdone, hv⟩
    rw [List.append_nil] at hdone
    exact hdone ▸ hv

theorem mem_gens {stores : BlobStores} {gen : Int64} :
    gen ∈ stores.items.map BlobStore.gen ↔ (stores.get? { gen := gen }).isSome = true := by
  rw [List.mem_map, Option.isSome_iff_exists]
  refine exists_congr fun bs => ?_
  have hget : stores.get? { gen := gen } = some bs ↔ bs ∈ stores.items ∧ bs.gen.toInt = gen.toInt :=
    Tree.get?_eq_some
  rw [hget, Int64.toInt_inj]

/-- Whatever has been retired, the new log is in place. -/
theorem Retiring.committed {done : List Int64} {gen : Int64} {v : World} (h : Retiring A y done v)
    (hy : Committed (some gen) w x y) (hgen : gen ∉ done) : Committed (some gen) w x v := by
  obtain ⟨files, stores, s, hv⟩ := h.same
  refine ⟨by rw [hv]; exact hy.main, by rw [hv]; exact hy.schema, fun gen' hgen' => ?_,
    fun gen' => ?_, by rw [hv]; exact hy.inode, by rw [hv]; exact hy.hintInode,
    by rw [hv]; exact hy.now, by rw [hv]; exact hy.acked⟩
  · rcases hgen' with hnone | hsome
    · cases hnone
    · cases hsome
      rw [h.kept gen hgen, hy.kept gen (Or.inr rfl)]
  · by_cases hmem : gen' ∈ done
    · rcases h.gone gen' hmem with hnone | ⟨hsame, _⟩
      · exact Or.inr hnone
      · rw [hsame]
        exact hy.others gen'
    · rw [h.kept gen' hmem]
      exact hy.others gen'

/-! ### The whole swap -/

/-- The world once the new log is in place, its handles are open and the indexes are
rebuilt. -/
def World.swapped (x : World) (pk : PkIndex) : World :=
  { x with
    dir := x.dir.swapped
    inode := x.inode + 1
    durable := { x.durable with main := (x.dir.compact.getD []).length }
    db := { x.db with
      size := fileSize x.dir.swapped.mainBytes
      handles := x.inode + 1
      mainOpen := true
      idx := { x.db.idx with pk := pk }.rebuildSec
      writes := 0 } }

/-- A world with the new log in place. -/
theorem Strayed.committed (hx : Strayed g w x) (horder : w.hintInode ≤ w.inode)
    (hdir : z.dir = x.dir.swapped) (hinode : z.inode = x.inode + 1)
    (hhint : z.hintInode = x.hintInode) (hnow : z.now = x.now) (hacked : z.acked = x.acked) :
    Committed g w x z := by
  refine ⟨by rw [hdir]; rfl, by rw [hdir]; exact hx.schema, fun gen _ => by rw [hdir]; rfl,
    fun gen => Or.inl (by rw [hdir]; rfl), by rw [hinode, hx.inode], ?_, by rw [hnow, hx.now],
    by rw [hacked, hx.acked]⟩
  rw [hhint, hx.hintInode]
  exact horder

/-- The snapshot in flight is of a log that is gone. -/
theorem InFlight.pending_committed (hw : InFlight w) (hjob : z.db.job = w.db.job)
    (hinode : z.inode = w.inode + 1) : Pending m.cutOff z := by
  intro j hj
  rw [hjob] at hj
  have hkept := hw j hj
  rw [hinode]
  refine ⟨⟨Nat.le_succ_of_le hkept.handles, hkept.scalar, fun heq => ?_⟩, fun hm => nomatch hm⟩
  have hle := hkept.handles
  rw [heq] at hle
  exact absurd hle (Nat.not_succ_le_self _)

theorem Strayed.job (hx : Strayed g w x) : x.db.job = w.db.job := by
  obtain ⟨c, r, hdb⟩ := hx.db
  rw [hdb]

/-- Renaming the new log over the old one. -/
theorem renameCompact_spec (hw : Sound m w) (hx : Aside g w x) (hfresh : FreshGen g w.dir) {db : DB}
    (hjob : db.job = x.db.job) :
    Spec A (fun v => v = { x with db := db }) (orFailStop renameCompact)
      (fun _ v => v = { x with
        dir := x.dir.swapped
        inode := x.inode + 1
        durable := { x.durable with main := (x.dir.compact.getD []).length }
        db := db })
      (Stranded m w) := by
  obtain ⟨hdisk, hcells⟩ := hx.onDisk hfresh hw.1
  have hsurvives : Survives w { x with db := db } := by
    intro key
    dsimp only
    rw [hcells]
    rfl
  have hpending : Pending m.cutOff { x with db := db } := by
    intro j hj
    rw [show ({ x with db := db } : World).db.job = x.db.job from hjob] at hj
    exact ⟨(hx.inFlight hw.2.1 j hj).kept, fun hm => nomatch hm⟩
  refine orFailStop_spec (Spec.atomicStep ?_ ?_ ?_)
  · rintro v rfl
    rfl
  · rintro k v _ rfl
    exact ⟨Or.inl rfl, hdisk.cutOff, hpending, hx.schema, hx.now, hsurvives⟩
  · rintro v _ rfl
    exact ⟨Or.inr rfl, hdisk.cutOff, hpending, hx.schema, hx.now, hsurvives⟩

section Swap

variable (hw : Sound m w) (hx : Aside g w x) (hb : Built g w T F pk x ls rs rs') (hF : Preserves F)

include hw hx hb hF

/-- Opening the handles of the new log. -/
theorem openSwapped_spec {s : Durable} {db : DB} (hjob : db.job = x.db.job) :
    Spec A (fun v => v = { x with
        dir := x.dir.swapped, inode := x.inode + 1, durable := s, db := db })
      (orFailStop openMainHandles)
      (fun _ v => v = { x with
        dir := x.dir.swapped
        inode := x.inode + 1
        durable := s
        db := { db with
          size := fileSize x.dir.swapped.mainBytes, handles := x.inode + 1, mainOpen := true } })
      (Stranded m w) := by
  have hcommitted : Committed g w x { x with
      dir := x.dir.swapped, inode := x.inode + 1, durable := s, db := db } :=
    hx.committed hw.1.1.order rfl rfl rfl rfl rfl
  have hstop : ∀ e : Err, e = .io ∨ e = .crash → ∀ v, v = ({ x with
      dir := x.dir.swapped, inode := x.inode + 1, durable := s, db := db } : World) →
      (e = .io ∨ e = .crash) ∧ OnDisk m.cutOff v ∧ Pending m.cutOff v ∧
        v.dir.schema = w.dir.schema ∧ v.now = w.now ∧ Survives w v := by
    rintro e he v rfl
    exact ⟨he, hcommitted.onDisk hb hw.1 hF,
      hw.2.1.pending_committed (hjob.trans hx.job) hcommitted.inode, hcommitted.schema,
      hcommitted.now, hcommitted.survives hb hF⟩
  have hquiet : Spec A (fun v => v = ({ x with
      dir := x.dir.swapped, inode := x.inode + 1, durable := s, db := db } : World)) quietStep
      (fun _ v => v = { x with dir := x.dir.swapped, inode := x.inode + 1, durable := s, db := db })
      (fun e v => (e = .io ∨ e = .crash) ∧ OnDisk m.cutOff v ∧ Pending m.cutOff v ∧
        v.dir.schema = w.dir.schema ∧ v.now = w.now ∧ Survives w v) :=
    Spec.quietStep (fun _ hv => hv) (fun _ v _ hv => hstop .io (Or.inl rfl) v hv)
      fun v _ hv => hstop .crash (Or.inr rfl) v hv
  -- the log is there already, so opening it creates no file
  have hmain : ({ x.dir.swapped with main := some x.dir.swapped.mainBytes } : Dir)
      = x.dir.swapped := by
    rw [Dir.mainBytes, Dir.swapped, hb.compact]
    rfl
  refine orFailStop_spec ?_
  unfold openMainHandles
  refine Spec.bind (Spec.atomicStep ?_ (fun _ v _ hv => hstop .io (Or.inl rfl) v hv)
    fun v _ hv => hstop .crash (Or.inr rfl) v hv) fun _ => Spec.bind hquiet fun _ =>
    Spec.bind hquiet fun _ => Spec.bind hquiet fun _ => Spec.modify ?_
  · rintro v rfl
    dsimp only
    rw [hmain]
  · rintro v rfl
    rfl

/-- After the swap of a `BlobsRelieve` the old generations are retired. -/
theorem retireOthers_spec (hopen : w.db.closed = false) (hfresh : FreshGen g w.dir)
    (hready : Ready x) : Spec A (fun v => v = x.swapped pk) retireOthers
      (fun _ v => Swapped A g w x pk v ∧ v.db.relieve = x.db.relieve) (Stranded m w) := by
  obtain ⟨c, r, hdb⟩ := hx.db
  have hblobs : x.db.blobs = w.db.blobs := by rw [hdb]
  have hcommitted : Committed g w x (x.swapped pk) := hx.committed hw.1.1.order rfl rfl rfl rfl rfl
  unfold retireOthers
  refine Spec.bind_getWorld ?_
  rintro _ rfl
  rw [show (x.swapped pk).db.relieve = x.db.relieve from rfl]
  cases g with
  | none =>
      rw [Option.map_eq_none_iff.mp hx.relieve]
      refine Spec.pure ?_
      rintro v rfl
      refine ⟨⟨hcommitted, rfl, hx.hint, hx.hintInode, by rintro gen gen' ⟨⟩, by rintro gen ⟨⟩,
        c, r, w.db.blobs, fun _ => rfl, ?_⟩, Option.map_eq_none_iff.mp hx.relieve⟩
      rw [World.swapped, hx.inode, hdb]
      rfl
  | some gen =>
      rw [hx.relieved hready]
      have hnew : gen ∉ x.db.blobs.items.map BlobStore.gen := by
        rw [hblobs, mem_gens, (hw.2.2 hopen).store, (hfresh gen rfl).2]
        simp
      refine Spec.bind ((retireGens_spec (x.swapped pk) _).errors ?_)
        fun _ => Spec.updateDB fun v hv => ?_
      · rintro e v ⟨rfl, done, hdone, hv⟩
        exact .crash ((hv.committed hcommitted fun hgen => hnew (hdone gen hgen)).onDisk hb hw.1 hF)
      have hv' := hv.committed hcommitted hnew
      obtain ⟨files, stores, s, hsame⟩ := hv.same
      refine ⟨⟨⟨hv'.main, hv'.schema, hv'.kept, hv'.others, hv'.inode, hv'.hintInode, hv'.now,
        hv'.acked⟩, by rw [hsame]; rfl, by rw [hsame]; exact hx.hint,
        by rw [hsame]; exact hx.hintInode, ?_, ?_, ?_⟩, by rw [hsame]; exact hx.relieved hready⟩
      · rintro _ gen' ⟨⟩ hne hnonneg
        by_cases hmem : gen' ∈ x.db.blobs.items.map BlobStore.gen
        · exact (hv.gone gen' hmem).imp_right And.right
        · refine Or.inl ((hv.kept gen' hmem).trans ?_)
          rw [hblobs, mem_gens, (hw.2.2 hopen).store] at hmem
          show x.dir.blob gen' = none
          rw [hx.beside.others gen' (by rintro ⟨⟩; exact hne rfl)]
          cases hblob : w.dir.blob gen' with
          | none => rfl
          | some bytes =>
              rw [hblob] at hmem
              simp [hnonneg] at hmem
      · rintro _ ⟨⟩ gen'
        dsimp only
        rw [blobStores_get_set, hv.stores]
        by_cases heq : gen' = gen
        · rw [if_pos heq, if_pos heq]
        · rw [if_neg heq, if_neg heq]
          split
          · rfl
          · next hmem =>
              rw [mem_gens] at hmem
              simpa using hmem
      · rw [hsame]
        refine ⟨c, r, stores.set { gen := gen, size := fileSize (x.dir.blobBytes gen) },
          by rintro ⟨⟩, ?_⟩
        dsimp only
        rw [World.swapped, hx.inode, hdb]
        rfl

/-- The swap up to the hint. -/
theorem swapBody_spec (hopen : w.db.closed = false) (hfresh : FreshGen g w.dir) (hready : Ready x) :
    Spec A (fun v => v = x) (swapBody pk)
      (fun _ v => Swapped A g w x pk v ∧ v.db.relieve = x.db.relieve) (Stranded m w) := by
  have hclosed : OnDisk m { x with db := { x.db with mainOpen := false } } :=
    (hx.onDisk hfresh hw.1).1
  unfold swapBody
  refine Spec.bind (Spec.ignoreError (Q := fun _ v => v = { x with
    db := { x.db with mainOpen := false } }) (closeMainHandles_cases A x) (fun _ _ _ hv => hv.1) ?_)
    fun _ => ?_
  · rintro e v hfatal ⟨rfl, rfl | rfl⟩
    · cases hfatal
    · exact .crash hclosed.cutOff
  refine Spec.bind (renameCompact_spec hw hx hfresh rfl) fun _ => ?_
  refine Spec.bind (openSwapped_spec hw hx hb hF rfl) fun _ => ?_
  refine Spec.bind (Spec.updateDB (Q := fun _ v => v = x.swapped pk) ?_) fun _ =>
    retireOthers_spec hw hx hb hF hopen hfresh hready
  rintro v rfl
  rfl

end Swap

/-! ## What a swap leaves -/

theorem Rehinted.cells {v : World} (h : Rehinted w v) : v.dir.cells = w.dir.cells := h.frame.2.cells

section Swapped

variable (h : Swapped A g w x pk z) (hw : Sound m w) (hopen : w.db.closed = false)

include h hw

/-- No snapshot in flight is of the new log. -/
theorem Swapped.inFlight : InFlight z.bumped := by
  obtain ⟨c, r, blobs, _, hdb⟩ := h.db
  intro j hj
  have hjob : z.bumped.db.job = w.db.job := by
    rw [World.bumped, hdb]
  have hgen : z.bumped.db.hintGen = w.db.hintGen + 1 := by
    rw [World.bumped, hdb]
  rw [hjob] at hj
  have hkept := hw.2.1 j hj
  rw [hgen, show z.bumped.inode = w.inode + 1 from h.committed.inode]
  refine ⟨Nat.le_succ_of_le hkept.gen, Nat.le_succ_of_le hkept.handles, fun heq => ?_, hkept.scalar,
    fun heq => ?_⟩
  · have hle := hkept.gen
    rw [heq] at hle
    exact absurd hle (Nat.not_succ_le_self _)
  · have hle := hkept.handles
    rw [heq] at hle
    exact absurd hle (Nat.not_succ_le_self _)

include hopen

theorem Swapped.hintable (hb : Built g w T F pk x ls rs rs') : Hintable z := by
  obtain ⟨c, r, blobs, hblobs, hdb⟩ := h.db
  have hlog := (h.committed.log hb).1
  refine ⟨by rw [hdb], by rw [hdb, h.committed.inode], ?_, fun bs hbs => ?_⟩
  · rw [hlog.log, hdb]
    exact hb.mirrors
  · cases g with
    | none =>
        rw [hdb] at hbs
        dsimp only [DB.blobStore] at hbs
        rw [hblobs rfl, Option.getD_none, (hw.2.2 hopen).current] at hbs
        cases hbs
        rfl
    | some gen =>
        have hcur : z.db.curGen = gen := by rw [hdb]; rfl
        rw [DB.blobStore, hcur, h.stores gen rfl, if_pos rfl] at hbs
        cases hbs
        rfl

/-- The store is served from the new log, unless a retired file stayed behind. -/
theorem Swapped.serving (hb : Built g w T F pk x ls rs rs') (hx : Aside g w x)
    (hfresh : ∀ gen ∈ g, 0 ≤ gen ∧ w.db.curGen < gen) (hA : g = none ∨ ∀ k, ¬ A (.fail k)) :
    Serving z := by
  have hstore := hw.2.2 hopen
  have hint := h.hintable hw hopen hb
  obtain ⟨c, r, blobs, hblobs, hdb⟩ := h.db
  have hkept := h.committed.kept
  refine ⟨by rw [hdb]; exact hstore.carried, by rw [h.committed.main, hb.compact]; rfl, hint.size,
    hint.handles, by rw [hdb], ?_, ?_, ?_, ?_, rfl, ?_, hint.mirrors⟩
  · rw [hdb]
    cases g with
    | none => exact hstore.cur_nonneg
    | some gen => exact (hfresh gen rfl).1
  · rw [hdb]
    cases g with
    | none =>
        show (z.dir.blob w.db.curGen).isSome = true
        rw [hkept _ (Or.inl rfl), hx.beside.others _ (by rintro ⟨⟩)]
        exact hstore.cur_present
    | some gen =>
        show (z.dir.blob gen).isSome = true
        rw [hkept _ (Or.inr rfl)]
        exact hx.present gen rfl
  · intro gen' hlt
    rw [hdb] at hlt
    cases g with
    | none =>
        rw [hkept _ (Or.inl rfl), hx.beside.others _ (by rintro ⟨⟩)]
        exact hstore.highest gen' hlt
    | some gen =>
        have hlt : gen < gen' := hlt
        have hold : x.dir.blob gen' = none := by
          rw [hx.beside.others gen' (by rintro ⟨⟩; exact absurd hlt (Int64.lt_irrefl))]
          exact hstore.highest gen' (Int64.lt_trans (hfresh gen rfl).2 hlt)
        rcases h.committed.others gen' with heq | hnone
        · rw [heq, hold]
        · exact hnone
  · intro gen'
    cases g with
    | none =>
        rw [hdb, Dir.blobBytes, hkept _ (Or.inl rfl), hx.beside.others _ (by rintro ⟨⟩)]
        dsimp only
        rw [hblobs rfl]
        exact hstore.store gen'
    | some gen =>
        rw [h.stores gen rfl]
        by_cases heq : gen' = gen
        · subst heq
          have hblob := hkept gen' (Or.inr rfl)
          rw [if_pos rfl, if_pos ⟨(hfresh gen' rfl).1, by rw [hblob]; exact hx.present gen' rfl⟩,
            Dir.blobBytes, Dir.blobBytes, hblob]
        · rw [if_neg heq, if_neg]
          rintro ⟨hnonneg, hsome⟩
          rcases h.retired gen gen' rfl heq hnonneg with hnone | ⟨k, hk⟩
          · rw [hnone] at hsome
            cases hsome
          · rcases hA with hA | hA
            · cases hA
            · exact hA k hk
  · rw [hdb]
    exact ⟨SecInv.rebuild fun p hp => (hb.mirrors.ix p hp).encodable,
      (Indexes.rebuildSec_decls _).trans hstore.inStep.declared⟩

end Swapped

end NteeDb.Core
