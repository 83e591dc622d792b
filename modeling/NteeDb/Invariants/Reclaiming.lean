import NteeDb.Invariants.Layout
import NteeDb.Invariants.Swapping
import NteeDb.Invariants.Counters

/-!
# What a rewrite reclaims

A rewrite that returns without an error leaves a log of the lines it wrote, one for each entry of
the index, and a `BlobsRelieve` leaves one blob file whose size is the sum of the blobs that the
records refer to.  This holds in any state of the store in which the lines of the new log fit and
the file of the next generation is empty (`Reclaimable`).

## Main results

* `compact_trimmed` — after a `Compact` the live lines are the log.
* `blobsRelieve_consolidated` — after a `BlobsRelieve` moreover the live blobs are the blob file.
-/

namespace NteeDb.Core

open NteeDb.Verified
open Faults Lines OrderedTree JsonCodec

/-! ## States -/

/-- A record as a rewrite writes it: its index values filtered, and its blob moved. -/
def DB.recast (db : DB) (r : Record) (ref : BlobRef) : Record :=
  { r with ix := db.filterIXKnown r.ix, blob := r.blob.map fun _ => ref }

/-- No rewrite is going on, the records hold scalars as index values and are rewritten as lines
that fit wherever their blobs go, and the next generation of blobs starts empty. -/
structure Reclaimable (w : World) : Prop where
  noRelieve : w.db.relieve = none
  scalar : ∀ e ∈ w.db.idx.pk.items, ∀ r, w.dir.recordAt e = .ok r → r.ix.Scalar
  fits : ∀ e ∈ w.db.idx.pk.items, ∀ r, w.dir.recordAt e = .ok r → ∀ ref line,
    marshalRecord (w.db.recast r ref) = some line → Fits (line.length + 1)
  fresh : w.dir.blobBytes (w.db.curGen + 1) = []

/-- The sum of the blobs that records refer to. -/
def blobSizes (rs : List Record) : Int64 := rs.foldl (fun n r => n + r.blobSize) 0

/-- The log holds live lines only. -/
structure Trimmed (v : World) : Prop where
  isOpen : v.db.closed = false
  live : v.db.liveBytes = v.db.size

/-- Moreover there is one blob file, and it holds live blobs only. -/
structure Consolidated (v : World) : Prop extends Trimmed v where
  blobs : ∃ bs rs, v.db.blobs.items = [bs] ∧ blobSizes rs = bs.size ∧
    List.Forall₂ (fun e r => 0 ≤ e.n ∧ v.dir.recordAt e = .ok r) v.db.idx.pk.items rs

/-! ## The lines of the new log -/

theorem load_items {es : List PkEntry}
    (h : es.Pairwise fun a b => keyLess PkEntry.key a b = true) :
    (es.foldl PkIndex.load Tree.empty).items = es :=
  congrArg Tree.items (Tree.setAll_items (⟨es, h⟩ : PkIndex))

/-- The lengths of the entries add up to the end of the lines. -/
theorem foldl_lengths {es : List PkEntry} {ls : List Bytes} {off : Int64}
    (h : es.map (fun e => (e.off, e.n)) = placements off ls) (acc : Int64) :
    es.foldl (fun n e => n + e.n.toInt64) acc = endOf acc ls := by
  induction ls generalizing es off acc with
  | nil =>
      rw [placements, List.map_eq_nil_iff] at h
      rw [h]
      rfl
  | cons l ls ih =>
      cases es with
      | nil => cases h
      | cons e es =>
          rw [List.map_cons, placements, List.cons.injEq, Prod.mk.injEq] at h
          rw [List.foldl_cons, h.1.2]
          exact ih h.2 _

/-- Every entry reads the record that its line was written for. -/
theorem recordAt_placements {d : Dir} (before : List Bytes) {ls : List Bytes} {es : List PkEntry}
    {rs : List Record}
    (hmain : d.mainBytes = joinLines (before ++ ls))
    (hsized : (joinLines (before ++ ls)).length < maxFileSize)
    (hfits : ∀ l ∈ ls, Fits (l.length + 1)) (hwritten : List.Forall₂ Written rs ls)
    (hplaces : es.map (fun e => (e.off, e.n))
      = placements (Int64.ofNat (joinLines before).length) ls) :
    List.Forall₂ (fun e r => 0 ≤ e.n ∧ d.recordAt e = .ok r.readBack) es rs := by
  induction hwritten generalizing before es with
  | nil =>
      rw [placements, List.map_eq_nil_iff] at hplaces
      rw [hplaces]
      exact .nil
  | cons hline hrest ih =>
      rename_i r l rs ls
      cases es with
      | nil => cases hplaces
      | cons e es =>
          rw [List.map_cons, placements, List.cons.injEq, Prod.mk.injEq] at hplaces
          obtain ⟨⟨hoff, hn⟩, hrest'⟩ := hplaces
          rw [List.forall_mem_cons] at hfits
          have hlen : e.n.toInt = l.length + 1 := by
            rw [hn]
            exact (lineLen_exact_iff l).mpr hfits.1
          have hread : d.recordAt e = .ok r.readBack := by
            have hbytes : e.n.toInt.toNat = l.length + 1 := by omega
            rw [Dir.recordAt, hmain, hoff, hbytes, readAt_line before l ls hsized]
            dsimp only
            rw [trimNewline_line, hline.unmarshal]
          have hnext : Int64.ofNat (joinLines before).length + (lineLen l).toInt64
              = Int64.ofNat (joinLines (before ++ [l])).length := by
            have hroom := hsized
            rw [joinLines_append, List.length_append, length_joinLines_cons] at hroom
            rw [offset_next hfits.1 (by omega), joinLines_append, List.length_append,
              length_joinLines_cons]
            rfl
          have happend : before ++ l :: ls = before ++ [l] ++ ls := by simp
          rw [happend] at hmain hsized
          rw [hnext] at hrest'
          refine .cons ⟨?_, hread⟩ (ih _ hmain hsized hfits.2 hrest')
          rw [Int32.le_iff_toInt_le, Int32.toInt_zero, hlen]
          omega

theorem blobSizes_readBack (rs : List Record) :
    blobSizes (rs.map Record.readBack) = blobSizes rs := by
  rw [blobSizes, List.foldl_map]
  rfl

theorem blobSizes_snoc (rs : List Record) (r : Record) :
    blobSizes (rs ++ [r]) = blobSizes rs + r.blobSize := by
  rw [blobSizes, List.foldl_append]
  rfl

/-! ## Programs that return a value -/

/-- Whatever the system answers, `Q` holds if the program returns a value. -/
def Yields {α : Type} (P : World → Prop) (c : StoreM α) (Q : α → World → Prop) : Prop :=
  Spec (fun _ => True) P c Q fun _ _ => True

namespace Yields

variable {α β : Type} {P P' : World → Prop} {Q : α → World → Prop} {R : β → World → Prop}

theorem of_keeps {I : World → Prop} {c : StoreM α} (h : Keeps (fun _ => True) I c) :
    Yields I c fun _ => I :=
  h.errors fun _ _ _ => trivial

theorem pre {c : StoreM α} (h : Yields P c Q) (hP : ∀ v, P' v → P v) : Yields P' c Q :=
  Spec.pre h hP

theorem any (c : StoreM α) : Yields P c fun _ _ => True := by
  intro s hs
  cases c s with
  | mk r s' =>
      cases r with
      | ok a => exact ⟨trivial, fun _ _ => trivial⟩
      | error e => exact ⟨trivial, fun _ _ => trivial⟩

theorem onError {c : StoreM α} {cleanup : StoreM Unit} (hc : Yields P c Q) :
    Yields P (onError c cleanup) Q :=
  Spec.onError hc (fun _ _ => any cleanup) fun _ _ _ _ => trivial

theorem orFailStop {c : StoreM α} (hc : Yields P c Q) : Yields P (orFailStop c) Q := by
  refine Spec.bind_attempt hc (fun _ => Spec.pure fun _ h => h) fun e => ?_
  refine Spec.ite (fun _ => Spec.fail fun _ _ => trivial) fun _ => ?_
  exact Spec.bind (any _) fun _ => Spec.bind (any _) fun _ =>
    Spec.fail fun _ _ => trivial

end Yields

/-! ## Building the new log -/

/-- What a rewrite reads has not changed. -/
structure SourceKept (w v : World) : Prop where
  main : v.dir.main = w.dir.main
  idx : v.db.idx = w.db.idx
  dropped : v.db.dropped = w.db.dropped
  isOpen : v.db.closed = false

/-- The new generation of a `BlobsRelieve` holds the blobs of the records; without one there is
no new generation. -/
def Accounted : Bool → List Record → World → Prop
  | false, _, v => v.db.relieve = none
  | true, rs, v => ∃ bs, v.db.relieve = some bs ∧ bs.size = blobSizes rs

/-- The transform recasts a record, and accounts for its blob. -/
def Recasting (w : World) (relieving : Bool) (transform : Record → StoreM Record) : Prop :=
  ∀ (c : Option Bytes) (rs : List Record) (r : Record),
    Yields (fun v => SourceKept w v ∧ Accounted relieving rs v ∧ v.dir.compact = c) (transform r)
      fun r' v => (SourceKept w v ∧ Accounted relieving (rs ++ [r']) v ∧ v.dir.compact = c) ∧
        ∃ ref, r' = w.db.recast r ref

section Building

variable {w v : World}

theorem Accounted.congr {relieving : Bool} {rs : List Record} {x y : World}
    (h : Accounted relieving rs x) (hsame : y.db.relieve = x.db.relieve) :
    Accounted relieving rs y := by
  cases relieving with
  | false => exact hsame.trans h
  | true =>
      obtain ⟨bs, hbs, hsize⟩ := h
      exact ⟨bs, hsame.trans hbs, hsize⟩

theorem SourceKept.recordAt (h : SourceKept w v) (e : PkEntry) :
    v.dir.recordAt e = w.dir.recordAt e := by
  rw [Dir.recordAt, Dir.mainBytes, h.main]
  rfl

theorem SourceKept.filterIXKnown (h : SourceKept w v) (ix : AnyMap) :
    v.db.filterIXKnown ix = w.db.filterIXKnown ix := by
  rw [DB.filterIXKnown, h.idx, h.dropped]
  rfl

theorem recast_known (db : DB) (r : Record) :
    ∃ ref, { r with ix := db.filterIXKnown r.ix } = db.recast r ref := by
  cases hb : r.blob with
  | none => exact ⟨⟨0, 0, 0⟩, by rw [DB.recast, hb]; rfl⟩
  | some ref => exact ⟨ref, by rw [DB.recast, hb]; rfl⟩

theorem recasting_compact (w : World) : Recasting w false compactTransform := by
  intro c rs r
  refine Spec.of_world fun v hv => ?_
  refine (compactTransform_cases _ v r).post ?_ fun _ _ hx => hx.elim
  intro r' x ⟨hx, hr'⟩
  subst hx hr'
  rw [hv.1.filterIXKnown]
  exact ⟨hv, recast_known w.db r⟩

theorem readAt_length {bytes buf : Bytes} {off : Int64} {n : Nat}
    (h : readAt bytes off n = .ok buf) : buf.length = n := by
  rw [readAt] at h
  split at h
  · cases h
  · split at h
    · next hlen =>
        cases h
        exact hlen
    · cases h

/-- A blob that is read is as long as its reference says, which fits. -/
theorem blobReadAt_fits (I : World → Prop) (ref : BlobRef) :
    Yields I (blobReadAt ref) fun value v => I v ∧ Fits value.length := by
  unfold blobReadAt
  refine Spec.bind_getWorld fun u hu => ?_
  cases u.db.blobStore ref.gen with
  | none => exact Spec.fail fun _ _ => trivial
  | some bs =>
      refine Spec.bind (Yields.of_keeps (Keeps.require _ _)) fun _ =>
        Spec.bind (Yields.of_keeps (Keeps.require _ _)) fun _ =>
        Spec.readStep ?_ (fun _ _ _ _ => trivial) (fun _ _ _ _ => trivial) fun _ _ _ => trivial
      intro value v hv hread
      subst hv
      refine ⟨hu, ?_⟩
      have hlt := ref.size.toInt_lt
      rw [readAt_length hread, Fits]
      omega

theorem toInt64_ofNat {n : Nat} (h : Fits n) : (Int32.ofNat n).toInt64 = Int64.ofNat n := by
  unfold Fits at h
  apply Int64.toInt_inj.mp
  rw [Int32.toInt_toInt64, Int32.toInt_ofNat_of_lt h, Int64.toInt_ofNat_of_lt (by omega)]

theorem recasting_relieve (w : World) : Recasting w true relieveTransform := by
  intro c rs r
  unfold relieveTransform
  refine Spec.of_world fun v hv => ?_
  obtain ⟨hsame, ⟨bs, hbs, hsize⟩, hc⟩ := hv
  refine Spec.bind ((compactTransform_cases _ v r).errors fun _ _ hx => hx.elim) fun r' => ?_
  refine Spec.of_world fun x hx => ?_
  obtain ⟨hx, hr'⟩ := hx
  subst hx hr'
  rw [hsame.filterIXKnown]
  cases hb : r.blob with
  | none =>
      refine Spec.pure fun y hy => ?_
      subst hy
      refine ⟨⟨hsame, ⟨bs, hbs, ?_⟩, hc⟩, ⟨0, 0, 0⟩, ?_⟩
      · rw [blobSizes_snoc, hsize]
        exact (Int64.add_zero _).symm
      · rw [DB.recast, hb]
        rfl
  | some ref =>
      refine Spec.bind (blobReadAt_fits _ ref) fun value => ?_
      refine Spec.of_world fun y hy => ?_
      obtain ⟨hy, hfits⟩ := hy
      subst hy
      refine Spec.bind_getWorld fun y hy => ?_
      subst hy
      rw [hbs]
      refine Spec.bind ((BlobStore.append_cases _ y bs value).errors fun _ _ _ => trivial)
        fun a => ?_
      refine Spec.of_world fun z hz => ?_
      obtain ⟨hz, -, ha⟩ := hz
      subst hz ha
      refine Spec.bind (Spec.updateDB (Q := fun _ u => SourceKept w u ∧ u.dir.compact = c ∧
        u.db.relieve = some { bs with size := bs.size + Int64.ofNat value.length }) ?_) fun _ =>
        Spec.pure ?_
      · intro u hu
        subst hu
        exact ⟨⟨hsame.main, hsame.idx, hsame.dropped, hsame.isOpen⟩, hc, rfl⟩
      · intro u ⟨hu, hcu, hrel⟩
        refine ⟨⟨hu, ⟨_, hrel, ?_⟩, hcu⟩, ⟨bs.size, Int32.ofNat value.length, bs.gen⟩, ?_⟩
        · rw [blobSizes_snoc, ← hsize]
          exact congrArg (bs.size + ·) (toInt64_ofNat hfits).symm
        · rw [DB.recast, hb]
          rfl

/-- The new log holds the records `rs`, written as the lines `ls`, with the entries `es` for some
of the keys in `done`. -/
structure Rebuilt (w : World) (relieving : Bool) (done : List PkEntry) (ls : List Bytes)
    (rs : List Record) (es : List PkEntry) (b : Build) (v : World) : Prop extends
    NewLog ls es b v where
  kept : SourceKept w v
  accounted : Accounted relieving rs v
  written : List.Forall₂ Written rs ls
  fits : ∀ l ∈ ls, Fits (l.length + 1)
  keys : (es.map PkEntry.key).Sublist (done.map PkEntry.key)

theorem readRecord_yields (I : World → Prop) (e : PkEntry) :
    Yields I (readRecord e) fun r v => I v ∧ v.dir.recordAt e = .ok r := by
  unfold readRecord
  refine Spec.bind (Yields.of_keeps (Keeps.require _ _)) fun _ =>
    Spec.readStep ?_ (fun _ _ _ _ => trivial) (fun _ _ _ _ => trivial) fun _ _ _ => trivial
  intro r v hv hread
  exact ⟨hv, hread⟩

theorem writeCompact_yields (x : World) (line : Bytes) :
    Yields (fun v => v = x) (writeCompact line) fun _ v =>
      (x.dir.compact.getD []).length + (line.length + 1) < maxFileSize ∧
      ∃ b, v = { x with dir := x.dir.appendCompact (line ++ [newline]), wrapped := b } := by
  unfold writeCompact
  refine Spec.bind_getWorld fun u hu => ?_
  subst hu
  refine Spec.bind_require (fun _ _ _ => trivial) fun hroom =>
    Spec.fileStep ?_ (fun _ _ _ _ => trivial) fun _ _ _ => trivial
  rintro v rfl
  exact ⟨of_decide_eq_true hroom, _, rfl⟩

/-- A record that is read and recast is written as a line that fits. -/
theorem Reclaimable.written (hw : Reclaimable w) {e : PkEntry} (he : e ∈ w.db.idx.pk.items)
    {r : Record} (hr : w.dir.recordAt e = .ok r) (ref : BlobRef) {line : Bytes}
    (hline : marshalRecord (w.db.recast r ref) = some line) :
    Written (w.db.recast r ref) line ∧ Fits (line.length + 1) := by
  have htext : r.text = [] := by
    rw [Dir.recordAt] at hr
    split at hr
    · cases hr
    · split at hr
      · cases hr
      · next hread =>
          cases hr
          exact text_of_unmarshal hread
  refine ⟨⟨htext, ?_, hline⟩, hw.fits e he r hr ref line hline⟩
  intro nv hnv
  exact hw.scalar e he r hr nv (Tree.mem_filter.mp hnv).1

variable {relieving : Bool} {transform : Record → StoreM Record} {done : List PkEntry}

theorem Rebuilt.skip {ls : List Bytes} {rs : List Record} {es : List PkEntry} {b : Build}
    (h : Rebuilt w relieving done ls rs es b v) (e : PkEntry) :
    Rebuilt w relieving (done ++ [e]) ls rs es b v := by
  refine ⟨h.toNewLog, h.kept, h.accounted, h.written, h.fits, ?_⟩
  rw [List.map_append]
  exact h.keys.trans (List.sublist_append_left _ _)

theorem rewriteEntry_rebuilt (hw : Reclaimable w) (htr : Recasting w relieving transform)
    (now : Millis) (b : Build) {e : PkEntry} (he : e ∈ w.db.idx.pk.items) :
    Yields (fun v => ∃ ls rs es, Rebuilt w relieving done ls rs es b v)
      (rewriteEntry transform now b e)
      fun b' v => ∃ ls rs es, Rebuilt w relieving (done ++ [e]) ls rs es b' v := by
  refine Spec.of_world fun x ⟨ls, rs, es, hx⟩ => ?_
  refine Spec.ite (fun _ => Spec.pure ?_) fun _ => ?_
  · intro v hv
    subst hv
    exact ⟨ls, rs, es, hx.skip e⟩
  refine Spec.bind (readRecord_yields _ e) fun r => ?_
  refine Spec.of_world fun y ⟨hy, hread⟩ => ?_
  subst hy
  rw [hx.kept.recordAt] at hread
  refine Spec.bind ((htr (some (joinLines ls)) rs r).pre ?_) fun r' => ?_
  · intro v hv
    subst hv
    exact ⟨hx.kept, hx.accounted, hx.compact⟩
  cases hline : marshalRecord r' with
  | none => exact Spec.fail fun _ _ => trivial
  | some line =>
      refine Spec.of_world fun z ⟨⟨hkept, hacc, hcompact⟩, ref, hr'⟩ => ?_
      subst hr'
      obtain ⟨hwritten, hfits⟩ := hw.written he hread ref hline
      refine Spec.bind (writeCompact_yields z line) fun _ => Spec.pure ?_
      intro v ⟨hroom, wrapped, hv⟩
      subst hv
      have hjoin : joinLines (ls ++ [line]) = joinLines ls ++ (line ++ [newline]) := by
        rw [joinLines_append]
        rfl
      let made : PkEntry := { key := e.key, off := b.off, n := lineLen line,
                              ix := (w.db.recast r ref).ix, exp := (w.db.recast r ref).exp }
      refine ⟨ls ++ [line], rs ++ [w.db.recast r ref], es ++ [made],
        ⟨?_, ?_, ?_, ?_, ?_⟩, ⟨hkept.main, hkept.idx, hkept.dropped, hkept.isOpen⟩, hacc.congr rfl,
        List.rel_append hx.written (.cons hwritten .nil), ?_, ?_⟩
      · show some (z.dir.compact.getD [] ++ (line ++ [newline])) = _
        rw [hcompact, hjoin]
        rfl
      · rw [List.foldl_append, ← hx.pk]
        rfl
      · rw [List.map_append, hx.places, placements_snoc, ← hx.off]
        rfl
      · rw [endOf_snoc, hx.off]
      · rw [hcompact, Option.getD_some] at hroom
        rw [hjoin, List.length_append, List.length_append]
        exact hroom
      · rw [List.forall_mem_append, List.forall_mem_singleton]
        exact ⟨hx.fits, hfits⟩
      · rw [List.map_append, List.map_append]
        exact hx.keys.append (List.Sublist.refl _)

theorem buildRewrite_rebuilt (hw : Reclaimable w) (htr : Recasting w relieving transform) :
    Yields (fun v => SourceKept w v ∧ Accounted relieving [] v) (buildRewrite transform)
      fun pk v => ∃ ls rs es b, Rebuilt w relieving w.db.idx.pk.items ls rs es b v ∧ b.pk = pk := by
  have hcreate : Yields (fun v => SourceKept w v ∧ Accounted relieving [] v) createCompact
      fun _ v => (SourceKept w v ∧ Accounted relieving [] v) ∧ v.dir.compact = some [] := by
    refine Spec.atomicStep ?_ (fun _ _ _ _ => trivial) fun _ _ _ => trivial
    intro v ⟨hkept, hacc⟩
    exact ⟨⟨⟨hkept.main, hkept.idx, hkept.dropped, hkept.isOpen⟩, hacc.congr rfl⟩, rfl⟩
  refine Spec.bind hcreate fun _ => Spec.bind_getWorld fun x hx => ?_
  obtain ⟨⟨hkept, hacc⟩, hcompact⟩ := hx
  rw [hkept.idx]
  refine Spec.bind ((Spec.foldEach (I := fun rest b v => ∃ done,
    done ++ rest = w.db.idx.pk.items ∧ ∃ ls rs es, Rebuilt w relieving done ls rs es b v)
    (fun e rest b => ?_) w.db.idx.pk.items {}).pre ?_) fun b => ?_
  · refine Spec.of_world fun y ⟨done, hdone, hy⟩ => ?_
    have he : e ∈ w.db.idx.pk.items := by
      rw [← hdone]
      exact List.mem_append_right _ (List.mem_cons_self ..)
    have hstep : Yields (fun v => ∃ ls rs es, Rebuilt w relieving done ls rs es b v)
        (rewriteEntry transform x.now b e) _ := rewriteEntry_rebuilt hw htr x.now b he
    refine hstep.conseq ?_ ?_ fun _ _ h => h
    · intro v hv
      subst hv
      exact hy
    · intro b' v hv
      exact ⟨done ++ [e], by rw [← hdone, List.append_assoc]; rfl, hv⟩
  · intro v hv
    subst hv
    refine ⟨[], rfl, [], [], [], ⟨hcompact, rfl, rfl, rfl, by decide⟩, hkept, hacc, .nil, ?_, ?_⟩
    · intro l hl
      cases hl
    · exact List.Sublist.refl _
  · refine Spec.bind (Yields.of_keeps Keeps.quietStep) fun _ =>
      Spec.bind (Yields.of_keeps Keeps.quietStep) fun _ =>
      Spec.bind (Yields.of_keeps Keeps.quietStep) fun _ => Spec.pure ?_
    intro v ⟨done, hdone, ls, rs, es, hv⟩
    rw [List.append_nil] at hdone
    subst hdone
    exact ⟨ls, rs, es, b, hv, rfl⟩

theorem buildPhase_rebuilt (hw : Reclaimable w) (htr : Recasting w relieving transform) :
    Yields (fun v => SourceKept w v ∧ Accounted relieving [] v) (buildPhase transform)
      fun pk v => ∃ ls rs es b, Rebuilt w relieving w.db.idx.pk.items ls rs es b v ∧ b.pk = pk := by
  have hremove : Keeps (fun _ => True) (fun v => SourceKept w v ∧ Accounted relieving [] v)
      removeCompact := by
    refine Keeps.ignoreError (Keeps.atomicStep ?_)
    intro v ⟨hkept, hacc⟩
    exact ⟨⟨hkept.main, hkept.idx, hkept.dropped, hkept.isOpen⟩, hacc.congr rfl⟩
  refine Spec.bind (Yields.of_keeps hremove) fun _ =>
    Spec.bind (Yields.onError (buildRewrite_rebuilt hw htr)) fun pk =>
    Spec.bind (Q := fun _ v => ∃ ls rs es b,
      Rebuilt w relieving w.db.idx.pk.items ls rs es b v ∧ b.pk = pk) ?_ fun _ =>
    Spec.pure fun _ hv => hv
  refine Spec.bind_getWorld fun x hx => ?_
  cases x.db.relieve with
  | none =>
      refine Spec.pure fun v hv => ?_
      subst hv
      exact hx
  | some bs =>
      refine Yields.onError (Spec.atomicStep ?_ (fun _ _ _ _ => trivial) fun _ _ _ => trivial)
      intro v hv
      subst hv
      obtain ⟨ls, rs, es, b, hv, hpk⟩ := hx
      exact ⟨ls, rs, es, b, ⟨⟨hv.compact, hv.pk, hv.places, hv.off, hv.sized⟩,
        ⟨hv.kept.main, hv.kept.idx, hv.kept.dropped, hv.kept.isOpen⟩, hv.accounted.congr rfl,
        hv.written, hv.fits, hv.keys⟩, hpk⟩

end Building

/-! ## The swap -/

/-- The new log and index are in place, and the new generation of blobs is the only one. -/
structure SwappedIn (c : Bytes) (pk : PkIndex) (store : Option BlobStore) (v : World) : Prop where
  main : v.dir.mainBytes = c
  size : v.db.size = fileSize c
  pk : v.db.idx.pk = pk
  isOpen : v.db.closed = false
  blobs : ∀ bs, store = some bs → v.db.blobs.items = [bs]

section Swap

variable {c : Bytes} {pk : PkIndex} {store : Option BlobStore}

/-- Retiring every generation leaves none. -/
theorem Retiring.none_left {A : Answer → Prop} {y v : World}
    (h : Retiring A y (y.db.blobs.items.map BlobStore.gen) v) : v.db.blobs = Tree.empty := by
  apply Tree.ext_get?
  intro bs
  have hget := h.stores bs.gen
  have hprobe : v.db.blobs.get? bs = v.db.blobs.get? { gen := bs.gen } := rfl
  rw [hprobe, hget]
  by_cases hmem : bs.gen ∈ y.db.blobs.items.map BlobStore.gen
  · rw [if_pos hmem]
    rfl
  · rw [if_neg hmem]
    rw [mem_gens, Bool.not_eq_true, Option.isSome_eq_false_iff, Option.isNone_iff_eq_none] at hmem
    rw [hmem]
    rfl

theorem retireOthers_yields :
    Yields (fun v => v.db.relieve = store ∧ SwappedIn c pk none v) retireOthers
      fun _ => SwappedIn c pk store := by
  refine Spec.bind_getWorld fun y hy => ?_
  obtain ⟨hrelieve, hin⟩ := hy
  rw [hrelieve]
  cases store with
  | none =>
      refine Spec.pure fun v hv => ?_
      subst hv
      exact hin
  | some bs =>
      refine Spec.bind ((retireGens_spec y _).errors fun _ _ _ => trivial) fun _ => Spec.updateDB ?_
      intro v hv
      obtain ⟨files, stores, s, hsame⟩ := hv.same
      have hnone := hv.none_left
      subst hsame
      refine ⟨hin.main, hin.size, hin.pk, hin.isOpen, ?_⟩
      intro bs' hbs'
      cases hbs'
      show (Tree.set stores bs).items = [bs]
      rw [show stores = Tree.empty from hnone]
      rfl

theorem swapBody_yields (c : Bytes) (pk : PkIndex) (store : Option BlobStore) :
    Yields (fun v => v.dir.compact = some c ∧ v.db.closed = false ∧ v.db.relieve = store)
      (swapBody pk) fun _ => SwappedIn c pk store := by
  have hrename : Yields (fun v => v.dir.compact = some c ∧ v.db.closed = false ∧
      v.db.relieve = store) renameCompact fun _ v =>
      v.dir.main = some c ∧ v.db.closed = false ∧ v.db.relieve = store := by
    refine Spec.atomicStep ?_ (fun _ _ _ _ => trivial) fun _ _ _ => trivial
    intro v hv
    exact hv
  have hopen : Yields (fun v => v.dir.main = some c ∧ v.db.closed = false ∧ v.db.relieve = store)
      openMainHandles fun _ v =>
      (v.dir.mainBytes = c ∧ v.db.size = fileSize c) ∧ v.db.closed = false ∧
        v.db.relieve = store := by
    refine Spec.bind (Q := fun _ v => v.dir.mainBytes = c ∧ v.db.closed = false ∧
      v.db.relieve = store) (Spec.atomicStep ?_ (fun _ _ _ _ => trivial) fun _ _ _ => trivial)
      fun _ => Spec.bind (Yields.of_keeps Keeps.quietStep) fun _ =>
      Spec.bind (Yields.of_keeps Keeps.quietStep) fun _ =>
      Spec.bind (Yields.of_keeps Keeps.quietStep) fun _ => Spec.modify ?_
    · intro v hv
      obtain ⟨hmain, hrest⟩ := hv
      refine ⟨?_, hrest⟩
      show v.dir.mainBytes = c
      rw [Dir.mainBytes, hmain]
      rfl
    · intro v hv
      obtain ⟨hmain, hrest⟩ := hv
      exact ⟨⟨hmain, congrArg fileSize hmain⟩, hrest⟩
  refine Spec.bind (Yields.of_keeps (Keeps.ignoreError
    (Keeps.bind (Keeps.updateDB fun _ hv => hv) fun _ => Keeps.quietStep))) fun _ =>
    Spec.bind (Yields.orFailStop hrename) fun _ =>
    Spec.bind (Yields.orFailStop hopen) fun _ =>
    Spec.bind (Spec.updateDB ?_) fun _ => retireOthers_yields
  intro v hv
  obtain ⟨⟨hmain, hsize⟩, hclosed, hrelieve⟩ := hv
  refine ⟨hrelieve, hmain, hsize, rfl, hclosed, ?_⟩
  intro bs hbs
  cases hbs

theorem writeHint_swappedIn : Keeps (fun _ => True) (SwappedIn c pk store) writeHint := by
  have hdb : ∀ {f : DB → DB}, (∀ db, (f db).size = db.size ∧ (f db).idx = db.idx ∧
      (f db).closed = db.closed ∧ (f db).blobs = db.blobs) →
      Keeps (fun _ => True) (SwappedIn c pk store) (updateDB f) := by
    intro f hf
    refine Keeps.updateDB fun v hv => ?_
    obtain ⟨hsize, hidx, hclosed, hblobs⟩ := hf v.db
    exact ⟨hv.main, hsize.trans hv.size, (congrArg Indexes.pk hidx).trans hv.pk,
      hclosed.trans hv.isOpen, fun bs hbs => (congrArg Tree.items hblobs).trans (hv.blobs bs hbs)⟩
  have hkeep : ∀ {act : World → World}, (∀ v, (act v).dir.main = v.dir.main ∧ (act v).db = v.db) →
      Keeps (fun _ => True) (SwappedIn c pk store) (atomicStep act) := by
    intro act hact
    refine Keeps.atomicStep fun v hv => ?_
    obtain ⟨hmain, hdb⟩ := hact v
    have hbytes : (act v).dir.mainBytes = v.dir.mainBytes := by
      rw [Dir.mainBytes, hmain]
      rfl
    exact ⟨hbytes.trans hv.main, by rw [hdb]; exact hv.size, by rw [hdb]; exact hv.pk,
      by rw [hdb]; exact hv.isOpen, by rw [hdb]; exact hv.blobs⟩
  have hmain : Keeps (fun _ => True) (SwappedIn c pk store) flushMain := by
    unfold flushMain syncMain
    exact hkeep fun _ => ⟨rfl, rfl⟩
  refine Keeps.bind (hdb fun _ => ⟨rfl, rfl, rfl, rfl⟩) fun _ =>
    Keeps.bind Keeps.getWorld fun w =>
    Keeps.bind ?_ fun _ => Keeps.bind hmain fun _ =>
    Keeps.bind ?_ fun _ => hdb fun _ => ⟨rfl, rfl, rfl, rfl⟩
  · refine Keeps.bind Keeps.getWorld fun u => ?_
    cases u.db.blobStore w.db.curGen with
    | none => exact Keeps.pure _
    | some bs =>
        exact Keeps.bind (Keeps.require _ _) fun _ => hkeep fun _ => ⟨rfl, rfl⟩
  · refine Keeps.bind Keeps.quietStep fun _ => ?_
    cases hintBytes w.db.idx.pk w.db.size with
    | none => exact Keeps.fail _
    | some bytes =>
        exact Keeps.bind Keeps.quietStep fun _ => Keeps.bind Keeps.quietStep fun _ =>
          Keeps.bind Keeps.quietStep fun _ => hkeep fun _ => ⟨rfl, rfl⟩

end Swap

/-! ## The operations -/

section Operations

variable {w v : World} {relieving : Bool} {transform : Record → StoreM Record}

/-- What the swap leaves of what was built. -/
theorem Rebuilt.reclaimed {x : World} {ls : List Bytes} {rs : List Record} {es : List PkEntry}
    {b : Build} (h : Rebuilt w relieving w.db.idx.pk.items ls rs es b x)
    (hv : SwappedIn (joinLines ls) b.pk x.db.relieve v) :
    Trimmed v ∧ (relieving = true → Consolidated v) := by
  have hsorted : es.Pairwise fun a b => keyLess PkEntry.key a b = true := by
    have hkeys : (w.db.idx.pk.items.map PkEntry.key).Pairwise (· < ·) :=
      List.pairwise_map.mpr (w.db.idx.pk.sorted.imp Tree.keyLess_iff.mp)
    exact (List.pairwise_map.mp (hkeys.sublist h.keys)).imp Tree.keyLess_iff.mpr
  have hitems : v.db.idx.pk.items = es := by
    rw [hv.pk, h.pk]
    exact load_items hsorted
  have hlive : v.db.liveBytes = v.db.size := by
    have hend := endOf_exact ls 0 (by rw [Nat.zero_add]; exact h.sized) h.fits
    rw [Nat.zero_add] at hend
    rw [DB.liveBytes, hv.isOpen, hitems, hv.size, fileSize, ← hend]
    exact foldl_lengths h.places 0
  have htrimmed : Trimmed v := ⟨hv.isOpen, hlive⟩
  refine ⟨htrimmed, ?_⟩
  intro hrelieving
  subst hrelieving
  obtain ⟨bs, hbs, hsize⟩ := h.accounted
  refine ⟨htrimmed, bs, rs.map Record.readBack, hv.blobs bs hbs, ?_, ?_⟩
  · rw [blobSizes_readBack, hsize]
  · have hread := recordAt_placements [] hv.main h.sized h.fits h.written h.places
    rw [hitems, List.forall₂_map_right_iff]
    exact hread

theorem rewriteBody_reclaims (hw : Reclaimable w) (htr : Recasting w relieving transform) :
    Yields (fun v => SourceKept w v ∧ Accounted relieving [] v) (rewriteBody transform)
      fun _ v => Trimmed v ∧ (relieving = true → Consolidated v) := by
  refine Spec.bind (buildPhase_rebuilt hw htr) fun pk => ?_
  refine Spec.of_world fun x ⟨ls, rs, es, b, hx, hpk⟩ => ?_
  subst hpk
  refine Spec.bind ((swapBody_yields (joinLines ls) b.pk x.db.relieve).pre ?_) fun _ => ?_
  · intro v hv
    subst hv
    exact ⟨hx.compact, hx.kept.isOpen, rfl⟩
  · exact writeHint_swappedIn.post (fun _ _ hv => hx.reclaimed hv) fun _ _ _ => trivial

theorem raiseGate_yields (w : World) :
    Yields (fun v => v = w) raiseGate fun _ v =>
      v = { w with db := { w.db with compacting := true } } ∧ w.db.closed = false := by
  refine Spec.bind (Q := fun _ v => v = w ∧ w.db.closed = false) ?_ fun _ => Spec.updateDB ?_
  · refine Spec.bind_getWorld fun u hu => ?_
    subst hu
    refine Spec.require ?_ fun _ _ _ => trivial
    intro v hv hopen
    rw [Bool.not_eq_true'] at hopen
    exact ⟨hv, hopen⟩
  · intro v ⟨hv, hopen⟩
    subst hv
    exact ⟨rfl, hopen⟩

/-- **After a `Compact`** the live lines are the log. -/
theorem compact_trimmed (hw : Reclaimable w) :
    Yields (fun v => v = w) compact fun _ => Trimmed := by
  refine Spec.bind (raiseGate_yields w) fun _ => ?_
  refine Spec.bind (Yields.onError ((rewriteBody_reclaims hw (recasting_compact w)).pre ?_))
    fun _ => Spec.updateDB ?_
  · intro v ⟨hv, hopen⟩
    subst hv
    exact ⟨⟨rfl, rfl, rfl, hopen⟩, hw.noRelieve⟩
  · intro v ⟨hv, _⟩
    exact ⟨hv.isOpen, hv.live⟩

theorem openRelieve_yields (hw : Reclaimable w) (hopen : w.db.closed = false) :
    Yields (fun v => v = { w with db := { w.db with compacting := true } }) openRelieve
      fun _ v => SourceKept w v ∧ Accounted true [] v := by
  refine Spec.bind_getWorld fun x hx => ?_
  subst hx
  refine Spec.bind (Spec.modify (S := fun _ v => SourceKept w v ∧
    v.dir.blobBytes (w.db.curGen + 1) = []) ?_) fun _ => ?_
  · intro v hv
    subst hv
    exact ⟨⟨rfl, rfl, rfl, hopen⟩, hw.fresh⟩
  refine Spec.bind (Q := fun bs v => SourceKept w v ∧ bs.size = 0) ?_ fun bs =>
    Spec.updateDB ?_
  · refine Spec.bind (Q := fun _ v => SourceKept w v ∧
      v.dir.blobBytes (w.db.curGen + 1) = [])
      (Spec.atomicStep ?_ (fun _ _ _ _ => trivial) fun _ _ _ => trivial) fun _ =>
      Spec.bind (Yields.of_keeps Keeps.quietStep) fun _ =>
      Spec.bind_getWorld fun y hy => Spec.pure ?_
    · intro v ⟨hkept, hfresh⟩
      refine ⟨⟨hkept.main, hkept.idx, hkept.dropped, hkept.isOpen⟩, ?_⟩
      exact (Dir.blobBytes_appendBlob_nil v.dir _ _).trans hfresh
    · intro v hv
      subst hv
      refine ⟨hy.1, ?_⟩
      show fileSize (v.dir.blobBytes (w.db.curGen + 1)) = 0
      rw [hy.2]
      rfl
  · intro v ⟨hkept, hsize⟩
    exact ⟨⟨hkept.main, hkept.idx, hkept.dropped, hkept.isOpen⟩, bs, rfl, hsize⟩

/-- **After a `BlobsRelieve`** the live lines are the log and the live blobs the blob file. -/
theorem blobsRelieve_consolidated (hw : Reclaimable w) :
    Yields (fun v => v = w) blobsRelieve fun _ => Consolidated := by
  refine Spec.bind (raiseGate_yields w) fun _ => ?_
  refine Spec.bind (Yields.onError (Q := fun _ => Consolidated) ?_) fun _ => Spec.updateDB ?_
  · refine Spec.of_world fun x ⟨hx, hopen⟩ => ?_
    subst hx
    refine Spec.bind (openRelieve_yields hw hopen) fun _ =>
      Spec.bind (Yields.onError (rewriteBody_reclaims hw (recasting_relieve w))) fun _ =>
      Spec.updateDB ?_
    intro v ⟨_, hv⟩
    obtain ⟨⟨hopen, hlive⟩, hblobs⟩ := hv rfl
    exact ⟨⟨hopen, hlive⟩, hblobs⟩
  · intro v ⟨⟨hopen, hlive⟩, hblobs⟩
    exact ⟨⟨hopen, hlive⟩, hblobs⟩

end Operations

end NteeDb.Core
