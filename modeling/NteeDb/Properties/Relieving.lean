import NteeDb.Properties.AutoCompaction
import NteeDb.Properties.Compaction

/-!
# What BlobsRelieve leaves

`BlobsRelieve` compacts the log and packs the blobs: one generation is left, whose file holds the
values of the surviving records in the order of their keys, one behind the other and with nothing
between them, and the log refers to exactly these.  `BlobUsage` then counts no orphaned byte.

## Main results

* `chain_packed` — the blobs that a rewrite has copied so far.
* `relieve_packs` — what a `BlobsRelieve` that returned without an error has done.
-/

namespace NteeDb.Properties.Relieving

open NteeDb.Verified
open Faults Lines OrderedTree
open NteeDb.Core
open NteeDb.Properties.AutoCompaction
open NteeDb.Properties.Compaction
open NteeDb.Properties.Reindexing

/-! ## Blobs one behind the other -/

/-- The blobs lie in a generation one behind the other, from `off` to `stop`. -/
def Consecutive (gen : Int64) : Int64 → List BlobRef → Int64 → Prop
  | off, [], stop => stop = off
  | off, b :: bs, stop =>
      b.gen = gen ∧ b.off = off ∧ 0 ≤ b.size ∧ Consecutive gen (off + b.size.toInt64) bs stop

theorem Consecutive.snoc {gen off stop : Int64} {bs : List BlobRef}
    (h : Consecutive gen off bs stop) {b : BlobRef} (hgen : b.gen = gen) (hoff : b.off = stop)
    (hsize : 0 ≤ b.size) : Consecutive gen off (bs ++ [b]) (stop + b.size.toInt64) := by
  induction bs generalizing off with
  | nil =>
      have hstop : stop = off := h
      exact ⟨hgen, hoff.trans hstop, hsize, by rw [hstop]; rfl⟩
  | cons b' bs ih => exact ⟨h.1, h.2.1, h.2.2.1, ih h.2.2.2⟩

/-- The value of a record that refers to a blob. -/
def blobValue (d : Dir) (r : Record) : Option Bytes := r.blob.map fun _ => d.valueOf r

theorem filterMap_snoc {α β : Type} (f : α → Option β) (xs : List α) (a : α) :
    (xs ++ [a]).filterMap f = xs.filterMap f ++ (f a).toList := by
  rw [List.filterMap_append, List.filterMap_cons]
  cases f a <;> rfl

theorem filterMap_eq_of_forall₂ {α β γ : Type} {f : α → Option γ} {k : β → Option γ} {xs : List α}
    {ys : List β} (h : List.Forall₂ (fun x y => f x = k y) xs ys) :
    xs.filterMap f = ys.filterMap k := by
  induction h with
  | nil => rfl
  | cons hxy _ ih => rw [List.filterMap_cons, List.filterMap_cons, hxy, ih]

section Packing

variable {w : World} {gen : Int64} {rs rs' : List Record} {b : Bytes}

/-- The new generation holds the blobs copied so far, where the new records say. -/
theorem chain_packed (h : Chain (relieveStep gen w) [] rs rs' b) :
    b = (rs.filterMap (blobValue w.dir)).flatten ∧
      Consecutive gen 0 (rs'.filterMap Record.blob) (fileSize b) ∧ blobSizes rs' = fileSize b := by
  induction h with
  | nil => exact ⟨rfl, rfl, rfl⟩
  | @snoc rs rs' r r' b b' _ hstep ih =>
      obtain ⟨hbytes, hrefs, hsizes⟩ := ih
      rw [relieveStep] at hstep
      rw [filterMap_snoc, filterMap_snoc, List.flatten_append, blobSizes_snoc]
      cases hb : r.blob with
      | none =>
          rw [hb] at hstep
          obtain ⟨rfl, rfl⟩ := hstep
          have hvalue : blobValue w.dir r = none := by rw [blobValue, hb]; rfl
          rw [hvalue]
          show b' = _ ++ [] ∧ Consecutive gen 0 (_ ++ []) _ ∧ blobSizes rs' + 0 = _
          rw [List.append_nil, List.append_nil, Int64.add_zero]
          exact ⟨hbytes, hrefs, hsizes⟩
      | some ref =>
          rw [hb] at hstep
          obtain ⟨rfl, rfl, _, hfits⟩ := hstep
          have hvalue : blobValue w.dir r = some (w.dir.valueOf r) := by rw [blobValue, hb]; rfl
          have hfits := fits_of_not_wraps hfits
          have hsize : (Int32.ofNat (w.dir.valueOf r).length).toInt64
              = Int64.ofNat (w.dir.valueOf r).length := toInt64_ofNat hfits
          rw [hvalue, fileSize_append, ← hsize]
          refine ⟨?_, hrefs.snoc rfl rfl ?_, ?_⟩
          · rw [← hbytes]
            exact congrArg (b ++ ·) (List.append_nil _).symm
          · rw [Int32.le_iff_toInt_le, Int32.toInt_ofNat_of_lt hfits, Int32.toInt_zero]
            omega
          · rw [hsizes]
            rfl

end Packing

/-! ## What the rewrite leaves -/

section Relieved

variable {A : Answer → Prop} {m : Mode} {w z : World} {gen : Int64} {rs rs' : List Record}
  {T : Bytes → Record → Record → Bytes → Prop} {F : Bytes → Cell → Cell}

/-- The other generations are gone. -/
theorem gens_of_rewritten (h : Rewritten A (some gen) w T F z) (hA : ∀ k, ¬ A (.fail k))
    (hz : Sound m z) (hopen : z.db.closed = false) {gen' : Int64} (hpos : 0 ≤ gen') :
    (z.dir.blob gen').isSome = true ↔ gen' = z.db.curGen := by
  have hcur : z.db.curGen = gen := h.curGen
  obtain ⟨x, pk, ls, rs, rs', y, h⟩ := h
  obtain ⟨hint, hdir⟩ := h.re.dir
  constructor
  · intro hsome
    by_contra hne
    rcases h.swapped.retired gen gen' rfl (hcur ▸ hne) hpos with hnone | ⟨k, hk⟩
    · have hgone : z.dir.blob gen' = none := by
        rw [hdir]
        exact hnone
      rw [hgone] at hsome
      cases hsome
    · exact hA k hk
  · intro heq
    rw [heq]
    exact (hz.2.2 hopen).cur_present

/-- One blob store is left open. -/
theorem stores_of_rewritten (h : Rewritten A (some gen) w T F z) :
    z.db.blobs.items = [{ gen := gen, size := fileSize (z.dir.blobBytes gen) }] := by
  obtain ⟨x, pk, ls, rs, rs', y, h⟩ := h
  obtain ⟨hint, hdir⟩ := h.re.dir
  obtain ⟨n, hintGen, job, hdb⟩ := h.re.db
  have hkept := h.swapped.committed.kept gen (Or.inr rfl)
  have hbytes : z.dir.blobBytes gen = x.dir.blobBytes gen := by
    rw [Dir.blobBytes, Dir.blobBytes, ← hkept, hdir]
    rfl
  have htree : z.db.blobs
      = Tree.set Tree.empty { gen := gen, size := fileSize (z.dir.blobBytes gen) } := by
    apply Tree.ext_get?
    intro bs
    have hget := h.swapped.stores gen rfl bs.gen
    have hone := blobStores_get_set Tree.empty
      { gen := gen, size := fileSize (x.dir.blobBytes gen) } bs.gen
    rw [hdb, hbytes]
    exact hget.trans hone.symm
  rw [htree]
  rfl

/-- The blobs of the new log are those of the generation. -/
theorem consolidated_of_rewritten (h : Rewritten A (some gen) w T F z) (hz : Sound m z)
    (hopen : z.db.closed = false) (htidy : Tidy z rs')
    (hsizes : blobSizes rs' = fileSize (z.dir.blobBytes gen)) : Consolidated z := by
  refine ⟨⟨hopen, htidy.liveBytes hz hopen⟩, _, rs'.map Record.readBack, stores_of_rewritten h, ?_,
    ?_⟩
  · rw [blobSizes_readBack]
    exact hsizes
  · rw [List.forall₂_map_right_iff]
    exact htidy.records hz hopen

/-- The values that are kept as blobs, of the keys that have not expired, in the order of the
keys. -/
def blobValues (w : World) : List Bytes :=
  (copied w.now.ms w.db.idx.pk.items).filterMap fun e =>
    (w.live e.key).bind fun c => if c.blob then some c.value else none

theorem blobValues_eq (hw : Sound m w) (hopen : w.db.closed = false)
    (hrecords : List.Forall₂ (fun e r => w.dir.recordAt e = .ok r)
      (copied w.now.ms w.db.idx.pk.items) rs) :
    blobValues w = rs.filterMap (blobValue w.dir) := by
  have hlive := copied_live hw hopen hrecords
  refine filterMap_eq_of_forall₂ (hlive.imp ?_)
  intro e r hr
  rw [hr.2.2, blobValue, Option.bind_some, Dir.cellOf]
  cases r.blob with
  | none => rfl
  | some ref => rfl

end Relieved

/-! ## In every world of a run -/

/-- What a `BlobsRelieve` of `w` that ended in `v` has done. -/
structure Packed (w v : World) : Prop extends Condensed w v where
  /-- One generation is left, a new one. -/
  gens : ∀ gen, 0 ≤ gen → ((v.dir.blob gen).isSome = true ↔ gen = v.db.curGen)
  fresh : w.db.curGen < v.db.curGen
  /-- It holds the values and nothing else, where the log says. -/
  blobs : v.dir.blobBytes v.db.curGen = (blobValues w).flatten
  refs : ∃ rs, List.Forall₂ (fun l r => unmarshalRecord l = some r) v.dir.log rs ∧
    Consecutive v.db.curGen 0 (rs.filterMap Record.blob) (fileSize (v.dir.blobBytes v.db.curGen))
  /-- `BlobUsage` finds nothing to reclaim. -/
  usage : ∀ u plan s, blobUsage ⟨v, plan⟩ = (.ok u, s) →
    u.totalBytes = fileSize (v.dir.blobBytes v.db.curGen) ∧ u.orphanedBytes = 0 ∧
      u.generations = 1

/-- **`BlobsRelieve` keeps the meaning, tidies the log and packs the blobs.**  In every world of a
run in which no file step was refused, unless a length has wrapped. -/
theorem relieve_packs {freshHint : Bool} {now : Millis} {w v : World}
    (hrun : Reaches (Allowed ⟨false, freshHint⟩) { now := now } w) {plan rest : List Answer}
    (hplan : Answers Quiet plan) (hrelieve : blobsRelieve ⟨w, plan⟩ = (.ok (), ⟨v, rest⟩))
    (hfits : v.wrapped = false) : Packed w v := by
  have hw : Sound ⟨false, freshHint⟩ w :=
    sound_run hrun (fits_before blobsRelieve_keeps hplan hrelieve hfits)
  obtain ⟨hopen, hmax, hv, _, hrew⟩ :=
    (blobsRelieve_spec not_quiet_fail hw).ok rfl hplan hrelieve hfits
  have hvopen : v.db.closed = false := hrew.recasts.closed.trans hopen
  have hnext := nextGen_fresh (hw.2.2 hopen) hmax
  have hfresh : FreshGen (some w.db.nextGen) w.dir := by
    intro gen hgen
    cases hgen
    exact ⟨hnext.1, (hw.2.2 hopen).highest _ hnext.2⟩
  have htr := rewrites_relieve Quiet (hw.2.2 hopen).serving hfresh
  have hshape := shaped_relieve w.db.nextGen w
  have hcur : v.db.curGen = w.db.nextGen := hrew.curGen
  obtain ⟨rs, rs', htidy, hrecords, hchain⟩ := hrew.tidy hw hopen htr hshape
  obtain ⟨hbytes, hrefs, hsizes⟩ := chain_packed hchain
  have hconsolidated := consolidated_of_rewritten hrew hv hvopen htidy hsizes
  refine ⟨condensed_of_rewritten hrew hw hopen hv htr hshape, ?_, ?_, ?_, ?_, ?_⟩
  · intro gen hpos
    exact gens_of_rewritten hrew not_quiet_fail hv hvopen hpos
  · rw [hcur]
    exact hnext.2
  · rw [hcur, blobValues_eq hw hopen hrecords]
    exact hbytes
  · refine ⟨rs'.map Record.readBack, ?_, ?_⟩
    · rw [List.forall₂_map_right_iff]
      exact List.Forall₂.flip (htidy.written.imp fun _ _ hr => hr.unmarshal)
    · rw [hcur, List.filterMap_map]
      exact hrefs
  · intro u plan s husage
    obtain ⟨_, htotal, horphaned, hgens⟩ := (blobUsage_consolidated (A := fun _ => True)
      hconsolidated).ok rfl (fun _ _ => trivial) husage
    refine ⟨htotal.trans ?_, horphaned, hgens⟩
    rw [DB.stats, hvopen, stores_of_rewritten hrew, hcur]
    exact Int64.zero_add _

/-- Of three blobs one was overwritten, and a short value is kept in its record. -/
def scattered : World := runEvents { now := ⟨0, Millis.zero_bounded⟩ }
  [.openStore { blobThreshold := 2 } [], .op (.put .sorted [0x62] [0x31, 0x32] []) [],
    .op (.put .sorted [0x61] [0x33, 0x34] []) [], .op (.put .sorted [0x62] [0x35, 0x36] []) [],
    .op (.put .sorted [0x63] [0x37] []) []]

theorem scattered_packed : scattered.dir.blobBytes 0 = [0x31, 0x32, 0x33, 0x34, 0x35, 0x36] ∧
    (blobsRelieve ⟨scattered, []⟩).2.world.dir.blobBytes 1 = [0x33, 0x34, 0x35, 0x36] ∧
    Packed scattered (blobsRelieve ⟨scattered, []⟩).2.world := by
  have hrun : Reaches (Allowed ⟨false, false⟩) { now := ⟨0, Millis.zero_bounded⟩ } scattered := by
    refine reaches_runEvents .start ⟨.open_of_ok (List.forall_mem_nil _) answered_nil
      (by decide +kernel) fun _ husable => ?_,
      .op_of_ok (show Utf8.valid [0x62] = true by decide) answered_nil (by decide +kernel),
      .op_of_ok (show Utf8.valid [0x61] = true by decide) answered_nil (by decide +kernel),
      .op_of_ok (show Utf8.valid [0x62] = true by decide) answered_nil (by decide +kernel),
      .op_of_ok (show Utf8.valid [0x63] = true by decide) answered_nil (by decide +kernel), trivial⟩
    cases husable
  exact ⟨by decide +kernel, by decide +kernel, relieve_packs hrun (List.forall_mem_nil _)
    (run_of_ok (show (blobsRelieve ⟨scattered, []⟩).1 = .ok () by decide +kernel))
    (by decide +kernel)⟩

end NteeDb.Properties.Relieving
