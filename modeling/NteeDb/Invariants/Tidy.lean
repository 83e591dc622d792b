import NteeDb.Invariants.Reclaiming
import NteeDb.Invariants.Sessions

/-!
# Tidy logs

A rewrite leaves one line for each key, in the order of the keys (`Tidy`).  The index of a
store with such a log is read off its lines: the entries lie one after the other and fill the
file, and each reads the record that its line was written for.  A second rewrite therefore
starts from the records that the first one wrote, and two stores with tidy logs of the same
records have the same log.

## Main results

* `Rewritten.tidy` — the log of a rewrite, with the chain of records that led to it.
* `Tidy.records`, `Tidy.liveBytes` — what the index of such a log is.
* `Tidy.again`, `Rewritten.main_again` — a second rewrite.
-/

namespace NteeDb.Core

open NteeDb.Verified
open Faults Lines OrderedTree Journal JsonCodec

variable {A : Answer → Prop} {m : Mode} {w z : World} {g : Option Int64}
  {T : Bytes → Record → Record → Bytes → Prop} {F : Bytes → Cell → Cell} {rs rs' : List Record}

/-! ## Logs in the order of their keys -/

/-- The log of `z` holds the records `rs`, one line for each key, in the order of the keys. -/
structure Tidy (z : World) (rs : List Record) : Prop where
  written : List.Forall₂ Written rs z.dir.log
  sorted : (rs.map Record.key).Pairwise (· < ·)
  alive : ∀ r ∈ rs, r.deleted = false
  valid : ∀ r ∈ rs, Utf8.valid r.key = true

theorem change_alive {p : Placed} (h : p.record.deleted = false) (ix : PkIndex) :
    change Placed.key (fun key => { key := key }) Placed.entry? ix p = ix.load p.entry := by
  have hentry : p.entry? = some p.entry := by
    rw [Placed.entry?, h]
    rfl
  rw [change, hentry]
  rfl

theorem foldl_change_alive (ps : List Placed) (h : ∀ p ∈ ps, p.record.deleted = false)
    (ix : PkIndex) :
    ps.foldl (change Placed.key (fun key => { key := key }) Placed.entry?) ix
      = (ps.map Placed.entry).foldl PkIndex.load ix := by
  induction ps generalizing ix with
  | nil => rfl
  | cons p ps ih =>
      rw [List.forall_mem_cons] at h
      rw [List.map_cons, List.foldl_cons, List.foldl_cons, change_alive h.1, ih h.2]

/-- The entries of living records with increasing keys are those of their places. -/
theorem pkOf_sorted {ps : List Placed} (hsorted : (ps.map Placed.key).Pairwise (· < ·))
    (halive : ∀ p ∈ ps, p.record.deleted = false) : (pkOf ps).items = ps.map Placed.entry := by
  have hentries : (ps.map Placed.entry).Pairwise fun a b => keyLess PkEntry.key a b = true :=
    List.pairwise_map.mpr ((List.pairwise_map.mp hsorted).imp Tree.keyLess_iff.mpr)
  rw [pkOf, foldl_change_alive ps halive]
  exact load_items hentries

/-- Records at their places, in the numbers of the machine. -/
theorem placements_placed {ls : List Bytes} (hls : ∀ l ∈ ls, unmarshalRecord l ≠ none)
    (hfits : ∀ l ∈ ls, Fits (l.length + 1)) (pos : Nat)
    (hroom : pos + (joinLines ls).length < maxFileSize) :
    (placed pos ls).map (fun p => (Int64.ofNat p.off, Int32.ofNat p.len))
      = placements (Int64.ofNat pos) ls := by
  induction ls generalizing pos with
  | nil => rfl
  | cons l ls ih =>
      rw [List.forall_mem_cons] at hls hfits
      rw [length_joinLines_cons] at hroom
      obtain ⟨r, hr⟩ := Option.ne_none_iff_exists'.mp hls.1
      rw [placed, hr, List.map_cons, placements, offset_next hfits.1 (by omega),
        ih hls.2 hfits.2 _ (by omega)]
      rfl

theorem fits_of_not_wraps {n : Nat} (h : lengthWraps n = false) : Fits n := by
  rw [lengthWraps, decide_eq_false_iff_not] at h
  exact not_le.mp h

theorem LogSound.fits {d : Dir} {ls : List Bytes} (h : LogSound d ls) :
    ∀ l ∈ ls, Fits (l.length + 1) := by
  intro l hl
  obtain ⟨r, hr⟩ := h.lines l hl
  exact fits_of_not_wraps hr.fits

section Index

variable (h : Tidy z rs)

include h

/-- The records as they are read. -/
theorem Tidy.decoded : (placed 0 z.dir.log).map Placed.record = rs.map Record.readBack :=
  placed_record h.written 0

theorem Tidy.key_readBack : ∀ r ∈ rs, r.readBack.key = r.key :=
  fun r hr => Record.readBack_key (h.valid r hr)

theorem Tidy.placed_keys : (placed 0 z.dir.log).map Placed.key = rs.map Record.key := by
  have hrecords := congrArg (List.map Record.key) h.decoded
  rw [List.map_map, List.map_map] at hrecords
  exact hrecords.trans (List.map_congr_left h.key_readBack)

theorem Tidy.placed_alive : ∀ p ∈ placed 0 z.dir.log, p.record.deleted = false := by
  intro p hp
  have hmem : p.record ∈ rs.map Record.readBack := h.decoded ▸ List.mem_map_of_mem hp
  obtain ⟨r, hr, heq⟩ := List.mem_map.mp hmem
  rw [← heq]
  exact h.alive r hr

variable (hz : Sound m z) (hopen : z.db.closed = false)

include hz hopen

/-- The entries are those of the places. -/
theorem Tidy.entries :
    z.db.idx.pk.items.map PkEntry.readBack = (placed 0 z.dir.log).map Placed.entry := by
  have hsorted : ((placed 0 z.dir.log).map Placed.key).Pairwise (· < ·) := by
    rw [h.placed_keys]
    exact h.sorted
  rw [← (hz.2.2 hopen).mirrors.items, pkOf_sorted hsorted h.placed_alive]

theorem Tidy.places :
    z.db.idx.pk.items.map (fun e => (e.off, e.n)) = placements 0 z.dir.log := by
  have hlog := hz.1.1.log
  have hplaces := placements_placed hlog.decodes hlog.fits 0 (by
    rw [Nat.zero_add, ← hlog.main]
    exact hlog.sized.1)
  have hentries := congrArg (List.map fun e : PkEntry => (e.off, e.n)) (h.entries hz hopen)
  rw [List.map_map, List.map_map] at hentries
  exact hentries.trans hplaces

/-- Every entry reads the record that its line was written for. -/
theorem Tidy.records :
    List.Forall₂ (fun e r => 0 ≤ e.n ∧ z.dir.recordAt e = .ok r.readBack) z.db.idx.pk.items rs := by
  have hlog := hz.1.1.log
  have hsized : (joinLines z.dir.log).length < maxFileSize := by
    rw [← hlog.main]
    exact hlog.sized.1
  exact recordAt_placements [] hlog.main hsized hlog.fits h.written (h.places hz hopen)

/-- The lines of the entries fill the log. -/
theorem Tidy.liveBytes : z.db.liveBytes = z.db.size := by
  have hlog := hz.1.1.log
  have hend := endOf_exact z.dir.log 0 (by
    rw [Nat.zero_add, ← hlog.main]
    exact hlog.sized.1) hlog.fits
  rw [Nat.zero_add] at hend
  rw [DB.liveBytes, hopen, (hz.2.2 hopen).size_eq, fileSize, hlog.main, ← hend]
  exact foldl_lengths (h.places hz hopen) 0

end Index

/-- Tidy logs of the same records are the same. -/
theorem Tidy.log_eq {z' : World} (h : Tidy z rs) (h' : Tidy z' rs) : z'.dir.log = z.dir.log := by
  have hfun : ∀ {rs : List Record} {ls ls' : List Bytes}, List.Forall₂ Written rs ls →
      List.Forall₂ Written rs ls' → ls' = ls := by
    intro rs ls ls' hls hls'
    induction hls generalizing ls' with
    | nil =>
        cases hls'
        rfl
    | cons hl _ ih =>
        cases hls' with
        | cons hl' hrest' =>
            have hline := hl.marshal.symm.trans hl'.marshal
            rw [Option.some.inj hline, ih hrest']
  exact hfun h.written h'.written

theorem Sound.main_eq (hz : Sound m z) (hopen : z.db.closed = false) :
    z.dir.main = some (joinLines z.dir.log) := by
  obtain ⟨bytes, hbytes⟩ := Option.isSome_iff_exists.mp (hz.2.2 hopen).main
  rw [← hz.1.1.log.main, Dir.mainBytes, hbytes]
  rfl

/-! ## The log of a rewrite -/

/-- A rewrite changes the index values of a record, and where its value is. -/
def Shaped (T : Bytes → Record → Record → Bytes → Prop) : Prop :=
  ∀ b r r' b', T b r r' b' → ∃ ix blob, r' = { r with ix := ix, blob := blob }

theorem shaped_compact (db : DB) : Shaped (compactStep db) := by
  rintro b r r' b' ⟨rfl, _⟩
  exact ⟨_, _, rfl⟩

theorem shaped_reindex (w : World) : Shaped (reindexStep w) := by
  rintro b r r' b' ⟨⟨ix, _, rfl⟩, _⟩
  exact ⟨_, _, rfl⟩

theorem shaped_relieve (gen : Int64) (w : World) : Shaped (relieveStep gen w) := by
  intro b r r' b' h
  rw [relieveStep] at h
  split at h
  · obtain ⟨rfl, _⟩ := h
    exact ⟨_, _, rfl⟩
  · obtain ⟨rfl, _⟩ := h
    exact ⟨_, _, rfl⟩

theorem Chain.steps {b₀ b : Bytes} (h : Chain T b₀ rs rs' b) :
    List.Forall₂ (fun r r' => ∃ b b', T b r r' b') rs rs' := by
  induction h with
  | nil => exact .nil
  | snoc _ hstep ih => exact List.rel_append ih (.cons ⟨_, _, hstep⟩ .nil)

/-- The records that a rewrite copies. -/
theorem copied_live (hw : Sound m w) (hopen : w.db.closed = false)
    (h : List.Forall₂ (fun e r => w.dir.recordAt e = .ok r)
      (copied w.now.ms w.db.idx.pk.items) rs) :
    List.Forall₂ (fun e r => w.dir.LiveRecord r ∧ r.key = e.key ∧
      w.live e.key = some (w.dir.cellOf r)) (copied w.now.ms w.db.idx.pk.items) rs := by
  refine ((List.forall₂_and_left (p := (· ∈ copied w.now.ms w.db.idx.pk.items)) _ _).mpr
    ⟨fun e he => he, h⟩).imp ?_
  rintro e r ⟨he, hread⟩
  obtain ⟨hmem, hlive⟩ := List.mem_filter.mp he
  have hget := PkIndex.get_mem (show e ∈ w.db.idx.pk from hmem)
  obtain ⟨p, hp⟩ := hw.located hopen hget
  rw [hp.read] at hread
  cases hread
  obtain ⟨_, pre, line, post, _, hline, _⟩ := lastRecord_some hp.last
  refine ⟨⟨hp.sound, hp.live, text_of_unmarshal hline⟩, hp.key, ?_⟩
  rw [(hw.live_some hopen hget).2 (by simpa using hlive), hp.cell]

theorem map_eq_of_forall₂ {α β γ : Type} {R : α → β → Prop} {f : α → γ} {k : β → γ} {xs : List α}
    {ys : List β} (h : List.Forall₂ R xs ys) (hR : ∀ a b, R a b → k b = f a) :
    ys.map k = xs.map f := by
  induction h with
  | nil => rfl
  | cons hab _ ih => rw [List.map_cons, List.map_cons, hR _ _ hab, ih]

theorem forall_of_forall₂ {α β : Type} {R : α → β → Prop} {p : β → Prop} {xs : List α} {ys : List β}
    (h : List.Forall₂ R xs ys) (hR : ∀ a b, R a b → p b) : ∀ b ∈ ys, p b := by
  induction h with
  | nil => exact List.forall_mem_nil p
  | cons hab _ ih => exact List.forall_mem_cons.mpr ⟨hR _ _ hab, ih⟩

/-- What a step of a rewrite makes of a record that it copies. -/
theorem Rewrites.step {transform : Record → StoreM Record} (htr : Rewrites A g w transform T F)
    (hshape : Shaped T) {r r' : Record} (hr : w.dir.LiveRecord r) {b b' : Bytes}
    (hT : T b r r' b') :
    r'.key = r.key ∧ r'.deleted = false ∧ r'.text = [] ∧
      ∀ line, marshalRecord r' = some line → Storable r'.ix := by
  have hmoved := htr.moved b r r' b' hr hT
  obtain ⟨ix, blob, rfl⟩ := hshape b r r' b' hT
  exact ⟨rfl, hr.live, hr.text, hmoved.storable⟩

/-- The log that a rewrite leaves. -/
theorem Rewritten.tidy {transform : Record → StoreM Record} (h : Rewritten A g w T F z)
    (hw : Sound m w) (hopen : w.db.closed = false) (htr : Rewrites A g w transform T F)
    (hshape : Shaped T) :
    ∃ rs rs', Tidy z rs' ∧
      List.Forall₂ (fun e r => w.dir.recordAt e = .ok r) (copied w.now.ms w.db.idx.pk.items) rs ∧
      Chain T [] rs rs' (z.dir.asideBytes g) := by
  obtain ⟨x, pk, ls, rs, rs', y, h⟩ := h
  have hcommitted := h.swapped.committed
  have hlog := (hcommitted.log h.built).1
  obtain ⟨hint, hdir⟩ := h.re.dir
  have hzlog : z.dir.log = ls := by
    rw [hdir]
    exact hlog.log
  have hlive := copied_live hw hopen h.built.records
  have hrecords : ∀ r ∈ rs, w.dir.LiveRecord r := forall_of_forall₂ hlive fun _ _ hr => hr.1
  have hsteps : List.Forall₂ (fun r r' => w.dir.LiveRecord r ∧ ∃ b b', T b r r' b') rs rs' :=
    (List.forall₂_and_left _ _).mpr ⟨hrecords, h.built.chain.steps⟩
  have hstep : List.Forall₂ (fun r r' => r'.key = r.key ∧ Utf8.valid r'.key = true ∧
      r'.deleted = false ∧ r'.text = [] ∧ ∀ line, marshalRecord r' = some line → Storable r'.ix)
      rs rs' := by
    refine hsteps.imp ?_
    rintro r r' ⟨hr, b, b', hT⟩
    obtain ⟨hkey, hrest⟩ := htr.step hshape hr hT
    exact ⟨hkey, hkey ▸ hr.sound.key, hrest⟩
  have hshapes := forall_of_forall₂ hstep fun _ _ hr => hr.2
  refine ⟨rs, rs', ⟨?_, ?_, fun r hr => (hshapes r hr).2.1, fun r hr => (hshapes r hr).1⟩,
    h.built.records, ?_⟩
  · rw [hzlog]
    refine ((List.forall₂_and_left _ _).mpr ⟨hshapes, h.built.lines⟩).imp ?_
    rintro r l ⟨⟨_, _, htext, hstorable⟩, hline⟩
    exact ⟨htext, (hstorable l hline).scalar, hline⟩
  · -- the keys are those of the entries copied, which are sorted
    rw [map_eq_of_forall₂ (f := Record.key) hstep fun _ _ hr => hr.1,
      map_eq_of_forall₂ (f := PkEntry.key) hlive fun _ _ hr => hr.2.1]
    have hitems : (w.db.idx.pk.items.map PkEntry.key).Pairwise (· < ·) :=
      List.pairwise_map.mpr (w.db.idx.pk.sorted.imp Tree.keyLess_iff.mp)
    exact hitems.sublist (List.filter_sublist.map _)
  · have hbytes : z.dir.asideBytes g = x.dir.asideBytes g := by
      cases g with
      | none => rfl
      | some gen =>
          show z.dir.blobBytes gen = x.dir.blobBytes gen
          have hkept := hcommitted.kept gen (Or.inr rfl)
          rw [Dir.blobBytes, Dir.blobBytes, ← hkept, hdir]
          rfl
    rw [hbytes]
    exact h.built.chain

/-- Nothing has expired. -/
theorem copied_all {now : Int64} (h : ∀ e ∈ z.db.idx.pk.items, e.expiredAt now = false) :
    copied now z.db.idx.pk.items = z.db.idx.pk.items :=
  List.filter_eq_self.mpr fun e he => by rw [h e he]; rfl

/-- A second rewrite starts from the records that the first one wrote. -/
theorem Tidy.again (h : Tidy z rs) (hz : Sound m z) (hopen : z.db.closed = false)
    (hlasting : ∀ e ∈ z.db.idx.pk.items, e.expiredAt z.now.ms = false) {rs₂ : List Record}
    (hrecords : List.Forall₂ (fun e r => z.dir.recordAt e = .ok r)
      (copied z.now.ms z.db.idx.pk.items) rs₂) : rs₂ = rs.map Record.readBack := by
  rw [copied_all hlasting] at hrecords
  have hfirst := (h.records hz hopen).imp fun _ _ hr => hr.2
  have hboth : ∀ {es : List PkEntry} {rs rs₂ : List Record},
      List.Forall₂ (fun e r => z.dir.recordAt e = .ok (Record.readBack r)) es rs →
      List.Forall₂ (fun e r => z.dir.recordAt e = .ok r) es rs₂ → rs₂ = rs.map Record.readBack := by
    intro es rs rs₂ hrs hrs₂
    induction hrs generalizing rs₂ with
    | nil =>
        cases hrs₂
        rfl
    | cons hr _ ih =>
        cases hrs₂ with
        | cons hr₂ hrest =>
            rw [Except.ok.inj (hr₂.symm.trans hr), ih hrest, List.map_cons]
  exact hboth hfirst hrecords

/-- A second rewrite that writes every record as it was written leaves the log as it is. -/
theorem Rewritten.main_again {A' : Answer → Prop} {u v : World} {g' : Option Int64}
    {T' : Bytes → Record → Record → Bytes → Prop} {F' : Bytes → Cell → Cell}
    {transform transform' : Record → StoreM Record} (h : Rewritten A g w T F z) (hw : Sound m w)
    (hopen : w.db.closed = false) (htr : Rewrites A g w transform T F) (hshape : Shaped T)
    (h' : Rewritten A' g' u T' F' v) (hu : Sound m u) (huopen : u.db.closed = false)
    (htr' : Rewrites A' g' u transform' T' F') (hshape' : Shaped T') (hv : Sound m v)
    (hmain : u.dir.main = z.dir.main)
    (hlasting : ∀ key c, u.dir.cells key = some c → expired c.exp u.now.ms = false)
    (hfixed : ∀ r r' r₂ b b' c c', w.dir.LiveRecord r → T b r r' b' →
      T' c r'.readBack r₂ c' → r₂ = r') :
    v.dir.main = u.dir.main := by
  have hvopen : v.db.closed = false := h'.recasts.closed.trans huopen
  obtain ⟨rs, rs', htidy, hrecords, hchain⟩ := h.tidy hw hopen htr hshape
  obtain ⟨rs₂, rs₂', htidy₂, hrecords₂, hchain₂⟩ := h'.tidy hu huopen htr' hshape'
  have hlog : u.dir.log = z.dir.log := by
    rw [Dir.log, Dir.log, Dir.mainBytes, Dir.mainBytes, hmain]
  have htidyu : Tidy u rs' := ⟨hlog ▸ htidy.written, htidy.sorted, htidy.alive, htidy.valid⟩
  have hitems : ∀ e ∈ u.db.idx.pk.items, e.expiredAt u.now.ms = false := by
    intro e he
    obtain ⟨c, hc, hexp, _⟩ := hu.exp_of_cell huopen (PkIndex.get_mem he)
    rw [expiredAt_eq, ← hexp]
    exact hlasting e.key c hc
  have hlive := forall_of_forall₂ (copied_live hw hopen hrecords) fun _ _ hr => hr.1
  -- the second pass starts from what the first one wrote, and writes it again
  have hsteps := hchain₂.steps
  rw [htidyu.again hu huopen hitems hrecords₂, List.forall₂_map_left_iff] at hsteps
  have hwrote : ∀ r' ∈ rs', ∀ r₂ c c', T' c r'.readBack r₂ c' → r₂ = r' := by
    refine forall_of_forall₂ ((List.forall₂_and_left _ _).mpr ⟨hlive, hchain.steps⟩) ?_
    rintro r r' ⟨hr, b, b', hstep⟩ r₂ c c' hstep'
    exact hfixed r r' r₂ b b' c c' hr hstep hstep'
  have hsame := map_eq_of_forall₂ (f := id) (k := id)
    ((List.forall₂_and_left _ _).mpr ⟨hwrote, hsteps⟩) (by
      rintro r' r₂ ⟨hfix, c, c', hstep⟩
      exact hfix r₂ c c' hstep)
  rw [List.map_id, List.map_id] at hsame
  rw [hsame] at htidy₂
  rw [hv.main_eq hvopen, hu.main_eq huopen, htidyu.log_eq htidy₂]

end NteeDb.Core
