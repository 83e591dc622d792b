import NteeDb.Invariants.Tidy
import NteeDb.Properties.Reindexing

/-!
# What Compact leaves

`Compact` keeps the meaning of a store and tidies its log: the lookups answer as before, the
secondary indexes are those without the expired keys, and the new log has one line for each
surviving key, in the order of the keys, with nothing between them.  The blob files are not
touched.  A second `Compact` has nothing to do: it writes the same bytes.

## Main results

* `reads_of_sound` — the lookups of a sound store, by what the log holds.
* `compact_again` — a second `Compact`.
* `compact_tidies` — all of it, in every world of a run.
-/

namespace NteeDb.Properties.Compaction

open NteeDb.Verified
open Faults Lines OrderedTree JsonCodec
open NteeDb.Core
open NteeDb.Properties.Reindexing

/-! ## Lookups -/

/-- The lookups answer by these values, unless the process dies. -/
structure Reads (w : World) (values : Bytes → Option Bytes) : Prop where
  get : ∀ key, Spec Quiet (fun v => v = w) (NteeDb.Core.get key) (fun r _ => r = values key)
    fun e _ => e = .crash
  getMany : ∀ keys, Spec Quiet (fun v => v = w) (NteeDb.Core.getMany keys)
    (fun r _ => r = keys.map values) fun e _ => e = .crash
  has : ∀ key, Spec Quiet (fun v => v = w) (NteeDb.Core.has key)
    (fun r _ => r = (values key).isSome) fun _ _ => False
  prefixScan : ∀ p, Spec Quiet (fun v => v = w) (NteeDb.Core.prefixScan p)
    (fun r _ => r.Pairwise (· < ·) ∧ ∀ key, key ∈ r ↔ p <+: key ∧ (values key).isSome = true)
    fun _ _ => False

section Lookups

variable {m : Mode} {w : World}

theorem reads_of_sound (h : Sound m w) (hopen : w.db.closed = false) :
    Reads w fun key => (w.live key).map Cell.value := by
  have hcrash : ∀ {e : Err}, e = .crash ∨ e = .closed ∧ w.db.closed = true → e = .crash := by
    intro e he
    rcases he with he | ⟨_, hclosed⟩
    · exact he
    · rw [hopen] at hclosed
      cases hclosed
  constructor
  · intro key
    exact (get_spec not_quiet_fail h key).post (fun _ _ hv => hv.2.2) fun _ _ hv => hcrash hv.2
  · intro keys
    exact (getMany_spec not_quiet_fail h keys).post (fun _ _ hv => hv.2.2) fun _ _ hv => hcrash hv.2
  · intro key
    refine (has_spec h key).post (fun r _ hv => ?_) fun _ _ hv => hv
    rw [hv.2, hopen, Option.isSome_map]
    rfl
  · intro p
    refine (prefixScan_spec h p).post (fun r _ hv => ?_) fun e _ hv => ?_
    · obtain ⟨_, _, hscanned⟩ := hv
      refine ⟨hscanned.sorted, fun key => ?_⟩
      rw [hscanned.mem, Option.isSome_map]
    · obtain ⟨_, _, hclosed⟩ := hv
      rw [hopen] at hclosed
      cases hclosed

/-- The same values, the same answers. -/
theorem Reads.of_values {v : World} {values values' : Bytes → Option Bytes} (h : Reads v values')
    (hvalues : ∀ key, values' key = values key) : Reads v values := by
  have heq : values' = values := funext hvalues
  rwa [heq] at h

end Lookups

/-! ## Known indexes -/

section Known

variable {db db' : DB}

/-- Which index values are known depends on the names of the indexes only. -/
theorem filterIXKnown_congr (hdecls : db'.idx.secs.decls = db.idx.secs.decls)
    (hdropped : db'.dropped = db.dropped) (ix : AnyMap) :
    db'.filterIXKnown ix = db.filterIXKnown ix := by
  have hget : ∀ name, (db'.idx.secs.get name).isSome = (db.idx.secs.get name).isSome := by
    intro name
    rw [Bool.eq_iff_iff, Option.isSome_iff_exists, Option.isSome_iff_exists]
    constructor
    · rintro ⟨si, hsi⟩
      obtain ⟨si', hsi', _⟩ := SecIndexes.get_of_decls hdecls.symm hsi
      exact ⟨si', hsi'⟩
    · rintro ⟨si, hsi⟩
      obtain ⟨si', hsi', _⟩ := SecIndexes.get_of_decls hdecls hsi
      exact ⟨si', hsi'⟩
  rw [DB.filterIXKnown, DB.filterIXKnown, hdropped]
  simp only [hget]

theorem filterIXKnown_twice (ix : AnyMap) :
    db.filterIXKnown (db.filterIXKnown ix) = db.filterIXKnown ix := by
  apply Tree.ext_items
  show List.filter _ (List.filter _ _) = List.filter _ _
  rw [List.filter_filter]
  simp only [Bool.and_self]

/-- A declared index keeps its values. -/
theorem get_filterIXKnown {name : Bytes} (hknown : (db.idx.secs.get name).isSome = true)
    (ix : AnyMap) : (db.filterIXKnown ix).get name = ix.get name := by
  ext v
  rw [AnyMap.get_eq_some, AnyMap.get_eq_some, DB.filterIXKnown, Tree.mem_filter, hknown,
    Bool.true_or]
  exact and_iff_left rfl

theorem entryOf_filterIXKnown {si : SecIndex} (hknown : (db.idx.secs.get si.name).isSome = true)
    (ix : AnyMap) (pk : Bytes) : entryOf si (db.filterIXKnown ix) pk = entryOf si ix pk := by
  rw [entryOf, entryOf, get_filterIXKnown hknown]

end Known

/-! ## One Compact -/

section Once

variable {m : Mode} {w z : World}

/-- Stores of the same options declare the same indexes. -/
theorem decls_eq (hw : Sound m w) (hopen : w.db.closed = false) (hz : Sound m z)
    (hclosed : z.db.closed = false) (hopts : z.db.opts = w.db.opts) :
    z.db.idx.secs.decls = w.db.idx.secs.decls := by
  rw [(hz.2.2 hclosed).inStep.declared, (hw.2.2 hopen).inStep.declared, hopts]

/-- The entries after `Compact` are those of the records that have not expired. -/
theorem secs_of_compact (hw : Sound m w) (hopen : w.db.closed = false) (hz : Sound m z)
    (hclosed : z.db.closed = false) (hopts : z.db.opts = w.db.opts)
    (hcells : ∀ key, z.dir.cells key = (w.live key).map (compactCell w.db key)) :
    z.db.idx.secs = (swept w.db w.now).idx.secs := by
  have hstep : z.db.idx.InStep w.db.opts.indexes := hopts ▸ (hz.2.2 hclosed).inStep
  refine hstep.secs_eq_declared ((hw.2.2 hopen).inStep.removeAll _) fun si hsi e => ?_
  refine (indexed_iff_cell hz hclosed).trans (Iff.trans ?_ (swept_iff_live hw hopen).symm)
  obtain ⟨si', hsi', _⟩ := SecIndexes.get_of_decls (decls_eq hw hopen hz hclosed hopts).symm
    (SecIndexes.get_eq_some.mpr ⟨hsi, rfl⟩)
  have hknown : (w.db.idx.secs.get si.name).isSome = true := by rw [hsi']; rfl
  have hentry := entryOf_filterIXKnown hknown
  simp only [hcells, Option.map_eq_some_iff]
  constructor
  · rintro ⟨_, ⟨c, hc, rfl⟩, he⟩
    exact ⟨c, hc, (hentry c.ix e.pk).symm.trans he⟩
  · rintro ⟨c, hc, he⟩
    exact ⟨_, ⟨c, hc, rfl⟩, (hentry c.ix e.pk).trans he⟩

theorem live_of_cells {F : Bytes → Cell → Cell} (hF : Preserves F) (hnow : z.now = w.now)
    (hcells : ∀ key, z.dir.cells key = (w.live key).map (F key)) (key : Bytes) :
    z.live key = (w.live key).map (F key) := by
  have hexp : ∀ c, (F key c).exp = c.exp := fun c => congrArg Ack.exp (hF key c)
  rw [World.live, hcells, hnow, unexpired_map hexp, World.live, unexpired_twice]

/-- The values that the lookups return are the same. -/
theorem values_of_cells {F : Bytes → Cell → Cell} (hF : Preserves F) (hnow : z.now = w.now)
    (hcells : ∀ key, z.dir.cells key = (w.live key).map (F key)) (key : Bytes) :
    (z.live key).map Cell.value = (w.live key).map Cell.value := by
  have hvalue : Cell.value ∘ F key = Cell.value := funext fun c => congrArg Ack.value (hF key c)
  rw [live_of_cells hF hnow hcells, Option.map_map, hvalue]

/-- The blob files of a rewrite without a new generation. -/
theorem blob_of_rewritten {A : Answer → Prop} {T : Bytes → Record → Record → Bytes → Prop}
    {F : Bytes → Cell → Cell} (h : Rewritten A none w T F z) (gen : Int64) :
    z.dir.blob gen = w.dir.blob gen := by
  obtain ⟨x, pk, ls, rs, rs', y, h⟩ := h
  obtain ⟨hint, hdir⟩ := h.re.dir
  have hkept := h.swapped.committed.kept gen (Or.inl rfl)
  have hbeside := h.aside.beside.others gen (by rintro ⟨⟩)
  rw [hdir]
  exact hkept.trans hbeside

end Once

/-! ## Another Compact -/

section Again

variable {m : Mode} {w z : World}

/-- What `Compact` writes it would write again. -/
theorem recast_fixed {db : DB} (hknown : ∀ ix, db.filterIXKnown ix = w.db.filterIXKnown ix)
    {r r' r₂ : Record} {b b' c c' : Bytes} (hr : w.dir.LiveRecord r)
    (h : compactStep w.db b r r' b') (h' : compactStep db c r'.readBack r₂ c') : r₂ = r' := by
  obtain ⟨rfl, _⟩ := h
  obtain ⟨rfl, _⟩ := h'
  rw [Record.readBack, (hr.sound.settled_known w.db).readBack_eq,
    Utf8.sanitize_eq_self hr.sound.key, hknown, filterIXKnown_twice]

/-- A second `Compact` finds the log as it would write it. -/
theorem compact_again {A A' : Answer → Prop} {v : World} (hw : Sound m w)
    (hopen : w.db.closed = false) (hz : Sound m z)
    (hrew : Rewritten A none w (compactStep w.db) (compactCell w.db) z) {now : Millis}
    (hu : Sound m { z with now := now })
    (hlasting : ∀ key c, z.dir.cells key = some c → expired c.exp now.ms = false) (hv : Sound m v)
    (hagain : Rewritten A' none { z with now := now } (compactStep z.db) (compactCell z.db) v) :
    v.dir.main = z.dir.main := by
  have hkept := hrew.recasts
  have hzopen : z.db.closed = false := hkept.closed.trans hopen
  have hknown := filterIXKnown_congr (decls_eq hw hopen hz hzopen hkept.opts) hkept.dropped
  exact hrew.main_again (u := { z with now := now }) hw hopen (rewrites_compact A w)
    (shaped_compact w.db) hagain hu hzopen (rewrites_compact A' _) (shaped_compact z.db)
    hv rfl hlasting
    fun r r' r₂ b b' c c' hr hstep hstep' => recast_fixed hknown hr hstep hstep'

end Again

/-! ## The files -/

/-- The log of `v` has one line for each key of `w` that has not expired, in the order of the
keys, without a tombstone and with nothing else. -/
structure Tidied (w v : World) : Prop where
  lines : ∃ rs,
    List.Forall₂ (fun l r => unmarshalRecord l = some r ∧ r.deleted = false) v.dir.log rs ∧
    rs.map Record.key = (w.db.idx.pk.items.filter fun e => !e.expiredAt w.now.ms).map PkEntry.key
  main : v.dir.main = some (joinLines v.dir.log)
  size : v.db.stats.mainBytes = v.db.liveBytes

theorem tidied_of_rewritten {A : Answer → Prop} {m : Mode} {g : Option Int64} {w z : World}
    {T : Bytes → Record → Record → Bytes → Prop} {F : Bytes → Cell → Cell}
    {transform : Record → StoreM Record} (h : Rewritten A g w T F z) (hw : Sound m w)
    (hopen : w.db.closed = false) (hz : Sound m z) (htr : Rewrites A g w transform T F)
    (hshape : Shaped T) : Tidied w z := by
  have hzopen : z.db.closed = false := h.recasts.closed.trans hopen
  obtain ⟨rs, rs', htidy, hrecords, hchain⟩ := h.tidy hw hopen htr hshape
  refine ⟨⟨rs'.map Record.readBack, ?_, ?_⟩, hz.main_eq hzopen, ?_⟩
  · rw [List.forall₂_map_right_iff]
    refine List.Forall₂.flip (((List.forall₂_and_left _ _).mpr ⟨htidy.alive, htidy.written⟩).imp ?_)
    intro r l hr
    exact ⟨hr.2.unmarshal, hr.1⟩
  · have hkeys : rs'.map Record.key = rs.map Record.key := by
      refine map_eq_of_forall₂ hchain.steps ?_
      rintro r r' ⟨b, b', hstep⟩
      obtain ⟨ix, blob, rfl⟩ := hshape b r r' b' hstep
      rfl
    have hlive : rs.map Record.key = (copied w.now.ms w.db.idx.pk.items).map PkEntry.key :=
      map_eq_of_forall₂ (copied_live hw hopen hrecords) fun _ _ hr => hr.2.1
    rw [List.map_map]
    exact (List.map_congr_left htidy.key_readBack).trans (hkeys.trans hlive)
  · rw [htidy.liveBytes hz hzopen, DB.stats, hzopen]
    rfl

/-! ## In every world of a run -/

/-- `v` keeps of `w` what has not expired, with a tidy log. -/
structure Condensed (w v : World) : Prop where
  /-- The lookups answer as before. -/
  reads : ∃ values, Reads w values ∧ Reads v values
  /-- Expired keys are gone; the others keep their value, expiry and kind, and the values of
  known indexes. -/
  cells : ∀ key, v.dir.cells key
    = (w.live key).map fun c => { c with ix := w.db.filterIXKnown c.ix }
  /-- The trees are those without the expired keys, and so are the answers of the queries. -/
  trees : v.db.idx.secs = (swept w.db w.now).idx.secs ∧ SameAnswers (swept w.db w.now) v.db
  log : Tidied w v

theorem condensed_of_rewritten {A : Answer → Prop} {m : Mode} {g : Option Int64} {w z : World}
    {T : Bytes → Record → Record → Bytes → Prop} {transform : Record → StoreM Record}
    (h : Rewritten A g w T (compactCell w.db) z) (hw : Sound m w) (hopen : w.db.closed = false)
    (hz : Sound m z) (htr : Rewrites A g w transform T (compactCell w.db)) (hshape : Shaped T) :
    Condensed w z := by
  have hkept := h.recasts
  have hzopen : z.db.closed = false := hkept.closed.trans hopen
  have hsecs := secs_of_compact hw hopen hz hzopen hkept.opts h.cells
  have hreads := (reads_of_sound hz hzopen).of_values
    (values_of_cells (preserves_compact w.db) hkept.now h.cells)
  exact ⟨⟨_, reads_of_sound hw hopen, hreads⟩, h.cells,
    ⟨hsecs, sameAnswers_of_secs hkept.closed hsecs⟩,
    tidied_of_rewritten h hw hopen hz htr hshape⟩

/-- What a `Compact` of `w` that ended in `v` has done. -/
structure Compacted (w v : World) : Prop extends Condensed w v where
  blobs : ∀ gen, v.dir.blob gen = w.dir.blob gen
  /-- A second `Compact`, as long as nothing more has expired, writes the same log. -/
  again : ∀ (now : Millis) (v' : World) (plan rest : List Answer),
    (∀ key c, v.dir.cells key = some c → expired c.exp now.ms = false) →
    compact ⟨{ v with now := now }, plan⟩ = (.ok (), ⟨v', rest⟩) → v'.wrapped = false →
    v'.dir.main = v.dir.main

/-- **`Compact` keeps the meaning and tidies the log.**  In every world of a run in which no
file step was refused, unless a length has wrapped. -/
theorem compact_tidies {freshHint : Bool} {now : Millis} {w v : World}
    (hrun : Reaches (Allowed ⟨false, freshHint⟩) { now := now } w) {plan rest : List Answer}
    (hcompact : compact ⟨w, plan⟩ = (.ok (), ⟨v, rest⟩)) (hfits : v.wrapped = false) :
    Compacted w v := by
  have hall : ∀ plan, Answers (fun _ => True) plan := fun _ _ _ => trivial
  have hw : Sound ⟨false, freshHint⟩ w :=
    sound_run hrun (fits_before compact_keeps (hall _) hcompact hfits)
  obtain ⟨hopen, hv, _, hrew⟩ :=
    (compact_spec (A := fun _ => True) hw).ok rfl (hall _) hcompact hfits
  have hcondensed :=
    condensed_of_rewritten hrew hw hopen hv (rewrites_compact _ w) (shaped_compact w.db)
  refine ⟨hcondensed, blob_of_rewritten hrew, fun now v' plan rest hlasting hagain hfits' => ?_⟩
  have hu : Sound ⟨false, freshHint⟩ { v with now := now } :=
    hv.tick fun hm => absurd hm Bool.false_ne_true
  obtain ⟨_, hv', _, hrew'⟩ :=
    (compact_spec (A := fun _ => True) hu).ok rfl (hall _) hagain hfits'
  exact compact_again hw hopen hv hrew hu hlasting hv' hrew'

/-- A record was overwritten, one was deleted and one has expired. -/
def cluttered : World := runEvents { now := ⟨0, Millis.zero_bounded⟩ }
  [.openStore {} [], .op (.put .sorted [0x61] [0x31] []) [], .op (.put .sorted [0x61] [0x32] []) [],
    .op (.put .sorted [0x62] [0x33] []) [], .op (.delete [0x62]) [],
    .op (.put .sorted [0x63] [0x34] [1000000]) [], .tick ⟨30, by decide⟩]

theorem cluttered_compacted : (compact ⟨cluttered, []⟩).2.world.dir.log.length = 1 ∧
    Compacted cluttered (compact ⟨cluttered, []⟩).2.world := by
  have hrun : Reaches (Allowed ⟨false, false⟩) { now := ⟨0, Millis.zero_bounded⟩ } cluttered := by
    refine reaches_runEvents .start ⟨.open_of_ok (List.forall_mem_nil _) answered_nil
      (by decide +kernel) fun _ husable => ?_,
      .op_of_ok (show Utf8.valid [0x61] = true by decide) answered_nil (by decide +kernel),
      .op_of_ok (show Utf8.valid [0x61] = true by decide) answered_nil (by decide +kernel),
      .op_of_ok (show Utf8.valid [0x62] = true by decide) answered_nil (by decide +kernel),
      .op_of_ok trivial answered_nil (by decide +kernel),
      .op_of_ok (show Utf8.valid [0x63] = true by decide) answered_nil (by decide +kernel),
      ⟨trivial, trivial, fun _ => trivial, ?_, ?_⟩, trivial⟩
    · cases husable
    · rintro _ opts plan ⟨⟩
    · rintro ⟨⟩
  exact ⟨by decide +kernel, compact_tidies hrun
    (run_of_ok (show (compact ⟨cluttered, []⟩).1 = .ok () by decide +kernel)) (by decide +kernel)⟩

end NteeDb.Properties.Compaction
