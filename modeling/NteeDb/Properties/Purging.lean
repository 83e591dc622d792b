import NteeDb.Invariants.Evictions
import NteeDb.Invariants.Origins
import NteeDb.Properties.Compaction

/-!
# What Reindex leaves

`Reindex` is a rewrite like `Compact`, with the index values derived again: every record ends up
with values that the declared indexes read, the extracted ones among them, and with nothing else.
It is the one operation that ends the life of a soft-dropped index, in the records, in memory and
in the schema.  A second `Reindex` writes the same log and the same schema.

## Main results

* `reExtracted_again` — what was derived and read back is derived again.
* `reindex_purges` — what a `Reindex` that returned without an error has done.
-/

namespace NteeDb.Properties.Purging

open NteeDb.Verified
open Faults Lines OrderedTree JsonCodec
open NteeDb.Core
open NteeDb.Properties.Compaction
open NteeDb.Properties.Reindexing

/-! ## One record, twice -/

section Record

variable {secs secs' : SecIndexes} {db db' : DB} {key value : Bytes} {ix ix₁ ix₂ : AnyMap}

/-- A map is given by the values of the names. -/
theorem ext_names {m m' : AnyMap} (h : ∀ name, m.get name = m'.get name) : m = m' := by
  apply Tree.ext_mem
  rintro ⟨name, v⟩
  rw [← AnyMap.get_eq_some, ← AnyMap.get_eq_some, h name]

/-- What the declared indexes read is kept. -/
theorem filterIX_of_accepted (h : AcceptedMap secs ix) : secs.filterIX ix = ix := by
  apply Tree.ext_items
  refine List.filter_eq_self.mpr fun nv hnv => ?_
  obtain ⟨si, hsi, hentry⟩ := h nv hnv
  obtain ⟨e, he⟩ := hentry []
  rw [hsi]
  show (si.makeEntry nv.2 []).toBool = true
  rw [he]
  rfl

/-- Which values are read depends on the declarations only. -/
theorem acceptedMap_congr (hdecls : secs'.decls = secs.decls) (h : AcceptedMap secs ix) :
    AcceptedMap secs' ix := by
  intro nv hnv
  obtain ⟨si, hsi, hentry⟩ := h nv hnv
  obtain ⟨si', hsi', hdecl⟩ := SecIndexes.get_of_decls hdecls hsi
  refine ⟨si', hsi', fun pk => ?_⟩
  rw [SecIndex.makeEntry_congr hdecl]
  exact hentry pk

theorem acceptedMap_readBack (h : AcceptedMap secs ix)
    (hvalid : ∀ nv ∈ ix, Utf8.valid nv.1 = true) : AcceptedMap secs ix.readBack := by
  intro nv hnv
  obtain ⟨src, hsrc, rfl⟩ := AnyMap.mem_readBack hnv
  rw [readBackMember, Utf8.sanitize_eq_self (hvalid src hsrc)]
  exact accepted_readBack (h src hsrc)

/-- The values that `Reindex` gives a record: what an index extracts, or what it had. -/
theorem reExtracted_get (hstep : db.idx.InStep db.opts.indexes)
    (h : db.reExtracted key value ix = .ok ix₁) {d : IndexDef} (hd : d ∈ db.opts.indexes) :
    ix₁.get d.name
      = (d.extract.bind fun f => f key value).or ((db.idx.secs.filterIX ix).get d.name) :=
  (reExtract_get (names_nodup hstep) h).1 d hd

/-- **Deriving twice.**  What was derived, written and read back is derived again: extracted values
come out of the same value, and the others have gone through JSON before. -/
theorem reExtracted_again (hstep : db.idx.InStep db.opts.indexes)
    (hcarried : CarriedDefs db.opts.indexes) (hstep' : db'.idx.InStep db'.opts.indexes)
    (hopts : db'.opts = db.opts) (hix : Settled ix) (h : db.reExtracted key value ix = .ok ix₁)
    (h' : db'.reExtracted key value ix₁.readBack = .ok ix₂) : ix₂ = ix₁ := by
  have hdecls : db'.idx.secs.decls = db.idx.secs.decls := by
    rw [hstep'.declared, hstep.declared, hopts]
  have hacc := reExtracted_accepted h
  have hvalid := names_valid hstep hcarried hacc
  have hkept : db'.idx.secs.filterIX ix₁.readBack = ix₁.readBack :=
    filterIX_of_accepted (acceptedMap_congr hdecls (acceptedMap_readBack hacc hvalid))
  apply ext_names
  intro name
  by_cases hname : name ∈ db.opts.indexes.map IndexDef.name
  · obtain ⟨d, hd, rfl⟩ := List.mem_map.mp hname
    have hget := reExtracted_get hstep h hd
    have hget' := reExtracted_get hstep' h' (hopts ▸ hd)
    rw [hkept, AnyMap.get_readBack hvalid] at hget'
    rw [hget']
    cases hx : d.extract.bind fun f => f key value with
    | some v =>
        rw [hget, hx]
        rfl
    | none =>
        rw [hx, Option.none_or] at hget
        rw [Option.none_or]
        cases hold : (db.idx.secs.filterIX ix).get d.name with
        | none =>
            rw [hget, hold]
            rfl
        | some v =>
            have hmem := (mem_filterIX (AnyMap.get_eq_some.mp hold)).1
            have hback : v.readBack = v := congrArg Prod.snd (hix _ hmem).2
            rw [hget, hold, Option.map_some, hback]
  · have hname' : name ∉ db'.opts.indexes.map IndexDef.name := hopts ▸ hname
    rw [get_undeclared hstep hacc hname, get_undeclared hstep' (reExtracted_accepted h') hname']

end Record

/-! ## The schema -/

section Schema

variable {db : DB}

/-- The names of the indexes that extract. -/
theorem mem_extracting {name : Bytes} :
    name ∈ (db.opts.indexes.filter fun d => d.extract.isSome).map IndexDef.name ↔
      ∃ d ∈ db.opts.indexes, d.extract.isSome = true ∧ d.name = name := by
  simp only [List.mem_map, List.mem_filter, and_assoc]

theorem mem_marked {name : Bytes} : name ∈ db.marked.prospective ↔ name ∈ db.prospective ∧
    ¬ ∃ d ∈ db.opts.indexes, d.extract.isSome = true ∧ d.name = name := by
  rw [DB.marked, List.mem_filter, Bool.not_eq_true', ← Bool.not_eq_true, List.contains_iff_mem,
    mem_extracting]

/-- An index that extracts is complete, any other one is as before. -/
theorem mem_marked_declared (hnames : (db.opts.indexes.map IndexDef.name).Nodup) {d : IndexDef}
    (hd : d ∈ db.opts.indexes) :
    d.name ∈ db.marked.prospective ↔ d.extract = none ∧ d.name ∈ db.prospective := by
  rw [mem_marked]
  constructor
  · rintro ⟨hmem, hnone⟩
    refine ⟨?_, hmem⟩
    cases hx : d.extract with
    | none => rfl
    | some f => exact absurd ⟨d, hd, by rw [hx]; rfl, rfl⟩ hnone
  · rintro ⟨hx, hmem⟩
    refine ⟨hmem, ?_⟩
    rintro ⟨d', hd', hx', hname⟩
    cases List.inj_on_of_nodup_map hnames hd' hd hname
    rw [hx] at hx'
    cases hx'

theorem prospective_twice (db : DB) : db.marked.marked.prospective = db.marked.prospective :=
  List.filter_eq_self.mpr fun _ hn => (List.mem_filter.mp hn).2

/-- The schema that is written says of the declared indexes what the store in memory does. -/
theorem markedSchema_eq (hnames : (db.opts.indexes.map IndexDef.name).Nodup)
    (hcarried : CarriedDefs db.opts.indexes) :
    db.markedSchema = db.opts.indexes.map fun d =>
      ⟨d.name, some d.kind, !db.marked.prospective.contains d.name, false⟩ := by
  rw [DB.markedSchema, List.map_map]
  refine List.map_congr_left fun d hd => ?_
  have hmem := mem_marked_declared hnames hd
  have hcomplete : (d.extract.isSome || !db.prospective.contains d.name)
      = !db.marked.prospective.contains d.name := by
    rw [Bool.eq_iff_iff, Bool.not_eq_true', ← Bool.not_eq_true, List.contains_iff_mem, hmem,
      Bool.or_eq_true, Bool.not_eq_true', ← Bool.not_eq_true, List.contains_iff_mem]
    cases d.extract with
    | none => simp only [Option.isSome_none, Bool.false_eq_true, false_or, true_and]
    | some f => simp only [Option.isSome_some, true_or, reduceCtorEq, false_and, not_false_eq_true]
  show MetaIndex.mk (Utf8.sanitize d.name) (some d.kind)
    (d.extract.isSome || !db.prospective.contains d.name) false = _
  rw [Utf8.sanitize_eq_self (hcarried d hd).1, hcomplete]

end Schema

/-! ## In every world of a run -/

/-- What a `Reindex` of `w` that ended in `v` has done. -/
structure Purged (w v : World) : Prop where
  /-- The lookups answer as before. -/
  reads : ∃ values, Reads w values ∧ Reads v values
  /-- Expired keys are gone; the others keep their value, expiry and kind. -/
  cells : ∀ key, (v.dir.cells key).map (fun c => (c.value, c.exp, c.counter))
    = (w.live key).map fun c => (c.value, c.exp, c.counter)
  /-- Every index value that is left is read by a declared index. -/
  accepted : ∀ key c, v.dir.cells key = some c → AcceptedMap v.db.idx.secs c.ix
  /-- Every value that an index extracts is there. -/
  extracted : ∀ key c, v.dir.cells key = some c → ∀ d ∈ v.db.opts.indexes, ∀ x,
    (d.extract.bind fun f => f key c.value) = some x → c.ix.get d.name = some x.readBack
  log : Tidied w v
  blobs : ∀ gen, v.dir.blob gen = w.dir.blob gen
  /-- No index is soft-dropped; those that extract are complete, the others as before. -/
  dropped : v.db.dropped = []
  prospective : ∀ d ∈ v.db.opts.indexes,
    (d.name ∈ v.db.prospective ↔ d.extract = none ∧ d.name ∈ w.db.prospective)
  schema : v.dir.schema = v.db.opts.indexes.map fun d =>
    ⟨d.name, some d.kind, !v.db.prospective.contains d.name, false⟩
  /-- A second `Reindex`, as long as nothing more has expired, writes the same files. -/
  again : ∀ (now : Millis) (v' : World) (plan rest : List Answer),
    (∀ key c, v.dir.cells key = some c → expired c.exp now.ms = false) →
    reindex ⟨{ v with now := now }, plan⟩ = (.ok (), ⟨v', rest⟩) → v'.wrapped = false →
    v'.dir.main = v.dir.main ∧ v'.dir.schema = v.dir.schema ∧ v'.db.prospective = v.db.prospective

section Steps

variable {A A' : Answer → Prop} {m : Mode} {w z : World}

theorem reindexCell_kept (db : DB) (key : Bytes) (c : Cell) :
    ((reindexCell db key c).value, (reindexCell db key c).exp, (reindexCell db key c).counter)
      = (c.value, c.exp, c.counter) := by
  rw [reindexCell]
  split <;> rfl

/-- What `Reindex` writes it would write again. -/
theorem rederived_fixed {u : World} (hw : InStore w) (hu : InStore u)
    (hopts : u.db.opts = w.db.opts) (hblobs : ∀ gen, u.dir.blob gen = w.dir.blob gen)
    {r r' r₂ : Record} {b b' c c' : Bytes} (hr : w.dir.LiveRecord r) (h : reindexStep w b r r' b')
    (h' : reindexStep u c r'.readBack r₂ c') : r₂ = r' := by
  obtain ⟨⟨ix, hix, rfl⟩, _⟩ := h
  obtain ⟨⟨ix₂, hix₂, rfl⟩, _⟩ := h'
  have hkey := Utf8.sanitize_eq_self hr.sound.key
  have hvalue : u.dir.valueOf (Record.readBack { r with ix := ix }) = w.dir.valueOf r := by
    simp only [Dir.valueOf, Dir.blobBytes, hblobs]
    rfl
  rw [hvalue] at hix₂
  have hagain : u.db.reExtracted r.key (w.dir.valueOf r) ix.readBack = .ok ix₂ := by
    rw [← hkey]
    exact hix₂
  rw [reExtracted_again hw.inStep hw.carried hu.inStep hopts hr.sound.ix hix hagain,
    Record.readBack, hkey]

/-- A second `Reindex` finds the log as it would write it. -/
theorem reindex_again {v : World} (hw : Sound m w) (hopen : w.db.closed = false)
    (hrew : Rewritten A none w (reindexStep w) (reindexCell w.db) z) {now : Millis}
    (hu : Sound m { z.marked with now := now })
    (hlasting : ∀ key c, z.marked.dir.cells key = some c → expired c.exp now.ms = false)
    (hv : Sound m v) (hagain : Rewritten A' none { z.marked with now := now }
      (reindexStep { z.marked with now := now }) (reindexCell z.marked.db) v) :
    v.dir.main = z.dir.main := by
  have hkept := hrew.recasts
  have hzopen : z.db.closed = false := hkept.closed.trans hopen
  have hstore := hw.2.2 hopen
  have hustore := hu.2.2 hzopen
  have hblobs : ∀ gen, z.marked.dir.blob gen = w.dir.blob gen :=
    blob_of_rewritten (z := z) hrew
  exact hrew.main_again (u := { z.marked with now := now }) hw hopen
    (rewrites_reindex A hstore.serving) (shaped_reindex w) hagain hu hzopen
    (rewrites_reindex A' hustore.serving) (shaped_reindex _) hv rfl hlasting
    fun r r' r₂ b b' c c' hr hstep hstep' =>
      rederived_fixed hstore hustore hkept.opts hblobs hr hstep hstep'

end Steps

/-- **`Reindex` purges, completes, and has nothing to do the second time.**  In every world of a
run in which no file step was refused, unless a length has wrapped. -/
theorem reindex_purges {freshHint : Bool} {now : Millis} {w v : World}
    (hrun : Reaches (Allowed ⟨false, freshHint⟩) { now := now } w) {plan rest : List Answer}
    (hreindex : reindex ⟨w, plan⟩ = (.ok (), ⟨v, rest⟩)) (hfits : v.wrapped = false) :
    Purged w v := by
  have hall : ∀ plan, Answers (fun _ => True) plan := fun _ _ _ => trivial
  have hw : Sound ⟨false, freshHint⟩ w :=
    sound_run hrun (fits_before reindex_keeps (hall _) hreindex hfits)
  obtain ⟨z, hopen, hz, _, hrew, rfl⟩ :=
    (reindex_spec (A := fun _ => True) hw).ok rfl (hall _) hreindex hfits
  have hkept := hrew.recasts
  have hzopen : z.db.closed = false := hkept.closed.trans hopen
  have hstore := hw.2.2 hopen
  have hzstore := hz.2.2 hzopen
  have hnames := names_nodup hzstore.inStep
  have hlog := tidied_of_rewritten hrew hw hopen hz (rewrites_reindex _ hstore.serving)
    (shaped_reindex w)
  have hreads := (reads_of_sound hz.marked.1 hzopen).of_values
    (values_of_cells (preserves_reindex w.db) hkept.now hrew.cells)
  refine ⟨⟨_, reads_of_sound hw hopen, hreads⟩, fun key => ?_, fun key c hc => ?_,
    fun key c hc d hd x hx => ?_, ⟨hlog.lines, hlog.main, hlog.size⟩,
    blob_of_rewritten (z := z) hrew, rfl,
    fun d hd => ?_, markedSchema_eq hnames hzstore.carried,
    fun now v' plan rest hlasting hagain hfits' => ?_⟩
  · show (z.dir.cells key).map _ = _
    rw [hrew.cells, Option.map_map]
    exact congrArg (Option.map · (w.live key)) (funext (reindexCell_kept w.db key))
  · obtain ⟨c₀, ix, _, hix, rfl⟩ := reindexed_record hw hopen hrew hc
    have hacc := reExtracted_accepted hix
    exact acceptedMap_congr (decls_eq (z := z) hw hopen hz hzopen hkept.opts)
      (acceptedMap_readBack hacc (names_valid hstore.inStep hstore.carried hacc))
  · obtain ⟨c₀, ix, _, hix, rfl⟩ := reindexed_record hw hopen hrew hc
    have hd' : d ∈ w.db.opts.indexes := hkept.opts ▸ hd
    show ix.readBack.get d.name = _
    rw [AnyMap.get_readBack (names_valid hstore.inStep hstore.carried (reExtracted_accepted hix)),
      reExtracted_get hstore.inStep hix hd', hx]
    rfl
  · have hmem := mem_marked_declared hnames hd
    rw [hkept.prospective] at hmem
    exact hmem
  · have hu : Sound ⟨false, freshHint⟩ { z.marked with now := now } :=
      hz.marked.1.tick fun hm => absurd hm Bool.false_ne_true
    obtain ⟨z', _, hz', _, hrew', rfl⟩ :=
      (reindex_spec (A := fun _ => True) hu).ok rfl (hall _) hagain hfits'
    have hkept' := hrew'.recasts
    have hopts : z'.db.opts = z.db.opts := hkept'.opts
    have hprospective : z'.db.marked.prospective = z.db.marked.prospective := by
      rw [← prospective_twice z.db, DB.marked, hopts, hkept'.prospective]
      rfl
    have hzstore' := hz'.2.2 (hkept'.closed.trans hzopen)
    have hmain : z'.dir.main = z.dir.main :=
      reindex_again hw hopen hrew hu hlasting hz' hrew'
    refine ⟨hmain, ?_, hprospective⟩
    show z'.db.markedSchema = z.db.markedSchema
    rw [markedSchema_eq (names_nodup hzstore'.inStep) hzstore'.carried, hopts, hprospective,
      markedSchema_eq hnames hzstore.carried]

/-- The length of a value as a number index. -/
def lengthIndex : IndexDef :=
  { name := [0x6E], kind := .number,
    extract := some fun _ value => some (.int (Int64.ofNat value.length)) }

/-- A string index without `Extract`. -/
def explicitIndex : IndexDef := { name := [0x73], kind := .string }

theorem carried_explicitIndex : CarriedDefs [explicitIndex] := by
  refine List.forall_mem_singleton.mpr ⟨by decide, ?_⟩
  rintro key value v _ ⟨⟩

theorem carried_lengthIndex : CarriedDefs [lengthIndex] := by
  refine List.forall_mem_singleton.mpr ⟨by decide, ?_⟩
  rintro key value v _ ⟨⟩
  trivial

/-- An object with an explicit value for the string index. -/
def tagged : Op :=
  .putIndexed .sorted [0x61] [0x7B, 0x7D] (Tree.empty.set ([0x73], .str [0x78])) []

theorem carried_tagged : tagged.Carried := by
  refine ⟨show Utf8.valid [0x61] = true by decide, fun nv hnv => ?_⟩
  cases List.mem_singleton.mp hnv
  exact ⟨by decide, show Utf8.valid [0x78] = true by decide⟩

/-- Two records, one with an explicit value; then another index is declared instead. -/
def migrated : World := runEvents { now := ⟨0, Millis.zero_bounded⟩ }
  [.openStore { indexes := [explicitIndex] } [], .op tagged [],
    .op (.put .sorted [0x62] [0x32] []) [], .kill, .openStore { indexes := [lengthIndex] } []]

/-- The second index starts out prospective beside the dropped one. -/
theorem migrated_purged : migrated.db.prospective = [[0x6E]] ∧
    migrated.db.dropped = [([0x73], .string)] ∧
    Purged migrated (reindex ⟨migrated, []⟩).2.world := by
  have hrun : Reaches (Allowed ⟨false, true⟩) { now := ⟨0, Millis.zero_bounded⟩ } migrated :=
    reaches_runEvents .start
      ⟨.open_of_ok carried_explicitIndex answered_nil (by decide +kernel) (by rintro ⟨⟩),
        .op_of_ok carried_tagged answered_nil (by decide +kernel),
        .op_of_ok (show Utf8.valid [0x62] = true by decide) answered_nil (by decide +kernel), .kill,
        .open_of_ok carried_lengthIndex answered_nil (by decide +kernel) (by rintro ⟨⟩), trivial⟩
  exact ⟨by decide +kernel, by decide +kernel, reindex_purges hrun
    (run_of_ok (show (reindex ⟨migrated, []⟩).1 = .ok () by decide +kernel)) (by decide +kernel)⟩

end NteeDb.Properties.Purging
