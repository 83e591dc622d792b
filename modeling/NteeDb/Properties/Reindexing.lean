import NteeDb.Invariants.Exact
import NteeDb.Invariants.Sessions
import NteeDb.Properties.SecondaryIndexes

/-!
# What Reindex derives

`buildIndexValues` derives index values on a write, `reindexTransform` derives them again.  The
two agree on objects; on any other value only the second one calls `Extract`.
-/

namespace NteeDb.Properties.Reindexing

open NteeDb.Verified
open Faults OrderedTree JsonCodec BinaryFloat
open NteeDb.Core
open NteeDb.Properties.SecondaryIndexes

/-! ## The declared indexes -/

section Declared

variable {ix : Indexes} {defs : List IndexDef}

theorem names_nodup (h : ix.InStep defs) : (defs.map IndexDef.name).Nodup := by
  have hnames : ix.secs.items.map SecIndex.name = defs.map IndexDef.name := by
    have hdecls := congrArg (List.map Decl.name) h.declared
    rw [SecIndexes.decls, List.map_map, List.map_map] at hdecls
    exact hdecls
  exact hnames ▸ ix.secs.nodup

theorem declared_of_accepted (h : ix.InStep defs) {nv : Bytes × AnyValue}
    (hacc : Accepted ix.secs nv) : ∃ d ∈ defs, d.name = nv.1 := by
  obtain ⟨si, hsi, _⟩ := hacc
  obtain ⟨hmem, hname⟩ := SecIndexes.get_eq_some.mp hsi
  have hdecl : si.decl ∈ ix.secs.decls := List.mem_map_of_mem hmem
  rw [h.declared] at hdecl
  obtain ⟨d, hd, heq⟩ := List.mem_map.mp hdecl
  exact ⟨d, hd, (congrArg Decl.name heq).trans hname⟩

end Declared

/-! ## One record -/

section Record

variable {db : DB} {ord : MapOrder} {key value : Bytes} {ix : AnyMap}

/-- Names of index values that an index reads are valid. -/
theorem names_valid (hstep : db.idx.InStep db.opts.indexes) (hcarried : CarriedDefs db.opts.indexes)
    (hacc : AcceptedMap db.idx.secs ix) : ∀ nv ∈ ix, Utf8.valid nv.1 = true := by
  intro nv hnv
  obtain ⟨d, hd, hname⟩ := declared_of_accepted hstep (hacc nv hnv)
  exact hname ▸ (hcarried d hd).1

theorem get_undeclared (hstep : db.idx.InStep db.opts.indexes) (hacc : AcceptedMap db.idx.secs ix)
    {name : Bytes} (hname : name ∉ db.opts.indexes.map IndexDef.name) : ix.get name = none := by
  cases hget : ix.get name with
  | none => rfl
  | some v =>
      obtain ⟨d, hd, heq⟩ := declared_of_accepted hstep (hacc _ (AnyMap.get_eq_some.mp hget))
      have hmem : d.name ∈ db.opts.indexes.map IndexDef.name := List.mem_map_of_mem hd
      rw [heq] at hmem
      exact absurd hmem hname

theorem reExtracted_accepted {ix' : AnyMap} (h : db.reExtracted key value ix = .ok ix') :
    AcceptedMap db.idx.secs ix' := by
  intro nv hnv
  rcases reExtract_mem h nv hnv with hmem | hx
  · exact (mem_filterIX hmem).2
  · exact hx.2

end Record

/-! ## The whole store -/

/-- The primary entries that have expired. -/
def expiredEntries (db : DB) (now : Millis) : List PkEntry :=
  db.idx.pk.items.filter fun e => e.expiredAt now.ms

/-- The store without the keys that have expired. -/
def swept (db : DB) (now : Millis) : DB :=
  { db with idx := db.idx.removeAll (expiredEntries db now) }

/-- Every query on an index has the same answer. -/
structure SameAnswers (db db' : DB) : Prop where
  byIndex : ∀ name val limit, db'.byIndex name val limit = db.byIndex name val limit
  byIndexHas : ∀ name val, db'.byIndexHas name val = db.byIndexHas name val
  byIndexPrefix : ∀ name p limit, db'.byIndexPrefix name p limit = db.byIndexPrefix name p limit
  byIndexRange : ∀ name lo hi, db'.byIndexRange name lo hi = db.byIndexRange name lo hi

theorem sameAnswers_of_secs {db db' : DB} (hclosed : db'.closed = db.closed)
    (hsecs : db'.idx.secs = db.idx.secs) : SameAnswers db db' := by
  have hquery : ∀ {α : Type} (name : Bytes) (q : SecIndex → Except Err α),
      db'.query name q = db.query name q := by
    intro α name q
    rw [DB.query, DB.query, hclosed, hsecs]
  exact ⟨fun name _ _ => hquery name _, fun name _ => hquery name _, fun name _ _ => hquery name _,
    fun name _ _ => hquery name _⟩

section Store

variable {m : Mode} {w : World}

/-- What the log holds for a key of the index. -/
theorem cell_of_entry (h : Sound m w) (hopen : w.db.closed = false) {key : Bytes} {p : PkEntry}
    (hp : w.db.idx.pk.get key = some p) :
    ∃ c, w.dir.cells key = some c ∧ ∀ si, entryOf si c.ix key = entryOf si p.ix key := by
  have hstore := h.2.2 hopen
  have hcells := hstore.mirrors.cells key
  rw [hp, Option.map_some] at hcells
  obtain ⟨c, hc, heq⟩ := Option.map_eq_some_iff.mp hcells
  have hix : c.ix = p.ix.readBack := congrArg Prod.snd heq
  have hstorable := hstore.mirrors.ix p (PkIndex.get_eq_some.mp hp).1
  refine ⟨c, hc, fun si => ?_⟩
  rw [hix, entryOf_readBack hstorable.scalar hstorable.carried]

/-- The entries of the indexes, told by the log. -/
theorem indexed_iff_cell (h : Sound m w) (hopen : w.db.closed = false) {si : SecIndex}
    {e : SecEntry} : (∃ p ∈ w.db.idx.pk, Indexed si p e) ↔
      ∃ c, w.dir.cells e.pk = some c ∧ entryOf si c.ix e.pk = some e := by
  constructor
  · rintro ⟨p, hp, hidx⟩
    obtain ⟨c, hc, hentry⟩ := cell_of_entry h hopen (PkIndex.get_eq_some.mpr ⟨hp, hidx.pk.symm⟩)
    refine ⟨c, hc, ?_⟩
    rw [hentry, hidx.pk]
    exact indexed_iff.mp hidx
  · rintro ⟨c, hc, he⟩
    have hsome := (h.2.2 hopen).mirrors.isSome_cells e.pk
    rw [hc, Option.isSome_some] at hsome
    obtain ⟨p, hp⟩ := Option.isSome_iff_exists.mp hsome.symm
    obtain ⟨c', hc', hentry⟩ := cell_of_entry h hopen hp
    rw [hc] at hc'
    cases hc'
    obtain ⟨hmem, hkey⟩ := PkIndex.get_eq_some.mp hp
    refine ⟨p, hmem, indexed_iff.mpr ?_⟩
    rw [hkey, ← hentry]
    exact he

theorem mem_expiredEntries {key : Bytes} :
    key ∈ (expiredEntries w.db w.now).map PkEntry.key ↔
      ∃ p, w.db.idx.pk.get key = some p ∧ p.expiredAt w.now.ms = true := by
  rw [List.mem_map]
  constructor
  · rintro ⟨p, hp, rfl⟩
    obtain ⟨hmem, hx⟩ := List.mem_filter.mp hp
    exact ⟨p, PkIndex.get_mem hmem, hx⟩
  · rintro ⟨p, hp, hx⟩
    obtain ⟨hmem, hkey⟩ := PkIndex.get_eq_some.mp hp
    exact ⟨p, List.mem_filter.mpr ⟨hmem, hx⟩, hkey⟩

theorem cells_of_live {key : Bytes} {c : Cell} (h : w.live key = some c) :
    w.dir.cells key = some c := (Option.filter_eq_some_iff.mp h).1

/-- The entries that are left once the expired keys are gone, told by the log. -/
theorem swept_iff_live (h : Sound m w) (hopen : w.db.closed = false) {si : SecIndex}
    {e : SecEntry} : (∃ p ∈ (swept w.db w.now).idx.pk, Indexed si p e) ↔
      ∃ c, w.live e.pk = some c ∧ entryOf si c.ix e.pk = some e := by
  have hstep := (h.2.2 hopen).inStep
  have hget : ∀ key, (swept w.db w.now).idx.pk.get key
      = if key ∈ (expiredEntries w.db w.now).map PkEntry.key then none
      else w.db.idx.pk.get key := by
    intro key
    show (w.db.idx.removeAll _).pk.get key = _
    rw [hstep.removeAll_eq, Indexes.deleteAll_get]
  constructor
  · rintro ⟨p, hp, hidx⟩
    have hswept := PkIndex.get_mem hp
    rw [hget] at hswept
    split at hswept
    · cases hswept
    · next hnot =>
        obtain ⟨_, hlive⟩ := h.live_some hopen hswept
        have hfresh : p.expiredAt w.now.ms = false := by
          cases hx : p.expiredAt w.now.ms with
          | false => rfl
          | true => exact absurd (mem_expiredEntries.mpr ⟨p, hswept, hx⟩) hnot
        obtain ⟨c, hc, hentry⟩ := cell_of_entry h hopen hswept
        rw [hidx.pk]
        exact ⟨c, (hlive hfresh).trans hc, (hentry si).trans (indexed_iff.mp hidx)⟩
  · rintro ⟨c, hc, he⟩
    obtain ⟨p, hp, hidx⟩ := (indexed_iff_cell h hopen).mpr ⟨c, cells_of_live hc, he⟩
    have hpk := PkIndex.get_mem hp
    have hnot : p.key ∉ (expiredEntries w.db w.now).map PkEntry.key := by
      intro hmem
      obtain ⟨p', hp', hx⟩ := mem_expiredEntries.mp hmem
      have hnone := (h.live_some hopen hp').1 hx
      rw [← hidx.pk, hc] at hnone
      cases hnone
    have hleft := hget p.key
    rw [if_neg hnot, hpk] at hleft
    exact ⟨p, (PkIndex.get_eq_some.mp hleft).1, hidx⟩

end Store

/-- An index reads a value after it has been read back. -/
theorem accepted_readBack {secs : SecIndexes} {name : Bytes} {v : AnyValue}
    (h : Accepted secs (name, v)) : Accepted secs (name, v.readBack) := by
  have hstr : (toStr v).isSome = true → (toStr v.readBack).isSome = true := by
    cases v <;> simp [toStr, AnyValue.readBack]
  have hfloat : (toFloat v).isSome = true → (toFloat v.readBack).isSome = true := by
    cases v with
    | f32 x =>
        cases hp : parseFloat binary64 (formatFloat binary32 x) <;>
          simp [toFloat, AnyValue.readBack, hp]
    | number lit hlit =>
        cases hp : parseFloat binary64 lit <;> simp [toFloat, AnyValue.readBack, hp]
    | _ => simp [toFloat, AnyValue.readBack]
  obtain ⟨si, hsi, hentry⟩ := h
  refine ⟨si, hsi, fun pk => ?_⟩
  obtain ⟨e, he⟩ := hentry pk
  unfold SecIndex.makeEntry at he ⊢
  cases hk : si.kind with
  | number =>
      rw [hk] at he
      cases hv : toFloat v with
      | none => simp [hv] at he
      | some x =>
          obtain ⟨y, hy⟩ := Option.isSome_iff_exists.mp (hfloat (by rw [hv]; rfl))
          simp [hy]
  | string =>
      rw [hk] at he
      cases hv : toStr v with
      | none => simp [hv] at he
      | some x =>
          obtain ⟨y, hy⟩ := Option.isSome_iff_exists.mp (hstr (by rw [hv]; rfl))
          simp [hy]

section Answers

variable {m : Mode} {w z : World} {key : Bytes} {c : Cell}

end Answers

end NteeDb.Properties.Reindexing
