import NteeDb.Invariants.Origins
import NteeDb.Properties.Purging

/-!
# Complete indexes find every record

`meta.json` keeps, for each index, whether it was there before the first record: an index that is
declared over existing data is prospective, until `Reindex` has back-filled it.  Over a whole life
of a store, with indexes declared, dropped, declared again with another kind and back-filled, an
index that is not prospective finds every record that it should: every live record that holds an
object and from which the index extracts a value.

What this rests on is that an index keeps its `Extract` as long as it keeps its name and its kind;
the schema knows these two only.

## Main results

* `Charted` — the records agree with what the schema says, and the schema with the open store.
* `Charted.next`, `Charted.rederived`, `Charted.opened` — every operation, `Reindex` and `Open`.
* `complete_index_finds` — a complete index finds every record.
-/

namespace NteeDb.Properties.IndexCompleteness

open NteeDb.Verified
open Faults Lines OrderedTree JsonCodec
open NteeDb.Core
open NteeDb.Properties.Compaction
open NteeDb.Properties.Purging
open NteeDb.Properties.Reindexing
open NteeDb.Properties.SecondaryIndexes

/-! ## What a schema promises -/

/-- The values that indexes extract, by name and kind of the index. -/
abbrev Extraction := Bytes → ValueKind → Bytes → Bytes → Option AnyValue

/-- An index of the kind reads the value. -/
def ReadsAs : ValueKind → AnyValue → Prop
  | .number, v => (toFloat v).isSome = true
  | .string, v => (toStr v).isSome = true

/-- The record has a value for the index, if it should have one. -/
def Covered (E : Extraction) (name : Bytes) (kind : ValueKind) (key : Bytes) (c : Cell) : Prop :=
  isObjectValue c.value = true → ∀ x, E name kind key c.value = some x →
    ∃ y, c.ix.get name = some y ∧ ReadsAs kind y

/-- Every record has a value for every index that the schema says is complete. -/
def Filled (E : Extraction) (schema : List MetaIndex) (cells : Bytes → Option Cell) : Prop :=
  ∀ name mi kind, lastNamed schema name = some mi → mi.dropped = false → mi.complete = true →
    mi.kind = some kind → ∀ key c, cells key = some c → Covered E name kind key c

/-- The declared indexes extract what `E` says. -/
def Extracts (E : Extraction) (defs : List IndexDef) : Prop :=
  ∀ d ∈ defs, ∀ key value, (d.extract.bind fun f => f key value) = E d.name d.kind key value

/-- The schema lists the indexes of the open store, and no others that are not dropped. -/
structure Listed (schema : List MetaIndex) (defs : List IndexDef) (prospective : List Bytes) :
    Prop where
  declared : ∀ d ∈ defs,
    lastNamed schema d.name = some ⟨d.name, some d.kind, !prospective.contains d.name, false⟩
  active : ∀ name mi, lastNamed schema name = some mi → mi.dropped = false →
    ∃ d ∈ defs, d.name = name

/-- The records agree with the schema, and the schema with the open store. -/
structure Charted (E : Extraction) (w : World) : Prop where
  sound : Sound ⟨false, true⟩ w
  valid : ∀ mi ∈ w.dir.schema, Utf8.valid mi.name = true
  filled : Filled E w.dir.schema w.dir.cells
  extracts : w.db.closed = false → Extracts E w.db.opts.indexes
  listed : w.db.closed = false → Listed w.dir.schema w.db.opts.indexes w.db.prospective

/-! ## One record -/

section Record

variable {E : Extraction} {db : DB} {key value : Bytes} {ix : AnyMap}

theorem readsAs_iff {si : SecIndex} {v : AnyValue} (pk : Bytes) :
    ReadsAs si.kind v ↔ ∃ e, si.makeEntry v pk = .ok e := by
  have hsome : (∃ e, si.makeEntry v pk = .ok e) ↔ (si.makeEntry v pk).toOption.isSome = true := by
    cases si.makeEntry v pk with
    | error e => exact ⟨fun ⟨_, he⟩ => (nomatch he), fun h => (nomatch h)⟩
    | ok e => exact ⟨fun _ => rfl, fun _ => ⟨e, rfl⟩⟩
  rw [hsome, toOption_makeEntry]
  cases si.kind with
  | number => rw [ReadsAs, Option.isSome_map]
  | string => rw [ReadsAs, Option.isSome_map]

/-- A value that a declared index accepts is read by its kind. -/
theorem readsAs_of_accepted (hstep : db.idx.InStep db.opts.indexes) {d : IndexDef}
    (hd : d ∈ db.opts.indexes) {v : AnyValue} (h : Accepted db.idx.secs (d.name, v)) :
    ReadsAs d.kind v := by
  obtain ⟨si, hsi, hentry⟩ := h
  obtain ⟨si', hsi', hkind, _⟩ := hstep.get hd
  cases hsi.symm.trans hsi'
  rw [← hkind]
  exact (readsAs_iff []).mpr (hentry [])

theorem not_object_counter (n : Int64) : isObjectValue (formatCounter n) = false := by
  rw [formatCounter]
  split <;> rfl

/-- A write gives an index a value, explicit or extracted, if there is one to extract. -/
theorem covered_of_built (hstep : db.idx.InStep db.opts.indexes)
    (hcarried : CarriedDefs db.opts.indexes) {d : IndexDef} (hd : d ∈ db.opts.indexes)
    (hextracts : Extracts E db.opts.indexes) {ord : MapOrder} {explicit : AnyMap} {c : Cell}
    (hbuilt : db.buildIndexValues ord key c.value explicit = .ok ix) (hread : c.ix = ix.readBack) :
    Covered E d.name d.kind key c := by
  intro hobject x hx
  rw [← hextracts d hd] at hx
  have hacc : AcceptedMap db.idx.secs ix := fun nv hnv => (buildIndexValues_mem hbuilt nv hnv).2
  have hget : (ix.get d.name).isSome = true := by
    rw [DB.buildIndexValues] at hbuilt
    split at hbuilt
    · next hnone =>
        obtain ⟨si, hsi, _⟩ := hstep.get hd
        have hmem := (SecIndexes.get_eq_some.mp hsi).1
        rw [hnone.1] at hmem
        exact absurd hmem List.not_mem_nil
    · cases hexplicit : addExplicit db.idx.secs key (ord.items explicit) Tree.empty with
      | error e =>
          rw [hexplicit] at hbuilt
          cases hbuilt
      | ok out =>
          rw [hexplicit] at hbuilt
          rw [(addExtracted_get (names_nodup hstep) hbuilt).1 d hd, hx]
          cases out.get d.name <;> rfl
  obtain ⟨v, hv⟩ := Option.isSome_iff_exists.mp hget
  refine ⟨v.readBack, ?_, ?_⟩
  · rw [hread, AnyMap.get_readBack (names_valid hstep hcarried hacc), hv]
    rfl
  · exact readsAs_of_accepted hstep hd (accepted_readBack (hacc _ (AnyMap.get_eq_some.mp hv)))

/-- `Reindex` gives every index the value that there is to extract. -/
theorem covered_of_reExtracted (hstep : db.idx.InStep db.opts.indexes)
    (hcarried : CarriedDefs db.opts.indexes) {d : IndexDef} (hd : d ∈ db.opts.indexes)
    (hextracts : Extracts E db.opts.indexes) {c : Cell}
    (h : db.reExtracted key c.value c.ix = .ok ix) :
    Covered E d.name d.kind key { c with ix := ix.readBack } := by
  intro _ x hx
  rw [← hextracts d hd] at hx
  have hacc := reExtracted_accepted h
  have hget : ix.get d.name = some x := by
    rw [reExtracted_get hstep h hd, hx]
    rfl
  refine ⟨x.readBack, ?_, ?_⟩
  · show ix.readBack.get d.name = _
    rw [AnyMap.get_readBack (names_valid hstep hcarried hacc), hget]
    rfl
  · exact readsAs_of_accepted hstep hd (accepted_readBack (hacc _ (AnyMap.get_eq_some.mp hget)))

end Record

/-! ## The entries of a schema -/

section Schemas

variable {defs : List IndexDef} {f : IndexDef → MetaIndex} {name : Bytes} {mi : MetaIndex}

theorem lastNamed_mem {schema : List MetaIndex} (h : lastNamed schema name = some mi) :
    mi ∈ schema ∧ mi.name = name := by
  have hmem := List.mem_of_getLast? h
  rw [List.mem_filter, decide_eq_true_iff] at hmem
  exact hmem

theorem filter_name (hnames : (defs.map IndexDef.name).Nodup) {d : IndexDef} (hd : d ∈ defs) :
    defs.filter (fun d' => d'.name = d.name) = [d] := by
  induction defs with
  | nil => cases hd
  | cons d' rest ih =>
      rw [List.map_cons, List.nodup_cons] at hnames
      by_cases heq : d'.name = d.name
      · have hrest : rest.filter (fun d' => d'.name = d.name) = [] := by
          rw [List.filter_eq_nil_iff]
          intro d'' hd'' hname
          rw [decide_eq_true_iff, ← heq] at hname
          exact hnames.1 (hname ▸ List.mem_map_of_mem hd'')
        have hsame : d = d' := by
          rcases List.mem_cons.mp hd with rfl | hmem
          · rfl
          · exact absurd (heq ▸ List.mem_map_of_mem hmem) hnames.1
        rw [List.filter_cons, if_pos (decide_eq_true heq), hrest, hsame]
      · have hmem : d ∈ rest := (List.mem_cons.mp hd).resolve_left fun h => heq (h ▸ rfl)
        rw [List.filter_cons, if_neg (by rwa [decide_eq_true_iff]), ih hnames.2 hmem]

/-- The entry of a declared index, behind which no other has its name. -/
theorem lastNamed_declared (hnames : (defs.map IndexDef.name).Nodup)
    (hf : ∀ d, (f d).name = d.name) {gone : List MetaIndex}
    (hgone : ∀ mi ∈ gone, mi.name ∉ defs.map IndexDef.name) {d : IndexDef} (hd : d ∈ defs) :
    lastNamed (defs.map f ++ gone) d.name = some (f d) := by
  have hnone : gone.filter (fun mi => mi.name = d.name) = [] := by
    rw [List.filter_eq_nil_iff]
    intro mi hmi hname
    rw [decide_eq_true_iff] at hname
    exact hgone mi hmi (hname ▸ List.mem_map_of_mem hd)
  have hone : (defs.map f).filter (fun mi => mi.name = d.name) = [f d] := by
    have hpred : ((fun mi : MetaIndex => decide (mi.name = d.name)) ∘ f)
        = fun d' => decide (d'.name = d.name) := funext fun d' => by
      show decide ((f d').name = d.name) = _
      rw [hf]
    rw [List.filter_map, hpred, filter_name hnames hd]
    rfl
  rw [lastNamed, List.filter_append, hnone, hone]
  rfl

/-- An entry that is not dropped is that of a declared index. -/
theorem declared_of_lastNamed (hf : ∀ d, (f d).name = d.name) {gone : List MetaIndex}
    (hgone : ∀ mi ∈ gone, mi.dropped = true) (h : lastNamed (defs.map f ++ gone) name = some mi)
    (hactive : mi.dropped = false) : ∃ d ∈ defs, d.name = name ∧ mi = f d := by
  obtain ⟨hmem, hname⟩ := lastNamed_mem h
  rcases List.mem_append.mp hmem with hmem | hmem
  · obtain ⟨d, hd, rfl⟩ := List.mem_map.mp hmem
    exact ⟨d, hd, (hf d).symm.trans hname, rfl⟩
  · rw [hgone mi hmem] at hactive
    cases hactive

theorem adoptIndex_name (prior : List MetaIndex) (hadData : Bool) (d : IndexDef) :
    (adoptIndex prior hadData d).name = d.name := by
  rw [adoptIndex]
  split
  · split <;> rfl
  · rfl

/-- What an adopted index is: of the declared kind, not dropped, and complete if it was so under
the same kind, or if there is no data. -/
theorem adoptIndex_eq (prior : List MetaIndex) (hadData : Bool) (d : IndexDef) :
    adoptIndex prior hadData d
      = ⟨d.name, some d.kind, (adoptIndex prior hadData d).complete, false⟩ := by
  rw [adoptIndex]
  split
  · split <;> rfl
  · rfl

theorem complete_of_adopted {prior : List MetaIndex} {hadData : Bool} {d : IndexDef}
    (h : (adoptIndex prior hadData d).complete = true) : hadData = false ∨
      ∃ mi, lastNamed prior d.name = some mi ∧ mi.kind = some d.kind ∧ mi.dropped = false ∧
        mi.complete = true := by
  rw [adoptIndex] at h
  split at h
  · next mi hmi =>
      split at h
      · next hsame => exact Or.inr ⟨mi, hmi, hsame.1, hsame.2, h⟩
      · exact Or.inl (Bool.not_eq_true' hadData |>.mp h)
  · exact Or.inl (Bool.not_eq_true' hadData |>.mp h)

/-- The schema that `Open` writes, where all names survive JSON. -/
theorem adoptedSchema_eq {prior : List MetaIndex} {hadData : Bool}
    (hprior : ∀ mi ∈ prior, Utf8.valid mi.name = true)
    (hdefs : ∀ d ∈ defs, Utf8.valid d.name = true) :
    adoptedSchema prior defs hadData = defs.map (adoptIndex prior hadData) ++
      (undeclared prior defs).map fun mi : MetaIndex => { mi with dropped := true } := by
  refine (List.map_congr_left (g := id) fun mi hmi => ?_).trans (List.map_id _)
  have hvalid : Utf8.valid mi.name = true := by
    rcases List.mem_append.mp hmi with hmem | hmem
    · obtain ⟨d, hd, rfl⟩ := List.mem_map.mp hmem
      rw [adoptIndex_name]
      exact hdefs d hd
    · obtain ⟨mi', hmi', rfl⟩ := List.mem_map.mp hmem
      exact hprior mi' (List.mem_filter.mp hmi').1
  rw [Utf8.sanitize_eq_self hvalid]
  rfl

/-- The declared indexes that `Open` counts as prospective are those that are not complete. -/
theorem not_prospective_iff (hnames : (defs.map IndexDef.name).Nodup) (prior : List MetaIndex)
    (hadData : Bool) {d : IndexDef} (hd : d ∈ defs) :
    (!(adoptedProspective prior defs hadData).contains d.name)
      = (adoptIndex prior hadData d).complete := by
  have hmem : d.name ∈ adoptedProspective prior defs hadData ↔
      (adoptIndex prior hadData d).complete = false := by
    rw [adoptedProspective, List.mem_map]
    constructor
    · rintro ⟨mi, hmi, hname⟩
      obtain ⟨hmem, hcomplete⟩ := List.mem_filter.mp hmi
      obtain ⟨d', hd', rfl⟩ := List.mem_map.mp hmem
      rw [adoptIndex_name] at hname
      cases List.inj_on_of_nodup_map hnames hd' hd hname
      exact Bool.not_eq_true' _ |>.mp hcomplete
    · intro h
      refine ⟨_, List.mem_filter.mpr ⟨List.mem_map_of_mem hd, ?_⟩, adoptIndex_name _ _ d⟩
      rw [h]
      rfl
  rw [Bool.eq_iff_iff, Bool.not_eq_true', ← Bool.not_eq_true, List.contains_iff_mem, hmem,
    Bool.not_eq_false]

end Schemas

/-! ## The steps of a run -/

section Steps

variable {E : Extraction} {w v : World}

/-- A record that comes from a world that agrees with its schema has its values. -/
theorem Charted.covered (h : Charted E w) {key : Bytes} {c : Cell} (horigin : Origin w key c)
    {name : Bytes} {mi : MetaIndex} {kind : ValueKind}
    (hmi : lastNamed w.dir.schema name = some mi) (hactive : mi.dropped = false)
    (hcomplete : mi.complete = true) (hkind : mi.kind = some kind) : Covered E name kind key c := by
  have hdeclared : w.db.closed = false → ∃ d ∈ w.db.opts.indexes, d.name = name ∧
      d.kind = kind := by
    intro hopen
    obtain ⟨d, hd, rfl⟩ := (h.listed hopen).active name mi hmi hactive
    have hentry := (h.listed hopen).declared d hd
    rw [hmi, Option.some_inj] at hentry
    rw [hentry, Option.some_inj] at hkind
    exact ⟨d, hd, rfl, hkind⟩
  cases horigin with
  | old hc => exact h.filled name mi kind hmi hactive hcomplete hkind key c hc
  | written hopen hbuilt _ hread =>
      obtain ⟨d, hd, rfl, rfl⟩ := hdeclared hopen
      have hstore := h.sound.2.2 hopen
      exact covered_of_built hstore.inStep hstore.carried hd (h.extracts hopen) hbuilt hread
  | counter hvalue =>
      intro hobject
      rw [hvalue, not_object_counter] at hobject
      cases hobject
  | @recast c₀ hopen hc =>
      obtain ⟨d, hd, rfl, rfl⟩ := hdeclared hopen
      obtain ⟨si, hsi, _⟩ := (h.sound.2.2 hopen).inStep.get hd
      intro hobject x hx
      obtain ⟨y, hy, hreads⟩ := h.filled _ mi _ hmi hactive hcomplete hkind key c₀ hc hobject x hx
      refine ⟨y, ?_, hreads⟩
      rw [← hy]
      exact get_filterIXKnown (by rw [hsi]; rfl) c₀.ix

/-- Every operation but `Reindex`. -/
theorem Charted.next (h : Charted E w) (hv : Sound ⟨false, true⟩ v) (hd : Descends w v) :
    Charted E v := by
  refine ⟨hv, ?_, ?_, fun hopen => ?_, fun hopen => ?_⟩
  · rw [hd.schema]
    exact h.valid
  · rw [hd.schema]
    intro name mi kind hmi hactive hcomplete hkind key c hc
    exact h.covered (hd.cells key c hc) hmi hactive hcomplete hkind
  · obtain ⟨hwopen, hopts, _⟩ := hd.opened hopen
    rw [hopts]
    exact h.extracts hwopen
  · obtain ⟨hwopen, hopts, hprospective⟩ := hd.opened hopen
    rw [hd.schema, hopts, hprospective]
    exact h.listed hwopen

/-- `Reindex`: every index that extracts is complete. -/
theorem Charted.rederived (h : Charted E w) (hv : Sound ⟨false, true⟩ v)
    (hre : Rederived ⟨false, true⟩ w v) : Charted E v := by
  obtain ⟨z, rfl, hopen, hz, hkept, hcells⟩ := hre
  have hzopen : z.db.closed = false := hkept.closed.trans hopen
  have hstore := h.sound.2.2 hopen
  have hzstore := hz.2.2 hzopen
  have hnames := names_nodup hzstore.inStep
  have hextracts : Extracts E z.db.opts.indexes := hkept.opts ▸ h.extracts hopen
  have hschema : z.marked.dir.schema = z.db.opts.indexes.map (fun d =>
      ⟨d.name, some d.kind, !z.db.marked.prospective.contains d.name, false⟩) ++ [] :=
    (markedSchema_eq hnames hzstore.carried).trans (List.append_nil _).symm
  refine ⟨hv, ?_, ?_, fun _ => hextracts, fun _ => ⟨fun d hd => ?_, fun name mi hmi hactive => ?_⟩⟩
  · rw [hschema, List.append_nil]
    intro mi hmi
    obtain ⟨d, hd, rfl⟩ := List.mem_map.mp hmi
    exact (hzstore.carried d hd).1
  · rw [hschema]
    intro name mi kind hmi hactive _ hkind key c hc
    obtain ⟨d, hd, rfl, rfl⟩ :=
      declared_of_lastNamed (fun _ => rfl) (List.forall_mem_nil _) hmi hactive
    cases hkind
    obtain ⟨c₀, ix, _, hix, rfl⟩ := hcells key c hc
    exact covered_of_reExtracted hstore.inStep hstore.carried (hkept.opts ▸ hd)
      (h.extracts hopen) hix
  · rw [hschema]
    exact lastNamed_declared hnames (fun _ => rfl) (List.forall_mem_nil _) hd
  · rw [hschema] at hmi
    obtain ⟨d, hd, hname, _⟩ :=
      declared_of_lastNamed (fun _ => rfl) (List.forall_mem_nil _) hmi hactive
    exact ⟨d, hd, hname⟩

theorem get_of_empty {pk : PkIndex} (h : pk.items = []) (key : Bytes) : pk.get key = none := by
  cases hget : pk.get key with
  | none => rfl
  | some e =>
      have hmem : e ∈ pk.items := (PkIndex.get_eq_some.mp hget).1
      rw [h] at hmem
      cases hmem

theorem withDefaults_indexes (opts : Options) : opts.withDefaults.indexes = opts.indexes := by
  rw [Options.withDefaults]
  split <;> rfl

/-- `Open`: an index is complete if it was, or if there is nothing to miss. -/
theorem Charted.opened {opts : Options} (h : Charted E w) (hcarried : CarriedDefs opts.indexes)
    (hextracts : Extracts E opts.indexes) (hv : Sound ⟨false, true⟩ v)
    (hcells : v.dir.cells = w.dir.cells) {idx : Indexes} (hstep : idx.InStep opts.indexes)
    {goodEnd : Int64} (hopened : Opened opts idx goodEnd w v) : Charted E v := by
  have hnames := names_nodup hstep
  have hindexes : v.db.opts.indexes = opts.indexes := by
    rw [hopened.store.opts, withDefaults_indexes]
  have hschema := hopened.adopted.schema.trans
    (adoptedSchema_eq h.valid fun d hd => (hcarried d hd).1)
  have hgone : ∀ mi ∈ (undeclared w.dir.schema opts.indexes).map
      (fun mi : MetaIndex => { mi with dropped := true }),
      mi.name ∉ opts.indexes.map IndexDef.name ∧ mi.dropped = true := by
    intro mi hmi
    obtain ⟨mi', hmi', rfl⟩ := List.mem_map.mp hmi
    have hnot := (List.mem_filter.mp hmi').2
    rw [Bool.not_eq_true', ← Bool.not_eq_true, List.contains_iff_mem] at hnot
    exact ⟨hnot, rfl⟩
  refine ⟨hv, ?_, ?_, fun _ => ?_, fun _ => ?_⟩
  · rw [hschema]
    intro mi hmi
    rcases List.mem_append.mp hmi with hmem | hmem
    · obtain ⟨d, hd, rfl⟩ := List.mem_map.mp hmem
      rw [adoptIndex_name]
      exact (hcarried d hd).1
    · obtain ⟨mi', hmi', rfl⟩ := List.mem_map.mp hmem
      exact h.valid mi' (List.mem_filter.mp hmi').1
  · rw [hschema, hcells]
    intro name mi kind hmi hactive hcomplete hkind key c hc
    obtain ⟨d, hd, rfl, rfl⟩ := declared_of_lastNamed (adoptIndex_name _ _)
      (fun mi hmi => (hgone mi hmi).2) hmi hactive
    rw [adoptIndex_eq, Option.some_inj] at hkind
    subst hkind
    rcases complete_of_adopted hcomplete with hempty | ⟨mi', hmi', hkind', hactive', hcomplete'⟩
    · -- without data there is no record
      rw [decide_eq_false_iff_not, not_lt, Nat.le_zero] at hempty
      have hsome := (hv.2.2 hopened.store.closed).mirrors.isSome_cells key
      rw [hopened.store.idx, hcells, hc,
        get_of_empty (List.eq_nil_of_length_eq_zero hempty)] at hsome
      cases hsome
    · exact h.filled _ mi' _ hmi' hactive' hcomplete' hkind' key c hc
  · rw [hindexes]
    exact hextracts
  · rw [hindexes, hschema]
    refine ⟨fun d hd => ?_, fun name mi hmi hactive => ?_⟩
    · rw [lastNamed_declared hnames (adoptIndex_name _ _) (fun mi hmi => (hgone mi hmi).1) hd,
        adoptIndex_eq, hopened.adopted.prospective, not_prospective_iff hnames _ _ hd]
    · obtain ⟨d, hd, hname, _⟩ := declared_of_lastNamed (adoptIndex_name _ _)
        (fun mi hmi => (hgone mi hmi).2) hmi hactive
      exact ⟨d, hd, hname⟩

end Steps

/-! ## Runs -/

/-- The events of a life of the store: no file step is refused, the process dies between
operations only, an operation succeeds or is refused for what it asks, and every `Open` declares
indexes that extract what `E` says. -/
structure Calm (E : Extraction) (w : World) (ev : Event) : Prop where
  allowed : Allowed ⟨false, true⟩ w ev
  extracts : ∀ opts plan, ev = .openStore opts plan → Extracts E opts.indexes
  served : ∀ o plan, ev = .op o plan → Succeeds o.run plan w = true ∨ Refusable o

theorem Calm.op_of_ok {E : Extraction} {w : World} {o : Op} {plan : List Answer} (ho : o.Carried)
    (hplan : Answered plan) (hok : Succeeds o.run plan w = true) : Calm E w (.op o plan) := by
  refine ⟨.op_of_ok ho hplan hok, fun _ _ hop => (nomatch hop), ?_⟩
  rintro _ _ ⟨⟩
  exact Or.inl hok

theorem Calm.open_of_ok {E : Extraction} {w : World} {opts : Options} {plan : List Answer}
    (ho : CarriedDefs opts.indexes) (hextracts : Extracts E opts.indexes) (hplan : Answered plan)
    (hok : Succeeds (openStore opts) plan w = true) : Calm E w (.openStore opts plan) := by
  refine ⟨.open_of_ok ho hplan hok (by rintro ⟨⟩), ?_, fun _ _ hop => (nomatch hop)⟩
  rintro _ _ ⟨⟩
  exact hextracts

theorem Calm.kill {E : Extraction} {w : World} : Calm E w .kill :=
  ⟨.kill, fun _ _ hop => (nomatch hop), fun _ _ hop => (nomatch hop)⟩

section Runs

variable {E : Extraction} {w v : World}

theorem charted_empty (E : Extraction) (now : Millis) : Charted E { now := now } := by
  refine ⟨sound_empty _ _, List.forall_mem_nil _, ?_, fun hopen => (nomatch hopen),
    fun hopen => (nomatch hopen)⟩
  rintro name mi kind hmi
  cases hmi

theorem Charted.killed (h : Charted E w) : Charted E w.kill :=
  ⟨h.sound.1.killed, h.valid, h.filled, fun hopen => (nomatch hopen), fun hopen => (nomatch hopen)⟩

theorem Charted.leaves (h : Charted E w) {o : Op} (hv : Sound ⟨false, true⟩ v)
    (ho : o.Leaves ⟨false, true⟩ w v) : Charted E v := by
  cases o with
  | reindex => exact h.rederived hv ho
  | _ => exact h.next hv ho

/-- An operation leaves records and schema in agreement. -/
theorem charted_op (h : Charted E w) {o : Op} {plan : List Answer} (hev : Calm E w (.op o plan)) :
    Unless (Charted E) (exec o.run plan w) := by
  refine exec_spec (op_descends h.sound o hev.allowed.carried) rfl hev.allowed.quiet.1.answers
    (fun _ v hv hwrap => h.leaves (hv hwrap).1 (hv hwrap).2) fun e v hfails hv => ?_
  refine Unless.killed fun hwrap => ?_
  have hrefusable : Refusable o :=
    (hev.served o plan rfl).resolve_left fun hok => Succeeds.not_fails hok e hfails
  rcases hv hwrap with rfl | rfl | hrefused
  · cases hev.allowed.quiet.2 _ hfails
  · exact absurd hfails (hev.allowed.whole rfl)
  · have hcharted := h.next (hrefused hrefusable).1 (hrefused hrefusable).2
    split
    · exact hcharted.killed
    · exact hcharted

theorem charted_open (h : Charted E w) {opts : Options} {plan : List Answer}
    (hev : Calm E w (.openStore opts plan)) : Charted E (exec (openStore opts) plan w) := by
  refine exec_spec (openStore_sound not_quiet_fail h.sound.1 (hev.allowed.usable h.sound.1)
    hev.allowed.carried) rfl (Answered.answers hev.allowed.quiet) ?_ ?_
  · rintro _ v ⟨hv, hcells, _, idx, _, hstep, _, hopened⟩
    exact h.opened hev.allowed.carried (hev.extracts opts plan rfl) hv hcells hstep hopened
  · rintro e v hfails (⟨rfl, _⟩ | ⟨rfl, hrefused⟩)
    · exact absurd hfails (hev.allowed.whole rfl)
    · rw [hrefused.harmless.1]
      exact h

/-- Records and schema agree all along a run. -/
theorem charted_event {ev : Event} (hev : Calm E w ev) (h : Unless (Charted E) w) :
    Unless (Charted E) (ev.apply w) := by
  refine h.apply fun h => ?_
  cases ev with
  | op o plan => exact charted_op h hev
  | openStore opts plan => exact fun _ => charted_open h hev
  | tick now =>
      exact fun _ => ⟨h.sound.tick fun hm => absurd hm Bool.false_ne_true, h.valid, h.filled,
        h.extracts, h.listed⟩
  | kill => exact fun _ => h.killed

end Runs

/-! ## Queries -/

section Queries

variable {m : Mode} {w : World}

/-- A record is found by the value it has for a declared index. -/
theorem found_of_cell (h : Sound m w) (hopen : w.db.closed = false) {d : IndexDef}
    (hd : d ∈ w.db.opts.indexes) {key : Bytes} {c : Cell} (hc : w.dir.cells key = some c)
    {y : AnyValue} (hy : c.ix.get d.name = some y) (hreads : ReadsAs d.kind y) :
    ∃ keys, w.db.byIndex d.name y 0 = .ok keys ∧ key ∈ keys := by
  have hstore := h.2.2 hopen
  obtain ⟨si, hsi, hkind, _⟩ := hstore.inStep.get hd
  obtain ⟨hsiMem, hname⟩ := SecIndexes.get_eq_some.mp hsi
  -- the value in memory, of which `y` is what is read back
  have hread := hstore.mirrors.cells key
  rw [hc, Option.map_some] at hread
  obtain ⟨p, hp, heq⟩ := Option.map_eq_some_iff.mp hread.symm
  have hix : p.ix.readBack = c.ix := congrArg Prod.snd heq
  obtain ⟨hmem, _⟩ := PkIndex.get_eq_some.mp hp
  have hstorable := hstore.mirrors.ix p hmem
  rw [← hix, AnyMap.get_readBack fun nv hnv => (hstorable.carried nv hnv).1] at hy
  obtain ⟨y₀, hy₀, rfl⟩ := Option.map_eq_some_iff.mp hy
  have hmem₀ := AnyMap.get_eq_some.mp hy₀
  obtain ⟨hstr, hfloat⟩ := readBack_reads (hstorable.scalar _ hmem₀) (hstorable.carried _ hmem₀).2
  rw [← hkind] at hreads
  obtain ⟨probe, hprobe⟩ := (readsAs_iff []).mp hreads
  have hprobe₀ : si.makeEntry y₀ [] = .ok probe := by
    have hsame : (si.makeEntry y₀ []).toOption = (si.makeEntry y₀.readBack []).toOption := by
      rw [toOption_makeEntry, toOption_makeEntry, hstr, hfloat]
    rw [hprobe] at hsame
    cases hentry : si.makeEntry y₀ [] with
    | error e =>
        rw [hentry] at hsame
        cases hsame
    | ok e =>
        rw [hentry] at hsame
        cases hsame
        rfl
  have henc : y₀.encode ≠ none := hstore.inStep.inv.encodable p hmem (d.name, y₀) hmem₀
  have hvalue : HasValue si p (d.name, y₀).2 := hasValue_self hname hy₀ henc hprobe₀
  have hmember : key ∈ si.members y₀ :=
    (hstore.inStep.inv.mem_members hsiMem henc).mpr ⟨p, hp, hvalue⟩
  rw [SecIndex.members, hprobe₀] at hmember
  refine ⟨si.group probe, ?_, hmember⟩
  rw [DB.byIndex, DB.query, hopen, if_neg Bool.false_ne_true, hsi]
  exact exact_zero hprobe

end Queries

/-- **A complete index finds every record.**  In every world of a life of the store: a declared
index that is not prospective has, for every live record that holds an object and from which it
extracts a value, a value under which `ByIndex` finds the record; unless a length has wrapped. -/
theorem complete_index_finds {E : Extraction} {now : Millis} {w : World}
    (hrun : Reaches (Calm E) { now := now } w) (hfits : w.wrapped = false)
    (hopen : w.db.closed = false) {d : IndexDef} (hd : d ∈ w.db.opts.indexes)
    (hcomplete : d.name ∉ w.db.prospective) {key : Bytes} {c : Cell} (hc : w.live key = some c)
    (hobject : isObjectValue c.value = true) {x : AnyValue}
    (hx : (d.extract.bind fun f => f key c.value) = some x) :
    ∃ y keys, c.ix.get d.name = some y ∧ w.db.byIndex d.name y 0 = .ok keys ∧ key ∈ keys := by
  have hcharted := hrun.invariant (fun _ => charted_empty E now) (fun _ _ => charted_event) hfits
  have hlisted := (hcharted.listed hopen).declared d hd
  have hcomplete : (!w.db.prospective.contains d.name) = true := by
    rwa [Bool.not_eq_true', ← Bool.not_eq_true, List.contains_iff_mem]
  rw [hcharted.extracts hopen d hd] at hx
  obtain ⟨y, hy, hreads⟩ := hcharted.filled d.name _ d.kind hlisted rfl hcomplete rfl key c
    (cells_of_live hc) hobject x hx
  obtain ⟨keys, hquery, hkey⟩ :=
    found_of_cell hcharted.sound hopen hd (cells_of_live hc) hy hreads
  exact ⟨y, keys, hy, hquery, hkey⟩

/-- The lengths of values. -/
def lengths : Extraction := fun name kind _ value =>
  if name = [0x6E] ∧ kind = .number then some (.int (Int64.ofNat value.length)) else none

/-- A record from before the index was declared, and a `Reindex`. -/
def backfilled : World := runEvents migrated [.op .reindex []]

/-- The record is found once `Reindex` has back-filled the index. -/
theorem backfilled_finds : ∃ c y keys, backfilled.live [0x61] = some c ∧ c.ix.get [0x6E] = some y ∧
    backfilled.db.byIndex [0x6E] y 0 = .ok keys ∧ [0x61] ∈ keys := by
  have hexplicit : Extracts lengths [explicitIndex] :=
    List.forall_mem_singleton.mpr fun _ _ => rfl
  have hlength : Extracts lengths [lengthIndex] := List.forall_mem_singleton.mpr fun _ _ => rfl
  have hrun : Reaches (Calm lengths) { now := ⟨0, Millis.zero_bounded⟩ } backfilled :=
    reaches_runEvents (reaches_runEvents .start
      ⟨.open_of_ok carried_explicitIndex hexplicit answered_nil (by decide +kernel),
        .op_of_ok carried_tagged answered_nil (by decide +kernel),
        .op_of_ok (show Utf8.valid [0x62] = true by decide) answered_nil (by decide +kernel), .kill,
        .open_of_ok carried_lengthIndex hlength answered_nil (by decide +kernel), trivial⟩)
      ⟨.op_of_ok trivial answered_nil (by decide +kernel), trivial⟩
  have hvalue : (backfilled.live [0x61]).map Cell.value = some [0x7B, 0x7D] := by decide +kernel
  obtain ⟨c, hc, hobject⟩ := Option.map_eq_some_iff.mp hvalue
  obtain ⟨y, keys, hfound⟩ := complete_index_finds hrun (by decide +kernel) (by decide +kernel)
    (d := lengthIndex) (List.mem_singleton.mpr rfl) (by decide +kernel) hc (by rw [hobject]; decide)
    (x := .int 2) (by rw [hobject]; rfl)
  exact ⟨c, y, keys, hc, hfound⟩

end NteeDb.Properties.IndexCompleteness
