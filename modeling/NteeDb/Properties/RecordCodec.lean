import NteeDb.Core.Carried

/-!
# What survives the record codec

The value of a record always survives: text or base64, whichever carries it.
The key, the index names and the index strings go straight through JSON, which
replaces bytes that are not UTF-8; an index number goes through its decimal text
and comes back as binary64.

`Record.Carried` is the exact condition: the key, the names and the strings are
valid UTF-8, and a single-precision number is printed by a decimal that reads, in
double precision, as the number itself.
-/

namespace NteeDb.Properties.RecordCodec

open NteeDb.Verified
open Json BinaryFloat OrderedTree JsonCodec
open NteeDb.Core

/-- An index value that some kind of index accepts and that JSON can carry. -/
structure IndexValue (v : AnyValue) : Prop where
  accepted : toStr v ≠ none ∨ toFloat v ≠ none
  encodable : v.encode ≠ none

/-- Two records agree in everything the store reads off a record. -/
structure SameRecord (r r' : Record) : Prop where
  key : r'.key = r.key
  value : r'.value = r.value
  blob : r'.blob = r.blob
  deleted : r'.deleted = r.deleted
  counter : r'.counter = r.counter
  exp : r'.exp = r.exp
  ix : ∀ si pk, entryOf si r'.ix pk = entryOf si r.ix pk

/-- Everything of the record that goes through JSON text survives it. -/
structure Carried (r : Record) : Prop where
  key : Utf8.valid r.key = true
  ix : CarriedMap r.ix

theorem IndexValue.scalar {v : AnyValue} (h : IndexValue v) : v.Scalar := by
  cases v with
  | null => rcases h.accepted with h | h <;> exact absurd rfl h
  | bool b => rcases h.accepted with h | h <;> exact absurd rfl h
  | compound j => rcases h.accepted with h | h <;> exact absurd rfl h
  | str s => trivial
  | int i => trivial
  | f64 x =>
      by_contra hfin
      exact h.encodable (if_neg hfin)
  | f32 x =>
      by_contra hfin
      exact h.encodable (if_neg hfin)
  | number lit hlit =>
      rcases h.accepted with hs | hf
      · exact absurd rfl hs
      · exact Option.isSome_iff_ne_none.mpr hf

/-- A value that every index reads back the same way is carried. -/
theorem carriedValue_of_reads {v : AnyValue} (h : v.Scalar)
    (hs : toStr v.readBack = toStr v) (hf : toFloat v.readBack = toFloat v) : CarriedValue v := by
  cases v with
  | str s => exact Utf8.sanitize_eq_iff.mp (Option.some.inj hs)
  | f32 x =>
      obtain ⟨y, hy⟩ := parseFloat_formatFloat32 h
      have hback : AnyValue.readBack (.f32 x) = .f64 y := by
        rw [AnyValue.readBack, hy]
        rfl
      rw [hback] at hf
      exact hy.trans hf
  | null => trivial
  | bool b => trivial
  | compound j => trivial
  | f64 x => trivial
  | int i => trivial
  | number lit hlit => trivial

/-! ## Reading index values back -/

/-- An index without entries, to read a value with. -/
def reader (name : Bytes) (kind : ValueKind) : SecIndex := ⟨name, kind, 0, Tree.empty⟩

private theorem carried_of_sameIx {ix : AnyMap} (hix : ∀ nv ∈ ix, IndexValue nv.2)
    (h : ∀ si pk, entryOf si ix.readBack pk = entryOf si ix pk) : CarriedMap ix := by
  -- what an index of either kind reads under a name, before and after
  have hreads (name : Bytes) : (ix.readBack.get name).bind toStr = (ix.get name).bind toStr ∧
      (ix.readBack.get name).bind toFloat = (ix.get name).bind toFloat := by
    have hbind {β : Type} (f : AnyValue → Option β) (c : β → SecEntry) (o : Option AnyValue) :
        (o.bind fun v => (f v).map c) = (o.bind f).map c := by
      cases o <;> rfl
    have hstr := h (reader name .string) []
    have hnum := h (reader name .number) []
    simp only [entryOf, toOption_makeEntry, reader, hbind] at hstr hnum
    constructor
    · exact Option.map_injective (fun a b hab => by cases hab; rfl) hstr
    · exact Option.map_injective (fun a b hab => by cases hab; rfl) hnum
  -- a name that is read back at all is a sanitized one
  have hnames : ∀ nv ∈ ix, Utf8.valid nv.1 = true := by
    intro nv hnv
    have hget : ix.get nv.1 = some nv.2 := AnyMap.get_eq_some.mpr hnv
    have hback : ix.readBack.get nv.1 ≠ none := by
      intro hnone
      obtain ⟨hstr, hnum⟩ := hreads nv.1
      rw [hnone, hget] at hstr hnum
      rcases (hix nv hnv).accepted with hs | hf
      · exact hs hstr.symm
      · exact hf hnum.symm
    obtain ⟨w, hw⟩ := Option.ne_none_iff_exists'.mp hback
    obtain ⟨src, _, hsrc⟩ := AnyMap.mem_readBack (AnyMap.get_eq_some.mp hw)
    have hname : nv.1 = Utf8.sanitize src.1 := congrArg Prod.fst hsrc
    rw [hname]
    exact Utf8.valid_sanitize src.1
  intro nv hnv
  refine ⟨hnames nv hnv, ?_⟩
  obtain ⟨hstr, hnum⟩ := hreads nv.1
  rw [AnyMap.get_readBack hnames, AnyMap.get_eq_some.mpr hnv] at hstr hnum
  exact carriedValue_of_reads (hix nv hnv).scalar hstr hnum

/-! ## The codec -/

/-- **Record codec.**  Every record the store can write is written as one line
without a newline; the line decodes to a record the store reads in the same way
exactly when the record is `Carried`. -/
theorem unmarshal_same_iff_carried (r : Record) (htext : r.text = [])
    (hix : ∀ nv ∈ r.ix, IndexValue nv.2) :
    ∃ line, marshalRecord r = some line ∧ 0x0A ∉ line ∧
      ((∃ r', unmarshalRecord line = some r' ∧ SameRecord r r') ↔ Carried r) := by
  have hscalar : r.ix.Scalar := fun nv hnv => (hix nv hnv).scalar
  obtain ⟨line, hline, hbytes, hdec⟩ := unmarshal_marshal htext hscalar
  refine ⟨line, hline, fun hn => absurd (hbytes _ hn) (by decide), ?_, ?_⟩
  · rintro ⟨r', hr', hsame⟩
    cases hdec.symm.trans hr'
    exact ⟨Utf8.sanitize_eq_iff.mp hsame.key, carried_of_sameIx hix hsame.ix⟩
  · intro hc
    refine ⟨r.readBack, hdec, Utf8.sanitize_eq_self hc.key, rfl, rfl, rfl, rfl, rfl, ?_⟩
    exact entryOf_readBack hscalar hc.ix

/-- A record with an index value of every carried form. -/
def sampleRecord : Record where
  key := [0x6B, 0x0A, 0x22]
  value := [0xFF, 0x00]
  ix := Tree.setAll Tree.empty [([0x61], .str [0xC3, 0xA9]), ([0x62], .int 200)]
  exp := 1700000000000

theorem sampleRecord_carried :
    ∃ line, marshalRecord sampleRecord = some line ∧ 0x0A ∉ line ∧
      ((∃ r', unmarshalRecord line = some r' ∧ SameRecord sampleRecord r')
        ↔ Carried sampleRecord) := by
  refine unmarshal_same_iff_carried sampleRecord rfl ?_
  have hitems : sampleRecord.ix.items = [([0x61], .str [0xC3, 0xA9]), ([0x62], .int 200)] := by
    decide
  show ∀ nv ∈ sampleRecord.ix.items, IndexValue nv.2
  rw [hitems]
  simp only [List.forall_mem_cons]
  exact ⟨⟨Or.inl (by decide), by decide⟩, ⟨Or.inr (by decide), by decide⟩, by simp⟩

/-- The keys `"\xfe"` and `"\xff"` are written as one and the same line. -/
theorem distinct_keys_collapse :
    marshalRecord { key := [0xFE], value := [0x31] }
      = marshalRecord { key := [0xFF], value := [0x31] } ∧
    ∃ line r', marshalRecord { key := [0xFE], value := [0x31] } = some line ∧
      unmarshalRecord line = some r' ∧ r'.key = [0xEF, 0xBF, 0xBD] := by
  refine ⟨by decide +kernel, ?_⟩
  obtain ⟨line, hline, _, hdec⟩ := unmarshal_marshal
    (show ({ key := [0xFE], value := [0x31] } : Record).text = [] from rfl)
    (fun nv hnv => absurd hnv (Tree.not_mem_empty nv))
  exact ⟨line, _, hline, hdec, by decide⟩

end NteeDb.Properties.RecordCodec
