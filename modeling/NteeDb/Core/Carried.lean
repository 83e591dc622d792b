import NteeDb.Core.Indexes

/-!
# Index values that survive JSON

Index names and strings go straight through JSON, which replaces bytes that are
not UTF-8; a number goes through its decimal text and comes back as binary64.  A
`CarriedMap` reads back as a map that every index reads in the same way.
-/

namespace NteeDb.Core

open NteeDb.Verified
open Json BinaryFloat OrderedTree JsonCodec

/-- The entry the index values give in an index, as `makeEntry` reads them. -/
def entryOf (si : SecIndex) (ix : AnyMap) (pk : Bytes) : Option SecEntry :=
  (ix.get si.name).bind fun v => (si.makeEntry v pk).toOption

theorem indexed_iff {si : SecIndex} {p : PkEntry} {e : SecEntry} :
    Indexed si p e ↔ entryOf si p.ix p.key = some e := by
  rw [entryOf, Option.bind_eq_some_iff]
  refine exists_congr fun v => and_congr_right fun _ => ?_
  cases si.makeEntry v p.key <;> simp [Except.toOption]

/-- The value survives its decimal or string form. -/
def CarriedValue : AnyValue → Prop
  | .str s => Utf8.valid s = true
  | .f32 x => parseFloat binary64 (formatFloat binary32 x) = some (convert binary64 x)
  | _ => True

/-- The names and the values of the map survive JSON. -/
def CarriedMap (m : AnyMap) : Prop := ∀ nv ∈ m, Utf8.valid nv.1 = true ∧ CarriedValue nv.2

/-- A carried value reads back as a value every index reads the same way. -/
theorem readBack_reads {v : AnyValue} (h : v.Scalar) (hc : CarriedValue v) :
    toStr v.readBack = toStr v ∧ toFloat v.readBack = toFloat v := by
  cases v with
  | null => exact h.elim
  | bool b => exact h.elim
  | compound j => exact h.elim
  | str s => exact ⟨congrArg some (Utf8.sanitize_eq_self hc), rfl⟩
  | f64 x => exact ⟨rfl, rfl⟩
  | f32 x =>
      have hback : AnyValue.readBack (.f32 x) = .f64 (convert binary64 x) := by
        rw [AnyValue.readBack, show parseFloat binary64 (formatFloat binary32 x) = _ from hc]
        rfl
      rw [hback]
      exact ⟨rfl, rfl⟩
  | int i => exact ⟨rfl, rfl⟩
  | number lit hlit =>
      obtain ⟨y, hy⟩ := Option.isSome_iff_exists.mp h
      have hback : AnyValue.readBack (.number lit hlit) = .f64 y := by
        rw [AnyValue.readBack, hy]
        rfl
      rw [hback]
      exact ⟨rfl, hy.symm⟩

theorem toOption_makeEntry (si : SecIndex) (v : AnyValue) (pk : Bytes) :
    (si.makeEntry v pk).toOption = match si.kind with
      | .number => (toFloat v).map fun f => { f := f, pk := pk }
      | .string => (toStr v).map fun s => { s := s, pk := pk } := by
  unfold SecIndex.makeEntry
  cases si.kind with
  | number => cases toFloat v <;> rfl
  | string => cases toStr v <;> rfl

/-- A carried map reads back as one that every index reads in the same way. -/
theorem entryOf_readBack {ix : AnyMap} (hscalar : ix.Scalar)
    (hc : CarriedMap ix) (si : SecIndex) (pk : Bytes) :
    entryOf si ix.readBack pk = entryOf si ix pk := by
  simp only [entryOf, AnyMap.get_readBack fun nv hnv => (hc nv hnv).1]
  cases hget : ix.get si.name with
  | none => rfl
  | some v =>
      have hmem := AnyMap.get_eq_some.mp hget
      obtain ⟨hstr, hfloat⟩ := readBack_reads (hscalar _ hmem) (hc _ hmem).2
      simp only [Option.map_some, Option.bind_some, toOption_makeEntry, hstr, hfloat]

/-! ## Maps that can be stored, and maps as they come back -/

/-- Scalars that survive JSON, under names that do. -/
def Storable (m : AnyMap) : Prop :=
  ∀ nv ∈ m, nv.2.Scalar ∧ Utf8.valid nv.1 = true ∧ CarriedValue nv.2

/-- A map as it comes back from JSON: reading it back once more changes nothing. -/
def Settled (m : AnyMap) : Prop := ∀ nv ∈ m, nv.2.Scalar ∧ readBackMember nv = nv

theorem Storable.scalar {m : AnyMap} (h : Storable m) : m.Scalar := fun nv hnv => (h nv hnv).1

theorem Storable.carried {m : AnyMap} (h : Storable m) : CarriedMap m := fun nv hnv => (h nv hnv).2

theorem storable_empty : Storable Tree.empty := fun nv h => absurd h (Tree.not_mem_empty nv)

theorem Settled.storable {m : AnyMap} (h : Settled m) : Storable m := by
  intro nv hnv
  obtain ⟨hs, hback⟩ := h nv hnv
  have hname : Utf8.sanitize nv.1 = nv.1 := congrArg Prod.fst hback
  have hvalue : nv.2.readBack = nv.2 := congrArg Prod.snd hback
  refine ⟨hs, Utf8.sanitize_eq_iff.mp hname, ?_⟩
  have hcases := AnyValue.readBack_cases hs
  rw [hvalue] at hcases
  rcases hcases with ⟨s, hstr⟩ | ⟨x, hfloat, _⟩
  · rw [hstr]
    exact Utf8.valid_sanitize s
  · rw [hfloat]
    trivial

theorem Settled.readBack_eq {m : AnyMap} (h : Settled m) : m.readBack = m :=
  AnyMap.readBack_eq_self fun nv hnv => (h nv hnv).2

theorem Settled.filter {m : AnyMap} (h : Settled m) (p : Bytes × AnyValue → Bool) :
    Settled (m.filter p) := fun nv hnv => h nv (Tree.mem_filter.mp hnv).1

theorem settled_readBack {m : AnyMap} (h : m.Scalar) : Settled m.readBack := by
  intro nv hnv
  obtain ⟨src, hsrc, rfl⟩ := AnyMap.mem_readBack hnv
  refine ⟨AnyValue.scalar_readBack (h src hsrc), ?_⟩
  simp only [readBackMember, Utf8.sanitize_sanitize, AnyValue.readBack_readBack (h src hsrc)]

/-- Nothing is lost on the way through JSON. -/
theorem Storable.readBack_eq_nil {m : AnyMap} (h : Storable m) (hback : m.readBack.items = []) :
    m.items = [] := by
  rw [List.eq_nil_iff_forall_not_mem]
  intro nv hnv
  have hget : m.get nv.1 = some nv.2 := AnyMap.get_eq_some.mpr hnv
  have hread := AnyMap.get_readBack (fun nv hnv => (h nv hnv).2.1) nv.1
  rw [hget, Option.map_some, AnyMap.get_eq_some, Tree.mem_def, hback] at hread
  cases hread

end NteeDb.Core
