import NteeDb.Core.Record

/-!
# The primary-key index

`pkindex.go`: one entry per key, locating its latest record in the main log and
carrying its current secondary-index values and its expiry.  A nil map and an
empty one are the same index values.
-/

namespace NteeDb.Core

open NteeDb.Verified
open OrderedTree JsonCodec

/-- `pkEntry` -/
structure PkEntry where
  key : Bytes
  off : Int64 := 0
  n : Int32 := 0
  ix : AnyMap := Tree.empty
  exp : Int64 := 0
  deriving DecidableEq

/-- `expiredAt` -/
def PkEntry.expiredAt (e : PkEntry) (now : Int64) : Bool := e.exp ≠ 0 && e.exp ≤ now

/-- `pkIndex` -/
abbrev PkIndex := Tree (keyLess PkEntry.key)

instance PkIndex.strictComparator : StrictComparator (keyLess PkEntry.key) := inferInstance

namespace PkIndex

/-- `get` -/
def get (ix : PkIndex) (key : Bytes) : Option PkEntry := ix.get? { key := key }

/-- `upsert`: a key that is present keeps its index values. -/
def upsert (ix : PkIndex) (e : PkEntry) : PkIndex :=
  match ix.get? e with
  | some prev => ix.set { e with ix := prev.ix }
  | none => ix.set e

/-- `setIX` -/
def setIX (ix : PkIndex) (key : Bytes) (ixv : AnyMap) : PkIndex :=
  match ix.get key with
  | some e => ix.set { e with ix := ixv }
  | none => ix

/-- `remove` -/
def remove (ix : PkIndex) (key : Bytes) : PkIndex := ix.delete { key := key }

/-- `load`: an entry that is not above all others is inserted in its place. -/
def load (ix : PkIndex) (e : PkEntry) : PkIndex := ix.set e

/-- `ascendFrom` -/
def ascendFrom (ix : PkIndex) (start : Bytes) : List PkEntry := ix.ascend { key := start }

/-- `prefix` -/
def withPrefix (ix : PkIndex) (p : Bytes) : List PkEntry :=
  (ix.ascend { key := p }).takeWhile fun e => p.isPrefixOf e.key

/-! ## Lookups -/

theorem get_eq_some {ix : PkIndex} {key : Bytes} {e : PkEntry} :
    ix.get key = some e ↔ e ∈ ix ∧ e.key = key := Tree.get?_eq_some

theorem get_eq_none {ix : PkIndex} {key : Bytes} :
    ix.get key = none ↔ ∀ e ∈ ix, e.key ≠ key := Tree.get?_eq_none

theorem get_mem {ix : PkIndex} {e : PkEntry} (h : e ∈ ix) : ix.get e.key = some e :=
  get_eq_some.mpr ⟨h, rfl⟩

theorem key_of_get {ix : PkIndex} {key : Bytes} {e : PkEntry} (h : ix.get key = some e) :
    e.key = key := (get_eq_some.mp h).2

theorem get_set (ix : PkIndex) (e : PkEntry) (key : Bytes) :
    get (ix.set e) key = if key = e.key then some e else ix.get key :=
  Tree.get?_set ix e { key := key }

theorem get_remove (ix : PkIndex) (k key : Bytes) :
    (ix.remove k).get key = if key = k then none else ix.get key :=
  Tree.get?_delete ix { key := k } { key := key }

theorem get_load (ix : PkIndex) (e : PkEntry) (key : Bytes) :
    (ix.load e).get key = if key = e.key then some e else ix.get key := get_set ix e key

theorem ext_get {s t : PkIndex} (h : ∀ key, s.get key = t.get key) : s = t :=
  Tree.ext_get? fun a => h a.key

/-- The index values a key has, empty when it is absent. -/
def ixOf (ix : PkIndex) (key : Bytes) : AnyMap := ((ix.get key).map PkEntry.ix).getD Tree.empty

theorem get_upsert (ix : PkIndex) (e : PkEntry) (he : e.ix = Tree.empty) (key : Bytes) :
    (ix.upsert e).get key
      = if key = e.key then some { e with ix := ix.ixOf e.key } else ix.get key := by
  have hget : ix.get? e = ix.get e.key := rfl
  simp only [upsert, hget, ixOf]
  cases ix.get e.key with
  | none =>
      simp only [get_set, Option.map_none, Option.getD_none, ← he]
  | some prev => simp only [get_set, Option.map_some, Option.getD_some]

theorem get_setIX (ix : PkIndex) (k : Bytes) (ixv : AnyMap) (key : Bytes) :
    (ix.setIX k ixv).get key
      = if key = k then (ix.get k).map (fun e => { e with ix := ixv }) else ix.get key := by
  rw [setIX]
  cases hk : ix.get k with
  | none =>
      by_cases h : key = k
      · rw [if_pos h, h, hk, Option.map_none]
      · rw [if_neg h]
  | some e => simp only [get_set, key_of_get hk, Option.map_some]

end PkIndex

end NteeDb.Core
