import NteeDb.Core.PkIndex

/-!
# Secondary indexes

The `secIndex` type of `secindex.go`: a tree of (value, primary key) pairs in
(value, primary key) order, the conversion of a dynamically typed value into an
entry, and the queries over the tree.
-/

namespace NteeDb.Core

open NteeDb.Verified
open BinaryFloat OrderedTree JsonCodec

/-- What an operation can fail with.  `io` is a failed file step, `panic` a Go
run-time panic, and `crash` the death of the process before a file step. -/
inductive Err where
  | closed
  | locked
  | indexNameRequired
  | duplicateIndex (name : Bytes)
  | invalidTTL
  | notCounter
  | counterOverflow
  | negativeAmount
  | unknownIndex (name : Bytes)
  | expectsNumber (name : Bytes)
  | expectsString (name : Bytes)
  | requiresString (name : Bytes)
  | immediateValue (key : Bytes)
  | selfEviction (key name : Bytes) (max : Int64)
  | missingGeneration (ref : BlobRef)
  | batchItem (i : Nat) (key : Option Bytes) (err : Err)
  | disabled (cause : Err)
  | marshal
  | unmarshal
  | io
  | panic
  | crash
  deriving DecidableEq

/-- `ValueKind` -/
inductive ValueKind where
  | string
  | number
  deriving DecidableEq

/-- `IndexDef`: a declared secondary index. -/
structure IndexDef where
  name : Bytes
  kind : ValueKind
  extract : Option (Bytes → Bytes → Option AnyValue) := none
  maxPerValue : Int64 := 0

theorem zero_fits : 0 < (binary64.top + 1) * 2 ^ binary64.mant := by decide

/-- `secEntry`: a string index uses `s` only, a number index `f` only. -/
structure SecEntry where
  s : Bytes := []
  f : Float binary64 := ⟨false, 0, zero_fits⟩
  pk : Bytes
  deriving DecidableEq

/-- `toFloat` -/
def toFloat : AnyValue → Option (Float binary64)
  | .f64 x => some x
  | .f32 x => some (convert binary64 x)
  | .int i => some (ofInt binary64 i.toInt)
  | .number lit _ => parseFloat binary64 lit
  | _ => none

/-- The type assertion `val.(string)`. -/
def toStr : AnyValue → Option Bytes
  | .str s => some s
  | _ => none

/-- `valueEqual` -/
def valueEqual : ValueKind → SecEntry → SecEntry → Bool
  | .number, a, b => a.f.equal b.f
  | .string, a, b => a.s = b.s

/-- `valueGreater` -/
def valueGreater : ValueKind → SecEntry → SecEntry → Bool
  | .number, a, b => b.f.less a.f
  | .string, a, b => b.s < a.s

/-- `less`: by value, then by primary key. -/
def secLess : ValueKind → SecEntry → SecEntry → Bool
  | .number, a, b => if a.f.equal b.f then a.pk < b.pk else a.f.less b.f
  | .string, a, b => if a.s = b.s then a.pk < b.pk else a.s < b.s

/-! ## The order of entries -/

section Order

variable {kind : ValueKind} {a b c : SecEntry}

private theorem equal_iff {x y : Float binary64} :
    x.equal y = true ↔ x.isNaN = false ∧ y.isNaN = false ∧ x.ord = y.ord := by
  simp [Float.equal, and_assoc]

private theorem less_iff {x y : Float binary64} :
    x.less y = true ↔ x.isNaN = false ∧ y.isNaN = false ∧ x.ord < y.ord := by
  simp [Float.less, and_assoc]

theorem valueEqual_symm (h : valueEqual kind a b = true) : valueEqual kind b a = true := by
  cases kind with
  | number =>
      obtain ⟨ha, hb, hab⟩ := equal_iff.mp h
      exact equal_iff.mpr ⟨hb, ha, hab.symm⟩
  | string => exact decide_eq_true (of_decide_eq_true h).symm

theorem valueEqual_trans (hab : valueEqual kind a b = true) (hbc : valueEqual kind b c = true) :
    valueEqual kind a c = true := by
  cases kind with
  | number =>
      obtain ⟨ha, _, hab⟩ := equal_iff.mp hab
      obtain ⟨_, hc, hbc⟩ := equal_iff.mp hbc
      exact equal_iff.mpr ⟨ha, hc, hab.trans hbc⟩
  | string => exact decide_eq_true ((of_decide_eq_true hab).trans (of_decide_eq_true hbc))

theorem valueGreater_trans (hba : valueGreater kind b a = true)
    (hcb : valueGreater kind c b = true) : valueGreater kind c a = true := by
  cases kind with
  | number =>
      obtain ⟨ha, _, hab⟩ := less_iff.mp hba
      obtain ⟨_, hc, hbc⟩ := less_iff.mp hcb
      exact less_iff.mpr ⟨ha, hc, hab.trans hbc⟩
  | string => exact decide_eq_true ((of_decide_eq_true hba).trans (of_decide_eq_true hcb))

theorem valueGreater_of_equal_left (hab : valueEqual kind a b = true)
    (hcb : valueGreater kind c b = true) : valueGreater kind c a = true := by
  cases kind with
  | number =>
      obtain ⟨ha, _, hab⟩ := equal_iff.mp hab
      obtain ⟨_, hc, hbc⟩ := less_iff.mp hcb
      exact less_iff.mpr ⟨ha, hc, hab ▸ hbc⟩
  | string =>
      exact decide_eq_true (lt_of_eq_of_lt (of_decide_eq_true hab) (of_decide_eq_true hcb))

theorem valueGreater_of_equal_right (hba : valueGreater kind b a = true)
    (hbc : valueEqual kind b c = true) : valueGreater kind c a = true := by
  cases kind with
  | number =>
      obtain ⟨ha, _, hab⟩ := less_iff.mp hba
      obtain ⟨_, hc, hbc⟩ := equal_iff.mp hbc
      exact less_iff.mpr ⟨ha, hc, hbc ▸ hab⟩
  | string =>
      exact decide_eq_true (lt_of_lt_of_eq (of_decide_eq_true hba) (of_decide_eq_true hbc))

theorem not_valueEqual_of_greater (h : valueGreater kind b a = true) :
    ¬ valueEqual kind a b = true := by
  cases kind with
  | number =>
      intro heq
      exact absurd (equal_iff.mp heq).2.2 (less_iff.mp h).2.2.ne
  | string =>
      intro heq
      exact absurd (of_decide_eq_true heq) (of_decide_eq_true h).ne

/-- `less` is: a smaller value, or an equal value and a smaller key. -/
theorem secLess_iff :
    secLess kind a b = true ↔
      valueGreater kind b a = true ∨ valueEqual kind a b = true ∧ a.pk < b.pk := by
  have hsplit : secLess kind a b
      = if valueEqual kind a b then decide (a.pk < b.pk) else valueGreater kind b a := by
    cases kind with
    | number => rfl
    | string => simp [secLess, valueEqual, valueGreater]
  rw [hsplit]
  split
  · next h =>
      have hng : ¬ valueGreater kind b a = true := fun hg => not_valueEqual_of_greater hg h
      simp [h, hng]
  · next h => simp [h]

instance (kind : ValueKind) : StrictComparator (secLess kind) where
  irrefl a := by
    rw [← Bool.not_eq_true, secLess_iff]
    rintro (h | ⟨_, h⟩)
    · exact not_valueEqual_of_greater (valueGreater_trans h h)
        (by cases kind with
          | number =>
              obtain ⟨ha, _, _⟩ := less_iff.mp h
              exact equal_iff.mpr ⟨ha, ha, rfl⟩
          | string => exact decide_eq_true rfl)
    · exact absurd h (lt_irrefl _)
  trans a b c hab hbc := by
    rw [secLess_iff] at hab hbc ⊢
    rcases hab with hab | ⟨hab, hpk⟩
    · rcases hbc with hbc | ⟨hbc, _⟩
      · exact Or.inl (valueGreater_trans hab hbc)
      · exact Or.inl (valueGreater_of_equal_right hab hbc)
    · rcases hbc with hbc | ⟨hbc, hpk'⟩
      · exact Or.inl (valueGreater_of_equal_left hab hbc)
      · exact Or.inr ⟨valueEqual_trans hab hbc, hpk.trans hpk'⟩

/-- The entry's value is not NaN, or the index does not look at it. -/
def SecEntry.NaNFree (kind : ValueKind) (e : SecEntry) : Prop :=
  kind = .number → e.f.isNaN = false

theorem valueEqual_refl (ha : a.NaNFree kind) : valueEqual kind a a = true := by
  cases kind with
  | number => exact equal_iff.mpr ⟨ha rfl, ha rfl, rfl⟩
  | string => exact decide_eq_true rfl

/-- Values without NaN are linearly ordered. -/
theorem value_trichotomy (ha : a.NaNFree kind) (hb : b.NaNFree kind) :
    valueGreater kind b a = true ∨ valueEqual kind a b = true ∨ valueGreater kind a b = true := by
  cases kind with
  | number =>
      rcases lt_trichotomy a.f.ord b.f.ord with h | h | h
      · exact Or.inl (less_iff.mpr ⟨ha rfl, hb rfl, h⟩)
      · exact Or.inr (Or.inl (equal_iff.mpr ⟨ha rfl, hb rfl, h⟩))
      · exact Or.inr (Or.inr (less_iff.mpr ⟨hb rfl, ha rfl, h⟩))
  | string =>
      rcases lt_trichotomy a.s b.s with h | h | h
      · exact Or.inl (decide_eq_true h)
      · exact Or.inr (Or.inl (decide_eq_true h))
      · exact Or.inr (Or.inr (decide_eq_true h))

/-- Entries without NaN are comparable unless they agree in value and key. -/
theorem secLess_or_iff (ha : a.NaNFree kind) (hb : b.NaNFree kind) :
    secLess kind a b = true ∨ secLess kind b a = true
      ↔ ¬ (valueEqual kind a b = true ∧ a.pk = b.pk) := by
  simp only [secLess_iff]
  constructor
  · rintro ((h | ⟨_, hpk⟩) | (h | ⟨_, hpk⟩)) ⟨heq, hpkeq⟩
    · exact not_valueEqual_of_greater h heq
    · exact absurd hpkeq hpk.ne
    · exact not_valueEqual_of_greater h (valueEqual_symm heq)
    · exact absurd hpkeq.symm hpk.ne
  · intro h
    rcases value_trichotomy ha hb with hlt | heq | hgt
    · exact Or.inl (Or.inl hlt)
    · rcases lt_trichotomy a.pk b.pk with hlt | hpk | hgt
      · exact Or.inl (Or.inr ⟨heq, hlt⟩)
      · exact absurd ⟨heq, hpk⟩ h
      · exact Or.inr (Or.inr ⟨valueEqual_symm heq, hgt⟩)
    · exact Or.inr (Or.inl hgt)

end Order

/-- `secIndex` -/
structure SecIndex where
  name : Bytes
  kind : ValueKind
  max : Int64
  tree : Tree (secLess kind)
  deriving DecidableEq

/-- `newSecIndex` -/
def newSecIndex (d : IndexDef) : SecIndex := ⟨d.name, d.kind, d.maxPerValue, Tree.empty⟩

namespace SecIndex

/-- `makeEntry` -/
def makeEntry (si : SecIndex) (val : AnyValue) (pk : Bytes) : Except Err SecEntry :=
  match si.kind with
  | .number =>
      match toFloat val with
      | some f => .ok { f := f, pk := pk }
      | none => .error (.expectsNumber si.name)
  | .string =>
      match toStr val with
      | some s => .ok { s := s, pk := pk }
      | none => .error (.expectsString si.name)

/-- `count` -/
def count (si : SecIndex) : Nat := si.tree.len

/-- `at` -/
def entryAt (si : SecIndex) (i : Nat) : SecEntry := si.tree.items.getD i { pk := [] }

/-- `lowerBound` -/
def lowerBound (si : SecIndex) (e : SecEntry) : Nat :=
  search si.count fun i => !secLess si.kind (si.entryAt i) e

/-- `upperBoundValue` -/
def upperBoundValue (si : SecIndex) (e : SecEntry) : Nat :=
  search si.count fun i => valueGreater si.kind (si.entryAt i) e

/-- `insert` -/
def insert (si : SecIndex) (e : SecEntry) : SecIndex := { si with tree := si.tree.set e }

/-- `remove` -/
def remove (si : SecIndex) (e : SecEntry) : SecIndex := { si with tree := si.tree.delete e }

/-- `removePKs` -/
def removePKs (si : SecIndex) (pks : List Bytes) : SecIndex :=
  { si with tree := (si.tree.items.filter fun e => pks.contains e.pk).foldl Tree.delete si.tree }

theorem insert_name (si : SecIndex) (e : SecEntry) : (si.insert e).name = si.name := rfl

theorem remove_name (si : SecIndex) (e : SecEntry) : (si.remove e).name = si.name := rfl

theorem removePKs_name (pks : List Bytes) (si : SecIndex) : (si.removePKs pks).name = si.name := rfl

/-- The keys of the entries with the probe's value, ascending. -/
def group (si : SecIndex) (probe : SecEntry) : List Bytes :=
  ((si.tree.ascend probe).takeWhile fun e => valueEqual si.kind e probe).map SecEntry.pk

/-- `exact` -/
def exact (si : SecIndex) (val : AnyValue) (limit : Int64) : Except Err (List Bytes) := do
  let probe ← si.makeEntry val []
  let grp := si.group probe
  if limit = 0 then return grp
  else if 0 < limit then return grp.take limit.toInt.toNat
  -- the seek found no entry
  else if (si.tree.ascend probe).isEmpty then return []
  else
    let n := min (-limit).toInt grp.length
    -- the result slice is allocated with capacity `n`
    if n < 0 then throw .panic
    else return (grp.drop (grp.length - n.toNat)).reverse

/-- `exists` -/
def hasValue (si : SecIndex) (val : AnyValue) : Except Err Bool := do
  let probe ← si.makeEntry val []
  match si.tree.ascend probe with
  | [] => return false
  | e :: _ => return valueEqual si.kind e probe

/-- The loop of `prefix`, with the iterator at position `i`: it emits the part of a group that the
limit asks for and goes on at the next value.  The iterator ends up further along every time. -/
def prefixLoop (si : SecIndex) (p : Bytes) (limit : Int64) : Nat → Nat → List Bytes
  | 0, _ => []
  | fuel + 1, i =>
      if si.count ≤ i then []
      else
        let v := (si.entryAt i).s
        if !p.isPrefixOf v then []
        else
          let next := si.lowerBound { s := v ++ [0], pk := [] }
          if limit = 0 then
            let grp := (si.tree.items.drop i).takeWhile fun e => e.s = v
            grp.map SecEntry.pk ++ prefixLoop si p limit fuel (i + grp.length)
          else if 0 < limit then
            let grp := ((si.tree.items.drop i).takeWhile fun e => e.s = v).take limit.toInt.toNat
            let j := i + grp.length
            grp.map SecEntry.pk ++ prefixLoop si p limit fuel
              (if j < si.count ∧ (si.entryAt j).s = v then next else j)
          else
            let grp := ((si.tree.items.take next).reverse.takeWhile fun e => e.s = v).take
              (-limit).toInt.toNat
            grp.map SecEntry.pk ++ prefixLoop si p limit fuel next

/-- `prefix` -/
def prefixQuery (si : SecIndex) (p : Bytes) (limit : Int64) : Except Err (List Bytes) :=
  match si.kind with
  | .number => .error (.requiresString si.name)
  | .string => .ok (prefixLoop si p limit (si.count + 1) (si.lowerBound { s := p, pk := [] }))

/-- `rangeQuery` -/
def rangeQuery (si : SecIndex) (lo hi : AnyValue) : Except Err (List Bytes) := do
  let loE ← si.makeEntry lo []
  let hiE ← si.makeEntry hi []
  return ((si.tree.ascend loE).takeWhile fun e => !valueGreater si.kind e hiE).map SecEntry.pk

/-- `wouldSelfEvict` -/
def wouldSelfEvict (si : SecIndex) (val : AnyValue) (key : Bytes) : Except Err Bool := do
  if si.max ≤ 0 then return false
  let probe ← si.makeEntry val []
  let lo := si.lowerBound probe
  let hi := si.upperBoundValue probe
  let excess : Int := (hi : Int) - lo + 1 - si.max.toInt
  if excess ≤ 0 then return false
  let self ← si.makeEntry val key
  let i := si.lowerBound self
  if i < hi ∧ (si.entryAt i).pk = key then return false
  return decide (key ≤ (si.entryAt (lo + excess.toNat - 1)).pk)

/-! ## Entries -/

theorem makeEntry_ok {si : SecIndex} {val : AnyValue} {pk : Bytes} {e : SecEntry}
    (h : si.makeEntry val pk = .ok e) :
    e.pk = pk ∧ ∀ pk', si.makeEntry val pk' = .ok { e with pk := pk' } := by
  unfold makeEntry at h
  split at h
  · next hk =>
      split at h
      · next f hf =>
          cases h
          exact ⟨rfl, fun pk' => by simp [makeEntry, hk, hf]⟩
      · cases h
  · next hk =>
      split at h
      · next s hs =>
          cases h
          exact ⟨rfl, fun pk' => by simp [makeEntry, hk, hs]⟩
      · cases h

theorem makeEntry_pk {si : SecIndex} {val : AnyValue} {pk : Bytes} {e : SecEntry}
    (h : si.makeEntry val pk = .ok e) : e.pk = pk := (makeEntry_ok h).1

end SecIndex

/-! ## Numbers JSON can carry -/

theorem isNaN_of_isFinite {F : Format} {x : Float F} (h : x.isFinite = true) : x.isNaN = false := by
  exact decide_eq_false (not_lt.mpr (le_of_lt (of_decide_eq_true h)))

private theorem isNaN_ofRatio (F : Format) (neg : Bool) (num den : Nat) :
    (ofRatio F neg num den).isNaN = false :=
  decide_eq_false (not_lt.mpr (round_le_inf F num den))

/-- A number the encoder accepts is not NaN. -/
theorem toFloat_isNaN {v : AnyValue} {x : Float binary64} (henc : v.encode ≠ none)
    (h : toFloat v = some x) : x.isNaN = false := by
  cases v with
  | f64 y =>
      cases h
      apply isNaN_of_isFinite
      by_contra hfin
      exact henc (if_neg hfin)
  | f32 y =>
      cases h
      have hfin : y.isFinite = true := by
        by_contra hfin
        exact henc (if_neg hfin)
      rw [convert, if_neg (by simp [isNaN_of_isFinite hfin]), if_pos hfin]
      exact isNaN_ofRatio _ _ _ _
  | int i =>
      cases h
      exact isNaN_ofRatio _ _ _ _
  | number lit _ => exact isNaN_of_isFinite (isFinite_of_parseFloat h)
  | null => cases h
  | bool b => cases h
  | str s => cases h
  | compound j => cases h

theorem SecIndex.nanFree_makeEntry {si : SecIndex} {val : AnyValue} {pk : Bytes} {e : SecEntry}
    (henc : val.encode ≠ none) (h : si.makeEntry val pk = .ok e) : e.NaNFree si.kind := by
  intro hk
  simp only [makeEntry, hk] at h
  split at h
  · next f hf =>
      cases h
      exact toFloat_isNaN henc hf
  · cases h

end NteeDb.Core
