import NteeDb.Verified.BinaryFloat
import NteeDb.Verified.Base64
import NteeDb.Verified.OrderedTree

/-!
# Typed values out of JSON trees

Decoding reads a tree *into* a value that is already there: an absent member or
a `null` leaves a scalar as it was, an object merges into a struct, and one
member of a wrong type fails the whole.  A struct is a list of named fields; a
member goes to the field with its exact name, else to one that differs only in
letter case, else it is skipped.

A value of no declared type is an `AnyValue`: what the decoder makes of a tree,
plus the machine numbers a caller may hand to the encoder.

## Main results

* `unmarshal_print` — decoding a written object reads its members in order.
* `AnyMap.decode_encode` — a map of scalars reads back as `AnyMap.readBack`.
-/

namespace NteeDb.Verified.Json

deriving instance DecidableEq for Value, Elems, Members

end NteeDb.Verified.Json

namespace NteeDb.Verified.JsonCodec

open NteeDb.Verified.Json
open NteeDb.Verified.Decimal
open NteeDb.Verified.BinaryFloat
open NteeDb.Verified.OrderedTree

/-! ## Dynamically typed values -/

/-- A dynamically typed value.  Arrays and objects are kept as the tree they are
written back as. -/
inductive AnyValue where
  | null
  | bool (b : Bool)
  | str (s : Bytes)
  | f64 (x : Float binary64)
  | f32 (x : Float binary32)
  | int (i : Int64)
  | number (lit : Bytes) (h : isNumber lit = true)
  | compound (j : Value)
  deriving DecidableEq

/-- Members of an object as a map: sorted by name, a later one replaces an
earlier one. -/
def sortMembers (ms : List (Bytes × Value)) : Members :=
  Members.ofList (Tree.setAll (Tree.empty : OrderedTree.Tree (keyLess Prod.fst)) ms).items

mutual

/-- The tree a decoded tree is written back as: numbers pass through binary64,
objects through a map. -/
def rewrite : Value → Option Value
  | .num lit => (parseFloat binary64 lit).map fun x => .num (formatFloat binary64 x)
  | .arr xs => (rewriteElems xs).map .arr
  | .obj ms => (rewriteMembers ms).map fun l => .obj (sortMembers l)
  | j => some j

/-- Elements written back. -/
def rewriteElems : Elems → Option Elems
  | .nil => some .nil
  | .cons x xs => do
      let x ← rewrite x
      let xs ← rewriteElems xs
      return .cons x xs

/-- Members written back. -/
def rewriteMembers : Members → Option (List (Bytes × Value))
  | .nil => some []
  | .cons name x ms => do
      let x ← rewrite x
      let ms ← rewriteMembers ms
      return (name, x) :: ms

end

/-- Decode a tree of no declared type; `none` when a number is out of range. -/
def AnyValue.decode : Value → Option AnyValue
  | .null => some .null
  | .bool b => some (.bool b)
  | .str s => some (.str s)
  | .num lit => (parseFloat binary64 lit).map .f64
  | j => (rewrite j).map .compound

/-- Encode a value; `none` for a float that is not finite. -/
def AnyValue.encode : AnyValue → Option Value
  | .null => some .null
  | .bool b => some (.bool b)
  | .str s => some (.str s)
  | .f64 x => if x.isFinite then some (.num (formatFloat binary64 x)) else none
  | .f32 x => if x.isFinite then some (.num (formatFloat binary32 x)) else none
  | .int i => some (.num (intDigits i.toInt))
  | .number lit _ => some (.num lit)
  | .compound j => some j

/-! ## Maps -/

/-- A string-keyed map of dynamically typed values. -/
abbrev AnyMap := Tree (keyLess (Prod.fst : Bytes × AnyValue → Bytes))

instance AnyMap.strictComparator :
    StrictComparator (keyLess (Prod.fst : Bytes × AnyValue → Bytes)) :=
  inferInstance

/-- The value under a name. -/
def AnyMap.get (m : AnyMap) (name : Bytes) : Option AnyValue :=
  (m.get? (name, .null)).map Prod.snd

/-- Encode every member of a map, in name order. -/
def encodeMembers : List (Bytes × AnyValue) → Option (List (Bytes × Value))
  | [] => some []
  | (name, v) :: rest => do
      let j ← v.encode
      let js ← encodeMembers rest
      return (name, j) :: js

/-- Decode members into a map. -/
def decodeMembers : List (Bytes × Value) → AnyMap → Option AnyMap
  | [], m => some m
  | (name, j) :: rest, m => do
      let v ← AnyValue.decode j
      decodeMembers rest (m.set (name, v))

/-- `omitempty`: a member that is left out when its value is the zero value. -/
def omitEmpty (empty : Bool) (m : Bytes × Value) : List (Bytes × Value) :=
  if empty then [] else [m]

/-! ## Decoding into a typed place -/

/-- A string field. -/
def readStr : Value → Bytes → Option Bytes
  | .null, old => some old
  | .str s, _ => some s
  | _, _ => none

/-- A Boolean field. -/
def readBool : Value → Bool → Option Bool
  | .null, old => some old
  | .bool b, _ => some b
  | _, _ => none

/-- An integer literal in range. -/
def intIn (lo hi : Int) (lit : Bytes) : Option Int :=
  (parseInt lit).bind fun i => if lo ≤ i ∧ i < hi then some i else none

/-- A 64-bit integer field. -/
def readInt64 : Value → Int64 → Option Int64
  | .null, old => some old
  | .num lit, _ => (intIn (-2 ^ 63) (2 ^ 63) lit).map Int64.ofInt
  | _, _ => none

/-- A 32-bit integer field. -/
def readInt32 : Value → Int32 → Option Int32
  | .null, old => some old
  | .num lit, _ => (intIn (-2 ^ 31) (2 ^ 31) lit).map Int32.ofInt
  | _, _ => none

/-- A byte of an array of numbers; a `null` leaves the byte already there. -/
def readByte : Value → UInt8 → Option UInt8
  | .null, old => some old
  | .num lit, _ =>
      if (scanSign lit).1 = [] then (intIn 0 256 lit).map fun i => UInt8.ofNat i.toNat else none
  | _, _ => none

/-- The elements of an array of numbers, over the bytes already there. -/
def readByteElems : Elems → Bytes → Option Bytes
  | .nil, _ => some []
  | .cons x xs, old => do
      let b ← readByte x (old.headD 0)
      let bs ← readByteElems xs old.tail
      return b :: bs

/-- A byte-slice field: base64 text or an array of numbers. -/
def readBytes : Value → Bytes → Option Bytes
  | .null, _ => some []
  | .str s, _ => Base64.decode s
  | .arr xs, old => readByteElems xs old
  | _, _ => none

/-- A map field. -/
def readMap : Value → AnyMap → Option AnyMap
  | .null, _ => some Tree.empty
  | .obj ms, old => decodeMembers ms.toList old
  | _, _ => none

/-- A pointer field: `null` clears it, anything else is read into what it points
to, allocated when there is nothing. -/
def readPtr {α : Type} (zero : α) (inner : Value → α → Option α) : Value → Option α →
    Option (Option α)
  | .null, _ => some none
  | j, old => (inner j (old.getD zero)).map some

/-! ## Structs -/

/-- A name with letter case folded away.  Two non-ASCII letters fold onto ASCII
ones: the Kelvin sign and the long s. -/
def foldName : Bytes → Bytes
  | 0xE2 :: 0x84 :: 0xAA :: rest => 0x6B :: foldName rest
  | 0xC5 :: 0xBF :: rest => 0x73 :: foldName rest
  | b :: rest => (if 0x41 ≤ b && b ≤ 0x5A then b + 0x20 else b) :: foldName rest
  | [] => []

/-- A struct field: its name and how a tree is read into it. -/
structure StructField (σ : Type) where
  name : Bytes
  read : Value → σ → Option σ

/-- The field a member belongs to. -/
def findField {σ : Type} (fields : List (StructField σ)) (name : Bytes) : Option (StructField σ) :=
  match fields.find? fun f => f.name = name with
  | some f => some f
  | none => fields.find? fun f => foldName f.name = foldName name

/-- Read one member. -/
def readMember {σ : Type} (fields : List (StructField σ)) (s : σ) (m : Bytes × Value) : Option σ :=
  match findField fields m.1 with
  | some f => f.read m.2 s
  | none => some s

/-- Read members in text order. -/
def readMembers {σ : Type} (fields : List (StructField σ)) : List (Bytes × Value) → σ → Option σ
  | [], s => some s
  | m :: rest, s => (readMember fields s m).bind (readMembers fields rest)

/-- Read a tree into a struct. -/
def readStruct {σ : Type} (fields : List (StructField σ)) : Value → σ → Option σ
  | .null, s => some s
  | .obj ms, s => readMembers fields ms.toList s
  | _, _ => none

/-- Nesting the decoder accepts. -/
def maxDepth : Nat := 10000

/-- Decode a text into a zero struct. -/
def unmarshal {σ : Type} (fields : List (StructField σ)) (zero : σ) (text : Bytes) : Option σ :=
  (parse maxDepth text).bind fun j => readStruct fields j zero

/-! ## What decoding yields -/

/-- What every field's reader keeps holds of a decoded struct. -/
theorem unmarshal_invariant {σ : Type} {fields : List (StructField σ)} {zero s : σ} {text : Bytes}
    {P : σ → Prop} (hzero : P zero)
    (hread : ∀ f ∈ fields, ∀ j t t', f.read j t = some t' → P t → P t')
    (h : unmarshal fields zero text = some s) : P s := by
  have hmember : ∀ m t t', readMember fields t m = some t' → P t → P t' := by
    intro m t t' hm ht
    rw [readMember] at hm
    split at hm
    · next f hf =>
        refine hread f ?_ m.2 t t' hm ht
        rw [findField] at hf
        split at hf
        · next g hg =>
            cases hf
            exact List.mem_of_find?_eq_some hg
        · exact List.mem_of_find?_eq_some hf
    · cases hm
      exact ht
  have hmembers : ∀ ms t t', readMembers fields ms t = some t' → P t → P t' := by
    intro ms
    induction ms with
    | nil =>
        intro t t' hms ht
        cases hms
        exact ht
    | cons m ms ih =>
        intro t t' hms ht
        obtain ⟨u, hu, hms⟩ := Option.bind_eq_some_iff.mp hms
        exact ih u t' hms (hmember m t u hu ht)
  obtain ⟨j, _, hj⟩ := Option.bind_eq_some_iff.mp h
  cases j with
  | null =>
      cases hj
      exact hzero
  | obj ms => exact hmembers ms.toList zero s hj hzero
  | bool b => cases hj
  | str b => cases hj
  | num b => cases hj
  | arr xs => cases hj

/-- A decoded value can be encoded. -/
theorem AnyValue.encode_of_decode {j : Value} {v : AnyValue} (h : AnyValue.decode j = some v) :
    v.encode ≠ none := by
  cases j with
  | null => cases h; simp [AnyValue.encode]
  | bool b => cases h; simp [AnyValue.encode]
  | str s => cases h; simp [AnyValue.encode]
  | num lit =>
      obtain ⟨x, hx, rfl⟩ := Option.map_eq_some_iff.mp h
      simp [AnyValue.encode, isFinite_of_parseFloat hx]
  | arr xs =>
      obtain ⟨x, _, rfl⟩ := Option.map_eq_some_iff.mp h
      simp [AnyValue.encode]
  | obj ms =>
      obtain ⟨x, _, rfl⟩ := Option.map_eq_some_iff.mp h
      simp [AnyValue.encode]

/-- Every value of the map can be written as JSON. -/
def AnyMap.Encodable (m : AnyMap) : Prop := ∀ nv ∈ m, nv.2.encode ≠ none

theorem AnyMap.encodable_empty : AnyMap.Encodable Tree.empty :=
  fun nv h => absurd h (Tree.not_mem_empty nv)

theorem AnyMap.Encodable.set {m : AnyMap} (h : AnyMap.Encodable m) {nv : Bytes × AnyValue}
    (hnv : nv.2.encode ≠ none) : AnyMap.Encodable (m.set nv) := by
  intro x hx
  rcases Tree.mem_set_key.mp hx with rfl | ⟨hx, _⟩
  · exact hnv
  · exact h x hx

theorem AnyMap.encodable_of_encodeMembers {m : AnyMap} {js : List (Bytes × Value)}
    (h : encodeMembers m.items = some js) : AnyMap.Encodable m := by
  have hall : ∀ (items : List (Bytes × AnyValue)) js, encodeMembers items = some js →
      ∀ nv ∈ items, nv.2.encode ≠ none := by
    intro items
    induction items with
    | nil => simp
    | cons nv items ih =>
        intro js hjs
        obtain ⟨j, hj, hjs⟩ := Option.bind_eq_some_iff.mp hjs
        obtain ⟨js', hjs', _⟩ := Option.bind_eq_some_iff.mp hjs
        rw [List.forall_mem_cons]
        refine ⟨?_, ih js' hjs'⟩
        rw [hj]
        simp
  exact hall m.items js h

theorem AnyMap.encodable_readMap {j : Value} {m m' : AnyMap} (h : readMap j m = some m')
    (hm : AnyMap.Encodable m) : AnyMap.Encodable m' := by
  have hall : ∀ (ms : List (Bytes × Value)) (m m' : AnyMap), decodeMembers ms m = some m' →
      AnyMap.Encodable m → AnyMap.Encodable m' := by
    intro ms
    induction ms with
    | nil =>
        intro m m' hms hm
        cases hms
        exact hm
    | cons nj ms ih =>
        intro m m' hms hm
        obtain ⟨v, hv, hms⟩ := Option.bind_eq_some_iff.mp hms
        exact ih _ m' hms (hm.set (AnyValue.encode_of_decode hv))
  cases j with
  | null =>
      cases h
      exact AnyMap.encodable_empty
  | obj ms => exact hall ms.toList m m' h hm
  | bool b => cases h
  | str b => cases h
  | num b => cases h
  | arr xs => cases h

/-! ## Reading back what was written -/

/-- A member as the reader returns it. -/
def sanitizeMember (m : Bytes × Value) : Bytes × Value := (Utf8.sanitize m.1, m.2.sanitize)

theorem sanitize_ofList (ms : List (Bytes × Value)) :
    (Members.ofList ms).sanitize = Members.ofList (ms.map sanitizeMember) := by
  induction ms with
  | nil => rfl
  | cons m ms ih => simp [Members.ofList, Members.sanitize, sanitizeMember, ih]

theorem wf_ofList {ms : List (Bytes × Value)} :
    (Members.ofList ms).WF ↔ ∀ m ∈ ms, m.2.WF := by
  induction ms with
  | nil => simp [Members.ofList, Members.WF]
  | cons m ms ih => simp [Members.ofList, Members.WF, ih]

theorem depth_ofList_le {ms : List (Bytes × Value)} {d : Nat} :
    (Members.ofList ms).depth ≤ d ↔ ∀ m ∈ ms, m.2.depth ≤ d := by
  induction ms with
  | nil => simp [Members.ofList, Members.depth]
  | cons m ms ih => simp [Members.ofList, Members.depth, ih]

theorem readMembers_append {σ : Type} (fields : List (StructField σ)) (xs ys : List (Bytes × Value))
    (s : σ) :
    readMembers fields (xs ++ ys) s = (readMembers fields xs s).bind (readMembers fields ys) := by
  induction xs generalizing s with
  | nil => rfl
  | cons m xs ih =>
      rw [List.cons_append, readMembers, readMembers, Option.bind_assoc]
      exact congrArg _ (funext ih)

theorem forall_mem_omitEmpty {p : Bytes × Value → Prop} {empty : Bool} {m : Bytes × Value}
    (h : p m) : ∀ x ∈ omitEmpty empty m, p x := by
  cases empty with
  | true => simp [omitEmpty]
  | false => simpa [omitEmpty] using h

theorem readMembers_omitEmpty {σ : Type} (fields : List (StructField σ)) (empty : Bool)
    (m : Bytes × Value) (s : σ) :
    readMembers fields ((omitEmpty empty m).map sanitizeMember) s
      = if empty then some s else readMember fields s (sanitizeMember m) := by
  cases empty with
  | true => rfl
  | false => simp [omitEmpty, readMembers]

/-- **Struct round trip.**  Decoding a written object reads its members in order,
with strings and names sanitized. -/
theorem unmarshal_print {σ : Type} (fields : List (StructField σ)) (zero : σ)
    {ms : List (Bytes × Value)} (hwf : ∀ m ∈ ms, m.2.WF) (hd : ∀ m ∈ ms, m.2.depth < maxDepth) :
    unmarshal fields zero (print (.obj (Members.ofList ms)))
      = readMembers fields (ms.map sanitizeMember) zero := by
  have hdepth : (Members.ofList ms).depth ≤ maxDepth - 1 :=
    depth_ofList_le.mpr fun m hm => Nat.le_sub_one_of_lt (hd m hm)
  have hparse : parse maxDepth (print (.obj (Members.ofList ms)))
      = some (Value.obj (Members.ofList ms)).sanitize := by
    apply parse_print
    · exact wf_ofList.mpr hwf
    rw [Value.depth]
    exact Nat.add_le_of_le_sub (by decide) hdepth
  rw [unmarshal, hparse, Option.bind_some, Value.sanitize, sanitize_ofList, readStruct,
    Members.toList_ofList]

@[simp] theorem readInt64_intDigits (i old : Int64) :
    readInt64 (.num (intDigits i.toInt)) old = some i := by
  have hin : intIn (-2 ^ 63) (2 ^ 63) (intDigits i.toInt) = some i.toInt := by
    rw [intIn, parseInt_intDigits, Option.bind_some, if_pos ⟨i.le_toInt, i.toInt_lt⟩]
  rw [readInt64, hin, Option.map_some, Int64.ofInt_toInt]

@[simp] theorem readInt32_intDigits (i old : Int32) :
    readInt32 (.num (intDigits i.toInt)) old = some i := by
  have hin : intIn (-2 ^ 31) (2 ^ 31) (intDigits i.toInt) = some i.toInt := by
    rw [intIn, parseInt_intDigits, Option.bind_some, if_pos ⟨i.le_toInt, i.toInt_lt⟩]
  rw [readInt32, hin, Option.map_some, Int32.ofInt_toInt]

/-! ## Scalars an index can hold -/

/-- A string, or a number the encoder writes and the decoder can read. -/
def AnyValue.Scalar : AnyValue → Prop
  | .str _ => True
  | .f64 x => x.isFinite = true
  | .f32 x => x.isFinite = true
  | .int _ => True
  | .number lit _ => (parseFloat binary64 lit).isSome = true
  | _ => False

instance : DecidablePred AnyValue.Scalar
  | .str _ => .isTrue trivial
  | .f64 x => inferInstanceAs (Decidable (x.isFinite = true))
  | .f32 x => inferInstanceAs (Decidable (x.isFinite = true))
  | .int _ => .isTrue trivial
  | .number lit _ => inferInstanceAs (Decidable ((parseFloat binary64 lit).isSome = true))
  | .null => .isFalse not_false
  | .bool _ => .isFalse not_false
  | .compound _ => .isFalse not_false

/-- What a scalar is after it has been written and read. -/
def AnyValue.readBack : AnyValue → AnyValue
  | .str s => .str (Utf8.sanitize s)
  | .f32 x => ((parseFloat binary64 (formatFloat binary32 x)).map .f64).getD (.f32 x)
  | .int i => .f64 (ofInt binary64 i.toInt)
  | .number lit h => ((parseFloat binary64 lit).map .f64).getD (.number lit h)
  | v => v

theorem isFinite_ofInt64 (i : Int64) : (ofInt binary64 i.toInt).isFinite = true := by
  have hlo := i.le_toInt
  have hhi := i.toInt_lt
  exact isFinite_ofInt (show i.toInt.natAbs < 2 ^ 64 by omega) (by decide) (by decide)

theorem parseFloat_formatFloat32 {x : Float binary32} (h : x.isFinite = true) :
    ∃ y, parseFloat binary64 (formatFloat binary32 x) = some y :=
  parseFloat_wider (by decide) (by decide) (by decide) (by decide)
    (parseFloat_formatFloat (by decide) x h).2

/-- **Scalar round trip.**  A scalar is written as a leaf of the tree, and reading
it gives `readBack`. -/
theorem AnyValue.decode_encode {v : AnyValue} (h : v.Scalar) :
    ∃ j, v.encode = some j ∧ j.WF ∧ j.depth = 0 ∧ AnyValue.decode j.sanitize = some v.readBack := by
  cases v with
  | null => exact h.elim
  | bool b => exact h.elim
  | compound j => exact h.elim
  | str s => exact ⟨.str s, rfl, trivial, rfl, rfl⟩
  | f64 x =>
      obtain ⟨hnum, hparse⟩ := parseFloat_formatFloat (by decide) x h
      refine ⟨.num (formatFloat binary64 x), if_pos h, hnum, rfl, ?_⟩
      simp only [Value.sanitize, AnyValue.decode, hparse, Option.map_some, readBack]
  | f32 x =>
      obtain ⟨y, hy⟩ := parseFloat_formatFloat32 h
      refine ⟨.num (formatFloat binary32 x), if_pos h,
        (parseFloat_formatFloat (by decide) x h).1, rfl, ?_⟩
      simp only [Value.sanitize, AnyValue.decode, hy, Option.map_some, readBack, Option.getD_some]
  | int i =>
      refine ⟨.num (intDigits i.toInt), rfl, isNumber_intDigits _, rfl, ?_⟩
      simp only [Value.sanitize, AnyValue.decode, parseFloat_intDigits _ (isFinite_ofInt64 i),
        Option.map_some, readBack]
  | number lit hlit =>
      obtain ⟨y, hy⟩ := Option.isSome_iff_exists.mp h
      refine ⟨.num lit, rfl, hlit, rfl, ?_⟩
      simp only [Value.sanitize, AnyValue.decode, hy, Option.map_some, readBack, Option.getD_some]

/-- What was read is a sanitized string or a finite binary64. -/
theorem AnyValue.readBack_cases {v : AnyValue} (h : v.Scalar) :
    (∃ s, v.readBack = .str (Utf8.sanitize s)) ∨
      ∃ x, v.readBack = .f64 x ∧ x.isFinite = true := by
  cases v with
  | null => exact h.elim
  | bool b => exact h.elim
  | compound j => exact h.elim
  | str s => exact Or.inl ⟨s, rfl⟩
  | f64 x => exact Or.inr ⟨x, rfl, h⟩
  | f32 x =>
      obtain ⟨y, hy⟩ := parseFloat_formatFloat32 h
      exact Or.inr ⟨y, by simp [readBack, hy], isFinite_of_parseFloat hy⟩
  | int i => exact Or.inr ⟨_, rfl, isFinite_ofInt64 i⟩
  | number lit hlit =>
      obtain ⟨y, hy⟩ := Option.isSome_iff_exists.mp h
      exact Or.inr ⟨y, by simp [readBack, hy], isFinite_of_parseFloat hy⟩

theorem AnyValue.scalar_readBack {v : AnyValue} (h : v.Scalar) : v.readBack.Scalar := by
  rcases readBack_cases h with ⟨s, hs⟩ | ⟨x, hx, hfin⟩
  · rw [hs]
    trivial
  · rw [hx]
    exact hfin

/-- Reading back twice is reading back once. -/
theorem AnyValue.readBack_readBack {v : AnyValue} (h : v.Scalar) :
    v.readBack.readBack = v.readBack := by
  rcases readBack_cases h with ⟨s, hs⟩ | ⟨x, hx, _⟩
  · rw [hs, readBack, Utf8.sanitize_sanitize]
  · rw [hx]
    rfl

/-! ## Maps of scalars -/

/-- Every value of the map is a scalar. -/
def AnyMap.Scalar (m : AnyMap) : Prop := ∀ nv ∈ m, nv.2.Scalar

/-- What a member is after it has been written and read. -/
def readBackMember (nv : Bytes × AnyValue) : Bytes × AnyValue :=
  (Utf8.sanitize nv.1, nv.2.readBack)

/-- What a map is after it has been written and read: names that differ only in
bytes the encoder replaces collapse, the last one in order winning. -/
def AnyMap.readBack (m : AnyMap) : AnyMap := Tree.setAll Tree.empty (m.items.map readBackMember)

private theorem decodeMembers_encodeMembers {items : List (Bytes × AnyValue)}
    (h : ∀ nv ∈ items, nv.2.Scalar) :
    ∃ js, encodeMembers items = some js ∧ (∀ j ∈ js, j.2.WF ∧ j.2.depth = 0) ∧
      ∀ m, decodeMembers (js.map sanitizeMember) m
        = some (Tree.setAll m (items.map readBackMember)) := by
  induction items with
  | nil => exact ⟨[], rfl, by simp, fun m => rfl⟩
  | cons nv rest ih =>
      obtain ⟨name, v⟩ := nv
      rw [List.forall_mem_cons] at h
      obtain ⟨j, henc, hwf, hdepth, hdec⟩ := AnyValue.decode_encode h.1
      obtain ⟨js, hencs, hwfs, hdecs⟩ := ih h.2
      refine ⟨(name, j) :: js, ?_, ?_, ?_⟩
      · simp [encodeMembers, henc, hencs]
      · rw [List.forall_mem_cons]
        exact ⟨⟨hwf, hdepth⟩, hwfs⟩
      · intro m
        simp only [List.map_cons, sanitizeMember, decodeMembers, hdec, Option.bind_eq_bind,
          Option.bind_some]
        exact hdecs _

/-- **Map round trip.** -/
theorem AnyMap.decode_encode {m : AnyMap} (h : m.Scalar) :
    ∃ js, encodeMembers m.items = some js ∧ (∀ j ∈ js, j.2.WF ∧ j.2.depth = 0) ∧
      decodeMembers (js.map sanitizeMember) Tree.empty = some m.readBack := by
  obtain ⟨js, henc, hwf, hdec⟩ := decodeMembers_encodeMembers h
  exact ⟨js, henc, hwf, hdec _⟩

theorem AnyMap.mem_readBack {m : AnyMap} {nv : Bytes × AnyValue} (h : nv ∈ m.readBack) :
    ∃ src ∈ m, nv = readBackMember src := by
  rcases Tree.mem_of_mem_setAll h with h | h
  · obtain ⟨src, hsrc, rfl⟩ := List.mem_map.mp h
    exact ⟨src, hsrc, rfl⟩
  · exact absurd h (Tree.not_mem_empty _)

theorem AnyMap.get_eq_some {m : AnyMap} {name : Bytes} {v : AnyValue} :
    m.get name = some v ↔ (name, v) ∈ m := by
  simp only [AnyMap.get, Option.map_eq_some_iff, Tree.get?_eq_some]
  constructor
  · rintro ⟨nv, ⟨hmem, rfl⟩, rfl⟩
    exact hmem
  · intro h
    exact ⟨(name, v), ⟨h, rfl⟩, rfl⟩

theorem AnyMap.get_set (m : AnyMap) (name name' : Bytes) (v : AnyValue) :
    AnyMap.get (m.set (name, v)) name' = if name' = name then some v else m.get name' := by
  rw [AnyMap.get, AnyMap.get, Tree.get?_set]
  split
  · rfl
  · rfl

/-- With valid names nothing collapses, and every value is read back. -/
theorem AnyMap.get_readBack {m : AnyMap} (h : ∀ nv ∈ m, Utf8.valid nv.1 = true) (name : Bytes) :
    m.readBack.get name = (m.get name).map AnyValue.readBack := by
  have hmap : m.items.map readBackMember = m.items.map fun nv => (nv.1, nv.2.readBack) :=
    List.map_congr_left fun nv hnv => by rw [readBackMember, Utf8.sanitize_eq_self (h nv hnv)]
  have hmem : ∀ w, (name, w) ∈ m.readBack ↔ ∃ v, (name, v) ∈ m ∧ v.readBack = w := by
    intro w
    rw [readBack, hmap, Tree.mem_setAll_key]
    · simp [Tree.mem_def, Tree.empty]
    · exact List.pairwise_map.mpr m.keys_ne
  apply Option.ext
  intro w
  rw [Option.map_eq_some_iff, AnyMap.get_eq_some, hmem]
  simp only [AnyMap.get_eq_some]

/-- A map that the encoder does not change reads back as itself. -/
theorem AnyMap.readBack_eq_self {m : AnyMap} (h : ∀ nv ∈ m, readBackMember nv = nv) :
    m.readBack = m := by
  have hmap : m.items.map readBackMember = m.items := by
    nth_rewrite 2 [← List.map_id m.items]
    exact List.map_congr_left h
  rw [readBack, hmap, Tree.setAll_items]

end NteeDb.Verified.JsonCodec
