import NteeDb.Verified.JsonCodec

/-!
# One line of the main log

`record.go`: the record a main-log line holds and its JSON form.  In memory the
value is always `value`; `text` exists only across `marshalRecord` and
`unmarshalRecord`, which move a value that is valid UTF-8 to a readable string
and any other to base64.

## Main results

* `unmarshal_marshal` — every record over scalar index values is written as one
  line without control bytes, and reads back with its key and its index names
  and strings sanitized and its index numbers as binary64.
-/

namespace NteeDb.Core

open NteeDb.Verified
open Json Decimal BinaryFloat OrderedTree JsonCodec

/-- `blobRef`: where a value lies in a blob file, and in which generation. -/
structure BlobRef where
  off : Int64
  size : Int32
  gen : Int64
  deriving DecidableEq

/-- `record`: one line of the main log. -/
structure Record where
  key : Bytes
  text : Bytes := []
  value : Bytes := []
  blob : Option BlobRef := none
  deleted : Bool := false
  ix : AnyMap := Tree.empty
  counter : Bool := false
  exp : Int64 := 0
  deriving DecidableEq

/-- `isTombstone` -/
def Record.isTombstone (r : Record) : Bool := r.deleted

/-! ## JSON names -/

/-- `"k"` -/
def kName : Bytes := [0x6B]
/-- `"s"` -/
def sName : Bytes := [0x73]
/-- `"v"` -/
def vName : Bytes := [0x76]
/-- `"b"` -/
def bName : Bytes := [0x62]
/-- `"del"` -/
def delName : Bytes := [0x64, 0x65, 0x6C]
/-- `"ix"` -/
def ixName : Bytes := [0x69, 0x78]
/-- `"c"` -/
def cName : Bytes := [0x63]
/-- `"exp"` -/
def expName : Bytes := [0x65, 0x78, 0x70]
/-- `"o"` -/
def oName : Bytes := [0x6F]
/-- `"n"` -/
def nName : Bytes := [0x6E]
/-- `"g"` -/
def gName : Bytes := [0x67]

/-! ## Encoding -/

/-- The members of a blob reference. -/
def BlobRef.members (b : BlobRef) : List (Bytes × Value) :=
  (oName, .num (intDigits b.off.toInt)) :: (nName, .num (intDigits b.size.toInt)) ::
    omitEmpty (b.gen = 0) (gName, .num (intDigits b.gen.toInt))

/-- The member of a record's blob reference, if it has one. -/
def blobMembers : Option BlobRef → List (Bytes × Value)
  | none => []
  | some b => [(bName, .obj (Members.ofList b.members))]

/-- The members of a record whose index values are already encoded. -/
def Record.members (r : Record) (ix : List (Bytes × Value)) : List (Bytes × Value) :=
  [(kName, .str r.key)] ++ (omitEmpty (r.text = []) (sName, .str r.text) ++
    (omitEmpty (r.value = []) (vName, .str (Base64.encode r.value)) ++
    (blobMembers r.blob ++ (omitEmpty (!r.deleted) (delName, .bool r.deleted) ++
    (omitEmpty (r.ix.items = []) (ixName, .obj (Members.ofList ix)) ++
    (omitEmpty (!r.counter) (cName, .bool r.counter) ++
    omitEmpty (r.exp = 0) (expName, .num (intDigits r.exp.toInt))))))))

/-- `json.Marshal` of a record; `none` when an index value is not finite. -/
def Record.marshal (r : Record) : Option Bytes :=
  (encodeMembers r.ix.items).map fun ix => print (.obj (Members.ofList (r.members ix)))

/-- Move a value that is valid UTF-8 to the readable field. -/
def Record.toWire (r : Record) : Record :=
  if r.value ≠ [] ∧ Utf8.valid r.value then { r with text := r.value, value := [] } else r

/-- `marshalRecord` -/
def marshalRecord (r : Record) : Option Bytes := r.toWire.marshal

/-! ## Decoding -/

/-- The fields of a blob reference. -/
def blobFields : List (StructField BlobRef) :=
  [⟨oName, fun j b => (readInt64 j b.off).map fun x => { b with off := x }⟩,
   ⟨nName, fun j b => (readInt32 j b.size).map fun x => { b with size := x }⟩,
   ⟨gName, fun j b => (readInt64 j b.gen).map fun x => { b with gen := x }⟩]

/-- The fields of a record. -/
def recordFields : List (StructField Record) :=
  [⟨kName, fun j r => (readStr j r.key).map fun x => { r with key := x }⟩,
   ⟨sName, fun j r => (readStr j r.text).map fun x => { r with text := x }⟩,
   ⟨vName, fun j r => (readBytes j r.value).map fun x => { r with value := x }⟩,
   ⟨bName, fun j r =>
      (readPtr ⟨0, 0, 0⟩ (readStruct blobFields) j r.blob).map fun x => { r with blob := x }⟩,
   ⟨delName, fun j r => (readBool j r.deleted).map fun x => { r with deleted := x }⟩,
   ⟨ixName, fun j r => (readMap j r.ix).map fun x => { r with ix := x }⟩,
   ⟨cName, fun j r => (readBool j r.counter).map fun x => { r with counter := x }⟩,
   ⟨expName, fun j r => (readInt64 j r.exp).map fun x => { r with exp := x }⟩]

/-- The zero record. -/
def zeroRecord : Record := { key := [] }

/-- Move a readable value back to the canonical field. -/
def Record.ofWire (r : Record) : Record :=
  if r.text ≠ [] then { r with value := r.text, text := [] } else r

/-- `unmarshalRecord` -/
def unmarshalRecord (line : Bytes) : Option Record :=
  (unmarshal recordFields zeroRecord line).map Record.ofWire

/-! ## Round trip -/

/-- The record a line written for `r` decodes to. -/
def Record.readBack (r : Record) : Record :=
  { r with key := Utf8.sanitize r.key, ix := r.ix.readBack }

/-- The index values of a line are read into a struct that has none yet. -/
theorem readMembers_ix {σ : Type} {fields : List (StructField σ)} {s : σ} (put : AnyMap → σ)
    {ix : AnyMap} {js : List (Bytes × Value)} (hs : put Tree.empty = s)
    (hread : readMember fields s (sanitizeMember (ixName, .obj (Members.ofList js)))
      = (decodeMembers (Members.ofList js).sanitize.toList Tree.empty).map put)
    (hdec : decodeMembers (js.map sanitizeMember) Tree.empty = some ix.readBack) :
    readMembers fields ((omitEmpty (ix.items = []) (ixName, .obj (Members.ofList js))).map
      sanitizeMember) s = some (put ix.readBack) := by
  rw [readMembers_omitEmpty]
  split
  · next h =>
      have hnil : ix.items = [] := of_decide_eq_true h
      have hback : ix.readBack = Tree.empty := by
        rw [AnyMap.readBack, hnil]
        rfl
      rw [hback, hs]
  · rw [hread, sanitize_ofList, Members.toList_ofList, hdec, Option.map_some]

section Segments

/-! Each segment of the member list, read on its own, sets its field. -/

variable (s : Record)

private theorem read_k (key : Bytes) :
    readMembers recordFields ([(kName, Value.str key)].map sanitizeMember) s
      = some { s with key := Utf8.sanitize key } := rfl

private theorem read_s {t : Bytes} (hs : s.text = []) (ht : Utf8.valid t = true) :
    readMembers recordFields ((omitEmpty (t = []) (sName, .str t)).map sanitizeMember) s
      = some { s with text := t } := by
  rw [readMembers_omitEmpty]
  split
  · next h => rw [of_decide_eq_true h, ← hs]
  · exact congrArg (fun x => some { s with text := x }) (Utf8.sanitize_eq_self ht)

private theorem read_v {v : Bytes} (hs : s.value = []) :
    readMembers recordFields ((omitEmpty (v = []) (vName, .str (Base64.encode v))).map
      sanitizeMember) s = some { s with value := v } := by
  rw [readMembers_omitEmpty]
  split
  · next h => rw [of_decide_eq_true h, ← hs]
  · have hascii : Utf8.sanitize (Base64.encode v) = Base64.encode v :=
      Utf8.sanitize_eq_self (Utf8.valid_of_ascii fun b hb => (Base64.encode_printable v b hb).2)
    have hread : readMember recordFields s (sanitizeMember (vName, .str (Base64.encode v)))
        = (Base64.decode (Utf8.sanitize (Base64.encode v))).map fun x => { s with value := x } :=
      rfl
    rw [hread, hascii, Base64.decode_encode, Option.map_some]

private theorem read_blobRef (b : BlobRef) :
    readMembers blobFields (b.members.map sanitizeMember) ⟨0, 0, 0⟩ = some b := by
  have hsplit : b.members = [(oName, .num (intDigits b.off.toInt)),
      (nName, .num (intDigits b.size.toInt))] ++
        omitEmpty (b.gen = 0) (gName, .num (intDigits b.gen.toInt)) := rfl
  have hon : readMembers blobFields ([(oName, Value.num (intDigits b.off.toInt)),
      (nName, .num (intDigits b.size.toInt))].map sanitizeMember) ⟨0, 0, 0⟩
        = some ⟨b.off, b.size, 0⟩ := by
    simp only [List.map_cons, List.map_nil, readMembers]
    have ho (c : BlobRef) : readMember blobFields c
        (sanitizeMember (oName, .num (intDigits b.off.toInt))) = some { c with off := b.off } := by
      exact congrArg (Option.map _) (readInt64_intDigits b.off c.off)
    have hn (c : BlobRef) : readMember blobFields c
        (sanitizeMember (nName, .num (intDigits b.size.toInt)))
          = some { c with size := b.size } := by
      exact congrArg (Option.map _) (readInt32_intDigits b.size c.size)
    simp only [ho, hn, Option.bind_some]
  rw [hsplit, List.map_append, readMembers_append, hon, Option.bind_some, readMembers_omitEmpty]
  split
  · next h => rw [← of_decide_eq_true h]
  · exact congrArg (Option.map _) (readInt64_intDigits b.gen 0)

private theorem read_b {b : Option BlobRef} (hs : s.blob = none) :
    readMembers recordFields ((blobMembers b).map sanitizeMember) s
      = some { s with blob := b } := by
  cases b with
  | none => exact congrArg (fun x => some { s with blob := x }) hs
  | some b =>
      have hread : readMembers recordFields ((blobMembers (some b)).map sanitizeMember) s
          = ((readPtr ⟨0, 0, 0⟩ (readStruct blobFields)
              (.obj (Members.ofList b.members).sanitize) s.blob).map
                fun x => { s with blob := x }).bind some := rfl
      rw [hread, hs, readPtr, Option.getD_none, sanitize_ofList, readStruct, Members.toList_ofList,
        read_blobRef]
      · rfl
      · rintro ⟨⟩

private theorem read_del {d : Bool} (hs : s.deleted = false) :
    readMembers recordFields ((omitEmpty (!d) (delName, .bool d)).map sanitizeMember) s
      = some { s with deleted := d } := by
  cases d with
  | false => exact congrArg (fun x => some { s with deleted := x }) hs
  | true => rfl

private theorem read_ix {ix : AnyMap} {js : List (Bytes × Value)}
    (hdec : decodeMembers (js.map sanitizeMember) Tree.empty = some ix.readBack)
    (hs : s.ix = Tree.empty) :
    readMembers recordFields ((omitEmpty (ix.items = []) (ixName, .obj (Members.ofList js))).map
      sanitizeMember) s = some { s with ix := ix.readBack } :=
  readMembers_ix (fun x => { s with ix := x }) (by rw [← hs]) (by rw [← hs]; rfl) hdec

private theorem read_c {c : Bool} (hs : s.counter = false) :
    readMembers recordFields ((omitEmpty (!c) (cName, .bool c)).map sanitizeMember) s
      = some { s with counter := c } := by
  cases c with
  | false => exact congrArg (fun x => some { s with counter := x }) hs
  | true => rfl

private theorem read_exp {e : Int64} (hs : s.exp = 0) :
    readMembers recordFields ((omitEmpty (e = 0) (expName, .num (intDigits e.toInt))).map
      sanitizeMember) s = some { s with exp := e } := by
  rw [readMembers_omitEmpty]
  split
  · next h => rw [of_decide_eq_true h, ← hs]
  · exact congrArg (Option.map _) (readInt64_intDigits e s.exp)

end Segments

private theorem members_wf (r : Record) {js : List (Bytes × Value)}
    (hjs : ∀ j ∈ js, j.2.WF ∧ j.2.depth = 0) :
    ∀ m ∈ r.members js, m.2.WF ∧ m.2.depth ≤ 1 := by
  have homit {e : Bool} {m : Bytes × Value} (hm : m.2.WF ∧ m.2.depth ≤ 1) :
      ∀ x ∈ omitEmpty e m, x.2.WF ∧ x.2.depth ≤ 1 := forall_mem_omitEmpty hm
  have hnum (i : Int) : (Value.num (intDigits i)).WF ∧ (Value.num (intDigits i)).depth ≤ 0 :=
    ⟨isNumber_intDigits i, le_refl 0⟩
  have hblob : ∀ x ∈ blobMembers r.blob, x.2.WF ∧ x.2.depth ≤ 1 := by
    cases r.blob with
    | none => simp [blobMembers]
    | some b =>
        have hmem : ∀ x ∈ b.members, x.2.WF ∧ x.2.depth ≤ 0 := by
          simp only [BlobRef.members, omitEmpty, List.forall_mem_cons]
          refine ⟨hnum _, hnum _, ?_⟩
          split
          · simp
          · simpa using hnum _
        simp only [blobMembers, List.forall_mem_singleton, Value.depth]
        exact ⟨wf_ofList.mpr fun x hx => (hmem x hx).1,
          Nat.succ_le_succ (depth_ofList_le.mpr fun x hx => (hmem x hx).2)⟩
  have hix : (Value.obj (Members.ofList js)).WF ∧ (Value.obj (Members.ofList js)).depth ≤ 1 :=
    ⟨wf_ofList.mpr fun j hj => (hjs j hj).1,
      Nat.succ_le_succ (depth_ofList_le.mpr fun j hj => le_of_eq (hjs j hj).2)⟩
  have hexp := hnum r.exp.toInt
  simp only [Record.members, List.forall_mem_append, List.forall_mem_singleton]
  exact ⟨⟨trivial, Nat.zero_le 1⟩, homit ⟨trivial, Nat.zero_le 1⟩, homit ⟨trivial, Nat.zero_le 1⟩,
    hblob, homit ⟨trivial, Nat.zero_le 1⟩, homit hix, homit ⟨trivial, Nat.zero_le 1⟩,
    homit ⟨hexp.1, le_trans hexp.2 (Nat.zero_le 1)⟩⟩

private theorem readMembers_members (r : Record) (htext : Utf8.valid r.text = true)
    {js : List (Bytes × Value)}
    (hdec : decodeMembers (js.map sanitizeMember) Tree.empty = some r.ix.readBack) :
    readMembers recordFields ((r.members js).map sanitizeMember) zeroRecord = some r.readBack := by
  simp only [Record.members, List.map_append, readMembers_append]
  rw [read_k, Option.bind_some, read_s _ rfl htext, Option.bind_some, read_v _ rfl,
    Option.bind_some, read_b _ rfl, Option.bind_some, read_del _ rfl, Option.bind_some,
    read_ix _ hdec rfl, Option.bind_some, read_c _ rfl, Option.bind_some, read_exp _ rfl]
  rfl

theorem ofWire_toWire {r : Record} (h : r.text = []) : r.toWire.ofWire = r := by
  obtain ⟨key, text, value, blob, deleted, ix, counter, exp⟩ := r
  subst h
  simp only [Record.toWire, Record.ofWire]
  split
  · next hv => simp [hv.1]
  · simp

/-- **Record codec.**  A record whose index values are scalars is written as one
line without control bytes; the line decodes to the same record with the key and
the index values as JSON carries them. -/
theorem unmarshal_marshal {r : Record} (htext : r.text = []) (hix : r.ix.Scalar) :
    ∃ line, marshalRecord r = some line ∧ (∀ b ∈ line, 0x20 ≤ b) ∧
      unmarshalRecord line = some r.readBack := by
  have hixw : r.toWire.ix = r.ix := by
    simp only [Record.toWire]
    split <;> rfl
  have htextw : Utf8.valid r.toWire.text = true := by
    simp only [Record.toWire]
    split
    · next hv => exact hv.2
    · rw [htext]; rfl
  have hback : r.toWire.readBack.ofWire = r.readBack := by
    have hcomm : r.toWire.readBack = r.readBack.toWire := by
      by_cases hv : r.value ≠ [] ∧ Utf8.valid r.value = true
      · exact (congrArg Record.readBack (if_pos hv)).trans (if_pos hv).symm
      · exact (congrArg Record.readBack (if_neg hv)).trans (if_neg hv).symm
    rw [hcomm, ofWire_toWire (show r.readBack.text = [] from htext)]
  obtain ⟨js, henc, hwf, hdec⟩ := AnyMap.decode_encode hix
  rw [← hixw] at henc hdec
  have hmem := members_wf r.toWire hwf
  refine ⟨print (.obj (Members.ofList (r.toWire.members js))), ?_, ?_, ?_⟩
  · rw [marshalRecord, Record.marshal, henc, Option.map_some]
  · exact print_ge (wf_ofList.mpr fun m hm => (hmem m hm).1)
  · rw [unmarshalRecord, unmarshal_print _ _ (fun m hm => (hmem m hm).1)
      (fun m hm => lt_of_le_of_lt (hmem m hm).2 (by decide)),
      readMembers_members _ htextw hdec, Option.map_some, hback]

end NteeDb.Core
