import NteeDb.Core.MainLog

/-!
# The index hint

`indexhint.go`: a snapshot of the primary index as JSON lines, headed by a
version and the log offset it covers.  A hint that is missing, of another
version, or not wholly readable is ignored.

## Main results

* `loadIndexHint_hintBytes` — a hint that loads gives back the covered offset and
  the entries it was written from, read back through JSON.
-/

namespace NteeDb.Core

open NteeDb.Verified
open Json Decimal Lines OrderedTree JsonCodec

/-- `indexHintFormatVersion` -/
def indexHintFormatVersion : Int64 := 2

/-- `indexHintMeta` -/
structure IndexHintMeta where
  version : Int64
  covers : Int64
  deriving DecidableEq

/-- `"covers"` -/
def coversName : Bytes := [0x63, 0x6F, 0x76, 0x65, 0x72, 0x73]
/-- `"e"` -/
def eName : Bytes := [0x65]

/-! ## Writing -/

/-- The members of the first line. -/
def IndexHintMeta.members (m : IndexHintMeta) : List (Bytes × Value) :=
  [(vName, .num (intDigits m.version.toInt)), (coversName, .num (intDigits m.covers.toInt))]

/-- The members of `indexHintLine` for an entry whose index values are encoded. -/
def PkEntry.hintMembers (e : PkEntry) (ix : List (Bytes × Value)) : List (Bytes × Value) :=
  [(kName, .str e.key), (oName, .num (intDigits e.off.toInt)),
    (nName, .num (intDigits e.n.toInt))] ++
    (omitEmpty (e.ix.items = []) (ixName, .obj (Members.ofList ix)) ++
    omitEmpty (e.exp = 0) (eName, .num (intDigits e.exp.toInt)))

/-- The hint line of an entry. -/
def PkEntry.hintLine (e : PkEntry) : Option Bytes :=
  (encodeMembers e.ix.items).map fun ix => print (.obj (Members.ofList (e.hintMembers ix)))

/-- The hint lines of entries. -/
def hintLines : List PkEntry → Option (List Bytes)
  | [] => some []
  | e :: es => do
      let l ← e.hintLine
      let ls ← hintLines es
      return l :: ls

/-- The first line of a hint. -/
def hintMetaLine (covers : Int64) : Bytes :=
  print (.obj (Members.ofList (IndexHintMeta.members ⟨indexHintFormatVersion, covers⟩)))

/-- What `writeIndexHint` writes; `none` when an index value is not finite. -/
def hintBytes (pk : PkIndex) (covers : Int64) : Option Bytes :=
  (hintLines pk.items).map fun ls => joinLines (hintMetaLine covers :: ls)

/-! ## Loading -/

/-- Longest line the loader's scanner returns, its newline included. -/
def maxHintLine : Nat := 16777216

/-- Drop a carriage return at the end of a line. -/
def dropCR (line : Bytes) : Bytes :=
  if line.getLast? = some 0x0D then line.dropLast else line

/-- The tokens of a line scanner, unless one does not fit its buffer. -/
def scanTokens (bytes : Bytes) : Option (List Bytes) :=
  let ls :=
    (splitLines bytes).1 ++ (if (splitLines bytes).2 = [] then [] else [(splitLines bytes).2])
  if ls.all fun l => l.length < maxHintLine then some (ls.map dropCR) else none

/-- The fields of the first line. -/
def metaFields : List (StructField IndexHintMeta) :=
  [⟨vName, fun j m => (readInt64 j m.version).map fun x => { m with version := x }⟩,
   ⟨coversName, fun j m => (readInt64 j m.covers).map fun x => { m with covers := x }⟩]

/-- The fields of an entry line. -/
def hintFields : List (StructField PkEntry) :=
  [⟨kName, fun j e => (readStr j e.key).map fun x => { e with key := x }⟩,
   ⟨oName, fun j e => (readInt64 j e.off).map fun x => { e with off := x }⟩,
   ⟨nName, fun j e => (readInt32 j e.n).map fun x => { e with n := x }⟩,
   ⟨ixName, fun j e => (readMap j e.ix).map fun x => { e with ix := x }⟩,
   ⟨eName, fun j e => (readInt64 j e.exp).map fun x => { e with exp := x }⟩]

/-- Decode entry lines. -/
def parseHintLines : List Bytes → Option (List PkEntry)
  | [] => some []
  | l :: ls => do
      let e ← unmarshal hintFields { key := [] } l
      let es ← parseHintLines ls
      return e :: es

/-- `loadIndexHint` -/
def loadIndexHint (hint : Option Bytes) : Option (List PkEntry × Int64) := do
  let bytes ← hint
  let tokens ← scanTokens bytes
  match tokens with
  | [] => none
  | first :: rest => do
      let m ← unmarshal metaFields ⟨0, 0⟩ first
      if m.version ≠ indexHintFormatVersion then none
      else do
        let es ← parseHintLines rest
        return (es, m.covers)

/-! ## Round trip -/

/-- The entry a hint line written for `e` decodes to. -/
def PkEntry.readBack (e : PkEntry) : PkEntry :=
  { e with key := Utf8.sanitize e.key, ix := e.ix.readBack }

private theorem read_kon (e : PkEntry) :
    readMembers hintFields ([(kName, Value.str e.key), (oName, .num (intDigits e.off.toInt)),
      (nName, .num (intDigits e.n.toInt))].map sanitizeMember) { key := [] }
        = some { key := Utf8.sanitize e.key, off := e.off, n := e.n } := by
  have hk (c : PkEntry) : readMember hintFields c (sanitizeMember (kName, .str e.key))
      = some { c with key := Utf8.sanitize e.key } := rfl
  have ho (c : PkEntry) : readMember hintFields c
      (sanitizeMember (oName, .num (intDigits e.off.toInt))) = some { c with off := e.off } :=
    congrArg (Option.map _) (readInt64_intDigits e.off c.off)
  have hn (c : PkEntry) : readMember hintFields c
      (sanitizeMember (nName, .num (intDigits e.n.toInt))) = some { c with n := e.n } :=
    congrArg (Option.map _) (readInt32_intDigits e.n c.n)
  simp only [List.map_cons, List.map_nil, readMembers, hk, ho, hn, Option.bind_some]

private theorem readHint_ix (s : PkEntry) {ix : AnyMap} {js : List (Bytes × Value)}
    (hdec : decodeMembers (js.map sanitizeMember) Tree.empty = some ix.readBack)
    (hs : s.ix = Tree.empty) :
    readMembers hintFields ((omitEmpty (ix.items = []) (ixName, .obj (Members.ofList js))).map
      sanitizeMember) s = some { s with ix := ix.readBack } :=
  readMembers_ix (fun x => { s with ix := x }) (by rw [← hs]) (by rw [← hs]; rfl) hdec

private theorem readHint_e (s : PkEntry) {x : Int64} (hs : s.exp = 0) :
    readMembers hintFields ((omitEmpty (x = 0) (eName, .num (intDigits x.toInt))).map
      sanitizeMember) s = some { s with exp := x } := by
  rw [readMembers_omitEmpty]
  split
  · next h => rw [of_decide_eq_true h, ← hs]
  · exact congrArg (Option.map _) (readInt64_intDigits x s.exp)

private theorem hintMembers_wf (e : PkEntry) {js : List (Bytes × Value)}
    (hjs : ∀ j ∈ js, j.2.WF ∧ j.2.depth = 0) :
    ∀ m ∈ e.hintMembers js, m.2.WF ∧ m.2.depth ≤ 1 := by
  have hnum (i : Int) : (Value.num (intDigits i)).WF ∧ (Value.num (intDigits i)).depth ≤ 1 :=
    ⟨isNumber_intDigits i, Nat.zero_le 1⟩
  have hix : (Value.obj (Members.ofList js)).WF ∧ (Value.obj (Members.ofList js)).depth ≤ 1 :=
    ⟨wf_ofList.mpr fun j hj => (hjs j hj).1,
      Nat.succ_le_succ (depth_ofList_le.mpr fun j hj => le_of_eq (hjs j hj).2)⟩
  simp only [PkEntry.hintMembers, List.forall_mem_append, List.forall_mem_cons]
  exact ⟨⟨⟨trivial, Nat.zero_le 1⟩, hnum _, hnum _, by simp⟩,
    forall_mem_omitEmpty hix, forall_mem_omitEmpty (hnum _)⟩

/-- An entry over scalar index values is written as one line without control
bytes, and the line decodes to the entry read back. -/
theorem unmarshal_hintLine {e : PkEntry} (h : e.ix.Scalar) :
    ∃ line, e.hintLine = some line ∧ (∀ b ∈ line, 0x20 ≤ b) ∧
      unmarshal hintFields { key := [] } line = some e.readBack := by
  obtain ⟨js, henc, hwf, hdec⟩ := AnyMap.decode_encode h
  have hmem := hintMembers_wf e hwf
  refine ⟨print (.obj (Members.ofList (e.hintMembers js))),
    by rw [PkEntry.hintLine, henc, Option.map_some], ?_, ?_⟩
  · exact print_ge (wf_ofList.mpr fun m hm => (hmem m hm).1)
  rw [unmarshal_print _ _ (fun m hm => (hmem m hm).1)
    (fun m hm => lt_of_le_of_lt (hmem m hm).2 (by decide)), PkEntry.hintMembers]
  simp only [List.map_append, readMembers_append]
  rw [read_kon, Option.bind_some, readHint_ix _ hdec rfl, Option.bind_some, readHint_e _ rfl]
  rfl

private theorem parse_hintLines {es : List PkEntry} (h : ∀ e ∈ es, e.ix.Scalar) :
    ∃ ls, hintLines es = some ls ∧ (∀ l ∈ ls, ∀ b ∈ l, 0x20 ≤ b) ∧
      parseHintLines ls = some (es.map PkEntry.readBack) := by
  induction es with
  | nil => exact ⟨[], rfl, by simp, rfl⟩
  | cons e es ih =>
      rw [List.forall_mem_cons] at h
      obtain ⟨l, hl, hlb, hldec⟩ := unmarshal_hintLine h.1
      obtain ⟨ls, hls, hlsb, hlsdec⟩ := ih h.2
      refine ⟨l :: ls, by simp [hintLines, hl, hls], ?_, ?_⟩
      · rw [List.forall_mem_cons]
        exact ⟨hlb, hlsb⟩
      · simp [parseHintLines, hldec, hlsdec]

private theorem dropCR_eq_self {l : Bytes} (h : ∀ b ∈ l, 0x20 ≤ b) : dropCR l = l := by
  rw [dropCR, if_neg]
  intro hlast
  exact absurd (h _ (List.mem_of_getLast? hlast)) (by decide)

private theorem newline_not_mem {l : Bytes} (h : ∀ b ∈ l, 0x20 ≤ b) : newline ∉ l :=
  fun hn => absurd (h _ hn) (by decide)

private theorem unmarshal_hintMetaLine (covers : Int64) :
    (∀ b ∈ hintMetaLine covers, 0x20 ≤ b) ∧
      unmarshal metaFields ⟨0, 0⟩ (hintMetaLine covers)
        = some ⟨indexHintFormatVersion, covers⟩ := by
  have hwf : ∀ m ∈ IndexHintMeta.members ⟨indexHintFormatVersion, covers⟩,
      m.2.WF ∧ m.2.depth ≤ 1 := by
    simp only [IndexHintMeta.members, List.forall_mem_cons]
    exact ⟨⟨isNumber_intDigits _, Nat.zero_le 1⟩, ⟨isNumber_intDigits _, Nat.zero_le 1⟩, by simp⟩
  refine ⟨?_, ?_⟩
  · exact print_ge (wf_ofList.mpr fun m hm => (hwf m hm).1)
  · have hv (v : Int64) (c : IndexHintMeta) : readMember metaFields c
        (sanitizeMember (vName, .num (intDigits v.toInt))) = some { c with version := v } :=
      congrArg (Option.map _) (readInt64_intDigits v c.version)
    have hcovers (c : IndexHintMeta) : readMember metaFields c
        (sanitizeMember (coversName, .num (intDigits covers.toInt)))
          = some { c with covers := covers } :=
      congrArg (Option.map _) (readInt64_intDigits covers c.covers)
    rw [hintMetaLine, unmarshal_print _ _ (fun m hm => (hwf m hm).1)
      (fun m hm => lt_of_le_of_lt (hwf m hm).2 (by decide))]
    simp only [IndexHintMeta.members, List.map_cons, List.map_nil, readMembers, hv, hcovers,
      Option.bind_some]

private theorem scanTokens_joinLines {ls ts : List Bytes} (h : ∀ l ∈ ls, ∀ b ∈ l, 0x20 ≤ b)
    (hts : scanTokens (joinLines ls) = some ts) : ts = ls := by
  have hsplit : splitLines (joinLines ls) = (ls, []) := by
    have := splitLines_joinLines (fun l hl => newline_not_mem (h l hl))
      (List.not_mem_nil (a := newline))
    rwa [List.append_nil] at this
  simp only [scanTokens, hsplit, if_true, List.append_nil] at hts
  split at hts
  · cases hts
    nth_rewrite 2 [← List.map_id ls]
    exact List.map_congr_left fun l hl => dropCR_eq_self (h l hl)
  · cases hts

/-- **Hint round trip.**  The hint of an index over scalar values can be written;
loading it fails (a line too long for the scanner) or gives back the covered
offset and the entries read back. -/
theorem loadIndexHint_hintBytes {pk : PkIndex} (h : ∀ e ∈ pk, e.ix.Scalar) (covers : Int64) :
    ∃ bytes, hintBytes pk covers = some bytes ∧
      ∀ r, loadIndexHint (some bytes) = some r → r = (pk.items.map PkEntry.readBack, covers) := by
  obtain ⟨ls, hls, hlsb, hparse⟩ := parse_hintLines h
  obtain ⟨hfirstb, hfirst⟩ := unmarshal_hintMetaLine covers
  refine ⟨_, by rw [hintBytes, hls, Option.map_some], ?_⟩
  intro r hload
  simp only [loadIndexHint, Option.bind_eq_bind, Option.bind_some] at hload
  obtain ⟨ts, hts, hload⟩ := Option.bind_eq_some_iff.mp hload
  cases scanTokens_joinLines (List.forall_mem_cons.mpr ⟨hfirstb, hlsb⟩) hts
  simpa [hfirst, hparse] using hload.symm

end NteeDb.Core
