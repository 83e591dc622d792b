import NteeDb.Core.Store

/-!
# What a scan of the main log applies

The scan of the log computes with 32- and 64-bit numbers: the length it records
for a line, the offset it keeps adding these to, and the end of a blob reference.
Here is what it should compute, over the integers (`Placed`, `Dir.goodLine`), when
the two agree (`Dir.linesFit`), and that the scan then applies exactly the longest
good prefix of the lines (`scanLines_replay`).
-/

namespace NteeDb.Core

open NteeDb.Verified
open Lines OrderedTree

/-! ## Records at their positions -/

/-- A record, where its line starts and how long the line is, newline included. -/
structure Placed where
  record : Record
  off : Nat
  len : Nat
  deriving DecidableEq

/-- The records of lines written from `pos` on, up to the first that does not
decode. -/
def placed (pos : Nat) : List Bytes → List Placed
  | [] => []
  | line :: rest =>
      match unmarshalRecord line with
      | none => []
      | some r => ⟨r, pos, line.length + 1⟩ :: placed (pos + (line.length + 1)) rest

/-- A record as the scan hands it to its callback. -/
structure Applied where
  record : Record
  off : Int64
  n : Int32
  deriving DecidableEq

/-- The machine's numbers for a position. -/
def Placed.toApplied (p : Placed) : Applied := ⟨p.record, Int64.ofNat p.off, Int32.ofNat p.len⟩

/-- What applying records in turn does to the indexes. -/
def Indexes.applyAll (ix : Indexes) (as : List Applied) : Indexes :=
  as.foldl (fun ix a => ix.apply a.record a.off a.n) ix

/-- The indexes after the records at their positions. -/
def Indexes.replay (ix : Indexes) (ps : List Placed) : Indexes :=
  ix.applyAll (ps.map Placed.toApplied)

theorem placed_append {pos : Nat} {xs : List Bytes} (hxs : ∀ l ∈ xs, unmarshalRecord l ≠ none)
    (ys : List Bytes) :
    placed pos (xs ++ ys) = placed pos xs ++ placed (pos + (joinLines xs).length) ys := by
  induction xs generalizing pos with
  | nil => rfl
  | cons line xs ih =>
      rw [List.forall_mem_cons] at hxs
      obtain ⟨r, hr⟩ := Option.ne_none_iff_exists'.mp hxs.1
      rw [List.cons_append, placed, hr, placed, hr, length_joinLines_cons]
      dsimp only
      rw [ih hxs.2, List.cons_append, Nat.add_assoc pos]

theorem Indexes.replay_append (ix : Indexes) (ps qs : List Placed) :
    ix.replay (ps ++ qs) = (ix.replay ps).replay qs := by
  rw [Indexes.replay, Indexes.applyAll, List.map_append, List.foldl_append]
  rfl

/-! ## Written records -/

/-- The line is what `appendSync` writes for the record. -/
structure Written (r : Record) (line : Bytes) : Prop where
  text : r.text = []
  scalar : r.ix.Scalar
  marshal : marshalRecord r = some line

theorem Written.exists {r : Record} (htext : r.text = []) (hix : r.ix.Scalar) :
    ∃ line, Written r line := by
  obtain ⟨line, hline, _⟩ := unmarshal_marshal htext hix
  exact ⟨line, htext, hix, hline⟩

theorem Written.ge {r : Record} {line : Bytes} (h : Written r line) : ∀ b ∈ line, 0x20 ≤ b := by
  obtain ⟨line', hline, hge, _⟩ := unmarshal_marshal h.text h.scalar
  rw [h.marshal] at hline
  cases hline
  exact hge

theorem Written.newline_not_mem {r : Record} {line : Bytes} (h : Written r line) :
    newline ∉ line := fun hmem => absurd (h.ge _ hmem) (by decide)

theorem Written.unmarshal {r : Record} {line : Bytes} (h : Written r line) :
    unmarshalRecord line = some r.readBack := by
  obtain ⟨line', hline, _, hread⟩ := unmarshal_marshal h.text h.scalar
  rw [h.marshal] at hline
  cases hline
  exact hread

theorem exists_written {rs : List Record} {lines : List Bytes} (h : List.Forall₂ Written rs lines)
    {line : Bytes} (hline : line ∈ lines) : ∃ r ∈ rs, Written r line := by
  induction h with
  | nil => cases hline
  | cons hr _ ih =>
      rcases List.mem_cons.mp hline with rfl | hmem
      · exact ⟨_, List.mem_cons_self .., hr⟩
      · obtain ⟨r, hmem, hwritten⟩ := ih hmem
        exact ⟨r, List.mem_cons_of_mem _ hmem, hwritten⟩

/-- The records of written lines. -/
theorem placed_record {rs : List Record} {lines : List Bytes} (h : List.Forall₂ Written rs lines)
    (pos : Nat) : (placed pos lines).map Placed.record = rs.map Record.readBack := by
  induction h generalizing pos with
  | nil => rfl
  | cons hline _ ih =>
      rw [placed, hline.unmarshal, List.map_cons, List.map_cons, ih]

/-! ## Good lines -/

/-- The blob reference of the record, if any, ends within its file. -/
def Dir.goodRecord (d : Dir) (r : Record) : Bool :=
  match r.blob with
  | none => true
  | some b => decide (b.off.toInt + b.size.toInt ≤ (d.blobBytes b.gen).length)

/-- The line decodes to a record whose blob is there. -/
def Dir.goodLine (d : Dir) (line : Bytes) : Bool :=
  match unmarshalRecord line with
  | none => false
  | some r => d.goodRecord r

/-- The longest prefix of good lines. -/
def Dir.goodLines (d : Dir) (bytes : Bytes) : List Bytes :=
  (splitLines bytes).1.takeWhile d.goodLine

/-- No file is longer than the system can say. -/
def Dir.WellSized (d : Dir) : Prop :=
  d.mainBytes.length < maxFileSize ∧ ∀ gen, (d.blobBytes gen).length < maxFileSize

/-- The end of a blob reference is a 64-bit number; one below the least such number
wraps to a large end, which matters unless the file is that long. -/
def BlobRef.endFits (b : BlobRef) (size : Nat) : Bool :=
  decide (b.off.toInt + b.size.toInt < 2 ^ 63) &&
    (decide (-2 ^ 63 ≤ b.off.toInt + b.size.toInt) ||
      decide (b.off.toInt + b.size.toInt + 2 ^ 64 ≤ size))

/-- The end of the record's blob reference, if any, is the number the code computes. -/
def Dir.endFits (d : Dir) (r : Record) : Bool :=
  match r.blob with
  | none => true
  | some b => b.endFits (d.blobBytes b.gen).length

/-- The lines a scan reaches fit the machine's integers: the end of every blob
reference up to the first bad one, and the length of every good line. -/
def Dir.linesFit (d : Dir) : List Bytes → Bool
  | [] => true
  | line :: rest =>
      match unmarshalRecord line with
      | none => true
      | some r =>
          d.endFits r && (!d.goodRecord r || (!lengthWraps (line.length + 1) && d.linesFit rest))

theorem Dir.blobSizeOf_toInt {d : Dir} (hd : d.WellSized) (gen : Int64) :
    (d.blobSizeOf gen).toInt = (d.blobBytes gen).length := by
  have hlt := hd.2 gen
  rw [Dir.blobSizeOf]
  rw [Dir.blobBytes] at hlt ⊢
  cases hblob : d.blob gen with
  | none => rfl
  | some bytes =>
      rw [hblob] at hlt
      exact Int64.toInt_ofNat_of_lt hlt

/-- The code's test for a dangling reference is right exactly when the end fits. -/
theorem Dir.dangling_iff {d : Dir} (hd : d.WellSized) (r : Record) :
    d.dangling r = !d.goodRecord r ↔ d.endFits r = true := by
  rw [Dir.dangling, Dir.goodRecord, Dir.endFits]
  cases r.blob with
  | none => simp
  | some b =>
      have hlt : ((d.blobBytes b.gen).length : Int) < 2 ^ 63 := Int.ofNat_lt.mpr (hd.2 b.gen)
      have hpos : (0 : Int) ≤ (d.blobBytes b.gen).length := Int.natCast_nonneg _
      have hoff := b.off.toInt_lt
      have hoff' := b.off.le_toInt
      have hn := b.size.toInt_lt
      have hn' := b.size.le_toInt
      simp only [BlobRef.endFits, Int64.lt_iff_toInt_lt, Dir.blobSizeOf_toInt hd, Int64.toInt_add,
        Int32.toInt_toInt64, Bool.and_eq_true, Bool.or_eq_true, decide_eq_true_iff]
      generalize b.off.toInt = off at *
      generalize b.size.toInt = n at *
      generalize ((d.blobBytes b.gen).length : Int) = size at *
      rw [Bool.eq_iff_iff, Bool.not_eq_true', decide_eq_true_iff, decide_eq_false_iff_not,
        Int.bmod_def]
      split
      · omega
      · omega

theorem Written.goodLine {d : Dir} {r : Record} {line : Bytes} (h : Written r line) :
    d.goodLine line = d.goodRecord r := by
  rw [Dir.goodLine, h.unmarshal]
  rfl

theorem Dir.decodes_of_goodLine {d : Dir} {line : Bytes} (h : d.goodLine line = true) :
    unmarshalRecord line ≠ none := by
  intro hnone
  rw [Dir.goodLine, hnone] at h
  cases h

/-- The good prefix of lines that fit is made of lines that fit. -/
theorem Dir.linesFit_takeWhile {d : Dir} {lines : List Bytes} (h : d.linesFit lines = true) :
    d.linesFit (lines.takeWhile d.goodLine) = true := by
  induction lines with
  | nil => rfl
  | cons line rest ih =>
      rw [Dir.linesFit] at h
      rw [List.takeWhile_cons, Dir.goodLine]
      cases hr : unmarshalRecord line with
      | none => rfl
      | some r =>
          rw [hr] at h
          dsimp only at h ⊢
          by_cases hgood : d.goodRecord r = true
          · rw [hgood] at h
            simp only [Bool.not_true, Bool.false_or, Bool.and_eq_true] at h
            rw [if_pos hgood, Dir.linesFit, hr]
            simp only [h.1, h.2.1, ih h.2.2, Bool.and_self, Bool.or_true]
          · rw [if_neg hgood]
            rfl

theorem Dir.linesFit_append {d : Dir} {xs ys : List Bytes} (hgood : ∀ l ∈ xs, d.goodLine l = true)
    (hxs : d.linesFit xs = true) (hys : d.linesFit ys = true) : d.linesFit (xs ++ ys) = true := by
  induction xs with
  | nil => exact hys
  | cons line xs ih =>
      rw [List.forall_mem_cons, Dir.goodLine] at hgood
      rw [Dir.linesFit] at hxs
      rw [List.cons_append, Dir.linesFit]
      cases hr : unmarshalRecord line with
      | none => rfl
      | some r =>
          rw [hr] at hxs hgood
          dsimp only at hxs hgood ⊢
          rw [hgood.1] at hxs ⊢
          simp only [Bool.not_true, Bool.false_or, Bool.and_eq_true] at hxs
          simp only [hxs.1, hxs.2.1, ih hgood.2 hxs.2.2, Bool.and_self, Bool.or_true]

/-! ## The scan -/

/-- A callback that takes down what it is handed, and stops where replay stops. -/
def Dir.takeDown (d : Dir) (as : List Applied) (r : Record) (off : Int64) (n : Int32) :
    Option (List Applied) :=
  if d.dangling r then none else some (as ++ [⟨r, off, n⟩])

/-- The records that replay of the lines from `off` on applies, and where it ends. -/
def Dir.scanned (d : Dir) (lines : List Bytes) (off : Int64) : List Applied × Int64 :=
  scanLines d.takeDown lines off []

section Scan

variable (d : Dir)

private theorem scanLines_takeDown (lines : List Bytes) (off : Int64) (as : List Applied) :
    scanLines d.takeDown lines off as
      = (as ++ (d.scanned lines off).1, (d.scanned lines off).2) := by
  induction lines generalizing off as with
  | nil => rw [Dir.scanned, scanLines, scanLines, List.append_nil]
  | cons line rest ih =>
      rw [Dir.scanned, scanLines, scanLines]
      cases unmarshalRecord line with
      | none => rw [List.append_nil]
      | some r =>
          simp only [Dir.takeDown]
          cases d.dangling r with
          | true => simp
          | false => simp [ih]

theorem Dir.scanned_cons (line : Bytes) (rest : List Bytes) (off : Int64) :
    d.scanned (line :: rest) off =
      match unmarshalRecord line with
      | none => ([], off)
      | some r =>
          if d.dangling r then ([], off)
          else (⟨r, off, lineLen line⟩ :: (d.scanned rest (off + (lineLen line).toInt64)).1,
            (d.scanned rest (off + (lineLen line).toInt64)).2) := by
  rw [Dir.scanned, scanLines]
  cases unmarshalRecord line with
  | none => rfl
  | some r =>
      simp only [Dir.takeDown]
      cases d.dangling r with
      | true => simp
      | false => simp [scanLines_takeDown]

/-- Replay applies the records taken down. -/
theorem scanLines_eq_applyAll (lines : List Bytes) (off : Int64) (ix : Indexes) :
    scanLines d.replayRecord lines off ix
      = (ix.applyAll (d.scanned lines off).1, (d.scanned lines off).2) := by
  induction lines generalizing off ix with
  | nil => rfl
  | cons line rest ih =>
      rw [d.scanned_cons, scanLines]
      cases unmarshalRecord line with
      | none => rfl
      | some r =>
          simp only [Dir.replayRecord]
          cases d.dangling r with
          | true => rfl
          | false => exact ih _ _

end Scan

theorem lineLen_toInt64 {line : Bytes} (h : lengthWraps (line.length + 1) = false) :
    (lineLen line).toInt64 = Int64.ofNat (line.length + 1) := by
  have hlt : line.length + 1 < 2 ^ 31 := by
    rw [lengthWraps, decide_eq_false_iff_not] at h
    omega
  rw [← Int64.toInt_inj, Int32.toInt_toInt64, lineLen, Int32.toInt_ofNat_of_lt hlt,
    Int64.toInt_ofNat_of_lt (by omega)]

/-- The scan of lines that fit applies the longest good prefix, at its positions, and
ends right after it. -/
theorem Dir.scanned_of_fit {d : Dir} (hd : d.WellSized) {lines : List Bytes}
    (hfit : d.linesFit lines = true) (pos : Nat) :
    d.scanned lines (Int64.ofNat pos)
      = ((placed pos (lines.takeWhile d.goodLine)).map Placed.toApplied,
        Int64.ofNat (pos + (joinLines (lines.takeWhile d.goodLine)).length)) := by
  induction lines generalizing pos with
  | nil => rfl
  | cons line rest ih =>
      rw [Dir.linesFit] at hfit
      rw [Dir.scanned_cons, List.takeWhile_cons, Dir.goodLine]
      cases hr : unmarshalRecord line with
      | none => rfl
      | some r =>
          rw [hr] at hfit
          obtain ⟨hend, hrest⟩ := Bool.and_eq_true_iff.mp hfit
          dsimp only
          rw [(Dir.dangling_iff hd r).mpr hend]
          by_cases hgood : d.goodRecord r = true
          · rw [hgood] at hrest
            obtain ⟨hlen, htail⟩ := Bool.and_eq_true_iff.mp hrest
            rw [Bool.not_eq_true'] at hlen
            simp only [hgood, Bool.not_true, Bool.false_eq_true, if_false, if_true]
            rw [lineLen_toInt64 hlen, ← Int64.ofNat_add, ih htail, placed, hr,
              length_joinLines_cons, Nat.add_assoc pos]
            rfl
          · rw [Bool.not_eq_true] at hgood
            simp only [hgood, Bool.not_false, Bool.false_eq_true, if_false, if_true]
            rfl

/-- Replay of lines that fit. -/
theorem scanLines_replay {d : Dir} (hd : d.WellSized) {lines : List Bytes}
    (hfit : d.linesFit lines = true) (pos : Nat) (ix : Indexes) :
    scanLines d.replayRecord lines (Int64.ofNat pos) ix
      = (ix.replay (placed pos (lines.takeWhile d.goodLine)),
        Int64.ofNat (pos + (joinLines (lines.takeWhile d.goodLine)).length)) := by
  rw [scanLines_eq_applyAll, Dir.scanned_of_fit hd hfit]
  rfl

end NteeDb.Core
