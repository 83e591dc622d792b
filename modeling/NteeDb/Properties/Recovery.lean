import NteeDb.Core.Runs
import NteeDb.Invariants.Open
import NteeDb.Invariants.Scan

/-!
# Recovery keeps the longest good prefix

Without a usable hint, `Open` replays the log: it applies the records of the
longest prefix of complete lines that decode and whose blobs are there, cuts the
log off right after it, and would do nothing more if it were run again.  This
holds exactly when the lines it reaches fit the machine's integers: replay adds up
32-bit line lengths and tests `off + n` of a blob reference in 64 bits.
-/

namespace NteeDb.Properties.Recovery

open NteeDb.Verified
open Faults Lines OrderedTree
open NteeDb.Core

/-! ## The property -/

/-- The numbers of the scan are the position of the record. -/
def Applied.At (a : Applied) (p : Placed) : Prop :=
  a.record = p.record ∧ a.off.toInt = p.off ∧ a.n.toInt = p.len

/-- The store opened on the files of `w` when no file step fails. -/
def reopened (opts : Options) (w : World) : World := exec (openStore opts) [] w.kill

/-- `Open` recovers the longest good prefix of the log. -/
structure Recovers (opts : Options) (secs : SecIndexes) (w : World) : Prop where
  /-- Replay is handed exactly the records of that prefix, at their positions. -/
  applied : List.Forall₂ Applied.At (w.dir.scanned (splitLines w.dir.mainBytes).1 0).1
    (placed 0 (w.dir.goodLines w.dir.mainBytes))
  /-- The store opens, the log ends where the prefix ends, and the indexes are those
  of its records. -/
  opens : (reopened opts w).db.closed = false
  main : (reopened opts w).dir.main = some (joinLines (w.dir.goodLines w.dir.mainBytes))
  idx : (reopened opts w).db.idx
    = (⟨Tree.empty, secs⟩ : Indexes).replay (placed 0 (w.dir.goodLines w.dir.mainBytes))
  /-- Opening again changes no byte of the log and gives the same indexes. -/
  opensAgain : (reopened opts (reopened opts w)).db.closed = false
  mainAgain : (reopened opts (reopened opts w)).dir.main = (reopened opts w).dir.main
  idxAgain : (reopened opts (reopened opts w)).db.idx = (reopened opts w).db.idx

/-! ## One `Open` -/

section Open

variable {w : World} {opts : Options} {secs : SecIndexes}

theorem joinLines_goodLines (d : Dir) (bytes : Bytes) :
    ∃ rest, bytes = joinLines (d.goodLines bytes) ++ rest := by
  refine ⟨joinLines ((splitLines bytes).1.dropWhile d.goodLine) ++ (splitLines bytes).2, ?_⟩
  rw [← List.append_assoc, Dir.goodLines, ← joinLines_append, List.takeWhile_append_dropWhile,
    joinLines_splitLines]

theorem length_joinLines_goodLines_le (d : Dir) (bytes : Bytes) :
    (joinLines (d.goodLines bytes)).length ≤ bytes.length := by
  obtain ⟨rest, hrest⟩ := joinLines_goodLines d bytes
  conv_rhs => rw [hrest, List.length_append]
  exact Nat.le_add_right _ _

theorem cutOff_goodLines (d : Dir) {bytes : Bytes} (hlt : bytes.length < maxFileSize) :
    cutOff bytes (Int64.ofNat (joinLines (d.goodLines bytes)).length)
      = joinLines (d.goodLines bytes) := by
  obtain ⟨rest, hrest⟩ := joinLines_goodLines d bytes
  have hle := length_joinLines_goodLines_le d bytes
  have hgood : (Int64.ofNat (joinLines (d.goodLines bytes)).length).toInt
      = (joinLines (d.goodLines bytes)).length :=
    Int64.toInt_ofNat_of_lt (Nat.lt_of_le_of_lt hle hlt)
  have hsize : (fileSize bytes).toInt = bytes.length := Int64.toInt_ofNat_of_lt hlt
  rw [cutOff]
  split
  · rw [hgood, Int.toNat_natCast]
    exact (congrArg (List.take _) hrest).trans List.take_left
  · next hnot =>
      rw [Int64.lt_iff_toInt_lt, hgood, hsize, Int.ofNat_lt, Nat.not_lt] at hnot
      have hnil : rest = [] := List.length_eq_zero_iff.mp (by
        have := congrArg List.length hrest
        rw [List.length_append] at this
        omega)
      rw [hnil, List.append_nil] at hrest
      exact hrest

/-- What `Open` loads from a log that fits, without a hint. -/
theorem loaded_of_fit {d : Dir} (hsized : d.WellSized) (hhint : d.usableHint = none) {bytes : Bytes}
    (hmain : d.main = some bytes) (hfit : d.linesFit (splitLines bytes).1 = true) :
    d.loaded secs = .ok ((⟨Tree.empty, secs⟩ : Indexes).replay (placed 0 (d.goodLines bytes)),
      Int64.ofNat (joinLines (d.goodLines bytes)).length) := by
  rw [Dir.loaded, hhint, hmain]
  have hscan := scanLines_replay hsized hfit 0 ⟨Tree.empty, secs⟩
  rw [Nat.zero_add] at hscan
  exact congrArg Except.ok hscan

/-- One `Open` of a log that fits. -/
theorem reopened_of_fit (hsized : w.dir.WellSized) (hhint : w.dir.usableHint = none) {bytes : Bytes}
    (hmain : w.dir.main = some bytes) (hdecl : declareAll opts.indexes noIndexes = .ok secs)
    (hfit : w.dir.linesFit (splitLines bytes).1 = true) :
    Opened opts ((⟨Tree.empty, secs⟩ : Indexes).replay (placed 0 (w.dir.goodLines bytes)))
        (Int64.ofNat (joinLines (w.dir.goodLines bytes)).length) w.kill (reopened opts w) ∧
      (reopened opts w).dir.main = some (joinLines (w.dir.goodLines bytes)) := by
  have hbytes : w.dir.mainBytes = bytes := by rw [Dir.mainBytes, hmain, Option.getD_some]
  have hlt : bytes.length < maxFileSize := hbytes ▸ hsized.1
  have hpos : 0 ≤ Int64.ofNat (joinLines (w.dir.goodLines bytes)).length := by
    rw [Int64.le_iff_toInt_le, Int64.toInt_ofNat_of_lt
      (Nat.lt_of_le_of_lt (length_joinLines_goodLines_le _ _) hlt)]
    exact Int.natCast_nonneg _
  have hload : w.kill.dir.loaded secs = _ := loaded_of_fit hsized hhint hmain hfit
  have hspec := (openStore_spec (A := fun _ => False) (fun _ => id) rfl hdecl hload hpos).errors
      fun _ _ (h : OpenCrash _ _ _ _ _) => h.2.1
  obtain ⟨_, w', plan, hrun, hopened⟩ := hspec.run_ok rfl
  have hw' : reopened opts w = w' := by rw [reopened, exec, hrun]; rfl
  rw [hw']
  refine ⟨hopened, ?_⟩
  rw [hopened.main, show w.kill.dir.mainBytes = bytes from hbytes, cutOff_goodLines _ hlt]

/-- A log that `Open` has cut off has no usable hint if it had none. -/
theorem usableHint_of_shorter {d d' : Dir} {bytes bytes' : Bytes} (hhint : d.usableHint = none)
    (hsame : d'.hint = d.hint) (hmain : d.main = some bytes) (hmain' : d'.main = some bytes')
    (hle : bytes'.length ≤ bytes.length) (hlt : bytes.length < maxFileSize) :
    d'.usableHint = none := by
  rw [maxFileSize] at hlt
  have hsize : fileSize bytes' ≤ fileSize bytes := by
    rw [Int64.le_iff_toInt_le, fileSize, fileSize, Int64.toInt_ofNat_of_lt (by omega),
      Int64.toInt_ofNat_of_lt (by omega)]
    exact Int.ofNat_le.mpr hle
  rw [Dir.usableHint, hmain] at hhint
  rw [Dir.usableHint, hsame, hmain']
  cases hload : loadIndexHint d.hint with
  | none => rfl
  | some hint =>
      rw [hload] at hhint
      simp only [Option.bind_eq_bind, Option.bind_some, ite_eq_right_iff] at hhint ⊢
      exact fun hcov => hhint (Int64.le_trans hcov hsize)

/-- The same records are good where the blobs are the same. -/
theorem goodLine_congr {d d' : Dir} (h : ∀ gen, d'.blobBytes gen = d.blobBytes gen) :
    d'.goodLine = d.goodLine := by
  funext line
  rw [Dir.goodLine, Dir.goodLine]
  cases unmarshalRecord line with
  | none => rfl
  | some r =>
      show d'.goodRecord r = d.goodRecord r
      rw [Dir.goodRecord, Dir.goodRecord]
      cases r.blob with
      | none => rfl
      | some b => simp only [h]

theorem linesFit_congr {d d' : Dir} (h : ∀ gen, d'.blobBytes gen = d.blobBytes gen)
    (lines : List Bytes) : d'.linesFit lines = d.linesFit lines := by
  have hgood : ∀ r, d'.goodRecord r = d.goodRecord r ∧ d'.endFits r = d.endFits r := by
    intro r
    rw [Dir.goodRecord, Dir.goodRecord, Dir.endFits, Dir.endFits]
    cases r.blob with
    | none => exact ⟨rfl, rfl⟩
    | some b => simp only [h, and_self]
  induction lines with
  | nil => rfl
  | cons line rest ih =>
      rw [Dir.linesFit, Dir.linesFit]
      cases unmarshalRecord line with
      | none => rfl
      | some r => simp only [ih, hgood r]

end Open

/-! ## Lines that fit -/

section Fits

variable {w : World} {opts : Options} {secs : SecIndexes} {bytes : Bytes}

/-- Numbers that stand for the position they were made from. -/
theorem toApplied_at {ps : List Placed} (h : ∀ p ∈ ps, p.off < 2 ^ 63 ∧ p.len < 2 ^ 31) :
    List.Forall₂ Applied.At (ps.map Placed.toApplied) ps := by
  rw [List.forall₂_map_left_iff, List.forall₂_same]
  exact fun p hp => ⟨rfl, Int64.toInt_ofNat_of_lt (h p hp).1, Int32.toInt_ofNat_of_lt (h p hp).2⟩

/-- The positions of good lines that fit are in range. -/
theorem placed_bounds {d : Dir} {lines : List Bytes} (hfit : d.linesFit lines = true) {pos : Nat} :
    ∀ p ∈ placed pos (lines.takeWhile d.goodLine),
      p.off < pos + (joinLines (lines.takeWhile d.goodLine)).length ∧ p.len < 2 ^ 31 := by
  induction lines generalizing pos with
  | nil => simp [placed]
  | cons line rest ih =>
      rw [Dir.linesFit] at hfit
      rw [List.takeWhile_cons, Dir.goodLine]
      cases hr : unmarshalRecord line with
      | none => simp [placed]
      | some r =>
          rw [hr] at hfit
          dsimp only at hfit ⊢
          by_cases hgood : d.goodRecord r = true
          · simp only [hgood, Bool.not_true, Bool.false_or, Bool.and_eq_true, Bool.not_eq_true',
              lengthWraps, decide_eq_false_iff_not, Nat.not_le] at hfit
            rw [if_pos hgood, placed, hr, length_joinLines_cons]
            refine List.forall_mem_cons.mpr ⟨⟨by dsimp only; omega, hfit.2.1⟩, fun p hp => ?_⟩
            obtain ⟨hoff, hlen⟩ := ih hfit.2.2 p hp
            exact ⟨by omega, hlen⟩
          · rw [if_neg hgood]
            simp [placed]

theorem recovers_of_fit (hsized : w.dir.WellSized) (hhint : w.dir.usableHint = none)
    (hmain : w.dir.main = some bytes) (hdecl : declareAll opts.indexes noIndexes = .ok secs)
    (hfit : w.dir.linesFit (splitLines bytes).1 = true) : Recovers opts secs w := by
  have hbytes : w.dir.mainBytes = bytes := by rw [Dir.mainBytes, hmain, Option.getD_some]
  have hlt : bytes.length < maxFileSize := hbytes ▸ hsized.1
  have hle := length_joinLines_goodLines_le w.dir bytes
  obtain ⟨hopened, hcut⟩ := reopened_of_fit hsized hhint hmain hdecl hfit
  -- the second `Open` finds the good lines, all of them good, and the blobs as they were
  have hblob := hopened.untouched.blob
  have hmem : ∀ l ∈ w.dir.goodLines bytes, newline ∉ l := fun l hl =>
    splitLines_lines bytes l (List.takeWhile_sublist _ |>.mem hl)
  have hlines : (splitLines (joinLines (w.dir.goodLines bytes))).1 = w.dir.goodLines bytes := by
    have := splitLines_joinLines hmem (List.not_mem_nil : newline ∉ [])
    rw [List.append_nil] at this
    rw [this]
  have hsame : (reopened opts w).dir.goodLines (joinLines (w.dir.goodLines bytes))
      = w.dir.goodLines bytes := by
    rw [Dir.goodLines, hlines, goodLine_congr (d := w.dir) hblob]
    exact List.takeWhile_idem ..
  have hfit' : (reopened opts w).dir.linesFit (splitLines (joinLines (w.dir.goodLines bytes))).1
      = true := by
    rw [hlines, linesFit_congr (d := w.dir) hblob]
    exact Dir.linesFit_takeWhile hfit
  have hsized' : (reopened opts w).dir.WellSized := by
    refine ⟨?_, fun gen => ?_⟩
    · rw [Dir.mainBytes, hcut, Option.getD_some]
      exact Nat.lt_of_le_of_lt hle hlt
    · rw [hblob]
      exact hsized.2 gen
  have hhint' := usableHint_of_shorter hhint hopened.untouched.hint hmain hcut hle hlt
  obtain ⟨hopened', hcut'⟩ := reopened_of_fit hsized' hhint' hcut hdecl hfit'
  rw [hsame] at hopened' hcut'
  have hscan := congrArg Prod.fst (Dir.scanned_of_fit hsized hfit 0)
  refine ⟨?_, hopened.store.closed, ?_, ?_, hopened'.store.closed, ?_, ?_⟩
  · rw [hbytes]
    refine (congrArg (List.Forall₂ _ · _) hscan).mpr (toApplied_at fun p hp => ?_)
    obtain ⟨hoff, hlen⟩ := placed_bounds hfit p hp
    rw [Nat.zero_add] at hoff
    exact ⟨Nat.lt_trans hoff (Nat.lt_of_le_of_lt hle hlt), hlen⟩
  · rw [hcut, hbytes]
  · rw [hopened.store.idx, hbytes]
  · rw [hcut', hcut]
  · rw [hopened'.store.idx, hopened.store.idx]

/-- A scan that is handed exactly the good records at their positions has met
nothing that does not fit. -/
theorem fit_of_applied {d : Dir} (hd : d.WellSized) {lines : List Bytes} {pos : Nat}
    (h : List.Forall₂ Applied.At (d.scanned lines (Int64.ofNat pos)).1
      (placed pos (lines.takeWhile d.goodLine))) : d.linesFit lines = true := by
  induction lines generalizing pos with
  | nil => rfl
  | cons line rest ih =>
      rw [Dir.scanned_cons, List.takeWhile_cons, Dir.goodLine] at h
      rw [Dir.linesFit]
      cases hr : unmarshalRecord line with
      | none => rfl
      | some r =>
          rw [hr] at h
          dsimp only at h ⊢
          have hdang := Dir.dangling_iff hd r
          by_cases hgood : d.goodRecord r = true
          · rw [if_pos hgood, placed, hr] at h
            by_cases hstop : d.dangling r = true
            · -- a good record was not applied
              rw [if_pos hstop] at h
              cases h
            · rw [if_neg hstop] at h
              obtain ⟨hhead, htail⟩ := List.forall₂_cons.mp h
              rw [Bool.not_eq_true] at hstop
              have hend : d.endFits r = true := hdang.mp (by rw [hstop, hgood]; rfl)
              have hwrap : lengthWraps (line.length + 1) = false := by
                have hlen : (lineLen line).toInt = ((line.length + 1 : Nat) : Int) := hhead.2.2
                have := (lineLen line).toInt_lt
                rw [lengthWraps, decide_eq_false_iff_not]
                omega
              rw [lineLen_toInt64 hwrap, ← Int64.ofNat_add] at htail
              rw [hend, hgood, hwrap, ih htail]
              rfl
          · rw [if_neg hgood, placed] at h
            by_cases hstop : d.dangling r = true
            · rw [Bool.not_eq_true] at hgood
              have hend : d.endFits r = true := hdang.mp (by rw [hstop, hgood]; rfl)
              rw [hend, hgood]
              rfl
            · -- a dangling record was applied
              rw [if_neg hstop] at h
              cases h

end Fits

/-! ## Logs of appended records -/

/-- A log of appended records was cut off at a byte, and the first `k` of them are
wholly present: the store holds what these `k` say, and nothing else. -/
structure RecoversCut (opts : Options) (secs : SecIndexes) (w : World) (rs : List Record)
    (lines : List Bytes) (k : Nat) : Prop where
  main : (reopened opts w).dir.main = some (joinLines (lines.take k))
  records : (placed 0 (lines.take k)).map Placed.record = (rs.take k).map Record.readBack
  idx : (reopened opts w).db.idx
    = (⟨Tree.empty, secs⟩ : Indexes).replay (placed 0 (lines.take k))

/-- The world after a line was appended to the log of `w`. -/
def appended (w : World) (line : Bytes) : World :=
  { w with dir := w.dir.appendMain (line ++ [newline]) }

/-- A record appended after recovery is recovered by the next `Open`, after what the
first one recovered. -/
structure RecoversAppended (opts : Options) (w : World) (r : Record) (line : Bytes) : Prop where
  main : (reopened opts (appended (reopened opts w) line)).dir.main
    = (appended (reopened opts w) line).dir.main
  idx : (reopened opts (appended (reopened opts w) line)).db.idx
    = (reopened opts w).db.idx.replay
        [⟨r.readBack, (reopened opts w).dir.mainBytes.length, line.length + 1⟩]

section Appended

variable {w : World} {opts : Options} {secs : SecIndexes} {bytes : Bytes}

theorem recoversCut_of_recovers (hmain : w.dir.main = some bytes) (h : Recovers opts secs w)
    {rs : List Record} {lines : List Bytes} {c k : Nat} (hrs : List.Forall₂ Written rs lines)
    (hgood : ∀ r ∈ rs, w.dir.goodRecord r = true) (hcut : bytes = (joinLines lines).take c)
    (hk : (joinLines (lines.take k)).length ≤ c)
    (hmax : k < lines.length → c < (joinLines (lines.take (k + 1))).length) :
    RecoversCut opts secs w rs lines k := by
  have hbytes : w.dir.mainBytes = bytes := by rw [Dir.mainBytes, hmain, Option.getD_some]
  have hline : ∀ l ∈ lines, newline ∉ l ∧ w.dir.goodLine l = true := by
    intro l hl
    obtain ⟨r, hr, hwritten⟩ := exists_written hrs hl
    exact ⟨hwritten.newline_not_mem, hwritten.goodLine.trans (hgood r hr)⟩
  have hlines : w.dir.goodLines w.dir.mainBytes = lines.take k := by
    rw [hbytes, hcut, Dir.goodLines, splitLines_take (fun l hl => (hline l hl).1) hk hmax]
    exact List.takeWhile_eq_self_iff.mpr fun l hl => (hline l (List.mem_of_mem_take hl)).2
  refine ⟨?_, placed_record (List.forall₂_take k hrs) 0, ?_⟩
  · rw [h.main, hlines]
  · rw [h.idx, hlines]

theorem recoversAppended_of_fit (hsized : w.dir.WellSized) (hhint : w.dir.usableHint = none)
    (hmain : w.dir.main = some bytes) (hdecl : declareAll opts.indexes noIndexes = .ok secs)
    (hfit : w.dir.linesFit (splitLines bytes).1 = true) {r : Record} {line : Bytes}
    (hr : Written r line) (hgood : w.dir.goodRecord r = true) (hend : w.dir.endFits r = true)
    (hlen : lengthWraps (line.length + 1) = false)
    (hroom : (appended (reopened opts w) line).dir.mainBytes.length < maxFileSize)
    (hnext : (appended (reopened opts w) line).dir.usableHint = none) :
    RecoversAppended opts w r line := by
  obtain ⟨hopened, hcut⟩ := reopened_of_fit hsized hhint hmain hdecl hfit
  have hcutBytes : (reopened opts w).dir.mainBytes = joinLines (w.dir.goodLines bytes) := by
    rw [Dir.mainBytes, hcut, Option.getD_some]
  have hblob : ∀ gen, (appended (reopened opts w) line).dir.blobBytes gen = w.dir.blobBytes gen :=
    hopened.untouched.blob
  have hall : ∀ l ∈ w.dir.goodLines bytes, w.dir.goodLine l = true := fun l hl =>
    List.mem_takeWhile_imp hl
  have hlog : (appended (reopened opts w) line).dir.main
      = some (joinLines (w.dir.goodLines bytes ++ [line])) := by
    show some ((reopened opts w).dir.mainBytes ++ (line ++ [newline])) = _
    rw [hcutBytes, joinLines_append]
    rfl
  have hmem : ∀ l ∈ w.dir.goodLines bytes ++ [line], newline ∉ l := by
    intro l hl
    rcases List.mem_append.mp hl with hl | hl
    · exact splitLines_lines bytes l (List.takeWhile_sublist _ |>.mem hl)
    · rw [List.mem_singleton.mp hl]
      exact hr.newline_not_mem
  have hlines : (splitLines (joinLines (w.dir.goodLines bytes ++ [line]))).1
      = w.dir.goodLines bytes ++ [line] := by
    have := splitLines_joinLines hmem (List.not_mem_nil : newline ∉ [])
    rw [List.append_nil] at this
    rw [this]
  have hkept : (appended (reopened opts w) line).dir.goodLines
      (joinLines (w.dir.goodLines bytes ++ [line])) = w.dir.goodLines bytes ++ [line] := by
    rw [Dir.goodLines, hlines, goodLine_congr hblob]
    refine List.takeWhile_eq_self_iff.mpr fun l hl => ?_
    rcases List.mem_append.mp hl with hl | hl
    · exact hall l hl
    · rw [List.mem_singleton.mp hl, hr.goodLine, hgood]
  have hfit' : (appended (reopened opts w) line).dir.linesFit
      (splitLines (joinLines (w.dir.goodLines bytes ++ [line]))).1 = true := by
    rw [hlines, linesFit_congr hblob]
    refine Dir.linesFit_append hall (Dir.linesFit_takeWhile hfit) ?_
    rw [Dir.linesFit, hr.unmarshal]
    show (w.dir.endFits r && (!w.dir.goodRecord r || _)) = true
    rw [hend, hgood, hlen]
    rfl
  have hsized' : (appended (reopened opts w) line).dir.WellSized :=
    ⟨hroom, fun gen => by rw [hblob]; exact hsized.2 gen⟩
  obtain ⟨hopened', hcut'⟩ := reopened_of_fit hsized' hnext hlog hdecl hfit'
  rw [hkept] at hopened' hcut'
  refine ⟨hcut'.trans hlog.symm, ?_⟩
  have hplaced : placed 0 (w.dir.goodLines bytes ++ [line]) = placed 0 (w.dir.goodLines bytes) ++
      [⟨r.readBack, (joinLines (w.dir.goodLines bytes)).length, line.length + 1⟩] := by
    rw [placed_append (fun l hl => Dir.decodes_of_goodLine (hall l hl)), placed, hr.unmarshal,
      Nat.zero_add]
    rfl
  rw [hopened'.store.idx, hopened.store.idx, hplaced, Indexes.replay_append, hcutBytes]

end Appended

/-- **Recovery.**  Without a usable hint, `Open` recovers exactly the longest good
prefix of the log if and only if the lines it reaches fit the machine's integers.
It then recovers a log of appended records that was cut at any byte up to its last
whole record, and a record appended to what it recovered. -/
theorem recovers_iff_linesFit {w : World} {opts : Options} {secs : SecIndexes} {bytes : Bytes}
    (hmain : w.dir.main = some bytes) (hsized : w.dir.WellSized)
    (hhint : w.dir.usableHint = none) (hdecl : declareAll opts.indexes noIndexes = .ok secs) :
    (Recovers opts secs w ↔ w.dir.linesFit (splitLines bytes).1 = true) ∧
    (w.dir.linesFit (splitLines bytes).1 = true →
      (∀ rs lines c k, List.Forall₂ Written rs lines → (∀ r ∈ rs, w.dir.goodRecord r = true) →
        bytes = (joinLines lines).take c → (joinLines (lines.take k)).length ≤ c →
        (k < lines.length → c < (joinLines (lines.take (k + 1))).length) →
        RecoversCut opts secs w rs lines k) ∧
      (∀ r line, Written r line → w.dir.goodRecord r = true → w.dir.endFits r = true →
        lengthWraps (line.length + 1) = false →
        (appended (reopened opts w) line).dir.mainBytes.length < maxFileSize →
        (appended (reopened opts w) line).dir.usableHint = none →
        RecoversAppended opts w r line)) := by
  have hbytes : w.dir.mainBytes = bytes := by rw [Dir.mainBytes, hmain, Option.getD_some]
  refine ⟨⟨fun h => ?_, recovers_of_fit hsized hhint hmain hdecl⟩, fun hfit => ⟨?_, ?_⟩⟩
  · have happlied := h.applied
    rw [hbytes] at happlied
    exact @fit_of_applied w.dir hsized _ 0 happlied
  · intro rs lines c k hrs hgood hcut hk hmax
    exact recoversCut_of_recovers hmain (recovers_of_fit hsized hhint hmain hdecl hfit) hrs hgood
      hcut hk hmax
  · intro r line hr hgood hend hlen hroom hnext
    exact recoversAppended_of_fit hsized hhint hmain hdecl hfit hr hgood hend hlen hroom hnext

/-- A record for the key `a`, and the first bytes of a second one. -/
def tornLog : Bytes :=
  joinLines [[0x7B, 0x22, 0x6B, 0x22, 0x3A, 0x22, 0x61, 0x22, 0x7D]] ++ [0x7B, 0x22, 0x6B]

/-- The files of a store with that log. -/
def withLog (bytes : Bytes) : World :=
  { dir := { main := some bytes }, now := ⟨0, Millis.zero_bounded⟩ }

theorem withLog_wellSized {bytes : Bytes} (h : bytes.length < maxFileSize) :
    (withLog bytes).dir.WellSized := ⟨h, fun _ => (by decide : 0 < maxFileSize)⟩

/-- The torn log fits, so its first record is recovered. -/
theorem tornLog_recovered :
    (withLog tornLog).dir.linesFit (splitLines tornLog).1 = true ∧
      Recovers {} noIndexes (withLog tornLog) :=
  have hfit : (withLog tornLog).dir.linesFit (splitLines tornLog).1 = true := by decide +kernel
  ⟨hfit, (recovers_iff_linesFit rfl (withLog_wellSized (by decide +kernel)) rfl rfl).1.mpr hfit⟩

/-- A record of the key `a` whose blob reference has offset 2^63 - 1 and length 1:
`{"k":"a","b":{"o":9223372036854775807,"n":1}}`. -/
def overflowLog : Bytes :=
  joinLines [[0x7B, 0x22, 0x6B, 0x22, 0x3A, 0x22, 0x61, 0x22, 0x2C, 0x22, 0x62, 0x22, 0x3A,
    0x7B, 0x22, 0x6F, 0x22, 0x3A, 0x39, 0x32, 0x32, 0x33, 0x33, 0x37, 0x32, 0x30, 0x33, 0x36, 0x38,
    0x35, 0x34, 0x37, 0x37, 0x35, 0x38, 0x30, 0x37, 0x2C, 0x22, 0x6E, 0x22, 0x3A, 0x31, 0x7D, 0x7D]]

/-- The end of that reference overflows to a negative number: replay applies the
record although there is no blob file at all. -/
theorem overflowing_ref_applied :
    (withLog overflowLog).dir.goodLines overflowLog = [] ∧
      ((reopened {} (withLog overflowLog)).db.idx.pk.get [0x61]).isSome = true ∧
      ¬ Recovers {} noIndexes (withLog overflowLog) := by
  have hgood : (withLog overflowLog).dir.goodLines overflowLog = [] := by decide +kernel
  have hget : ((reopened {} (withLog overflowLog)).db.idx.pk.get [0x61]).isSome = true := by
    decide +kernel
  refine ⟨hgood, hget, fun h => ?_⟩
  have hidx := h.idx
  rw [show (withLog overflowLog).dir.mainBytes = overflowLog from rfl, hgood] at hidx
  rw [hidx] at hget
  cases hget

end NteeDb.Properties.Recovery
