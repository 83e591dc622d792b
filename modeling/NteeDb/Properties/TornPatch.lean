import NteeDb.Invariants.Counters
import NteeDb.Invariants.Exact
import NteeDb.Invariants.Sessions

/-!
# A torn update of a counter

An in-place update writes twenty bytes over twenty bytes of the log, and a crash may leave any
of them old and any of them new.  Both texts are a sign and nineteen digits, and so is every
mixture of them.  The line around the text does not depend on it, so it stays a line of the same
length that holds the same record, but for the value.

The update trusts its entry for the place of the line and compares only the length of what it
would write now.  A key that is not valid UTF-8 does not pass this test: written again it is
shorter (`patchPosition_written`).

## Main results

* `mixes_form` — a mixture of two counter texts is a counter text.
* `scanned_modify` — a scan finds the records it found, but for the one whose line changed.
* `entryOf_of_sound` — the entries of a sound store are those of lines of its log.
* `torn_patch` — what any mixture leaves in a log, and so in the logs of all runs.
-/

namespace NteeDb.Properties.TornPatch

open NteeDb.Verified
open Json Decimal Lines OrderedTree JsonCodec
open NteeDb.Core

/-! ## Mixtures of two texts -/

/-- A sign and nineteen digits. -/
def SignAndDigits (t : Bytes) : Prop :=
  ∃ sign ds, t = sign :: ds ∧ (sign = 0x2B ∨ sign = 0x2D) ∧ ds.length = 19 ∧
    ∀ b ∈ ds, isDigit b = true

/-- Each of the twenty bytes is taken from one of two texts. -/
def Mixes (old new t : Bytes) : Prop :=
  t.length = 20 ∧ ∀ i < 20, t[i]? = old[i]? ∨ t[i]? = new[i]?

theorem SignAndDigits.counterText {t : Bytes} (h : SignAndDigits t) : CounterText t := by
  obtain ⟨sign, ds, rfl, hsign, hlen, hds⟩ := h
  exact .of_digits hsign hlen hds

theorem signAndDigits_of_parse {t : Bytes} {v : Int64} (h : parseCounter t = some v) :
    SignAndDigits t := by
  cases t with
  | nil => cases h
  | cons sign ds =>
      rw [parseCounter] at h
      split at h
      · next hform => exact ⟨sign, ds, rfl, hform.2.1, hform.1, List.all_eq_true.mp hform.2.2⟩
      · cases h

theorem mixes_form {old new t : Bytes} (hold : SignAndDigits old) (hnew : SignAndDigits new)
    (h : Mixes old new t) : SignAndDigits t := by
  obtain ⟨sign, ds, rfl, hsign, hlen, hds⟩ := hold
  obtain ⟨sign', ds', rfl, hsign', hlen', hds'⟩ := hnew
  obtain ⟨hlength, hbytes⟩ := h
  cases t with
  | nil => cases hlength
  | cons c cs =>
      have hcs : cs.length = 19 := by
        rw [List.length_cons] at hlength
        omega
      refine ⟨c, cs, rfl, ?_, hcs, ?_⟩
      · rcases hbytes 0 (by omega) with hc | hc
        · cases hc
          exact hsign
        · cases hc
          exact hsign'
      · intro b hb
        obtain ⟨i, hi⟩ := List.mem_iff_getElem?.mp hb
        have hlt : i < cs.length := (List.getElem?_eq_some_iff.mp hi).1
        have hone := hbytes (i + 1) (by omega)
        rw [List.getElem?_cons_succ, List.getElem?_cons_succ, List.getElem?_cons_succ, hi] at hone
        rcases hone with hone | hone
        · exact hds b (List.mem_of_getElem? hone.symm)
        · exact hds' b (List.mem_of_getElem? hone.symm)

/-! ## A record of the log and its entry -/

/-- The log: complete lines, one of them told apart, and what follows the last newline. -/
structure LogAround (d : Dir) (before : List Bytes) (line : Bytes) (after : List Bytes)
    (tail : Bytes) : Prop where
  main : d.main = some (joinLines (before ++ line :: after) ++ tail)
  before : ∀ l ∈ before, newline ∉ l
  after : ∀ l ∈ after, newline ∉ l
  tail : newline ∉ tail
  sized : d.mainBytes.length < maxFileSize

/-- The entry of a record that was written after the lines `before`. -/
structure EntryOf (e : PkEntry) (before : List Bytes) (line : Bytes) (r : Record) : Prop where
  written : Written r line
  live : r.isTombstone = false
  off : e.off.toInt = (joinLines before).length
  n : e.n.toInt = line.length + 1
  ix : e.ix.items = [] → r.ix.items = []

section Patch

variable {d : Dir} {before after : List Bytes} {line tail : Bytes} {r : Record} {e : PkEntry}

theorem LogAround.mainBytes (h : LogAround d before line after tail) :
    d.mainBytes = joinLines before ++ (line ++ [newline]) ++ (joinLines after ++ tail) := by
  rw [Dir.mainBytes, h.main, joinLines_append, joinLines_cons]
  simp

theorem LogAround.split (h : LogAround d before line after tail) (hline : newline ∉ line) :
    splitLines d.mainBytes = (before ++ line :: after, tail) := by
  rw [Dir.mainBytes, h.main]
  refine splitLines_joinLines (List.forall_mem_append.mpr ⟨h.before, ?_⟩) h.tail
  exact List.forall_mem_cons.mpr ⟨hline, h.after⟩

/-- The entry reads its record. -/
theorem EntryOf.recordAt (he : EntryOf e before line r) (h : LogAround d before line after tail) :
    d.recordAt e = .ok r.readBack := by
  have hbytes := h.mainBytes
  have hsized := h.sized
  have hbefore : (joinLines before).length < maxFileSize := by
    rw [hbytes, List.length_append, List.length_append] at hsized
    omega
  have hfits : lengthWraps (line ++ [newline]).length = false := by
    have hlt := e.n.toInt_lt
    rw [he.n] at hlt
    rw [lengthWraps, decide_eq_false_iff_not, List.length_append, List.length_singleton]
    omega
  have hread := readAt_appended hbefore hfits (joinLines after ++ tail)
  have hoff : e.off = fileSize (joinLines before) := by
    apply Int64.toInt_inj.mp
    rw [he.off, fileSize, Int64.toInt_ofNat_of_lt hbefore]
  have hn : e.n.toInt.toNat = (Int32.ofNat (line ++ [newline]).length).toInt.toNat := by
    rw [toInt_of_fits hfits, he.n, List.length_append, List.length_singleton, Nat.cast_add]
    rfl
  rw [Dir.recordAt, hoff, hn, hbytes, hread]
  dsimp only
  rw [trimNewline_line, he.written.unmarshal]

/-- What an in-place update has checked. -/
theorem patchPosition_some {e : PkEntry} {r : Record} {pos : Nat}
    (h : patchPosition e r = some pos) :
    e.ix.items = [] ∧ ∃ line, marshalRecord r = some line ∧ Int32.ofNat line.length + 1 = e.n := by
  by_cases hix : e.ix.items = []
  · refine ⟨hix, ?_⟩
    rw [patchPosition, if_neg (not_not.mpr hix)] at h
    obtain ⟨line, hline, h⟩ := Option.bind_eq_some_iff.mp h
    by_cases hn : Int32.ofNat line.length + 1 = e.n
    · exact ⟨line, hline, hn⟩
    · rw [if_pos hn] at h
      cases h
  · rw [patchPosition, if_pos hix] at h
    cases h

theorem length_counterHead (key : Bytes) : (counterHead key).length = (escape key).length + 13 := by
  simp only [counterHead, List.length_append, List.length_cons, List.length_nil]
  omega

/-- An in-place update is made only if the key is valid UTF-8, and it goes to the value. -/
theorem patchPosition_written (he : EntryOf e before line r) {a : Int64}
    (hvalue : counterValue r.readBack = .ok a) {pos : Nat}
    (hpos : patchPosition e r.readBack = some pos) :
    HoldsCounter r ∧ Utf8.valid r.key = true ∧ pos = (counterHead r.key).length := by
  obtain ⟨hix, again, hagain, hn⟩ := patchPosition_some hpos
  have hback : r.readBack.ix.items = [] := by
    show (Tree.setAll Tree.empty (r.ix.items.map readBackMember)).items = []
    rw [he.ix hix]
    rfl
  obtain ⟨hc, -⟩ := holdsCounter_of_value ⟨line, he.written.unmarshal⟩ he.live hback hvalue
  have hr : HoldsCounter r := ⟨he.written.text, hc.value, he.ix hix, hc.blob, he.live⟩
  have hline := Option.some.inj (he.written.marshal.symm.trans (marshalRecord_counter hr))
  have hagain' : again = counterHead (Utf8.sanitize r.key)
      ++ (r.value ++ counterTail r.counter r.exp) :=
    Option.some.inj (hagain.symm.trans (marshalRecord_counter hc))
  obtain ⟨hle, hself⟩ := length_escape_sanitize r.key
  -- the two lines differ in the key alone
  have hlength := congrArg List.length hline
  have hlength' := congrArg List.length hagain'
  rw [List.length_append, length_counterHead] at hlength hlength'
  have hlt := e.n.toInt_lt
  rw [he.n] at hlt
  have hn' : e.n = Int32.ofNat (again.length + 1) := by
    rw [← hn, Int32.ofNat_add]
    rfl
  have hexact : (again.length : Int) + 1 = line.length + 1 := by
    rw [← he.n, hn', Int32.toInt_ofNat_of_lt (by omega)]
    push_cast
    rfl
  have hkey : Utf8.sanitize r.key = r.key := hself (by omega)
  refine ⟨hr, Utf8.sanitize_eq_iff.mp hkey, ?_⟩
  have hplace := patchPosition_counter hc hagain hn' hix
  rw [hpos] at hplace
  have hpos' : pos = (counterHead (Utf8.sanitize r.key)).length := Option.some.inj hplace
  rw [hpos', hkey]

end Patch

/-! ## The scan of the patched log -/

/-- A record with another value. -/
def withValue (t : Bytes) (a : Applied) : Applied :=
  { a with record := { a.record with value := t } }

/-- A scan finds the records it found, and the changed one where it was. -/
theorem scanned_modify {d : Dir} {line line' : Bytes} {r : Record} {t : Bytes}
    (hline : unmarshalRecord line = some r) (hblob : r.blob = none)
    (hline' : unmarshalRecord line' = some { r with value := t })
    (hlen : line'.length = line.length) (before after : List Bytes) (off : Int64) :
    d.scanned (before ++ line' :: after) off
      = ((d.scanned (before ++ line :: after) off).1.modify before.length (withValue t),
        (d.scanned (before ++ line :: after) off).2) := by
  have hsame : lineLen line' = lineLen line := by rw [lineLen, hlen, lineLen]
  induction before generalizing off with
  | nil =>
      have hgood : d.dangling r = false := by rw [Dir.dangling, hblob]
      have hgood' : d.dangling { r with value := t } = false := by
        rw [Dir.dangling]
        dsimp only
        rw [hblob]
      rw [List.nil_append, List.nil_append, d.scanned_cons, d.scanned_cons, hline, hline']
      simp only [hgood, hgood', hsame]
      rfl
  | cons l before ih =>
      rw [List.cons_append, List.cons_append, d.scanned_cons, d.scanned_cons]
      cases unmarshalRecord l with
      | none => rfl
      | some s =>
          dsimp only
          by_cases hdangling : d.dangling s = true
          · rw [if_pos hdangling, if_pos hdangling]
            rfl
          · rw [if_neg hdangling, if_neg hdangling, ih]
            rfl

/-- The records that a full scan of the log finds, and where it ends. -/
def fullScan (d : Dir) : Except Err (List Applied × Int64) := scanMainLog d.main 0 d.takeDown []

theorem LogAround.scan {d : Dir} {before after : List Bytes} {line tail : Bytes}
    (h : LogAround d before line after tail) (hline : newline ∉ line) :
    fullScan d = .ok (d.scanned (before ++ line :: after) 0) := by
  have hsplit := h.split hline
  rw [Dir.mainBytes, h.main, Option.getD_some] at hsplit
  have hscan : fullScan d
      = .ok (d.scanned (splitLines (joinLines (before ++ line :: after) ++ tail)).1 0) := by
    rw [fullScan, h.main]
    rfl
  rw [hscan, hsplit]

/-! ## A torn update -/

/-- Writing within the first of two parts. -/
theorem overwrite_append {xs ys data : Bytes} {pos : Nat} (h : pos + data.length ≤ xs.length) :
    overwrite (xs ++ ys) pos data = overwrite xs pos data ++ ys := by
  have hgap : pos - (xs ++ ys).length = pos - xs.length := by
    rw [List.length_append]
    omega
  rw [overwrite, overwrite, List.take_append_of_le_length (by omega),
    List.drop_append_of_le_length h, hgap]
  simp only [List.append_assoc]

theorem length_overwrite {bytes data : Bytes} {pos : Nat} (h : pos + data.length ≤ bytes.length) :
    (overwrite bytes pos data).length = bytes.length := by
  simp only [overwrite, List.length_append, List.length_take, List.length_replicate,
    List.length_drop]
  omega

/-- Bytes of the line are replaced. -/
theorem LogAround.overwrite {d : Dir} {before after : List Bytes} {line tail t : Bytes} {pos : Nat}
    (h : LogAround d before line after tail) (hinside : pos + t.length ≤ line.length) :
    LogAround (d.patch ((joinLines before).length + pos) t) before (overwrite line pos t) after
      tail := by
  have hwithin : (joinLines before).length + pos + t.length
      ≤ (joinLines (before ++ line :: after)).length := by
    rw [joinLines_append, List.length_append, length_joinLines_cons]
    omega
  have hmain : (d.patch ((joinLines before).length + pos) t).main
      = some (joinLines (before ++ Core.overwrite line pos t :: after) ++ tail) := by
    rw [Dir.patch, Dir.mainBytes, h.main]
    refine congrArg some ?_
    rw [Option.getD_some, overwrite_append hwithin, overwrite_line hinside]
  refine ⟨hmain, h.before, h.after, h.tail, ?_⟩
  have hsized := h.sized
  rw [Dir.mainBytes, h.main, Option.getD_some, joinLines_append, List.length_append,
    List.length_append, length_joinLines_cons] at hsized
  rw [Dir.mainBytes, hmain, Option.getD_some, joinLines_append, List.length_append,
    List.length_append, length_joinLines_cons, length_overwrite hinside]
  exact hsized

/-- The place within a line that an update writes to: it fits in 64 bits. -/
theorem EntryOf.place {d : Dir} {before after : List Bytes} {line tail : Bytes} {r : Record}
    {e : PkEntry} (he : EntryOf e before line r) (h : LogAround d before line after tail)
    {pos : Nat} (hinside : pos ≤ line.length) :
    (e.off + Int64.ofNat pos).toInt.toNat = (joinLines before).length + pos := by
  have hsized := h.sized
  have hmax : maxFileSize = 2 ^ 63 := rfl
  rw [h.mainBytes, List.length_append, List.length_append, List.length_append] at hsized
  rw [Int64.toInt_add, he.off, Int64.toInt_ofNat_of_lt (by omega),
    Int.bmod_eq_of_le (by omega) (by omega)]
  omega

/-- The value of a counter is a sign and nineteen digits. -/
theorem form_of_counterValue {r : Record} {a : Int64} (h : counterValue r = .ok a) :
    SignAndDigits r.value := by
  rw [counterValue] at h
  split at h
  · cases h
  · cases hv : parseCounter r.value with
    | none =>
        rw [hv] at h
        cases h
    | some v => exact signAndDigits_of_parse hv

/-- The second log differs from the first in the value of one record: every line keeps its bounds,
the entry reads the record with another value, of a sign and nineteen digits, and a full scan finds
the records it found and ends where it ended. -/
def DamagesOnly (d torn : Dir) (before : List Bytes) (line : Bytes) (after : List Bytes)
    (tail : Bytes) (e : PkEntry) (old : Record) (t : Bytes) : Prop :=
  SignAndDigits t ∧
  ∃ line' found fin,
    splitLines d.mainBytes = (before ++ line :: after, tail) ∧
    splitLines torn.mainBytes = (before ++ line' :: after, tail) ∧ line'.length = line.length ∧
    unmarshalRecord line = some old ∧ unmarshalRecord line' = some { old with value := t } ∧
    torn.recordAt e = .ok { old with value := t } ∧
    fullScan d = .ok (found, fin) ∧
    fullScan torn = .ok (found.modify before.length (withValue t), fin)

/-- A mixture at the place where the update of a counter writes. -/
theorem damagesOnly_of_mixes {d : Dir} {before after : List Bytes} {line tail : Bytes}
    (hlog : LogAround d before line after tail) {r : Record} {e : PkEntry}
    (he : EntryOf e before line r) {old : Record} (hread : d.recordAt e = .ok old)
    {a : Int64} (hold : counterValue old = .ok a) {pos : Nat}
    (hpos : patchPosition e old = some pos) (b : Int64) {t : Bytes}
    (hmix : Mixes old.value (formatCounter b) t) :
    DamagesOnly d (d.patch (e.off + Int64.ofNat pos).toInt.toNat t) before line after tail e old
      t := by
  rw [he.recordAt hlog] at hread
  cases hread
  obtain ⟨hr, hkey, rfl⟩ := patchPosition_written he hold hpos
  have hform : SignAndDigits t :=
    mixes_form (form_of_counterValue hold) (signAndDigits_of_parse (parse_format b)) hmix
  have ht := hform.counterText
  have hlen : t.length = r.value.length := ht.length.trans hr.value.length.symm
  have hline := Option.some.inj (he.written.marshal.symm.trans (marshalRecord_counter hr))
  have hinside : (counterHead r.key).length + t.length ≤ line.length := by
    rw [hline, List.length_append, List.length_append, hlen]
    omega
  have hover : overwrite line (counterHead r.key).length t
      = counterHead r.key ++ (t ++ counterTail r.counter r.exp) := by
    rw [hline]
    exact overwrite_counter hlen
  have hsame := length_overwrite hinside
  have htorn := hlog.overwrite hinside
  rw [hover] at hsame htorn
  rw [he.place hlog (by omega)]
  -- the line with the mixture is the line of the record with another value
  have hwritten : Written { r with value := t }
      (counterHead r.key ++ (t ++ counterTail r.counter r.exp)) :=
    ⟨hr.text, he.written.scalar, marshalRecord_counter (hr.withValue ht)⟩
  have hentry : EntryOf e before (counterHead r.key ++ (t ++ counterTail r.counter r.exp))
      { r with value := t } := ⟨hwritten, he.live, he.off, by rw [hsame]; exact he.n, he.ix⟩
  have hnewline := he.written.newline_not_mem
  have hnewline' := hwritten.newline_not_mem
  refine ⟨hform, _, _, _, hlog.split hnewline, htorn.split hnewline', hsame,
    he.written.unmarshal, hwritten.unmarshal, hentry.recordAt htorn, hlog.scan hnewline, ?_⟩
  rw [htorn.scan hnewline']
  exact congrArg Except.ok
    (scanned_modify he.written.unmarshal hr.blob hwritten.unmarshal hsame before after 0)

/-- In a sound store the entry of every key without index values is that of a line of the log. -/
theorem entryOf_of_sound {m : Mode} {w : World} (h : Sound m w) (hopen : w.db.closed = false)
    {key : Bytes} {e : PkEntry} (hget : w.db.idx.pk.get key = some e) (hix : e.ix.items = []) :
    ∃ before line after r, LogAround w.dir before line after [] ∧ EntryOf e before line r := by
  obtain ⟨p, hp⟩ := h.located hopen hget
  obtain ⟨before, line, after, hls, -, hline, hoff, hlen, -⟩ := lastRecord_split hp.last
  have hlog := h.1.1.log
  rw [hls] at hlog
  have hnewline : ∀ l ∈ before ++ line :: after, newline ∉ l := by
    intro l hl
    obtain ⟨s, hs⟩ := hlog.lines l hl
    exact hs.newline_not_mem
  rw [List.forall_mem_append, List.forall_mem_cons] at hnewline
  obtain ⟨r, hr⟩ := hlog.lines line (by simp)
  cases hr.unmarshal.symm.trans hline
  have hempty : p.record.ix.items = [] := by
    have hnil : e.ix = Tree.empty := Tree.ext_items hix
    rw [hp.ix, hnil]
    rfl
  have hmain : w.dir.main = some (joinLines (before ++ line :: after) ++ []) := by
    have hbytes := hlog.main
    rw [List.append_nil, ← hbytes]
    cases hm : w.dir.main with
    | none =>
        rw [Dir.mainBytes, hm, joinLines_append, joinLines_cons] at hbytes
        simp at hbytes
    | some bytes =>
        rw [Dir.mainBytes, hm]
        rfl
  have hlt : line.length + 1 < 2 ^ 31 := by
    have hfits := hr.fits
    rw [lengthWraps, decide_eq_false_iff_not] at hfits
    omega
  have hroom : (joinLines before).length < 2 ^ 63 := by
    have hsized : w.dir.mainBytes.length < 2 ^ 63 := hlog.sized.1
    rw [hlog.main, joinLines_append, List.length_append] at hsized
    omega
  refine ⟨before, line, after, p.record,
    ⟨hmain, hnewline.1, hnewline.2.2, List.not_mem_nil, hlog.sized.1⟩,
    ⟨text_of_unmarshal hline, hr.record.ix.storable.scalar, hr.canonical hempty⟩, hp.live, ?_, ?_,
    fun _ => hempty⟩
  · rw [hp.off, hoff]
    exact Int64.toInt_ofNat_of_lt hroom
  · rw [hp.n, hlen, Int32.toInt_ofNat_of_lt hlt]
    push_cast
    rfl

/-- **A torn update damages only its counter.**  Take any log, the entry of one of its lines, and
what an update from the value that is read there to `b` would overwrite.  Whatever mixture of the
old and the new text is left, the log differs in the value of this record alone.  The entries of
every open store of a run are such entries. -/
theorem torn_patch :
    (∀ (d : Dir) (before : List Bytes) (line : Bytes) (after : List Bytes) (tail : Bytes)
      (r : Record) (e : PkEntry), LogAround d before line after tail → EntryOf e before line r →
      ∀ (old : Record) (a b : Int64) (pos : Nat) (t : Bytes), d.recordAt e = .ok old →
        counterValue old = .ok a → patchPosition e old = some pos →
        Mixes old.value (formatCounter b) t →
        DamagesOnly d (d.patch (e.off + Int64.ofNat pos).toInt.toNat t)
          before line after tail e old t) ∧
    ∀ (m : Mode) (now : Millis) (w : World), Reaches (Allowed m) { now := now } w →
      w.wrapped = false → w.db.closed = false →
      ∀ (key : Bytes) (e : PkEntry), w.db.idx.pk.get key = some e →
      ∀ (old : Record) (a b : Int64) (pos : Nat) (t : Bytes), w.dir.recordAt e = .ok old →
        counterValue old = .ok a → patchPosition e old = some pos →
        Mixes old.value (formatCounter b) t →
        ∃ before line after,
          DamagesOnly w.dir (w.dir.patch (e.off + Int64.ofNat pos).toInt.toNat t)
            before line after [] e old t := by
  constructor
  · intro d before line after tail r e hlog he old a b pos t hread hold hpos hmix
    exact damagesOnly_of_mixes hlog he hread hold hpos b hmix
  · intro m now w hrun hwrap hopen key e hget old a b pos t hread hold hpos hmix
    obtain ⟨before, line, after, r, hlog, he⟩ :=
      entryOf_of_sound (sound_run hrun hwrap) hopen hget (patchPosition_some hpos).1
    exact ⟨before, line, after, damagesOnly_of_mixes hlog he hread hold hpos b hmix⟩

/-- A store with the record `a`, a counter `c` that stands at 9, and the record `z`. -/
def counting : World := runEvents { now := ⟨0, Millis.zero_bounded⟩ }
  [.openStore {} [], .op (.put .sorted [0x61] [0x31] []) [], .op (.incr [0x63] 9 []) [],
   .op (.put .sorted [0x7A] [0x32] []) []]

theorem reaches_counting :
    Reaches (Allowed ⟨false, true⟩) { now := ⟨0, Millis.zero_bounded⟩ } counting :=
  reaches_runEvents .start ⟨.open_of_ok (fun _ hd => absurd hd List.not_mem_nil) answered_nil
    (by decide +kernel) (by rintro ⟨⟩),
    .op_of_ok (show Utf8.valid [0x61] = true by decide) answered_nil (by decide +kernel),
    .op_of_ok (show Utf8.valid [0x63] = true by decide) answered_nil (by decide +kernel),
    .op_of_ok (show Utf8.valid [0x7A] = true by decide) answered_nil (by decide +kernel), trivial⟩

/-- The entry of the counter. -/
def countingEntry : PkEntry := { key := [0x63], off := 18, n := 46 }

/-- The record of the counter. -/
def countingRecord : Record := { key := [0x63], value := formatCounter 9, counter := true }

/-- The keys and values of the records that a full scan finds. -/
def scannedRecords (d : Dir) : Option (List (Bytes × Bytes)) :=
  (fullScan d).toOption.map fun found => found.1.map fun a => (a.record.key, a.record.value)

/-- Of an update from 9 to 10 the tens are written and the ones are not: the counter stands at 19,
and the records before and after it are found. -/
theorem nineteen_left :
    (∃ before line after, DamagesOnly counting.dir (counting.dir.patch 32 (formatCounter 19)) before
      line after [] countingEntry countingRecord (formatCounter 19)) ∧
    scannedRecords (counting.dir.patch 32 (formatCounter 19))
      = some [([0x61], [0x31]), ([0x63], formatCounter 19), ([0x7A], [0x32])] := by
  refine ⟨?_, by decide +kernel⟩
  have hmix : Mixes countingRecord.value (formatCounter 10) (formatCounter 19) := by
    unfold Mixes
    decide +kernel
  exact torn_patch.2 _ _ counting reaches_counting (by decide +kernel) (by decide +kernel) [0x63]
    countingEntry (by decide +kernel) countingRecord 9 10 14 _ (by decide +kernel)
    (by decide +kernel) (by decide +kernel) hmix

end NteeDb.Properties.TornPatch
