import NteeDb.Core.Carried
import NteeDb.Core.Read
import NteeDb.Invariants.Open
import NteeDb.Invariants.Scan
import NteeDb.Verified.Journal

/-!
# The log as a journal

A sound log is a list of lines that all decode, fit the machine's integers and
refer to blobs that are there (`LogSound`).  It is a journal of its keys: the last
record about a key decides its primary entry (`pkOf`) and what the store holds for it
(`Dir.cells`).  Here is what appending a line, overwriting one in place with a
line of the same shape, and growing the blob files do to it.
-/

namespace NteeDb.Core

open NteeDb.Verified
open Journal Lines OrderedTree JsonCodec

/-! ## Sound logs -/

/-- The blob that the reference names is there. -/
structure Dir.Holds (d : Dir) (b : BlobRef) : Prop where
  gen : 0 ≤ b.gen
  present : (d.blob b.gen).isSome = true
  off : 0 ≤ b.off
  size : 0 ≤ b.size
  fits : b.off.toInt + b.size.toInt ≤ (d.blobBytes b.gen).length

/-- A record as it is read from a line of the store's own log. -/
structure Dir.SoundRecord (d : Dir) (r : Record) : Prop where
  key : Utf8.valid r.key = true
  ix : Settled r.ix
  blob : ∀ b, r.blob = some b → d.Holds b

/-- A line of the store's own log; one without index values is written as its
record would be. -/
structure Dir.SoundLine (d : Dir) (line : Bytes) (r : Record) : Prop where
  newline_not_mem : newline ∉ line
  unmarshal : unmarshalRecord line = some r
  fits : lengthWraps (line.length + 1) = false
  record : d.SoundRecord r
  canonical : r.ix.items = [] → marshalRecord r = some line

/-- The log is made of sound lines. -/
structure LogSound (d : Dir) (ls : List Bytes) : Prop where
  main : d.mainBytes = joinLines ls
  lines : ∀ l ∈ ls, ∃ r, d.SoundLine l r
  sized : d.WellSized

theorem Dir.SoundRecord.good {d : Dir} {r : Record} (h : d.SoundRecord r) :
    d.goodRecord r = true := by
  rw [Dir.goodRecord]
  cases hb : r.blob with
  | none => rfl
  | some b => exact decide_eq_true (h.blob b hb).fits

theorem Dir.SoundRecord.endFits {d : Dir} (hd : d.WellSized) {r : Record} (h : d.SoundRecord r) :
    d.endFits r = true := by
  rw [Dir.endFits]
  cases hb : r.blob with
  | none => rfl
  | some b =>
      have hb := h.blob b hb
      have hlen : ((d.blobBytes b.gen).length : Int) < 2 ^ 63 := Int.ofNat_lt.mpr (hd.2 b.gen)
      have hoff : (0 : Int) ≤ b.off.toInt := Int64.le_iff_toInt_le.mp hb.off
      have hsize : (0 : Int) ≤ b.size.toInt := Int32.le_iff_toInt_le.mp hb.size
      have hfits := hb.fits
      show b.endFits (d.blobBytes b.gen).length = true
      rw [BlobRef.endFits, Bool.and_eq_true, Bool.or_eq_true, decide_eq_true_iff,
        decide_eq_true_iff]
      exact ⟨by omega, Or.inl (by omega)⟩

section Sound

variable {d : Dir} {ls : List Bytes}

theorem LogSound.decodes (h : LogSound d ls) : ∀ l ∈ ls, unmarshalRecord l ≠ none := by
  intro l hl
  obtain ⟨r, hr⟩ := h.lines l hl
  rw [hr.unmarshal]
  exact Option.some_ne_none r

theorem LogSound.good (h : LogSound d ls) : ∀ l ∈ ls, d.goodLine l = true := by
  intro l hl
  obtain ⟨r, hr⟩ := h.lines l hl
  rw [Dir.goodLine, hr.unmarshal]
  exact hr.record.good

theorem linesFit_of_sound (hd : d.WellSized) (h : ∀ l ∈ ls, ∃ r, d.SoundLine l r) :
    d.linesFit ls = true := by
  induction ls with
  | nil => rfl
  | cons l ls ih =>
      rw [List.forall_mem_cons] at h
      obtain ⟨⟨r, hr⟩, hls⟩ := h
      rw [Dir.linesFit, hr.unmarshal]
      show (d.endFits r && (!d.goodRecord r || (!lengthWraps (l.length + 1) && d.linesFit ls))) =
        true
      rw [hr.record.endFits hd, hr.record.good, hr.fits, ih hls]
      rfl

theorem LogSound.splitLines (h : LogSound d ls) : splitLines d.mainBytes = (ls, []) := by
  have hls : ∀ l ∈ ls, newline ∉ l := fun l hl => by
    obtain ⟨r, hr⟩ := h.lines l hl
    exact hr.newline_not_mem
  have hsplit := splitLines_joinLines hls (List.not_mem_nil : newline ∉ [])
  rw [List.append_nil] at hsplit
  rw [h.main, hsplit]

theorem LogSound.length_lt (h : LogSound d ls) : (joinLines ls).length < 2 ^ 63 := by
  rw [← h.main]
  exact h.sized.1

end Sound

/-! ## The journal of the keys -/

/-- The primary entry that a record at its position stands for. -/
def Placed.entry (p : Placed) : PkEntry :=
  { key := p.record.key, off := Int64.ofNat p.off, n := Int32.ofNat p.len, ix := p.record.ix,
    exp := p.record.exp }

/-- A tombstone stands for none. -/
def Placed.entry? (p : Placed) : Option PkEntry := if p.record.deleted then none else some p.entry

/-- The key a record is about. -/
def Placed.key (p : Placed) : Bytes := p.record.key

/-- The primary entries of records at their positions. -/
def pkOf (ps : List Placed) : PkIndex :=
  ps.foldl (change Placed.key (fun key => { key := key }) Placed.entry?) Tree.empty

/-- The last record about a key. -/
def lastRecord (ls : List Bytes) (key : Bytes) : Option Placed :=
  lastWith Placed.key key (placed 0 ls)

theorem Placed.key_of_entry? {p : Placed} {e : PkEntry} (h : p.entry? = some e) :
    e.key = p.key := by
  rw [Placed.entry?] at h
  split at h
  · cases h
  · cases h
    rfl

theorem Indexes.apply_pk (ix : Indexes) (p : Placed) :
    (ix.apply p.record (Int64.ofNat p.off) (Int32.ofNat p.len)).pk
      = change Placed.key (fun key => { key := key }) Placed.entry? ix.pk p := by
  rw [Indexes.apply, change, Placed.entry?, Record.isTombstone]
  cases p.record.deleted with
  | true => exact Indexes.delete_pk ix p.record.key
  | false => exact Indexes.put_pk ix rfl p.record.ix

/-- What replay does to the primary entries. -/
theorem Indexes.replay_pk (ix : Indexes) (ps : List Placed) :
    (ix.replay ps).pk
      = ps.foldl (change Placed.key (fun key => { key := key }) Placed.entry?) ix.pk := by
  induction ps generalizing ix with
  | nil => rfl
  | cons p ps ih =>
      rw [List.foldl_cons, ← Indexes.apply_pk]
      exact ih _

theorem pkOf_get (ps : List Placed) (key : Bytes) :
    (pkOf ps).get key = (lastWith Placed.key key ps).bind Placed.entry? :=
  get?_foldl (fun _ => rfl) (fun _ _ => Placed.key_of_entry?) ps key

theorem pkOf_placed_get (ls : List Bytes) (key : Bytes) :
    (pkOf (placed 0 ls)).get key = (lastRecord ls key).bind Placed.entry? := pkOf_get _ key

/-- Appending a line that decodes. -/
theorem placed_append_line {ls : List Bytes} (hls : ∀ l ∈ ls, unmarshalRecord l ≠ none)
    {line : Bytes} {r : Record} (hr : unmarshalRecord line = some r) :
    placed 0 (ls ++ [line])
      = placed 0 ls ++ [⟨r, (joinLines ls).length, line.length + 1⟩] := by
  rw [placed_append hls, placed, hr, Nat.zero_add]
  rfl

theorem lastRecord_append {ls : List Bytes} (hls : ∀ l ∈ ls, unmarshalRecord l ≠ none)
    {line : Bytes} {r : Record} (hr : unmarshalRecord line = some r) (key : Bytes) :
    lastRecord (ls ++ [line]) key
      = if r.key = key then some ⟨r, (joinLines ls).length, line.length + 1⟩
        else lastRecord ls key := by
  rw [lastRecord, placed_append_line hls hr, lastWith_append_singleton]
  rfl

/-- A placed record is the decoded line at its position. -/
theorem mem_placed {ls : List Bytes} {pos : Nat} {p : Placed} (h : p ∈ placed pos ls) :
    ∃ pre line post, ls = pre ++ line :: post ∧ unmarshalRecord line = some p.record ∧
      p.off = pos + (joinLines pre).length ∧ p.len = line.length + 1 := by
  induction ls generalizing pos with
  | nil => cases h
  | cons l ls ih =>
      rw [placed] at h
      cases hr : unmarshalRecord l with
      | none =>
          rw [hr] at h
          cases h
      | some r =>
          rw [hr] at h
          rcases List.mem_cons.mp h with rfl | h
          · exact ⟨[], l, ls, rfl, hr, rfl, rfl⟩
          · obtain ⟨pre, line, post, rfl, hline, hoff, hlen⟩ := ih h
            refine ⟨l :: pre, line, post, rfl, hline, ?_, hlen⟩
            rw [hoff, length_joinLines_cons]
            omega

theorem lastRecord_some {ls : List Bytes} {key : Bytes} {p : Placed}
    (h : lastRecord ls key = some p) : p.record.key = key ∧
      ∃ pre line post, ls = pre ++ line :: post ∧ unmarshalRecord line = some p.record ∧
        p.off = (joinLines pre).length ∧ p.len = line.length + 1 := by
  obtain ⟨hmem, hkey⟩ := lastWith_some h
  obtain ⟨pre, line, post, hls, hline, hoff, hlen⟩ := mem_placed hmem
  rw [Nat.zero_add] at hoff
  exact ⟨hkey, pre, line, post, hls, hline, hoff, hlen⟩

/-! ## Reading a record back -/

/-- The bytes of a line in the middle of the log. -/
theorem readAt_line (pre : List Bytes) (line : Bytes) (post : List Bytes)
    (hlt : (joinLines (pre ++ line :: post)).length < 2 ^ 63) :
    readAt (joinLines (pre ++ line :: post)) (Int64.ofNat (joinLines pre).length) (line.length + 1)
      = .ok (line ++ [newline]) := by
  have hoff : (Int64.ofNat (joinLines pre).length).toInt = (joinLines pre).length := by
    refine Int64.toInt_ofNat_of_lt (Nat.lt_of_le_of_lt ?_ hlt)
    rw [joinLines_append, List.length_append]
    exact Nat.le_add_right _ _
  have hpos : ¬ Int64.ofNat (joinLines pre).length < 0 := by
    rw [Int64.lt_iff_toInt_lt, hoff]
    exact Int.not_lt.mpr (Int.natCast_nonneg _)
  have hslice : ((joinLines (pre ++ line :: post)).drop (joinLines pre).length).take
      (line.length + 1) = line ++ [newline] := by
    rw [joinLines_append, List.drop_left, joinLines_cons]
    have hcons : line ++ newline :: joinLines post
        = (line ++ [newline]) ++ joinLines post := by simp
    rw [hcons]
    exact List.take_left' (by simp)
  rw [readAt, if_neg hpos, hoff, Int.toNat_natCast, hslice, if_pos (by simp)]

theorem trimNewline_line (line : Bytes) : trimNewline (line ++ [newline]) = line := by
  rw [trimNewline, if_pos (by simp), List.dropLast_concat]

/-- An entry with the place of a record reads as that record. -/
theorem LogSound.recordAt {d : Dir} {ls : List Bytes} (h : LogSound d ls) {key : Bytes} {p : Placed}
    (hp : lastRecord ls key = some p) {e : PkEntry} (hoff : e.off = Int64.ofNat p.off)
    (hn : e.n = Int32.ofNat p.len) : 0 ≤ e.n ∧ d.recordAt e = .ok p.record := by
  obtain ⟨_, pre, line, post, hls, hline, hpoff, hplen⟩ := lastRecord_some hp
  obtain ⟨r, hr⟩ := h.lines line (by rw [hls]; simp)
  have hlen : p.len < 2 ^ 31 := by
    have hfits := hr.fits
    rw [lengthWraps, decide_eq_false_iff_not] at hfits
    omega
  have hnInt : e.n.toInt = p.len := by rw [hn, Int32.toInt_ofNat_of_lt hlen]
  refine ⟨?_, ?_⟩
  · rw [Int32.le_iff_toInt_le, hnInt]
    exact Int.natCast_nonneg _
  · have hlt := h.length_lt
    rw [hls] at hlt
    rw [Dir.recordAt, hnInt, Int.toNat_natCast, hoff, hpoff, hplen, h.main, hls,
      readAt_line pre line post hlt]
    simp only [trimNewline_line, hline]

/-! ## What the log holds -/

/-- The value of a record: its own, or its blob's. -/
def Dir.valueOf (d : Dir) (r : Record) : Bytes :=
  match r.blob with
  | none => r.value
  | some b => ((d.blobBytes b.gen).drop b.off.toInt.toNat).take b.size.toInt.toNat

/-- What the store holds for a key. -/
structure Cell where
  value : Bytes
  exp : Int64
  counter : Bool
  ix : AnyMap
  blob : Bool
  deriving DecidableEq

/-- What a record that is not a tombstone holds. -/
def Dir.cellOf (d : Dir) (r : Record) : Cell :=
  ⟨d.valueOf r, r.exp, r.counter, r.ix, r.blob.isSome⟩

/-- What a record leaves in the store for its key. -/
def Dir.cell? (d : Dir) (r : Record) : Option Cell :=
  if r.deleted then none else some (d.cellOf r)

/-- The complete lines of the log. -/
def Dir.log (d : Dir) : List Bytes := (splitLines d.mainBytes).1

/-- What the log holds for every key. -/
def Dir.cells (d : Dir) (key : Bytes) : Option Cell :=
  (lastRecord d.log key).bind fun p => d.cell? p.record

theorem LogSound.log {d : Dir} {ls : List Bytes} (h : LogSound d ls) : d.log = ls := by
  rw [Dir.log, h.splitLines]

theorem LogSound.cells_eq {d : Dir} {ls : List Bytes} (h : LogSound d ls) (key : Bytes) :
    d.cells key = (lastRecord ls key).bind fun p => d.cell? p.record := by
  rw [Dir.cells, h.log]

/-! ## Files that are extended -/

/-- The blob files that the lines refer to are still there, perhaps longer. -/
def Dir.Extends (d d' : Dir) (ls : List Bytes) : Prop :=
  ∀ l ∈ ls, ∀ r b, unmarshalRecord l = some r → r.blob = some b →
    (d'.blob b.gen).isSome = true ∧ ∃ more, d'.blobBytes b.gen = d.blobBytes b.gen ++ more

theorem Dir.extends_of_blobs {d d' : Dir} {ls : List Bytes} (hls : ∀ l ∈ ls, ∃ r, d.SoundLine l r)
    (h : d'.blobs = d.blobs) : d.Extends d' ls := by
  intro l hl r b hr hb
  obtain ⟨r', hr'⟩ := hls l hl
  rw [hr'.unmarshal] at hr
  cases hr
  have hblob : ∀ gen, d'.blob gen = d.blob gen := fun gen => by rw [Dir.blob, Dir.blob, h]
  refine ⟨by rw [hblob]; exact (hr'.record.blob b hb).present, [], ?_⟩
  rw [Dir.blobBytes, Dir.blobBytes, hblob, List.append_nil]

theorem Dir.extends_appendBlob {d : Dir} {ls : List Bytes} (hls : ∀ l ∈ ls, ∃ r, d.SoundLine l r)
    (gen : Int64) (data : Bytes) : d.Extends (d.appendBlob gen data) ls := by
  intro l hl r b hr hb
  obtain ⟨r', hr'⟩ := hls l hl
  rw [hr'.unmarshal] at hr
  cases hr
  have hpresent := (hr'.record.blob b hb).present
  rw [Dir.blob_appendBlob, Dir.blobBytes_appendBlob]
  by_cases heq : b.gen = gen
  · rw [if_pos heq, if_pos heq, heq]
    exact ⟨rfl, data, rfl⟩
  · rw [if_neg heq, if_neg heq]
    exact ⟨hpresent, [], (List.append_nil _).symm⟩

section Extends

variable {d d' : Dir} {ls : List Bytes}

theorem Dir.Holds.extend {b : BlobRef} (h : d.Holds b) (hsome : (d'.blob b.gen).isSome = true)
    {more : Bytes} (hmore : d'.blobBytes b.gen = d.blobBytes b.gen ++ more) : d'.Holds b := by
  refine ⟨h.gen, hsome, h.off, h.size, ?_⟩
  have hfits := h.fits
  rw [hmore, List.length_append]
  omega

theorem Dir.SoundLine.extend {l : Bytes} {r : Record} (hext : d.Extends d' ls) (hl : l ∈ ls)
    (h : d.SoundLine l r) : d'.SoundLine l r := by
  refine ⟨h.newline_not_mem, h.unmarshal, h.fits, ⟨h.record.key, h.record.ix, fun b hb => ?_⟩,
    h.canonical⟩
  obtain ⟨hsome, more, hmore⟩ := hext l hl r b h.unmarshal hb
  exact (h.record.blob b hb).extend hsome hmore

/-- A blob that is there keeps its bytes. -/
theorem Dir.SoundLine.valueOf_extend {l : Bytes} {r : Record} (hext : d.Extends d' ls) (hl : l ∈ ls)
    (h : d.SoundLine l r) : d'.valueOf r = d.valueOf r := by
  rw [Dir.valueOf, Dir.valueOf]
  cases hb : r.blob with
  | none => rfl
  | some b =>
      obtain ⟨_, more, hmore⟩ := hext l hl r b h.unmarshal hb
      have hb := h.record.blob b hb
      have hoff : (0 : Int) ≤ b.off.toInt := Int64.le_iff_toInt_le.mp hb.off
      have hsize : (0 : Int) ≤ b.size.toInt := Int32.le_iff_toInt_le.mp hb.size
      have hfits := hb.fits
      dsimp only
      rw [hmore, List.drop_append_of_le_length (by omega), List.take_append_of_le_length]
      rw [List.length_drop]
      omega

theorem LogSound.extend (h : LogSound d ls) (hmain : d'.mainBytes = d.mainBytes)
    (hext : d.Extends d' ls) (hsized : d'.WellSized) : LogSound d' ls := by
  refine ⟨hmain.trans h.main, fun l hl => ?_, hsized⟩
  obtain ⟨r, hr⟩ := h.lines l hl
  exact ⟨r, hr.extend hext hl⟩

theorem LogSound.cells_extend (h : LogSound d ls) (hmain : d'.mainBytes = d.mainBytes)
    (hext : d.Extends d' ls) : d'.cells = d.cells := by
  funext key
  have hlog : d'.log = d.log := by rw [Dir.log, Dir.log, hmain]
  rw [Dir.cells, hlog, h.log, h.cells_eq]
  cases hp : lastRecord ls key with
  | none => rfl
  | some p =>
      obtain ⟨_, pre, line, post, rfl, hline, _, _⟩ := lastRecord_some hp
      have hmem : line ∈ pre ++ line :: post := by simp
      obtain ⟨r, hr⟩ := h.lines line hmem
      have hrec : r = p.record := by
        rw [hr.unmarshal] at hline
        exact Option.some.inj hline
      simp only [Option.bind_some, Dir.cell?, Dir.cellOf, ← hrec, hr.valueOf_extend hext hmem]

end Extends

/-- Appending a sound line. -/
theorem LogSound.append {d : Dir} {ls : List Bytes} (h : LogSound d ls) {line : Bytes} {r : Record}
    (hline : d.SoundLine line r)
    (hroom : d.mainBytes.length + (line.length + 1) < maxFileSize) :
    LogSound (d.appendMain (line ++ [newline])) (ls ++ [line]) := by
  have hlines : ∀ l ∈ ls ++ [line], ∃ r, d.SoundLine l r := by
    intro l hl
    rcases List.mem_append.mp hl with hl | hl
    · exact h.lines l hl
    · rw [List.mem_singleton.mp hl]
      exact ⟨r, hline⟩
  have hext : d.Extends (d.appendMain (line ++ [newline])) (ls ++ [line]) :=
    Dir.extends_of_blobs hlines rfl
  refine ⟨?_, fun l hl => ?_, ?_, h.sized.2⟩
  · show d.mainBytes ++ (line ++ [newline]) = _
    rw [h.main, joinLines_append]
    rfl
  · obtain ⟨r, hr⟩ := hlines l hl
    exact ⟨r, hr.extend hext hl⟩
  · show (d.mainBytes ++ (line ++ [newline])).length < maxFileSize
    rw [List.length_append, List.length_append]
    exact hroom

/-- What the log holds after a sound line has been appended. -/
theorem LogSound.cells_append {d : Dir} {ls : List Bytes} (h : LogSound d ls) {line : Bytes}
    {r : Record} (hline : d.SoundLine line r)
    (hroom : d.mainBytes.length + (line.length + 1) < maxFileSize) :
    (d.appendMain (line ++ [newline])).cells = Function.update d.cells r.key (d.cell? r) := by
  funext key
  have hcell : ∀ r, (d.appendMain (line ++ [newline])).cell? r = d.cell? r := fun _ => rfl
  rw [(h.append hline hroom).cells_eq, lastRecord_append h.decodes hline.unmarshal,
    Function.update_apply]
  by_cases hkey : r.key = key
  · rw [if_pos hkey, if_pos hkey.symm, Option.bind_some, hcell]
  · rw [if_neg hkey, if_neg (Ne.symm hkey), h.cells_eq]
    rfl

theorem Record.readBack_key {r : Record} (h : Utf8.valid r.key = true) : r.readBack.key = r.key :=
  Utf8.sanitize_eq_self h

/-- The line written for a record that can be stored. -/
theorem Written.soundLine {d : Dir} {r : Record} {line : Bytes} (h : Written r line)
    (hkey : Utf8.valid r.key = true) (hix : Storable r.ix)
    (hblob : ∀ b, r.blob = some b → d.Holds b) (hfits : lengthWraps (line.length + 1) = false) :
    d.SoundLine line r.readBack := by
  refine ⟨h.newline_not_mem, h.unmarshal, hfits, ⟨?_, settled_readBack hix.scalar, hblob⟩,
    fun hnil => ?_⟩
  · rw [Record.readBack_key hkey]
    exact hkey
  · have hempty : r.ix = Tree.empty := Tree.ext_items (hix.readBack_eq_nil hnil)
    have hback : r.readBack = r := by
      rw [Record.readBack, Utf8.sanitize_eq_self hkey, hempty]
      show { r with ix := Tree.empty } = r
      rw [← hempty]
    rw [hback]
    exact h.marshal

/-! ## Lines of the same shape -/

/-- The lines have the same length and their records differ in the value only. -/
def SameShape (l l' : Bytes) : Prop :=
  l'.length = l.length ∧ ∃ r r', unmarshalRecord l = some r ∧ unmarshalRecord l' = some r' ∧
    r'.key = r.key ∧ r'.deleted = r.deleted ∧ r'.ix = r.ix ∧ r'.exp = r.exp

theorem SameShape.refl {l : Bytes} {r : Record} (h : unmarshalRecord l = some r) : SameShape l l :=
  ⟨rfl, r, r, h, h, rfl, rfl, rfl, rfl⟩

section Shape

variable {ls ls' : List Bytes}

theorem length_joinLines_sameShape (h : List.Forall₂ SameShape ls ls') :
    (joinLines ls').length = (joinLines ls).length := by
  induction h with
  | nil => rfl
  | cons hl _ ih => rw [length_joinLines_cons, length_joinLines_cons, hl.1, ih]

theorem pkOf_sameShape (h : List.Forall₂ SameShape ls ls') :
    pkOf (placed 0 ls') = pkOf (placed 0 ls) := by
  have hfold : ∀ (ls ls' : List Bytes) (pos : Nat) (t : PkIndex), List.Forall₂ SameShape ls ls' →
      (placed pos ls').foldl (change Placed.key (fun key => { key := key }) Placed.entry?) t
        = (placed pos ls).foldl (change Placed.key
          (fun key => { key := key }) Placed.entry?) t := by
    intro ls ls' pos t h
    induction h generalizing pos t with
    | nil => rfl
    | cons hl _ ih =>
        obtain ⟨hlen, r, r', hr, hr', hkey, hdel, hix, hexp⟩ := hl
        rw [placed, hr', placed, hr]
        dsimp only
        rw [List.foldl_cons, List.foldl_cons, hlen, ih]
        congr 1
        rw [change, change, Placed.entry?, Placed.entry?, Placed.entry, Placed.entry, Placed.key,
          Placed.key]
        dsimp only
        rw [hkey, hdel, hix, hexp]
  exact hfold ls ls' 0 Tree.empty h

end Shape

/-! ## Overwriting a line in place -/

theorem overwrite_line {pre post : List Bytes} {line data : Bytes} {pos : Nat}
    (hfits : pos + data.length ≤ line.length) :
    overwrite (joinLines (pre ++ line :: post)) ((joinLines pre).length + pos) data
      = joinLines (pre ++ overwrite line pos data :: post) := by
  have hgap : ∀ m, pos ≤ m → List.replicate (pos - m) (0 : UInt8) = [] := by
    intro m hm
    rw [Nat.sub_eq_zero_of_le hm]
    rfl
  have hpos : pos ≤ line.length := by omega
  rw [overwrite, overwrite, joinLines_append, joinLines_append, joinLines_cons, joinLines_cons,
    hgap _ hpos, List.append_nil, List.take_append, List.drop_append,
    List.take_of_length_le (by omega), List.drop_eq_nil_of_le (by omega : _ ≤ _)]
  have hlong : (joinLines pre).length + pos
      - (joinLines pre ++ (line ++ newline :: joinLines post)).length = 0 := by
    simp only [List.length_append]
    omega
  rw [hlong, Nat.add_sub_cancel_left, List.take_append_of_le_length hpos,
    show (joinLines pre).length + pos + data.length - (joinLines pre).length = pos + data.length by
      omega, List.drop_append_of_le_length hfits]
  simp

/-- The records around the last one about a key. -/
theorem placed_split {ls : List Bytes} {pos : Nat} {before after : List Placed} {p : Placed}
    (h : placed pos ls = before ++ p :: after) :
    ∃ pre line post, ls = pre ++ line :: post ∧ placed pos pre = before ∧
      (∀ l ∈ pre, unmarshalRecord l ≠ none) ∧ unmarshalRecord line = some p.record ∧
      p.off = pos + (joinLines pre).length ∧ p.len = line.length + 1 ∧
      placed (p.off + p.len) post = after := by
  induction ls generalizing pos before with
  | nil =>
      cases before with
      | nil => cases h
      | cons q before => cases h
  | cons l ls ih =>
      rw [placed] at h
      cases hr : unmarshalRecord l with
      | none =>
          rw [hr] at h
          cases before with
          | nil => cases h
          | cons q before => cases h
      | some r =>
          rw [hr] at h
          cases before with
          | nil =>
              obtain ⟨rfl, rfl⟩ := List.cons.inj h
              exact ⟨[], l, ls, rfl, rfl, by simp, hr, rfl, rfl, rfl⟩
          | cons q before =>
              obtain ⟨hq, htail⟩ := List.cons.inj h
              obtain ⟨pre, line, post, rfl, hpre, hdec, hline, hoff, hlen, hpost⟩ := ih htail
              refine ⟨l :: pre, line, post, rfl, ?_, ?_, hline, ?_, hlen, hpost⟩
              · rw [placed, hr, hpre, ← hq]
              · exact List.forall_mem_cons.mpr ⟨by rw [hr]; exact Option.some_ne_none r, hdec⟩
              · rw [hoff, length_joinLines_cons]
                omega

/-- The last record about a key, with the lines around it. -/
theorem lastRecord_split {ls : List Bytes} {key : Bytes} {p : Placed}
    (h : lastRecord ls key = some p) :
    ∃ pre line post, ls = pre ++ line :: post ∧ (∀ l ∈ pre, unmarshalRecord l ≠ none) ∧
      unmarshalRecord line = some p.record ∧ p.off = (joinLines pre).length ∧
      p.len = line.length + 1 ∧ ∀ q ∈ placed (p.off + p.len) post, q.key ≠ key := by
  obtain ⟨before, after, hsplit, hafter⟩ := lastWith_split h
  obtain ⟨pre, line, post, hls, _, hdec, hline, hoff, hlen, rfl⟩ := placed_split hsplit
  rw [Nat.zero_add] at hoff
  exact ⟨pre, line, post, hls, hdec, hline, hoff, hlen, hafter⟩

/-- Overwriting the last line about a key with one of the same shape changes what is
known of that key only. -/
theorem lastRecord_overwrite {pre post : List Bytes} {line line' : Bytes} {r r' : Record}
    (hdec : ∀ l ∈ pre, unmarshalRecord l ≠ none) (hr : unmarshalRecord line = some r)
    (hr' : unmarshalRecord line' = some r') (hlen : line'.length = line.length)
    (hkey : r'.key = r.key)
    (hlast : ∀ q ∈ placed ((joinLines pre).length + (line.length + 1)) post, q.key ≠ r.key)
    (key : Bytes) :
    lastRecord (pre ++ line' :: post) key
      = if r.key = key then some ⟨r', (joinLines pre).length, line.length + 1⟩
        else lastRecord (pre ++ line :: post) key := by
  have hsplit : ∀ (l : Bytes) (s : Record), unmarshalRecord l = some s →
      lastRecord (pre ++ l :: post) key
        = ((lastWith Placed.key key (placed ((joinLines pre).length + (l.length + 1)) post)).or
            (if s.key = key then some ⟨s, (joinLines pre).length, l.length + 1⟩ else none)).or
          (lastWith Placed.key key (placed 0 pre)) := by
    intro l s hs
    have hone := lastWith_append_singleton Placed.key key ([] : List Placed)
      ⟨s, (joinLines pre).length, l.length + 1⟩
    rw [List.nil_append, lastWith_nil] at hone
    rw [lastRecord, placed_append hdec, placed, hs, Nat.zero_add, lastWith_append]
    dsimp only
    rw [show ∀ (a : Placed) (as : List Placed), a :: as = [a] ++ as from fun _ _ => rfl,
      lastWith_append, hone]
    rfl
  rw [hsplit line' r' hr', hsplit line r hr, hkey, hlen]
  by_cases heq : r.key = key
  · have hnone := lastWith_eq_none.mpr (heq ▸ hlast)
    rw [hnone, if_pos heq, if_pos heq]
    rfl
  · rw [if_neg heq, if_neg heq, if_neg heq]

end NteeDb.Core
