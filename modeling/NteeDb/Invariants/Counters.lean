import NteeDb.Invariants.CounterText
import NteeDb.Invariants.Lookups

/-!
# Counters of a sound store

A counter operation on a sound store computes its step on the value the log holds and
leaves the next value in the log, whether it writes over the old text or appends a
record; it touches no other key and keeps the expiry of a live counter.

## Main results

* `LogSound.patch` — writing over a counter's text changes the value of its cell and
  nothing else.
* `counterUpdate_spec` — what an update returns and what it leaves.
-/

namespace NteeDb.Core

open NteeDb.Verified
open Faults Lines OrderedTree JsonCodec

/-! ## Writing over a counter's text -/

/-- Bytes of the log are replaced. -/
def Dir.patch (d : Dir) (pos : Nat) (data : Bytes) : Dir :=
  { d with main := some (overwrite d.mainBytes pos data) }

theorem text_of_unmarshal {line : Bytes} {r : Record} (h : unmarshalRecord line = some r) :
    r.text = [] := by
  obtain ⟨s, _, rfl⟩ := Option.map_eq_some_iff.mp h
  rw [Record.ofWire]
  split
  · rfl
  · next htext => exact not_not.mp htext

theorem HoldsCounter.withValue {r : Record} (h : HoldsCounter r) {t : Bytes} (ht : CounterText t) :
    HoldsCounter { r with value := t } := ⟨h.text, ht, h.ix, h.blob, h.live⟩

/-- The line of a counter with another value. -/
theorem Dir.SoundLine.withValue {d : Dir} {line : Bytes} {r : Record} (h : d.SoundLine line r)
    (hc : HoldsCounter r) {t : Bytes} (ht : CounterText t) :
    ∃ line', line'.length = line.length ∧ d.SoundLine line' { r with value := t } ∧
      (counterHead r.key).length + t.length ≤ line.length ∧
      overwrite line (counterHead r.key).length t = line' := by
  have hlen : t.length = r.value.length := ht.length.trans hc.value.length.symm
  have hold := (h.canonical hc.ix).symm.trans (marshalRecord_counter hc)
  cases Option.some.inj hold
  have hnew : Written { r with value := t }
      (counterHead r.key ++ (t ++ counterTail r.counter r.exp)) :=
    ⟨hc.text, h.record.ix.storable.scalar, marshalRecord_counter (hc.withValue ht)⟩
  have hsame : (counterHead r.key ++ (t ++ counterTail r.counter r.exp)).length
      = (counterHead r.key ++ (r.value ++ counterTail r.counter r.exp)).length := by
    simp only [List.length_append, hlen]
  have hsound := hnew.soundLine (d := d) h.record.key h.record.ix.storable h.record.blob
    (by rw [hsame]; exact h.fits)
  have hback : Record.readBack { r with value := t } = { r with value := t } := by
    rw [Record.readBack]
    dsimp only
    rw [Utf8.sanitize_eq_self h.record.key, h.record.ix.readBack_eq]
  rw [hback] at hsound
  refine ⟨_, hsame, hsound, ?_, overwrite_counter hlen⟩
  simp only [List.length_append, hlen]
  omega

/-- Writing over a counter's text: the lines keep their shape, and of all the cells only
the counter's own changes, in its value. -/
theorem LogSound.patch {d : Dir} {ls : List Bytes} (h : LogSound d ls) {key : Bytes} {p : Placed}
    (hp : lastRecord ls key = some p) (hc : HoldsCounter p.record) {t : Bytes}
    (ht : CounterText t) : ∃ ls', List.Forall₂ SameShape ls ls' ∧
      LogSound (d.patch (p.off + (counterHead key).length) t) ls' ∧
      (d.patch (p.off + (counterHead key).length) t).cells
        = Function.update d.cells key
            (some ⟨t, p.record.exp, p.record.counter, p.record.ix, false⟩) := by
  obtain ⟨hkey, -⟩ := lastRecord_some hp
  obtain ⟨pre, line, post, rfl, hdec, hline, hoff, hlen, hlast⟩ := lastRecord_split hp
  obtain ⟨r, hr⟩ := h.lines line (by simp)
  cases hr.unmarshal.symm.trans hline
  obtain ⟨line', hsame, hsound, hfits, hover⟩ := hr.withValue hc ht
  have hmain : (d.patch (p.off + (counterHead key).length) t).mainBytes
      = joinLines (pre ++ line' :: post) := by
    show overwrite d.mainBytes (p.off + (counterHead key).length) t = _
    rw [h.main, hoff, ← hkey, overwrite_line hfits, hover]
  have hshape : List.Forall₂ SameShape (pre ++ line :: post) (pre ++ line' :: post) := by
    have hrefl : ∀ ls' : List Bytes, (∀ l ∈ ls', l ∈ pre ++ line :: post) →
        List.Forall₂ SameShape ls' ls' := by
      intro ls' hmem
      refine List.forall₂_same.mpr fun l hl => ?_
      obtain ⟨s, hs⟩ := h.lines l (hmem l hl)
      exact SameShape.refl hs.unmarshal
    refine List.rel_append (hrefl pre fun l hl => by simp [hl]) (List.Forall₂.cons ?_
      (hrefl post fun l hl => by simp [hl]))
    exact ⟨hsame, p.record, _, hline, hsound.unmarshal, rfl, rfl, rfl, rfl⟩
  have hlines : ∀ l ∈ pre ++ line' :: post, ∃ r, d.SoundLine l r := by
    intro l hl
    rw [List.mem_append, List.mem_cons] at hl
    rcases hl with hl | rfl | hl
    · exact h.lines l (by simp [hl])
    · exact ⟨_, hsound⟩
    · exact h.lines l (by simp [hl])
  have hext : d.Extends (d.patch (p.off + (counterHead key).length) t) (pre ++ line' :: post) :=
    Dir.extends_of_blobs hlines rfl
  have hlog : LogSound (d.patch (p.off + (counterHead key).length) t) (pre ++ line' :: post) := by
    refine ⟨hmain, fun l hl => ?_, ?_, h.sized.2⟩
    · obtain ⟨s, hs⟩ := hlines l hl
      exact ⟨s, hs.extend hext hl⟩
    · rw [hmain, length_joinLines_sameShape hshape, ← h.main]
      exact h.sized.1
  refine ⟨_, hshape, hlog, ?_⟩
  funext k
  rw [hoff, hlen] at hlast
  rw [hlog.cells_eq, lastRecord_overwrite hdec hline hsound.unmarshal hsame rfl (hkey ▸ hlast),
    Function.update_apply, hkey]
  by_cases hk : key = k
  · rw [if_pos hk, if_pos hk.symm, Option.bind_some, Dir.cell?]
    dsimp only
    rw [hc.live]
    simp [Dir.cellOf, Dir.valueOf, hc.blob]
  · rw [if_neg hk, if_neg (Ne.symm hk), h.cells_eq]
    rfl

/-- The world once a counter's text has been written over. -/
def World.patched (w : World) (pos : Nat) (data : Bytes) (a : Ack) : World :=
  { w with dir := w.dir.patch pos data, acked := w.acked.apply (.put a) }

section Patch

variable {m : Mode} {w : World}

theorem DiskSound.sameShape {d d' : Dir} {inode hintInode : Nat} (h : DiskSound d inode hintInode)
    {ls' : List Bytes} (hshape : List.Forall₂ SameShape d.log ls') (hlog : LogSound d' ls')
    (hhint : d'.hint = d.hint) : DiskSound d' inode hintInode := by
  have hls := hlog.log
  rw [← hls] at hlog hshape
  refine ⟨hlog, fun heq es covers hload => ?_, h.order⟩
  rw [hhint] at hload
  exact (h.hint heq es covers hload).sameShape hshape

theorem JobSound.sameShape {d d' : Dir} {inode hintGen : Nat} {j : HintSnapshot}
    (h : JobSound d inode hintGen j) (hshape : List.Forall₂ SameShape d.log d'.log) :
    JobSound d' inode hintGen j :=
  ⟨h.gen, h.handles, h.current, h.scalar, fun heq => (h.hint heq).sameShape hshape⟩

/-- A counter's text is written over. -/
theorem Sound.patch (h : Sound m w) {key : Bytes} {p : Placed}
    (hp : lastRecord w.dir.log key = some p) (hc : HoldsCounter p.record)
    {t : Bytes} (ht : CounterText t) (s : Durable) :
    Sound m { w.patched (p.off + (counterHead key).length) t ⟨key, t, p.record.exp⟩ with
      durable := s } ∧
    (w.dir.patch (p.off + (counterHead key).length) t).cells = Function.update w.dir.cells key
      (some ⟨t, p.record.exp, p.record.counter, p.record.ix, false⟩) := by
  obtain ⟨ls', hshape, hlog, hcells⟩ := h.1.1.log.patch hp hc ht
  have hshape' := hshape
  rw [← hlog.log] at hshape'
  have hbytes : (w.dir.patch (p.off + (counterHead key).length) t).mainBytes.length
      = w.dir.mainBytes.length := by
    rw [hlog.main, length_joinLines_sameShape hshape, ← h.1.1.log.main]
  refine ⟨⟨⟨h.1.1.sameShape hshape hlog rfl, fun hm => (h.1.2.1 hm).update hcells, h.1.2.2⟩,
    fun j hj => (h.2.1 j hj).sameShape hshape', fun hopen => ?_⟩, hcells⟩
  have hstore := h.2.2 hopen
  refine ⟨hstore.carried, rfl, ?_, hstore.handles_eq, hstore.isOpen, hstore.cur_nonneg,
    hstore.cur_present, hstore.highest, hstore.store, hstore.noRelieve, hstore.inStep, ?_⟩
  · show w.db.size = fileSize (w.dir.patch (p.off + (counterHead key).length) t).mainBytes
    rw [hstore.size_eq, fileSize, fileSize, hbytes]
  · show Mirrors (pkOf (placed 0 (w.dir.patch _ t).log)) w.db.idx.pk
    rw [pkOf_sameShape hshape']
    exact hstore.mirrors

end Patch

/-! ## Storing the next value -/

variable {A : Answer → Prop} {m : Mode} {w : World}

/-- The value of a counter's cell. -/
def Cell.counterValue (c : Cell) : Except Err Int64 :=
  if c.blob = true ∨ c.counter = false then .error .notCounter
  else
    match parseCounter c.value with
    | none => .error .notCounter
    | some v => .ok v

/-- The value that an update of a key starts from. -/
def currentValue : Option Cell → Except Err Int64
  | none => .ok 0
  | some c => c.counterValue

theorem counterValue_cell (d : Dir) (r : Record) : counterValue r = (d.cellOf r).counterValue := by
  rw [counterValue, Cell.counterValue]
  have hform' : (d.cellOf r).blob = true ∨ (d.cellOf r).counter = false
      ↔ r.blob ≠ none ∨ r.counter = false := or_congr_left Option.isSome_iff_ne_none
  by_cases hform : r.blob ≠ none ∨ r.counter = false
  · rw [if_pos hform, if_pos (hform'.mpr hform)]
  · have hnone : r.blob = none := not_not.mp (not_or.mp hform).1
    have hvalue : (d.cellOf r).value = r.value := by
      rw [Dir.cellOf, Dir.valueOf, hnone]
    refine (if_neg hform).trans (Eq.trans ?_ (if_neg fun h => hform (hform'.mp h)).symm)
    cases hparse : parseCounter r.value with
    | none => simp only [hvalue, hparse]
    | some v => simp only [hvalue, hparse]

theorem holdsCounter_of_value {r : Record} (hr : ∃ line, unmarshalRecord line = some r)
    (hlive : r.deleted = false) (hix : r.ix.items = []) {v : Int64}
    (hv : counterValue r = .ok v) : HoldsCounter r ∧ r.counter = true := by
  obtain ⟨line, hline⟩ := hr
  rw [counterValue] at hv
  split at hv
  · cases hv
  · next hform =>
      rw [not_or, not_not, Bool.not_eq_false] at hform
      split at hv
      · cases hv
      · next hparse =>
          exact ⟨⟨text_of_unmarshal hline, counterText_of_parse hparse, hix, hform.1, hlive⟩,
            hform.2⟩

theorem counterValue_error {r : Record} {e : Err} (h : counterValue r = .error e) :
    e = .notCounter := by
  rw [counterValue] at h
  split at h
  · cases h
    rfl
  · split at h
    · cases h
      rfl
    · cases h

theorem patchPosition_counter {e : PkEntry} {r : Record} (hc : HoldsCounter r) {line : Bytes}
    (hline : marshalRecord r = some line) (hn : e.n = Int32.ofNat (line.length + 1))
    (hix : e.ix.items = []) : patchPosition e r = some (counterHead r.key).length := by
  have hlen : Int32.ofNat line.length + 1 = e.n := by
    rw [hn, Int32.ofNat_add]
    rfl
  have hpos : (counterHead r.key).length - 5 + 5 = (counterHead r.key).length := by
    simp only [counterHead, List.length_append, List.length_cons, List.length_nil]
    omega
  have hindex : indexOf (valuePattern r.value) line = some ((counterHead r.key).length - 5) := by
    rw [marshalRecord_counter hc] at hline
    cases hline
    exact indexOf_counter r.key r.value r.counter r.exp
  simp [patchPosition, hix, hline, hlen, hindex, hpos]

/-- The ways the in-place update can go. -/
theorem patchCounter_cases (A : Answer → Prop) (w : World) (e : PkEntry) (pos : Nat) (next : Int64)
    {place : Nat} (hplace : (e.off + Int64.ofNat pos).toInt = place) :
    Spec A (fun v => v = w) (patchCounter e pos next)
      (fun _ v => ∃ s, v
        = { w.patched place (formatCounter next) ⟨e.key, formatCounter next, e.exp⟩ with
        durable := s })
      (fun e' v => e' = .crash ∧ (v = w ∨
          v = w.patched place (formatCounter next) ⟨e.key, formatCounter next, e.exp⟩) ∨
        e' = .io ∧ ∃ k, A (.fail k)) := by
  have hnonneg : (0 : Int64) ≤ e.off + Int64.ofNat pos := by
    rw [Int64.le_iff_toInt_le, hplace]
    exact Int.natCast_nonneg place
  unfold patchCounter
  refine Spec.bind_require (fun v _ hneg => absurd hnonneg (of_decide_eq_false hneg)) fun _ => ?_
  refine Spec.bind_getWorld ?_
  rintro w rfl
  rw [hplace, Int.toNat_natCast]
  refine Spec.bind (Spec.fileStep (Q := fun _ v => v =
    w.patched place (formatCounter next) ⟨e.key, formatCounter next, e.exp⟩) ?_ ?_ ?_)
    fun _ => Spec.doWhen (fun _ => Spec.atomicStep ?_ ?_ ?_) ?_
  · rintro v rfl
    rfl
  · exact fun k v hk _ => Or.inr ⟨rfl, k, hk⟩
  · exact fun v _ hv => Or.inl ⟨rfl, Or.inl hv⟩
  · rintro v rfl
    exact ⟨_, rfl⟩
  · exact fun k v hk _ => Or.inr ⟨rfl, k, hk⟩
  · exact fun v _ hv => Or.inl ⟨rfl, Or.inr hv⟩
  · rintro v rfl _
    exact ⟨_, rfl⟩

/-- A counter has been given a value. -/
structure StoredCounter (w v : World) (key : Bytes) (next exp : Int64) : Prop where
  cells : v.dir.cells = Function.update w.dir.cells key
    (some ⟨formatCounter next, exp, true, Tree.empty, false⟩)
  idx : v.db.idx = w.db.idx ∨
    ∃ off n, v.db.idx = w.db.idx.put { key := key, off := off, n := n, exp := exp } Tree.empty

/-- `incrAppend` of a sound store. -/
theorem incrAppend_spec (hA : ∀ k, ¬ A (.fail k)) (h : Sound m w) (hopen : w.db.closed = false)
    {key : Bytes} (hkey : Utf8.valid key = true) (next exp : Int64) :
    Spec A (fun v => v = w) (incrAppend key next exp)
      (fun _ => Unless fun v => Sound m v ∧ Frame w v ∧ StoredCounter w v key next exp)
      (fun e => Unless (Stopped m e)) := by
  have hnone : ∀ nv : Bytes × AnyValue, nv ∉ (Tree.empty : AnyMap) := Tree.not_mem_empty
  have hacc : AcceptedMap w.db.idx.secs Tree.empty := fun nv hnv => absurd hnv (hnone nv)
  unfold incrAppend
  refine Spec.bind_getWorld ?_
  rintro w rfl
  refine Spec.bind ((appendRecord_spec hA h hopen hkey (formatCounter next)
    hacc (fun nv hnv => absurd hnv (hnone nv)) exp w.db.opts.syncEveryWrite true).errors
    fun e v hv hwrap => ?_) fun _ => ?_
  · obtain ⟨hfailed, hio | ⟨-, hscalar⟩⟩ := hv hwrap
    · exact ⟨hfailed, hio⟩
    · exact absurd storable_empty.scalar hscalar
  refine Spec.unless (Keeps.bind (countWrites_keeps 1) fun _ => maybeWriteHint_keeps) ?_
  rintro u _ ⟨hu, hframe, hwrote⟩
  refine (countAndHint_spec hu (hframe.closed.trans hopen) 1).post
    (fun _ v hv _ => ?_) fun _ _ hv => hv.elim
  obtain ⟨hv, hframe', hsame⟩ := hv
  obtain ⟨off, n, hput⟩ := hwrote.idx
  exact ⟨hv, hframe.trans hframe', hsame.cells.trans hwrote.cells,
    Or.inr ⟨off, n, hsame.idx.trans hput⟩⟩

/-- Where the text of a counter is in the log. -/
theorem Located.place {key : Bytes} {e : PkEntry} {p : Placed} (hp : Located w key e p)
    (h : Sound m w) (hc : HoldsCounter p.record) :
    (e.off + Int64.ofNat (counterHead key).length).toInt
      = (p.off + (counterHead key).length : Nat) := by
  obtain ⟨pre, line, post, hls, _, hline, hoff, _, _⟩ := lastRecord_split hp.last
  obtain ⟨r, hr⟩ := h.1.1.log.lines line (by rw [hls]; simp)
  cases hr.unmarshal.symm.trans hline
  have hwritten := (hr.canonical hc.ix).symm.trans (marshalRecord_counter hc)
  have hlt := h.1.1.log.length_lt
  have hfits : p.off + (counterHead key).length ≤ (joinLines w.dir.log).length := by
    rw [hls, joinLines_append, List.length_append, ← hoff, length_joinLines_cons,
      Option.some.inj hwritten, hp.key]
    simp only [List.length_append]
    omega
  rw [hp.off, ← Int64.ofNat_add]
  exact Int64.toInt_ofNat_of_lt (lt_of_le_of_lt hfits hlt)

/-- `storeCounter` of a sound store. -/
theorem storeCounter_spec (hA : ∀ k, ¬ A (.fail k)) (h : Sound m w) (hopen : w.db.closed = false)
    {key : Bytes} {e : PkEntry} (he : w.db.idx.pk.get key = some e) {p : Placed}
    (hp : Located w key e p) {cur : Int64} (hcur : counterValue p.record = .ok cur) (next : Int64) :
    Spec A (fun v => v = w) (storeCounter e p.record next)
      (fun _ => Unless fun v => Sound m v ∧ Frame w v ∧ StoredCounter w v key next e.exp)
      (fun e' => Unless (Stopped m e')) := by
  obtain ⟨_, rfl⟩ := PkIndex.get_eq_some.mp he
  unfold storeCounter
  by_cases hix : e.ix.items = []
  · have hempty : p.record.ix = Tree.empty := by
      have hnil : e.ix = Tree.empty := Tree.ext_items hix
      rw [hp.ix, hnil]
      rfl
    obtain ⟨pre, line, post, hls, _, hline, hoff, hlen, _⟩ := lastRecord_split hp.last
    obtain ⟨hc, hcounter⟩ := holdsCounter_of_value ⟨line, hline⟩ hp.live (by rw [hempty]; rfl) hcur
    obtain ⟨r, hr⟩ := h.1.1.log.lines line (by rw [hls]; simp)
    cases hr.unmarshal.symm.trans hline
    have hpos : patchPosition e p.record = some (counterHead e.key).length := by
      rw [← hp.key]
      exact patchPosition_counter hc (hr.canonical hc.ix) (hlen ▸ hp.n) hix
    rw [hpos]
    have hpatch := fun s => h.patch hp.last hc (counterText_format next) s
    rw [hp.exp] at hpatch
    refine (patchCounter_cases A w e _ next (hp.place h hc)).post ?_ ?_
    · rintro _ v ⟨s, rfl⟩ _
      refine ⟨(hpatch s).1, ⟨rfl, rfl, rfl, rfl, rfl, rfl, rfl, rfl⟩, ?_, Or.inl rfl⟩
      rw [← hcounter, ← hempty]
      exact (hpatch s).2
    · rintro e' v (⟨rfl, rfl | rfl⟩ | ⟨rfl, k, hk⟩) _
      · exact h.1.stopped
      · exact (hpatch w.durable).1.1.stopped
      · exact absurd hk (hA k)
  · have hpos : patchPosition e p.record = none := if_pos hix
    rw [hpos]
    exact incrAppend_spec hA h hopen (h.valid_key hopen he) next e.exp

/-! ## Updates -/

/-- An expired key has been deleted; any other is as it was. -/
def Dropped (w v : World) (key : Bytes) : Prop :=
  v = w ∧ w.live key = w.dir.cells key ∨
  w.live key = none ∧ (w.dir.cells key).isSome = true ∧ v.db.idx = w.db.idx.delete key ∧
    v.dir.cells = Function.update w.dir.cells key none

/-- `liveCounter` of a sound store. -/
theorem liveCounter_spec (hA : ∀ k, ¬ A (.fail k)) (h : Sound m w) (hopen : w.db.closed = false)
    (key : Bytes) :
    Spec A (fun v => v = w) (liveCounter key)
      (fun r v => match r with
        | none => Unless (fun v => Sound m v ∧ Frame w v ∧ Dropped w v key ∧ w.live key = none) v
        | some e => v = w ∧ w.db.idx.pk.get key = some e ∧ w.live key = w.dir.cells key)
      (fun e => Unless (Stopped m e)) := by
  unfold liveCounter
  refine Spec.bind_getWorld ?_
  rintro w rfl
  cases hget : w.db.idx.pk.get key with
  | none =>
      have hlive := h.live_none hopen hget
      have hcells := (h.2.2 hopen).mirrors.cells_of_none hget
      refine Spec.pure ?_
      rintro v rfl _
      exact ⟨h, Frame.refl v, Or.inl ⟨rfl, hlive.trans hcells.symm⟩, hlive⟩
  | some e =>
      obtain ⟨hexpired, hlive⟩ := h.live_some hopen hget
      refine Spec.ite (fun hx => ?_) fun hx => ?_
      · refine Spec.bind (deleteLocked_spec hA h hopen (h.valid_key hopen hget))
          fun _ => Spec.pure fun v hv hwrap => ?_
        obtain ⟨hv, hframe, hidx, hcells⟩ := hv hwrap
        obtain ⟨c, hc, _⟩ := h.exp_of_cell hopen hget
        exact ⟨hv, hframe, Or.inr ⟨hexpired hx, by rw [hc]; rfl, hidx, hcells⟩, hexpired hx⟩
      · refine Spec.pure ?_
        rintro v rfl
        exact ⟨rfl, rfl, hlive (Bool.eq_false_iff.mpr hx)⟩

/-- What an update computes from what the log holds for its key. -/
def stepOn {β : Type} (step : Int64 → Except Err (Option Int64 × β)) (c : Option Cell) :
    Except Err (Option Int64 × β) := (currentValue c).bind step

/-- The expiry that an update leaves. -/
def expiryOn (createExp : Int64) : Option Cell → Int64
  | none => createExp
  | some c => c.exp

/-- What an update leaves. -/
def Updated (w v : World) (key : Bytes) (exp : Int64) (next : Option Int64) : Prop :=
  ∃ u, Dropped w u key ∧ match next with
    | none => v = u
    | some next => StoredCounter u v key next exp

/-- `counterUpdate` of a sound store. -/
theorem counterUpdate_spec {β : Type} (hA : ∀ k, ¬ A (.fail k)) (h : Sound m w)
    (hopen : w.db.closed = false) {key : Bytes} (hkey : Utf8.valid key = true) (createExp : Int64)
    {step : Int64 → Except Err (Option Int64 × β)}
    (hstep : ∀ cur e, step cur = .error e → e = .counterOverflow) :
    Spec A (fun v => v = w) (counterUpdate key createExp step)
      (fun r => Unless fun v => Sound m v ∧ Frame w v ∧ stepOn step (w.live key) = .ok r ∧
        Updated w v key (expiryOn createExp (w.live key)) r.1)
      (fun e => Unless fun v => Failed m e v ∧ ((e = .io ∨ e = .crash) ∨
        Frame w v ∧ stepOn step (w.live key) = .error e ∧ Dropped w v key)) := by
  have hoverflow : ∀ {cur e} {v : World}, Sound m v → step cur = .error e → Failed m e v :=
    fun hv he => hv.failed (by rw [hstep _ _ he]; rintro ⟨⟩)
  unfold counterUpdate
  refine Spec.bind ((liveCounter_spec hA h hopen key).errors
    fun e v hv hwrap => ⟨(hv hwrap).1, Or.inl (hv hwrap).2⟩) fun r => ?_
  cases r with
  | none =>
      refine Spec.bind (Spec.ofExcept (Q := fun r => Unless fun v => Sound m v ∧
        Frame w v ∧ Dropped w v key ∧ w.live key = none ∧ stepOn step (w.live key) = .ok r) ?_ ?_)
        fun r => ?_
      · intro r v hr hv hwrap
        obtain ⟨hv, hframe, hdrop, hnone⟩ := hv hwrap
        exact ⟨hv, hframe, hdrop, hnone, by rw [hnone]; exact hr⟩
      · intro e v he hv hwrap
        obtain ⟨hv, hframe, hdrop, hnone⟩ := hv hwrap
        exact ⟨hoverflow hv he, Or.inr ⟨hframe, by rw [hnone]; exact he, hdrop⟩⟩
      · rcases r with ⟨_ | next, out⟩
        · refine Spec.pure fun v hv hwrap => ?_
          obtain ⟨hv, hframe, hdrop, hnone, hr⟩ := hv hwrap
          exact ⟨hv, hframe, hr, v, hdrop, rfl⟩
        · refine Spec.bind (Q := fun _ => Unless fun v => Sound m v ∧ Frame w v ∧
            stepOn step (w.live key) = .ok (some next, out) ∧
            Updated w v key (expiryOn createExp (w.live key)) (some next)) ?_
            fun _ => Spec.pure fun v hv => hv
          refine Spec.unless (incrAppend_keeps key next createExp) ?_
          rintro u _ ⟨hu, hframe, hdrop, hnone, hr⟩
          refine (incrAppend_spec hA hu (hframe.closed.trans hopen) hkey next createExp).post
            (fun _ v hv hwrap => ?_) fun e v hv hwrap => ⟨(hv hwrap).1, Or.inl (hv hwrap).2⟩
          obtain ⟨hv, hframe', hstored⟩ := hv hwrap
          refine ⟨hv, hframe.trans hframe', hr, u, hdrop, ?_⟩
          rw [hnone]
          exact hstored
  | some e =>
      refine Spec.of_world ?_
      rintro u ⟨rfl, hget, hlive⟩
      obtain ⟨p, hp⟩ := h.located hopen hget
      have hcell : u.live key = some (u.dir.cellOf p.record) := hlive.trans hp.cell
      have hexp : expiryOn createExp (u.live key) = e.exp := by
        rw [hcell]
        exact hp.exp
      have hsame : Dropped u u key := Or.inl ⟨rfl, hlive⟩
      refine Spec.bind ((readRecord_cases A hp).errors ?_) fun r => Spec.of_world ?_
      · rintro e' v ⟨rfl, he'⟩ _
        rw [he'.crash hA]
        exact ⟨h.1.failed, Or.inl (Or.inr rfl)⟩
      rintro v ⟨rfl, rfl⟩
      have hon : stepOn step (v.live key) = (counterValue p.record).bind step := by
        rw [hcell, stepOn, currentValue, ← counterValue_cell]
      rw [hon]
      cases hcur : counterValue p.record with
      | error e' =>
          refine Spec.bind (Q := fun _ _ => False) (Spec.fail ?_)
            fun _ => Spec.of_world fun _ hfalse => hfalse.elim
          rintro x rfl _
          have hne : e' = .notCounter := counterValue_error hcur
          exact ⟨h.failed (by rw [hne]; rintro ⟨⟩), Or.inr ⟨Frame.refl x, rfl, hsame⟩⟩
      | ok cur =>
          refine Spec.bind (Q := fun a x => x = v ∧ a = cur) (Spec.pure ?_) fun a => ?_
          · exact fun x hx => ⟨hx, rfl⟩
          refine Spec.of_world ?_
          rintro x ⟨rfl, rfl⟩
          refine Spec.bind_ofExcept ?_ fun r hr => ?_
          · rintro e' y he' rfl _
            exact ⟨hoverflow h he', Or.inr ⟨Frame.refl y, he', hsame⟩⟩
          rcases r with ⟨_ | next, out⟩
          · refine Spec.pure ?_
            rintro z rfl _
            exact ⟨h, Frame.refl z, hr, z, hsame, rfl⟩
          · refine Spec.bind ((storeCounter_spec hA h hopen hget hp hcur next).errors
              fun e v hv hwrap => ⟨(hv hwrap).1, Or.inl (hv hwrap).2⟩)
              fun _ => Spec.pure fun z hz hwrap => ?_
            obtain ⟨hz, hframe, hstored⟩ := hz hwrap
            exact ⟨hz, hframe, hr, x, hsame, by rw [hexp]; exact hstored⟩

/-- A counter operation of a sound store. -/
theorem counterOp_spec {β : Type} (hA : ∀ k, ¬ A (.fail k)) (h : Sound m w) {key : Bytes}
    (hkey : Utf8.valid key = true) (ttl : List Int64)
    {step : Int64 → Except Err (Option Int64 × β)}
    (hstep : ∀ cur e, step cur = .error e → e = .counterOverflow) :
    Spec A (fun v => v = w) (counterOp key ttl step)
      (fun out => Unless fun v => Sound m v ∧ Frame w v ∧ w.db.closed = false ∧
        ∃ createExp next, resolveTTL w.now ttl = .ok createExp ∧
          stepOn step (w.live key) = .ok (next, out) ∧
          Updated w v key (expiryOn createExp (w.live key)) next)
      (fun e => Unless fun v => Failed m e v ∧ ((e = .io ∨ e = .crash) ∨
        v = w ∧ resolveTTL w.now ttl = .error e ∨ v = w ∧ e = .closed ∧ w.db.closed = true ∨
        Frame w v ∧ w.db.closed = false ∧ (∃ createExp, resolveTTL w.now ttl = .ok createExp) ∧
          stepOn step (w.live key) = .error e ∧ Dropped w v key)) := by
  unfold counterOp
  refine Spec.bind_getWorld ?_
  rintro w rfl
  refine Spec.bind_ofExcept ?_ fun createExp httl => ?_
  · rintro e v he rfl _
    refine ⟨h.failed ?_, Or.inr (Or.inl ⟨rfl, he⟩)⟩
    rw [resolveTTL_error he]
    rintro ⟨⟩
  refine Spec.bind_requireOpen (fun hclosed _ => ?_) fun hopen => ?_
  · exact ⟨h.failed (by rintro ⟨⟩), Or.inr (Or.inr (Or.inl ⟨rfl, rfl, hclosed⟩))⟩
  refine Spec.bind ((counterUpdate_spec hA h hopen hkey createExp hstep).errors ?_)
    fun r => Spec.pure fun v hv hwrap => ?_
  · intro e v hv hwrap
    obtain ⟨hfailed, hio | ⟨hframe, herr, hdrop⟩⟩ := hv hwrap
    · exact ⟨hfailed, Or.inl hio⟩
    · exact ⟨hfailed, Or.inr (Or.inr (Or.inr ⟨hframe, hopen, ⟨createExp, httl⟩, herr, hdrop⟩))⟩
  · obtain ⟨hv, hframe, hr, hupdated⟩ := hv hwrap
    exact ⟨hv, hframe, hopen, createExp, r.1, httl, hr, hupdated⟩

end NteeDb.Core
