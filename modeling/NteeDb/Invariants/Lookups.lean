import NteeDb.Invariants.Mutations

/-!
# What a sound store answers

Reading a key of a sound store gives what the log holds for it, unless its expiry has
passed; nothing but the reaper's queue changes.
-/

namespace NteeDb.Core

open NteeDb.Verified
open Faults Lines OrderedTree JsonCodec

variable {A : Answer → Prop} {m : Mode} {w : World}

/-- Only the reaper's queue may have changed. -/
def Queued (w v : World) : Prop := ∃ q, v = { w with db := { w.db with reapCh := q } }

theorem Queued.refl (w : World) : Queued w w := ⟨_, rfl⟩

theorem Queued.trans {u v w : World} (h : Queued u v) (h' : Queued v w) : Queued u w := by
  obtain ⟨q, rfl⟩ := h
  obtain ⟨q', rfl⟩ := h'
  exact ⟨q', rfl⟩

theorem Queued.sound {v : World} (h : Queued w v) (hw : Sound m w) : Sound m v := by
  obtain ⟨q, rfl⟩ := h
  exact hw

theorem Queued.frame {v : World} (h : Queued w v) : Frame w v ∧ SameContents w v := by
  obtain ⟨q, rfl⟩ := h
  exact ⟨⟨rfl, rfl, rfl, rfl, rfl, rfl, rfl, rfl⟩, rfl, rfl⟩

/-! ## Records -/

/-- The record that the entry of a key locates. -/
structure Located (w : World) (key : Bytes) (e : PkEntry) (p : Placed) : Prop where
  last : lastRecord w.dir.log key = some p
  live : p.record.deleted = false
  key : p.record.key = key
  exp : p.record.exp = e.exp
  ix : p.record.ix = e.ix.readBack
  sound : w.dir.SoundRecord p.record
  off : e.off = Int64.ofNat p.off
  n : e.n = Int32.ofNat p.len
  length : 0 ≤ e.n
  read : w.dir.recordAt e = .ok p.record

theorem Sound.located (h : Sound m w) (hopen : w.db.closed = false) {key : Bytes} {e : PkEntry}
    (he : w.db.idx.pk.get key = some e) : ∃ p, Located w key e p := by
  have hentry := (h.2.2 hopen).mirrors.entry key
  rw [he, Option.map_some, pkOf_placed_get] at hentry
  obtain ⟨p, hp, hpe⟩ := Option.bind_eq_some_iff.mp hentry
  obtain ⟨hkey, pre, line, post, hls, hline, _, _⟩ := lastRecord_some hp
  obtain ⟨r, hr⟩ := h.1.1.log.lines line (by rw [hls]; simp)
  rw [hr.unmarshal] at hline
  cases hline
  rw [Placed.entry?] at hpe
  split at hpe
  · cases hpe
  · next hlive =>
      have hpe := Option.some.inj hpe
      obtain ⟨hlen, hread⟩ := h.1.1.log.recordAt hp (congrArg PkEntry.off hpe).symm
        (congrArg PkEntry.n hpe).symm
      exact ⟨p, hp, Bool.eq_false_iff.mpr hlive, hkey, congrArg PkEntry.exp hpe,
        congrArg PkEntry.ix hpe, hr.record, (congrArg PkEntry.off hpe).symm,
        (congrArg PkEntry.n hpe).symm, hlen, hread⟩

theorem Located.cell {key : Bytes} {e : PkEntry} {p : Placed} (h : Located w key e p) :
    w.dir.cells key = some (w.dir.cellOf p.record) := by
  rw [Dir.cells, h.last, Option.bind_some, Dir.cell?, h.live]
  rfl

/-- The record of an entry is read. -/
theorem readRecord_cases (A : Answer → Prop) {key : Bytes} {e : PkEntry} {p : Placed}
    (hp : Located w key e p) :
    Spec A (fun v => v = w) (readRecord e) (fun r v => v = w ∧ r = p.record)
      (fun e' v => v = w ∧ Unanswered A e') := by
  unfold readRecord
  refine Spec.bind_require (fun v _ hneg => ?_) fun _ => ?_
  · rw [decide_eq_false_iff_not] at hneg
    exact absurd hp.length hneg
  refine Spec.readStep ?_ ?_ (fun k v hk hv => ⟨hv, Or.inr ⟨rfl, k, hk⟩⟩)
    fun _ _ hv => ⟨hv, Or.inl rfl⟩
  · rintro r v rfl hr
    rw [hp.read] at hr
    exact ⟨rfl, (Except.ok.inj hr).symm⟩
  · rintro e' v rfl hr
    rw [hp.read] at hr
    cases hr

/-- The slice that a blob reference names. -/
theorem Dir.Holds.readAt {d : Dir} {b : BlobRef} (h : d.Holds b) :
    readAt (d.blobBytes b.gen) b.off b.size.toInt.toNat
      = .ok (((d.blobBytes b.gen).drop b.off.toInt.toNat).take b.size.toInt.toNat) := by
  have hoff : (0 : Int) ≤ b.off.toInt := Int64.le_iff_toInt_le.mp h.off
  have hsize : (0 : Int) ≤ b.size.toInt := Int32.le_iff_toInt_le.mp h.size
  have hfits := h.fits
  rw [NteeDb.Core.readAt, if_neg (Int64.not_lt.mpr h.off), if_pos]
  rw [List.length_take, List.length_drop]
  omega

/-- A blob is read. -/
theorem blobReadAt_cases (A : Answer → Prop) {b : BlobRef} (hb : w.dir.Holds b)
    (hstore : w.db.blobStore b.gen
      = some { gen := b.gen, size := fileSize (w.dir.blobBytes b.gen) }) :
    Spec A (fun v => v = w) (blobReadAt b)
      (fun a v => v = w ∧
        a = ((w.dir.blobBytes b.gen).drop b.off.toInt.toNat).take b.size.toInt.toNat)
      (fun e v => v = w ∧ Unanswered A e) := by
  unfold blobReadAt
  refine Spec.bind_getWorld ?_
  rintro w rfl
  rw [hstore]
  refine Spec.bind_require (fun v _ hneg => ?_) fun _ => ?_
  · rw [decide_eq_false_iff_not] at hneg
    exact absurd hb.size hneg
  refine Spec.bind_require (by rintro v _ ⟨⟩) fun _ => ?_
  refine Spec.readStep ?_ ?_ (fun k v hk hv => ⟨hv, Or.inr ⟨rfl, k, hk⟩⟩)
    fun _ _ hv => ⟨hv, Or.inl rfl⟩
  · rintro a v rfl ha
    rw [hb.readAt] at ha
    exact ⟨rfl, (Except.ok.inj ha).symm⟩
  · rintro e v rfl he
    rw [hb.readAt] at he
    cases he

/-- The value of a record is read. -/
theorem readValue_cases (A : Answer → Prop) {r : Record} (hr : w.dir.SoundRecord r)
    (hstore : ∀ b, r.blob = some b →
      w.db.blobStore b.gen = some { gen := b.gen, size := fileSize (w.dir.blobBytes b.gen) }) :
    Spec A (fun v => v = w) (readValue r) (fun a v => v = w ∧ a = w.dir.valueOf r)
      (fun e v => v = w ∧ Unanswered A e) := by
  unfold readValue Dir.valueOf
  cases hb : r.blob with
  | none => exact Spec.pure fun v hv => ⟨hv, rfl⟩
  | some b => exact blobReadAt_cases A (hr.blob b hb) (hstore b hb)

/-- The stores of the blobs that a sound record refers to. -/
theorem Serving.blobStore (h : Serving w) {r : Record} (hr : w.dir.SoundRecord r) :
    ∀ b, r.blob = some b →
      w.db.blobStore b.gen = some { gen := b.gen, size := fileSize (w.dir.blobBytes b.gen) } :=
  fun b hb => (h.store b.gen).trans (if_pos ⟨(hr.blob b hb).gen, (hr.blob b hb).present⟩)

/-! ## Lookups -/

/-- The cell of a key, unless its expiry has passed. -/
def World.live (w : World) (key : Bytes) : Option Cell :=
  unexpired Cell.exp w.now.ms (w.dir.cells key)

theorem Sound.live_none (h : Sound m w) (hopen : w.db.closed = false) {key : Bytes}
    (hnone : w.db.idx.pk.get key = none) : w.live key = none := by
  rw [World.live, (h.2.2 hopen).mirrors.cells_of_none hnone, unexpired_none]

theorem Sound.live_some (h : Sound m w) (hopen : w.db.closed = false) {key : Bytes} {e : PkEntry}
    (he : w.db.idx.pk.get key = some e) :
    (e.expiredAt w.now.ms = true → w.live key = none) ∧
    (e.expiredAt w.now.ms = false → w.live key = w.dir.cells key) := by
  obtain ⟨c, hc, hexp, _⟩ := h.exp_of_cell hopen he
  rw [World.live, hc, unexpired_some, hexp, ← expiredAt_eq]
  constructor
  · exact fun hx => if_pos hx
  · exact fun hx => if_neg (by rw [hx]; decide)

/-- `pkGetLive` of a sound store. -/
theorem pkGetLive_spec (h : Sound m w) (hopen : w.db.closed = false) (key : Bytes) :
    Spec A (fun v => v = w) (pkGetLive key)
      (fun r v => Queued w v ∧ match r with
        | none => w.live key = none
        | some e => v = w ∧ w.db.idx.pk.get key = some e ∧ w.live key = w.dir.cells key)
      (fun _ _ => False) := by
  unfold pkGetLive
  refine Spec.bind_getWorld ?_
  rintro w rfl
  cases hget : w.db.idx.pk.get key with
  | none =>
      refine Spec.pure ?_
      rintro v rfl
      exact ⟨Queued.refl v, h.live_none hopen hget⟩
  | some e =>
      obtain ⟨hexpired, hlive⟩ := h.live_some hopen hget
      refine Spec.ite (fun hx => ?_) fun hx => ?_
      · refine Spec.bind (Spec.updateDB (Q := fun _ v => Queued w v) ?_)
          fun _ => Spec.pure fun v hv => ⟨hv, hexpired hx⟩
        rintro v rfl
        split
        · exact ⟨_, rfl⟩
        · exact Queued.refl v
      · refine Spec.pure ?_
        rintro v rfl
        exact ⟨Queued.refl v, rfl, rfl, hlive (Bool.eq_false_iff.mpr hx)⟩

/-- `Get`'s body on a sound store. -/
theorem lookup_spec (hA : ∀ k, ¬ A (.fail k)) (h : Sound m w) (hopen : w.db.closed = false)
    (key : Bytes) :
    Spec A (fun v => v = w) (lookup key)
      (fun r v => Queued w v ∧ r = (w.live key).map Cell.value)
      (fun e v => Queued w v ∧ e = .crash) := by
  unfold lookup
  refine Spec.bind ((pkGetLive_spec h hopen key).errors fun _ _ hv => hv.elim) fun r => ?_
  cases r with
  | none =>
      refine Spec.pure fun v hv => ⟨hv.1, ?_⟩
      rw [hv.2]
      rfl
  | some e =>
      refine Spec.of_world ?_
      rintro u ⟨_, rfl, hget, hlive⟩
      obtain ⟨p, hp⟩ := h.located hopen hget
      refine Spec.bind ((readRecord_cases A hp).errors ?_) fun r => Spec.of_world ?_
      · rintro e' v ⟨rfl, he'⟩
        exact ⟨Queued.refl v, he'.crash hA⟩
      rintro v ⟨rfl, rfl⟩
      refine Spec.bind ((readValue_cases A hp.sound ((h.2.2 hopen).serving.blobStore
        hp.sound)).errors ?_) fun a => Spec.pure ?_
      · rintro e' x ⟨rfl, he'⟩
        exact ⟨Queued.refl x, he'.crash hA⟩
      · rintro x ⟨rfl, rfl⟩
        refine ⟨Queued.refl x, ?_⟩
        rw [hlive, hp.cell]
        rfl

/-- `Get` of a sound store. -/
theorem get_spec (hA : ∀ k, ¬ A (.fail k)) (h : Sound m w) (key : Bytes) :
    Spec A (fun v => v = w) (get key)
      (fun r v => Queued w v ∧ w.db.closed = false ∧ r = (w.live key).map Cell.value)
      (fun e v => Queued w v ∧ (e = .crash ∨ e = .closed ∧ w.db.closed = true)) := by
  unfold get
  refine Spec.bind_requireOpen (fun hclosed => ⟨Queued.refl w, Or.inr ⟨rfl, hclosed⟩⟩)
    fun hopen => ?_
  exact (lookup_spec hA h hopen key).post (fun _ _ hv => ⟨hv.1, hopen, hv.2⟩)
    fun _ _ hv => ⟨hv.1, Or.inl hv.2⟩

theorem Queued.live {v : World} (h : Queued w v) : v.live = w.live := by
  obtain ⟨q, rfl⟩ := h
  rfl

/-- `GetMany` of a sound store. -/
theorem getMany_spec (hA : ∀ k, ¬ A (.fail k)) (h : Sound m w) (keys : List Bytes) :
    Spec A (fun v => v = w) (getMany keys)
      (fun r v => Queued w v ∧ w.db.closed = false ∧
        r = keys.map fun key => (w.live key).map Cell.value)
      (fun e v => Queued w v ∧ (e = .crash ∨ e = .closed ∧ w.db.closed = true)) := by
  unfold getMany
  refine Spec.bind_requireOpen (fun hclosed => ⟨Queued.refl w, Or.inr ⟨rfl, hclosed⟩⟩)
    fun hopen => ?_
  refine (Spec.foldEach (I := fun rest (found : List (Option Bytes)) v => Queued w v ∧
    (found ++ rest.map fun key => (w.live key).map Cell.value)
      = keys.map fun key => (w.live key).map Cell.value) ?_ keys []).conseq ?_ ?_ fun _ _ hv => hv
  · intro key rest found
    refine Spec.of_world ?_
    rintro u ⟨hu, hfound⟩
    have hopen' : u.db.closed = false := hu.frame.1.closed.trans hopen
    refine Spec.bind ((lookup_spec hA (hu.sound h) hopen' key).errors
      fun e v hv => ⟨hu.trans hv.1, Or.inl hv.2⟩) fun r => Spec.pure ?_
    rintro v ⟨hv, rfl⟩
    refine ⟨hu.trans hv, ?_⟩
    rw [hu.live, List.append_assoc]
    exact hfound
  · rintro v rfl
    exact ⟨Queued.refl v, rfl⟩
  · rintro r v ⟨hv, hr⟩
    rw [List.map_nil, List.append_nil] at hr
    exact ⟨hv, hopen, hr⟩

/-- `Has` of a sound store. -/
theorem has_spec (h : Sound m w) (key : Bytes) :
    Spec A (fun v => v = w) (has key)
      (fun r v => Queued w v ∧ r = (!w.db.closed && (w.live key).isSome)) (fun _ _ => False) := by
  unfold has
  refine Spec.bind_getWorld ?_
  rintro w rfl
  refine Spec.ite (fun hclosed => ?_) fun hopen => ?_
  · refine Spec.pure ?_
    rintro v rfl
    rw [hclosed]
    exact ⟨Queued.refl v, rfl⟩
  · have hopen : w.db.closed = false := Bool.eq_false_iff.mpr hopen
    refine Spec.bind (pkGetLive_spec h hopen key) fun r => Spec.pure fun v hv => ?_
    rw [hopen]
    refine ⟨hv.1, ?_⟩
    cases r with
    | none => rw [hv.2]; rfl
    | some e =>
        obtain ⟨p, hp⟩ := h.located hopen hv.2.2.1
        rw [hv.2.2.2, hp.cell]
        rfl

/-! ## Scans -/

/-- The keys with a prefix are next to each other. -/
theorem isPrefix_of_between {p a b : Bytes} (hpa : ¬ a < p) (hab : a < b) (hb : p <+: b) :
    p <+: a := by
  induction p generalizing a b with
  | nil => exact List.nil_prefix
  | cons x p ih =>
      obtain ⟨c, rfl⟩ := hb
      cases a with
      | nil => exact absurd (List.nil_lt_cons x p) hpa
      | cons y a =>
          rw [List.cons_lt_cons_iff, not_or, not_and] at hpa
          rw [List.cons_append, List.cons_lt_cons_iff] at hab
          rcases hab with hlt | ⟨rfl, hlt⟩
          · exact absurd hlt hpa.1
          · exact List.cons_prefix_cons.mpr ⟨rfl, ih (hpa.2 rfl) hlt ⟨c, rfl⟩⟩

theorem not_lt_of_isPrefix {p b : Bytes} (h : p <+: b) : ¬ b < p := by
  induction p generalizing b with
  | nil => exact List.not_lt_nil b
  | cons x p ih =>
      obtain ⟨c, rfl⟩ := h
      rw [List.cons_append, List.cons_lt_cons_iff, not_or, not_and]
      exact ⟨lt_irrefl x, fun _ => ih ⟨c, rfl⟩⟩

theorem PkIndex.withPrefix_eq (ix : PkIndex) (p : Bytes) :
    ix.withPrefix p = ix.items.filter fun e => p.isPrefixOf e.key := by
  rw [PkIndex.withPrefix, Tree.takeWhile_ascend]
  · refine List.filter_congr fun e _ => ?_
    cases hp : p.isPrefixOf e.key with
    | false => rw [Bool.and_false]
    | true =>
        have hlow : keyLess PkEntry.key e { key := p } = false :=
          Bool.eq_false_iff.mpr fun hlt =>
            not_lt_of_isPrefix (List.isPrefixOf_iff_prefix.mp hp) (Tree.keyLess_iff.mp hlt)
        rw [hlow]
        rfl
  · intro a _ b _ hlow hab hb
    refine List.isPrefixOf_iff_prefix.mpr
      (isPrefix_of_between (fun hlt => ?_) (Tree.keyLess_iff.mp hab)
      (List.isPrefixOf_iff_prefix.mp hb))
    rw [Tree.keyLess_iff.mpr hlt] at hlow
    cases hlow

/-- The keys are in order, and they are the live ones with the prefix. -/
structure Scanned (w : World) (p : Bytes) (keys : List Bytes) : Prop where
  sorted : keys.Pairwise (· < ·)
  mem : ∀ key, key ∈ keys ↔ p <+: key ∧ (w.live key).isSome = true

/-- The entries of a prefix that have not expired. -/
theorem Sound.scanned (h : Sound m w) (hopen : w.db.closed = false) (p : Bytes) :
    Scanned w p (((w.db.idx.pk.withPrefix p).filter
      fun e => !e.expiredAt w.now.ms).map PkEntry.key) := by
  have hlive : ∀ e ∈ w.db.idx.pk, (w.live e.key).isSome = !e.expiredAt w.now.ms := by
    intro e he
    have hget := PkIndex.get_mem he
    obtain ⟨hexpired, hlive⟩ := h.live_some hopen hget
    obtain ⟨c, hc, _⟩ := h.exp_of_cell hopen hget
    cases hx : e.expiredAt w.now.ms with
    | true => rw [hexpired hx]; rfl
    | false => rw [hlive hx, hc]; rfl
  rw [PkIndex.withPrefix_eq]
  refine ⟨?_, fun key => ?_⟩
  · rw [List.pairwise_map]
    exact ((w.db.idx.pk.sorted.filter _).filter _).imp fun hlt => Tree.keyLess_iff.mp hlt
  · simp only [List.mem_map, List.mem_filter, List.isPrefixOf_iff_prefix]
    constructor
    · rintro ⟨e, ⟨⟨he, hp⟩, hx⟩, rfl⟩
      exact ⟨hp, by rw [hlive e he, hx]⟩
    · rintro ⟨hp, hsome⟩
      cases hget : w.db.idx.pk.get key with
      | none =>
          rw [h.live_none hopen hget] at hsome
          cases hsome
      | some e =>
          obtain ⟨he, rfl⟩ := PkIndex.get_eq_some.mp hget
          exact ⟨e, ⟨⟨he, hp⟩, by rw [← hlive e he, hsome]⟩, rfl⟩

/-- `PrefixScan` of a sound store. -/
theorem prefixScan_spec (h : Sound m w) (p : Bytes) :
    Spec A (fun v => v = w) (prefixScan p)
      (fun r v => Queued w v ∧ w.db.closed = false ∧ Scanned w p r)
      (fun e v => v = w ∧ e = .closed ∧ w.db.closed = true) := by
  unfold prefixScan
  refine Spec.bind (requireOpen_cases A w) fun _ => Spec.bind_getWorld ?_
  rintro w ⟨rfl, hopen⟩
  refine (Spec.foldEach (I := fun rest (found : List Bytes) v => Queued w v ∧
    found ++ (rest.filter fun e => !e.expiredAt w.now.ms).map PkEntry.key
      = ((w.db.idx.pk.withPrefix p).filter fun e => !e.expiredAt w.now.ms).map PkEntry.key) ?_
    (w.db.idx.pk.withPrefix p) []).conseq ?_ ?_ fun _ _ hv => hv
  · intro e rest found
    refine Spec.ite (fun hx => ?_) fun hx => ?_
    · refine Spec.bind (Spec.updateDB (Q := fun _ v => Queued w v ∧
        found ++ (rest.filter fun e => !e.expiredAt w.now.ms).map PkEntry.key
          = ((w.db.idx.pk.withPrefix p).filter fun e => !e.expiredAt w.now.ms).map PkEntry.key) ?_)
        fun _ => Spec.pure fun _ hv => hv
      rintro u ⟨hu, hfound⟩
      rw [List.filter_cons_of_neg (by rw [hx]; decide)] at hfound
      refine ⟨hu.trans ?_, hfound⟩
      split
      · exact ⟨_, rfl⟩
      · exact Queued.refl u
    · refine Spec.pure ?_
      rintro u ⟨hu, hfound⟩
      rw [List.filter_cons_of_pos (by rw [Bool.eq_false_iff.mpr hx]; rfl), List.map_cons] at hfound
      exact ⟨hu, by rw [List.append_assoc]; exact hfound⟩
  · rintro v rfl
    exact ⟨Queued.refl v, rfl⟩
  · rintro r v ⟨hv, hr⟩
    rw [List.filter_nil, List.map_nil, List.append_nil] at hr
    exact ⟨hv, hopen, hr ▸ h.scanned hopen p⟩

end NteeDb.Core
