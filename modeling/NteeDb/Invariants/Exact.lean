import NteeDb.Invariants.Checkpoints
import NteeDb.Invariants.Lookups
import NteeDb.Invariants.Retention

/-!
# Writes to any store

What a write that returns without an error has done, in any world and with any answers to
its file steps: nothing is assumed of the log, of the keys or of the index values.  A
store reads back what it wrote as long as it knows the sizes of its files (`Tracked`).

## Main results

* `get_run` — what `Get` returns when no file step is refused.
* `putIndexed_exact` — the record of a write and the indexes after it.
* `PutExact.fetch` — the value of the record, read back.
-/

namespace NteeDb.Core

open NteeDb.Verified
open Faults Lines OrderedTree JsonCodec

/-! ## Reading -/

/-- The value that a record stands for, read from the store. -/
def World.valueAt (w : World) (r : Record) : Except Err Bytes :=
  match r.blob with
  | none => .ok r.value
  | some b =>
      match w.db.blobStore b.gen with
      | none => .error (.missingGeneration b)
      | some bs =>
          if b.size < 0 then .error .panic
          else if bs.isOpen then readAt (w.dir.blobBytes b.gen) b.off b.size.toInt.toNat
          else .error .io

/-- What `Get` returns when every file step is carried out. -/
def World.fetch (w : World) (key : Bytes) : Except Err (Option Bytes) :=
  if w.db.closed then .error .closed
  else
    match w.db.idx.pk.get key with
    | none => .ok none
    | some e =>
        if e.expiredAt w.now.ms then .ok none
        else if e.n < 0 then .error .panic
        else (w.dir.recordAt e).bind fun r => (w.valueAt r).map some

/-- Every file step is carried out. -/
def Granted (a : Answer) : Prop := a = .ok

theorem Granted.fail {φ : Prop} {k : Nat} (h : Granted (.fail k)) : φ := nomatch h

theorem Granted.crash {φ : Prop} (h : Granted .crash) : φ := nomatch h

theorem answers_nil (A : Answer → Prop) : Answers A [] := fun _ h => nomatch h

/-- The result of a program is the one that its specification tells. -/
theorem Spec.result {α : Type} {A : Answer → Prop} {c : StoreM α} {w : World} {r : Except Err α}
    (h : Spec A (fun v => v = w) c (fun a _ => r = .ok a) fun e _ => r = .error e)
    {plan : List Answer} (hplan : Answers A plan) : (c ⟨w, plan⟩).1 = r := by
  have hrun := h ⟨w, plan⟩ ⟨rfl, hplan⟩
  revert hrun
  cases c ⟨w, plan⟩ with
  | mk out s =>
      cases out with
      | ok a => exact fun hrun => hrun.1.symm
      | error e => exact fun hrun => hrun.1.symm

/-- A run that returned a value, with the world and the answers it left. -/
theorem run_of_ok {α : Type} {c : StoreM α} {s : Env World} {a : α} (h : (c s).1 = .ok a) :
    c s = (.ok a, ⟨(c s).2.world, (c s).2.plan⟩) := Prod.ext h rfl

theorem run_of_error {α : Type} {c : StoreM α} {s : Env World} {e : Err} (h : (c s).1 = .error e) :
    c s = (.error e, ⟨(c s).2.world, (c s).2.plan⟩) := Prod.ext h rfl

/-- What no operation undoes: if no length has wrapped after it, none had before. -/
theorem fits_before {α : Type} {A : Answer → Prop} {c : StoreM α} {w v : World}
    (hkeeps : Keeps A (Watched { wrapped := true }) c) {a : α} {plan rest : List Answer}
    (hplan : Answers A plan) (hrun : c ⟨w, plan⟩ = (.ok a, ⟨v, rest⟩)) (hfits : v.wrapped = false) :
    w.wrapped = false := by
  cases hw : w.wrapped with
  | false => rfl
  | true =>
      have hkept := Spec.ok hkeeps (watched_wrapped.mpr hw) hplan hrun
      rw [watched_wrapped, hfits] at hkept
      cases hkept

theorem readStep_granted {α : Type} (f : World → Except Err α) (w : World) :
    Spec Granted (fun v => v = w) (readStep f) (fun a v => v = w ∧ f w = .ok a)
      (fun e v => v = w ∧ f w = .error e) := by
  refine Spec.readStep ?_ ?_ (fun _ _ hk _ => hk.fail) fun _ hc _ => hc.crash
  · rintro a v rfl ha
    exact ⟨rfl, ha⟩
  · rintro e v rfl he
    exact ⟨rfl, he⟩

theorem readRecord_granted (e : PkEntry) (w : World) :
    Spec Granted (fun v => v = w) (readRecord e)
      (fun r v => v = w ∧ ¬ e.n < 0 ∧ w.dir.recordAt e = .ok r)
      (fun e' v => v = w ∧ (e.n < 0 ∧ e' = .panic ∨ ¬ e.n < 0 ∧ w.dir.recordAt e = .error e')) := by
  unfold readRecord
  refine Spec.bind_require ?_ fun hn => ?_
  · exact fun v hv hn => ⟨hv, Or.inl ⟨Int32.not_le.mp (of_decide_eq_false hn), rfl⟩⟩
  · have hn : ¬ e.n < 0 := Int32.not_lt.mpr (of_decide_eq_true hn)
    exact (readStep_granted _ w).post (fun _ _ hv => ⟨hv.1, hn, hv.2⟩)
      fun _ _ hv => ⟨hv.1, Or.inr ⟨hn, hv.2⟩⟩

theorem readValue_granted (r : Record) (w : World) :
    Spec Granted (fun v => v = w) (readValue r) (fun a v => v = w ∧ w.valueAt r = .ok a)
      (fun e v => v = w ∧ w.valueAt r = .error e) := by
  unfold readValue World.valueAt
  cases r.blob with
  | none => exact Spec.pure fun v hv => ⟨hv, rfl⟩
  | some b =>
      dsimp only
      unfold blobReadAt
      refine Spec.bind_getWorld ?_
      rintro w rfl
      cases w.db.blobStore b.gen with
      | none => exact Spec.fail fun v hv => ⟨hv, rfl⟩
      | some bs =>
          dsimp only
          refine Spec.bind_require ?_ fun hn => ?_
          · exact fun v hv hn => ⟨hv, if_pos (Int32.not_le.mp (of_decide_eq_false hn))⟩
          rw [if_neg (Int32.not_lt.mpr (of_decide_eq_true hn))]
          refine Spec.bind_require ?_ fun hopen => ?_
          · rintro v rfl hclosed
            rw [hclosed]
            exact ⟨rfl, rfl⟩
          · rw [hopen]
            exact readStep_granted _ w

/-- `Get`, when every file step is carried out. -/
theorem get_granted (key : Bytes) (w : World) :
    Spec Granted (fun v => v = w) (get key) (fun a _ => w.fetch key = .ok a)
      (fun e _ => w.fetch key = .error e) := by
  unfold get
  refine Spec.bind_requireOpen (fun hclosed => ?_) fun hopen => ?_
  · rw [World.fetch, hclosed]
    rfl
  unfold lookup pkGetLive
  refine Spec.bind (Q := fun found v => v.dir = w.dir ∧ v.db.blobs = w.db.blobs ∧
    match found with
    | none => w.fetch key = .ok none
    | some e => w.fetch key = if e.n < 0 then .error .panic
        else (w.dir.recordAt e).bind fun r => (w.valueAt r).map some) ?_ fun found => ?_
  · refine Spec.bind_getWorld ?_
    rintro w rfl
    have hfetch : w.fetch key = match w.db.idx.pk.get key with
        | none => .ok none
        | some e =>
            if e.expiredAt w.now.ms then .ok none
            else if e.n < 0 then .error .panic
            else (w.dir.recordAt e).bind fun r => (w.valueAt r).map some := by
      rw [World.fetch, hopen]
      rfl
    rw [hfetch]
    cases w.db.idx.pk.get key with
    | none =>
        refine Spec.pure ?_
        rintro v rfl
        exact ⟨rfl, rfl, rfl⟩
    | some e =>
        dsimp only
        refine Spec.ite (fun hx => ?_) fun hx => ?_
        · refine Spec.bind (Spec.updateDB (Q := fun _ v => v.dir = w.dir ∧
            v.db.blobs = w.db.blobs) ?_) fun _ => Spec.pure fun v hv => ⟨hv.1, hv.2, if_pos hx⟩
          rintro v rfl
          refine ⟨rfl, ?_⟩
          dsimp only
          split <;> rfl
        · refine Spec.pure ?_
          rintro v rfl
          exact ⟨rfl, rfl, if_neg hx⟩
  · cases found with
    | none => exact Spec.pure fun v hv => hv.2.2
    | some e =>
        refine Spec.of_world ?_
        rintro v ⟨hdir, hblobs, hfetch⟩
        have hvalue : v.valueAt = w.valueAt := by
          funext r
          simp only [World.valueAt, DB.blobStore, hdir, hblobs]
        rw [hfetch, ← hdir, ← hvalue]
        refine Spec.bind ((readRecord_granted e v).errors ?_) fun r => Spec.of_world ?_
        · rintro e' u ⟨rfl, ⟨hn, rfl⟩ | ⟨hn, hr⟩⟩
          · exact if_pos hn
          · rw [if_neg hn, hr]
            rfl
        · rintro u ⟨rfl, hn, hr⟩
          rw [if_neg hn, hr]
          refine Spec.bind ((readValue_granted r u).errors ?_) fun a => Spec.pure ?_
          · rintro e' z ⟨rfl, hz⟩
            show (z.valueAt r).map some = _
            rw [hz]
            rfl
          · rintro z ⟨rfl, hz⟩
            show (z.valueAt r).map some = _
            rw [hz]
            rfl

theorem get_run (key : Bytes) (w : World) : (get key ⟨w, []⟩).1 = w.fetch key :=
  Spec.result (get_granted key w) (answers_nil _)

/-- A sound store returns what its log holds. -/
theorem Sound.fetch {m : Mode} {w : World} (h : Sound m w) (hopen : w.db.closed = false)
    (key : Bytes) : w.fetch key = .ok ((w.live key).map Cell.value) := by
  rw [World.fetch, hopen]
  simp only [Bool.false_eq_true, if_false]
  cases hget : w.db.idx.pk.get key with
  | none => rw [h.live_none hopen hget]; rfl
  | some e =>
      obtain ⟨hexpired, hlive⟩ := h.live_some hopen hget
      dsimp only
      cases hx : e.expiredAt w.now.ms with
      | true => rw [hexpired hx]; rfl
      | false =>
          obtain ⟨p, hp⟩ := h.located hopen hget
          have hstore := (h.2.2 hopen).serving.blobStore hp.sound
          have hvalue : w.valueAt p.record = .ok (w.dir.valueOf p.record) := by
            rw [World.valueAt, Dir.valueOf]
            cases hb : p.record.blob with
            | none => rfl
            | some b =>
                have hholds := hp.sound.blob b hb
                dsimp only
                rw [hstore b hb]
                dsimp only
                rw [if_neg (Int32.not_lt.mpr hholds.size), if_pos rfl, hholds.readAt]
          rw [hlive hx, hp.cell, if_neg (by decide), if_neg (Int32.not_lt.mpr hp.length), hp.read]
          show (w.valueAt p.record).map some = _
          rw [hvalue]
          rfl

/-! ## Writing -/

theorem toInt_of_fits {n : Nat} (h : lengthWraps n = false) : (Int32.ofNat n).toInt = n := by
  rw [lengthWraps, decide_eq_false_iff_not, not_le] at h
  exact Int32.toInt_ofNat_of_lt h

/-- What was appended is read where the file ended. -/
theorem readAt_appended {before data : Bytes} (hsized : before.length < maxFileSize)
    (hfits : lengthWraps data.length = false) (more : Bytes) :
    readAt (before ++ data ++ more) (fileSize before) (Int32.ofNat data.length).toInt.toNat
      = .ok data := by
  have hoff : (fileSize before).toInt = before.length := Int64.toInt_ofNat_of_lt hsized
  have hnonneg : ¬ fileSize before < 0 := by
    rw [Int64.lt_iff_toInt_lt, hoff, Int64.toInt_zero]
    exact not_lt.mpr (Int.natCast_nonneg _)
  have hdata : ((before ++ data ++ more).drop before.length).take data.length = data := by
    rw [List.append_assoc, List.drop_left, List.take_left]
  rw [readAt, if_neg hnonneg, toInt_of_fits hfits, hoff, Int.toNat_natCast,
    Int.toNat_natCast, hdata, if_pos rfl]

/-- The store knows the sizes of its files. -/
structure Tracked (w : World) : Prop where
  main : w.db.size = fileSize w.dir.mainBytes
  blobs : ∀ gen bs, w.db.blobStore gen = some bs → bs.size = fileSize (w.dir.blobBytes gen)
  sized : w.dir.WellSized

theorem Sound.tracked {m : Mode} {w : World} (h : Sound m w) (hopen : w.db.closed = false) :
    Tracked w := by
  have hstore := h.2.2 hopen
  refine ⟨hstore.size_eq, fun gen bs hbs => ?_, h.1.1.log.sized⟩
  rw [DB.blobStore, hstore.store] at hbs
  split at hbs
  · cases hbs
    rfl
  · cases hbs

/-- Lines have been appended to the log, nothing else was written. -/
structure Grown (w v : World) : Prop where
  main : w.dir.mainBytes <+: v.dir.mainBytes
  sized : w.dir.mainBytes.length < maxFileSize → v.dir.mainBytes.length < maxFileSize
  blobs : v.dir.blobs = w.dir.blobs
  stores : v.db.blobs = w.db.blobs
  closed : v.db.closed = w.db.closed
  now : v.now = w.now
  wrapped : v.wrapped = false → w.wrapped = false

theorem Grown.refl (w : World) : Grown w w := ⟨List.prefix_rfl, id, rfl, rfl, rfl, rfl, id⟩

theorem Grown.trans {u v w : World} (h : Grown u v) (h' : Grown v w) : Grown u w :=
  ⟨h.main.trans h'.main, h'.sized ∘ h.sized, h'.blobs.trans h.blobs, h'.stores.trans h.stores,
    h'.closed.trans h.closed, h'.now.trans h.now, h.wrapped ∘ h'.wrapped⟩

section Any

variable {A : Answer → Prop} {w : World}

theorem Grown.of_append {v : World} {line : Bytes}
    (hroom : w.dir.mainBytes.length + (line.length + 1) < maxFileSize)
    (hdir : v.dir = w.dir.appendMain (line ++ [newline])) (hstores : v.db.blobs = w.db.blobs)
    (hclosed : v.db.closed = w.db.closed) (hnow : v.now = w.now)
    (hwrapped : v.wrapped = (w.wrapped || lengthWraps (line.length + 1))) : Grown w v := by
  have hmain : v.dir.mainBytes = w.dir.mainBytes ++ (line ++ [newline]) := by
    rw [hdir]
    rfl
  refine ⟨hmain ▸ List.prefix_append _ _, fun _ => ?_, by rw [hdir]; rfl, hstores, hclosed, hnow,
    fun hwrap => ?_⟩
  · rw [hmain, List.length_append, List.length_append]
    exact hroom
  · rw [hwrapped] at hwrap
    exact (Bool.or_eq_false_iff.mp hwrap).1

theorem deleteLocked_exact (w : World) (key : Bytes) :
    Spec A (fun v => v = w) (deleteLocked key)
      (fun _ v => Grown w v ∧ v.db.idx = w.db.idx.delete key) (fun _ _ => True) := by
  unfold deleteLocked
  refine Spec.bind_getWorld ?_
  rintro w rfl
  refine Spec.bind ((appendSync_cases A w (tombstone key) (.del key) _).errors fun _ _ _ => trivial)
    fun _ => Spec.updateDB ?_
  rintro v ⟨line, s, _, hroom, _, rfl⟩
  exact ⟨.of_append hroom rfl rfl rfl rfl rfl, rfl⟩

theorem deleteAll_exact (w : World) (keys : List Bytes) :
    Spec A (fun v => v = w) (Prog.forEach keys deleteLocked)
      (fun _ v => Grown w v ∧ v.db.idx = w.db.idx.deleteAll keys) (fun _ _ => True) := by
  refine (Spec.forEach (I := fun rest v => Grown w v ∧
    v.db.idx.deleteAll rest = w.db.idx.deleteAll keys) ?_ keys).conseq ?_ (fun _ _ hv => hv)
    fun _ _ hv => hv
  · intro key rest
    refine Spec.of_world ?_
    rintro u ⟨hgrown, hidx⟩
    refine (deleteLocked_exact u key).post (fun _ v hv => ?_) fun _ _ hv => hv
    refine ⟨hgrown.trans hv.1, ?_⟩
    rw [hv.2]
    exact hidx
  · rintro v rfl
    exact ⟨Grown.refl v, rfl⟩

theorem enforceOne_exact (w : World) (nv : Bytes × AnyValue) :
    Spec A (fun v => v = w) (enforceOne nv)
      (fun _ v => Grown w v ∧ v.db.idx = w.db.idx.enforceOne nv) (fun _ _ => True) := by
  unfold enforceOne Indexes.enforceOne
  refine Spec.bind_getWorld ?_
  rintro w rfl
  cases w.db.idx.secs.get nv.1 with
  | none =>
      refine Spec.pure ?_
      rintro v rfl
      exact ⟨Grown.refl v, rfl⟩
  | some si => exact deleteAll_exact w _

theorem enforceMaxPerValue_exact (w : World) (ord : MapOrder) (ix : AnyMap) :
    Spec A (fun v => v = w) (enforceMaxPerValue ord ix)
      (fun _ v => Grown w v ∧ v.db.idx = w.db.idx.enforce (ord.items ix)) (fun _ _ => True) := by
  refine (Spec.forEach (I := fun rest v => Grown w v ∧
    v.db.idx.enforce rest = w.db.idx.enforce (ord.items ix)) ?_ (ord.items ix)).conseq ?_
    (fun _ _ hv => hv) fun _ _ hv => hv
  · intro nv rest
    refine Spec.of_world ?_
    rintro u ⟨hgrown, hidx⟩
    refine (enforceOne_exact u nv).post (fun _ v hv => ?_) fun _ _ hv => hv
    refine ⟨hgrown.trans hv.1, ?_⟩
    rw [hv.2]
    exact hidx
  · rintro v rfl
    exact ⟨Grown.refl v, rfl⟩

/-- The log and the indexes are as they were. -/
structure Kept (w v : World) : Prop where
  main : v.dir.main = w.dir.main
  size : v.db.size = w.db.size
  idx : v.db.idx = w.db.idx
  closed : v.db.closed = w.db.closed
  now : v.now = w.now
  wrapped : v.wrapped = false → w.wrapped = false

/-- The record of a value, but for where the value is. -/
structure RecordOf (r : Record) (key : Bytes) (ix : AnyMap) (exp : Int64) (counter : Bool) :
    Prop where
  key : r.key = key
  ix : r.ix = ix
  exp : r.exp = exp
  counter : r.counter = counter
  text : r.text = []
  deleted : r.deleted = false

theorem gen_of_blobStore {db : DB} {gen : Int64} {bs : BlobStore} (h : db.blobStore gen = some bs) :
    bs.gen = gen := Int64.toInt_inj.mp (Tree.get?_eq_some.mp h).2

theorem append_closed {P : World → Prop} {bs : BlobStore} (h : bs.isOpen = false) (value : Bytes) :
    Spec A P (bs.append value) (fun _ _ => False) (fun _ _ => True) := by
  unfold BlobStore.append
  refine Spec.bind_require (fun _ _ _ => trivial) fun hopen => ?_
  rw [h] at hopen
  cases hopen

/-- A value that is stored can be read back, if its length fits. -/
theorem storeValue_exact (h : Tracked w) (key value : Bytes) (ix : AnyMap) (exp : Int64)
    (counter : Bool) :
    Spec A (fun v => v = w) (storeValue key value ix exp counter)
      (fun r v => Kept w v ∧ RecordOf r key ix exp counter ∧
        (v.wrapped = false → v.valueAt r = .ok value)) (fun _ _ => True) := by
  unfold storeValue
  refine Spec.bind_getWorld ?_
  rintro w rfl
  refine Spec.ite (fun hblob => ?_) fun _ => ?_
  · unfold appendBlob
    refine Spec.bind (Q := fun ref v => Kept w v ∧ (v.wrapped = false →
      v.valueAt { key := key, blob := some { ref with gen := w.db.curGen }, ix := ix, exp := exp }
        = .ok value)) ?_ fun ref => ?_
    · refine Spec.bind_getWorld ?_
      rintro w rfl
      cases hbs : w.db.blobStore w.db.curGen with
      | none => exact Spec.fail fun _ _ => trivial
      | some bs =>
          have hgen := gen_of_blobStore hbs
          have hsize := h.blobs _ bs hbs
          dsimp only
          cases hisOpen : bs.isOpen with
          | false =>
              exact Spec.bind (append_closed hisOpen value) fun _ =>
                Spec.of_world fun _ hnever => hnever.elim
          | true =>
              refine Spec.bind ((BlobStore.append_cases A w bs value).errors fun _ _ _ => trivial)
                fun r => ?_
              refine Spec.bind (Spec.updateDB (Q := fun _ v => Kept w v ∧ (v.wrapped = false →
                v.valueAt
                  { key := key, blob := some { r.1 with gen := w.db.curGen }, ix := ix, exp := exp }
                  = .ok value)) ?_) fun _ => Spec.pure fun v hv => hv
              rintro v ⟨rfl, _, rfl⟩
              refine ⟨⟨rfl, rfl, rfl, rfl, rfl, fun hwrap => (Bool.or_eq_false_iff.mp hwrap).1⟩,
                fun hwrap => ?_⟩
              have hfits := (Bool.or_eq_false_iff.mp hwrap).2
              simp only [World.valueAt, DB.blobStore, blobStores_get_set, hgen, if_true, hisOpen,
                Dir.blobBytes_appendBlob, hsize]
              rw [if_neg ?_]
              · have hread := readAt_appended (h.sized.2 w.db.curGen) hfits []
                rwa [List.append_nil] at hread
              · rw [Int32.lt_iff_toInt_lt, toInt_of_fits hfits, Int32.toInt_zero]
                exact not_lt.mpr (Int.natCast_nonneg _)
    · refine Spec.of_world ?_
      rintro u ⟨hkept, hvalue⟩
      refine Spec.bind ((flushBlob_cases A u w.db.curGen).errors fun _ _ _ => trivial)
        fun _ => Spec.pure ?_
      rintro v ⟨s, rfl⟩
      refine ⟨⟨hkept.main, hkept.size, hkept.idx, hkept.closed, hkept.now, hkept.wrapped⟩,
        ⟨rfl, rfl, rfl, ?_, rfl, rfl⟩, hvalue⟩
      rw [Bool.and_eq_true, Bool.not_eq_true'] at hblob
      exact hblob.1.symm
  · refine Spec.pure ?_
    rintro v rfl
    refine ⟨⟨rfl, rfl, rfl, rfl, rfl, id⟩, ⟨rfl, rfl, rfl, rfl, rfl, rfl⟩, fun _ => rfl⟩

/-- A record has been written and its entry made: `v` is the world after it, up to lines
appended since and index changes of others. -/
structure Recorded (w v : World) (key value : Bytes) (ix : AnyMap) (exp : Int64) (counter : Bool)
    (r : Record) (line : Bytes) : Prop where
  record : RecordOf r key ix exp counter
  marshal : marshalRecord r = some line
  main : w.dir.mainBytes ++ (line ++ [newline]) <+: v.dir.mainBytes
  fits : v.wrapped = false → lengthWraps (line.length + 1) = false
  value : v.wrapped = false → v.valueAt r = .ok value
  closed : v.db.closed = w.db.closed
  now : v.now = w.now

theorem World.valueAt_congr {v v' : World} (hblobs : v'.dir.blobs = v.dir.blobs)
    (hstores : v'.db.blobs = v.db.blobs) : v'.valueAt = v.valueAt := by
  funext r
  simp only [World.valueAt, DB.blobStore, Dir.blobBytes, Dir.blob, hblobs, hstores]

theorem Recorded.grown {v v' : World} {key value : Bytes} {ix : AnyMap} {exp : Int64}
    {counter : Bool} {r : Record} {line : Bytes} (h : Recorded w v key value ix exp counter r line)
    (hv : Grown v v') : Recorded w v' key value ix exp counter r line :=
  ⟨h.record, h.marshal, h.main.trans hv.main, h.fits ∘ hv.wrapped, fun hwrap => by
    rw [World.valueAt_congr hv.blobs hv.stores]
    exact h.value (hv.wrapped hwrap), hv.closed.trans h.closed, hv.now.trans h.now⟩

/-- The entry of a record at the end of the log. -/
def World.entryFor (w : World) (key line : Bytes) (exp : Int64) : PkEntry :=
  { key := key, off := w.db.size, n := lineLen line, exp := exp }

theorem appendRecord_exact (h : Tracked w) (key value : Bytes) (ix : AnyMap) (exp : Int64)
    (durable counter : Bool) :
    Spec A (fun v => v = w) (appendRecord key value ix exp durable counter)
      (fun _ v => ∃ r line, Recorded w v key value ix exp counter r line ∧
        v.db.idx = w.db.idx.put (w.entryFor key line exp) ix) (fun _ _ => True) := by
  unfold appendRecord
  refine Spec.bind (storeValue_exact h key value ix exp counter) fun r => ?_
  refine Spec.of_world ?_
  rintro u ⟨hkept, hrecord, hvalue⟩
  refine Spec.bind ((appendSync_cases A u r _ durable).errors fun _ _ _ => trivial)
    fun loc => Spec.updateDB ?_
  rintro v ⟨line, s, hline, _, rfl, rfl⟩
  have hmain : u.dir.mainBytes = w.dir.mainBytes := by rw [Dir.mainBytes, Dir.mainBytes, hkept.main]
  refine ⟨r, line, ⟨hrecord, hline, ?_, fun hwrap => (Bool.or_eq_false_iff.mp hwrap).2,
    fun hwrap => hvalue (Bool.or_eq_false_iff.mp hwrap).1, hkept.closed, hkept.now⟩, ?_⟩
  · rw [← hmain]
    exact List.prefix_rfl
  · show u.db.idx.put { key := key, off := u.db.size, n := lineLen line, exp := exp } ix = _
    rw [hkept.idx, hkept.size]
    rfl

/-- `PutIndexed` that returned without an error: the record is in the log, its entry was
put into the indexes, and the evictions were made. -/
theorem putIndexed_exact (h : Tracked w) (ord : MapOrder) (key value : Bytes) (explicit : AnyMap)
    (ttl : List Int64) :
    Spec A (fun v => v = w) (putIndexed ord key value explicit ttl)
      (fun _ v => ∃ exp ix r line, resolveTTL w.now ttl = .ok exp ∧ w.db.closed = false ∧
        Checked w ord key value explicit ix ∧ Recorded w v key value ix exp false r line ∧
        v.db.idx = (w.db.idx.put (w.entryFor key line exp) ix).enforce (ord.items ix))
      (fun _ _ => True) := by
  unfold putIndexed write
  refine Spec.bind_getWorld ?_
  rintro w rfl
  refine Spec.bind_ofExcept (fun _ _ _ _ => trivial) fun exp httl => ?_
  refine Spec.bind_requireOpen (fun _ => trivial) fun hopen => Spec.bind_getWorld ?_
  rintro w rfl
  refine Spec.bind_ofExcept (fun _ _ _ _ => trivial) fun ix hix => ?_
  refine Spec.bind_ofExcept (fun _ _ _ _ => trivial) fun _ hkept => ?_
  have hchecked : Checked w ord key value explicit ix := ⟨hix, hkept⟩
  refine Spec.bind (appendRecord_exact h key value ix exp w.db.opts.syncEveryWrite false)
    fun _ => Spec.of_world ?_
  rintro u ⟨r, line, hrecorded, hidx⟩
  refine Spec.bind (enforceMaxPerValue_exact u ord ix) fun _ => Spec.of_world ?_
  rintro v ⟨hgrown, henforced⟩
  have hdone := hrecorded.grown hgrown
  rw [hidx] at henforced
  -- the count of writes and the snapshot for the hint touch neither the files nor the index
  refine Spec.bind (Spec.updateDB (Q := fun _ z => Grown v z ∧ z.db.idx = v.db.idx) ?_)
    fun _ => Spec.updateDB fun z hz => ?_
  · rintro _ rfl
    exact ⟨⟨List.prefix_rfl, id, rfl, rfl, rfl, rfl, id⟩, rfl⟩
  · have hsnap : Grown z { z with db := z.db.maybeSnapshot } ∧
        z.db.maybeSnapshot.idx = z.db.idx := by
      rw [DB.maybeSnapshot]
      split
      · exact ⟨Grown.refl z, rfl⟩
      · exact ⟨⟨List.prefix_rfl, id, rfl, rfl, rfl, rfl, id⟩, rfl⟩
    exact ⟨exp, ix, r, line, httl, hopen, hchecked, hdone.grown (hz.1.trans hsnap.1),
      hsnap.2.trans (hz.2.trans henforced)⟩

/-- A record whose lengths fit is read back. -/
theorem Recorded.recordAt {v : World} {key value : Bytes} {ix : AnyMap} {exp : Int64}
    {counter : Bool} {r : Record} {line : Bytes} (h : Recorded w v key value ix exp counter r line)
    (hw : Tracked w) (hix : ix.Scalar) (hwrap : v.wrapped = false) {e : PkEntry}
    (hoff : e.off = w.db.size) (hn : e.n = lineLen line) : v.dir.recordAt e = .ok r.readBack := by
  obtain ⟨more, hmain⟩ := h.main
  have hwritten : Written r line := ⟨h.record.text, h.record.ix ▸ hix, h.marshal⟩
  have hfits : lengthWraps (line ++ [newline]).length = false := by
    rw [List.length_append]
    exact h.fits hwrap
  have hread := readAt_appended hw.sized.1 hfits more
  rw [hmain, ← hw.main, List.length_append, List.length_singleton] at hread
  rw [Dir.recordAt, hoff, hn, lineLen, hread]
  dsimp only
  rw [trimNewline_line, hwritten.unmarshal]

end Any

end NteeDb.Core
