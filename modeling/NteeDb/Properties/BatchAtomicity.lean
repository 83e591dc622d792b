import NteeDb.Invariants.Evictions
import NteeDb.Invariants.Sessions

/-!
# Batches that fail

`PutBatch` checks all items before it writes the first one, but it encodes each item only when it
is written.  An index value that the checks let pass and `encoding/json` refuses, a number that is
not finite, therefore fails the batch after the items in front of it were appended.
-/

namespace NteeDb.Properties.BatchAtomicity

open NteeDb.Core NteeDb.Verified NteeDb.Verified.Faults NteeDb.Verified.JsonCodec
open NteeDb.Verified.OrderedTree

/-- The error of a file operation; also the end of the process, which returns no error. -/
def FileFailure : Err → Prop
  | .io => True
  | .crash => True
  | .panic => True
  | .batchItem _ _ e => FileFailure e
  | _ => False

/-- The log and the indexes are as they were. -/
def Unchanged (w v : World) : Prop := v.dir.main = w.dir.main ∧ v.db.idx = w.db.idx

theorem Unchanged.refl (w : World) : Unchanged w w := ⟨rfl, rfl⟩

theorem Unchanged.trans {u v w : World} (h : Unchanged u v) (h' : Unchanged v w) : Unchanged u w :=
  ⟨h'.1.trans h.1, h'.2.trans h.2⟩

theorem Unchanged.mainBytes {v w : World} (h : Unchanged w v) :
    v.dir.mainBytes = w.dir.mainBytes := by
  rw [Dir.mainBytes, Dir.mainBytes, h.1]

section Writes

variable {A : Answer → Prop} {w : World}

theorem encodeMembers_of_encodable {items : List (Bytes × AnyValue)}
    (h : ∀ nv ∈ items, nv.2.encode ≠ none) : encodeMembers items ≠ none := by
  induction items with
  | nil => simp [encodeMembers]
  | cons nv items ih =>
      obtain ⟨hnv, hitems⟩ := List.forall_mem_cons.mp h
      obtain ⟨j, hj⟩ := Option.ne_none_iff_exists'.mp hnv
      obtain ⟨js, hjs⟩ := Option.ne_none_iff_exists'.mp (ih hitems)
      simp [encodeMembers, hj, hjs]

/-- Encoding a record fails only on its index values. -/
theorem marshal_of_encodable {r : Record} (h : AnyMap.Encodable r.ix) : marshalRecord r ≠ none := by
  have hix : r.toWire.ix = r.ix := by
    simp only [Record.toWire]
    split <;> rfl
  have henc : encodeMembers r.toWire.ix.items ≠ none :=
    encodeMembers_of_encodable fun nv hnv => h nv (hix ▸ hnv)
  obtain ⟨js, hjs⟩ := Option.ne_none_iff_exists'.mp henc
  rw [marshalRecord, Record.marshal, hjs]
  exact Option.some_ne_none _

theorem fileFailure_of_unanswered {e : Err} (h : Unanswered A e) : FileFailure e := by
  rcases h with rfl | ⟨rfl, _⟩
  · exact trivial
  · exact trivial

theorem flushBlob_failure (gen : Int64) :
    Spec A (fun v => v = w) (flushBlob gen) (fun _ => Unchanged w) (fun e _ => FileFailure e) := by
  refine (flushBlob_cases A w gen).post ?_ ?_
  · rintro _ v ⟨s, rfl⟩
    exact Unchanged.refl w
  · rintro e v ⟨_, h | ⟨rfl, _⟩⟩
    · exact fileFailure_of_unanswered h
    · exact trivial

theorem storeValue_failure (key value : Bytes) (ix : AnyMap) (exp : Int64) (counter : Bool) :
    Spec A (fun v => v = w) (storeValue key value ix exp counter)
      (fun r v => Unchanged w v ∧ r.ix = ix) (fun e _ => FileFailure e) := by
  unfold storeValue
  refine Spec.bind_getWorld ?_
  rintro w rfl
  refine Spec.ite (fun _ => ?_) fun _ => ?_
  · unfold appendBlob
    refine Spec.bind (Q := fun _ => Unchanged w) ?_ fun ref => ?_
    · refine Spec.bind_getWorld ?_
      rintro w rfl
      cases w.db.blobStore w.db.curGen with
      | none => exact Spec.fail fun _ _ => trivial
      | some bs =>
          refine Spec.bind ((BlobStore.append_cases A w bs value).errors fun e v hv => ?_)
            fun r => ?_
          · cases hv with
            | refused => exact trivial
            | crash => exact trivial
            | torn => exact trivial
          · refine Spec.bind (Spec.updateDB (Q := fun _ => Unchanged w) ?_)
              fun _ => Spec.pure fun v hv => hv
            rintro v ⟨rfl, _, rfl⟩
            exact ⟨rfl, rfl⟩
    · refine Spec.of_world ?_
      intro u hu
      refine Spec.bind (flushBlob_failure w.db.curGen) fun _ => Spec.pure fun v hv => ?_
      exact ⟨hu.trans hv, rfl⟩
  · refine Spec.pure ?_
    rintro v rfl
    exact ⟨Unchanged.refl v, rfl⟩

/-- A record that is written makes the log longer; one that cannot be encoded leaves it alone. -/
theorem appendRecord_outcome (key value : Bytes) (ix : AnyMap) (exp : Int64)
    (durable counter : Bool) :
    Spec A (fun v => v = w) (appendRecord key value ix exp durable counter)
      (fun _ v => AnyMap.Encodable ix ∧ w.dir.mainBytes.length < v.dir.mainBytes.length)
      (fun e v => FileFailure e ∨ ¬ AnyMap.Encodable ix ∧ Unchanged w v) := by
  unfold appendRecord
  refine Spec.bind ((storeValue_failure key value ix exp counter).errors fun _ _ h => Or.inl h)
    fun r => Spec.of_world ?_
  rintro u ⟨hu, rfl⟩
  refine Spec.bind ((appendSync_cases A u r _ durable).errors fun e v hv => ?_)
    fun loc => Spec.updateDB ?_
  · cases hv with
    | marshal hnone => exact Or.inr ⟨fun henc => marshal_of_encodable henc hnone, hu⟩
    | full => exact Or.inl trivial
    | crash => exact Or.inl trivial
    | torn => exact Or.inl trivial
    | unsynced => exact Or.inl trivial
    | crashSync => exact Or.inl trivial
  · rintro v ⟨line, s, hline, _, _, rfl⟩
    refine ⟨encodable_of_marshal hline, ?_⟩
    rw [← hu.mainBytes]
    show u.dir.mainBytes.length < (u.dir.mainBytes ++ (line ++ [Lines.newline])).length
    rw [List.length_append, List.length_append, List.length_singleton]
    omega

/-- What a failed pass over the items left: nothing if the first one failed, else a longer log. -/
inductive Stopped (w v : World) : List CheckedItem → Prop
  | first {c : CheckedItem} {cs : List CheckedItem} (h : ¬ AnyMap.Encodable c.ix)
      (hv : Unchanged w v) : Stopped w v (c :: cs)
  | later {c : CheckedItem} {cs : List CheckedItem} (h : AnyMap.Encodable c.ix)
      (hrest : ¬ ∀ c' ∈ cs, AnyMap.Encodable c'.ix)
      (hv : w.dir.mainBytes.length < v.dir.mainBytes.length) : Stopped w v (c :: cs)

theorem Stopped.not_encodable {v : World} {cs : List CheckedItem} (h : Stopped w v cs) :
    ¬ ∀ c ∈ cs, AnyMap.Encodable c.ix := by
  intro hall
  cases h with
  | first hc _ => exact hc (hall _ List.mem_cons_self)
  | later _ hrest _ => exact hrest fun c hc => hall c (List.mem_cons_of_mem _ hc)

/-- The items behind one that was written stop with a longer log. -/
theorem Stopped.grown {u v : World} {cs : List CheckedItem}
    (hlong : w.dir.mainBytes.length < u.dir.mainBytes.length) (h : Stopped u v cs) :
    w.dir.mainBytes.length < v.dir.mainBytes.length := by
  cases h with
  | first _ hv =>
      rw [hv.mainBytes]
      exact hlong
  | later _ _ hv => exact hlong.trans hv

theorem appendItems_outcome (cs : List CheckedItem) : ∀ (i : Nat) {w : World},
    Spec A (fun v => v = w) (appendItems i cs) (fun _ _ => ∀ c ∈ cs, AnyMap.Encodable c.ix)
      (fun e v => FileFailure e ∨ Stopped w v cs) := by
  induction cs with
  | nil => exact fun i w => Spec.pure fun _ _ => List.forall_mem_nil _
  | cons c cs ih =>
      intro i w
      rw [appendItems, asBatchItem]
      refine Spec.bind (Q := fun _ v => AnyMap.Encodable c.ix ∧
        w.dir.mainBytes.length < v.dir.mainBytes.length) ?_ fun _ => Spec.of_world ?_
      · refine Spec.bind_attempt (appendRecord_outcome c.item.key c.item.value c.ix c.exp false
          false) (fun _ => Spec.pure fun _ hv => hv) fun e => Spec.fail fun v hv => ?_
        rcases hv with hfile | ⟨henc, hv⟩
        · left
          split
          · exact hfile
          · exact hfile
        · exact Or.inr (.first henc hv)
      · rintro u ⟨henc, hlong⟩
        refine (ih (i + 1)).post
          (fun _ _ hv => List.forall_mem_cons.mpr ⟨henc, hv⟩) fun e v hv => ?_
        rcases hv with hfile | hstop
        · exact Or.inl hfile
        · exact Or.inr (.later henc hstop.not_encodable (hstop.grown hlong))

theorem deleteLocked_failure (key : Bytes) :
    Spec A (fun _ => True) (deleteLocked key) (fun _ _ => True) (fun e _ => FileFailure e) := by
  refine Spec.of_world fun w _ => ?_
  unfold deleteLocked
  refine Spec.bind_getWorld ?_
  rintro w rfl
  refine Spec.bind (Q := fun _ _ => True) ((appendSync_cases A w (tombstone key) (.del key)
    _).post (fun _ _ _ => trivial) fun e v hv => ?_) fun _ =>
    Spec.updateDB fun _ _ => trivial
  cases hv with
  | marshal hnone => exact absurd hnone (marshal_tombstone key)
  | full => exact trivial
  | crash => exact trivial
  | torn => exact trivial
  | unsynced => exact trivial
  | crashSync => exact trivial

theorem enforceSeen_failure (seen : List Bytes) (nv : Bytes × AnyValue) :
    Spec A (fun _ => True) (enforceSeen seen nv) (fun _ _ => True) (fun e _ => FileFailure e) := by
  unfold enforceSeen enforceOne
  refine Spec.ite (fun _ => Spec.pure fun _ _ => trivial) fun _ => ?_
  refine Spec.bind (Q := fun _ _ => True) (Spec.bind_getWorld fun w _ => ?_) fun _ =>
    Spec.pure fun _ _ => trivial
  cases w.db.idx.secs.get nv.1 with
  | none => exact Spec.pure fun _ _ => trivial
  | some si =>
      exact (Spec.forEach (I := fun _ _ => True) (fun key _ => deleteLocked_failure key)
        (si.victims nv.2)).conseq (fun _ _ => trivial) (fun _ _ _ => trivial) fun _ _ h => h

theorem enforceItems_failure (ords : Nat → MapOrder) (cs : List CheckedItem) :
    ∀ (i : Nat) (seen : List Bytes), Spec A (fun _ => True) (enforceItems ords i cs seen)
      (fun _ _ => True) (fun e _ => FileFailure e) := by
  induction cs with
  | nil => exact fun _ _ => Spec.pure fun _ _ => trivial
  | cons c cs ih =>
      intro i seen
      refine Spec.bind (Q := fun _ _ => True) ?_ fun seen' => ih (i + 1) seen'
      exact (Spec.foldEach (I := fun _ _ _ => True)
        (fun nv _ seen' => enforceSeen_failure seen' nv) ((ords i).items c.ix) seen).conseq
        (fun _ _ => trivial) (fun _ _ _ => trivial) fun _ _ h => h

/-- How `PutBatch` fails without a failure of a file operation. -/
theorem putBatch_outcome (ords : Nat → MapOrder) (items : List PutItem) :
    Spec A (fun v => v = w) (putBatch ords items) (fun _ _ => True)
      (fun e v => FileFailure e ∨ w.db.closed = true ∧ Unchanged w v ∨
        (∃ e', w.db.checkItems w.now ords 0 items = .error e') ∧ Unchanged w v ∨
        w.db.closed = false ∧
          ∃ cs, w.db.checkItems w.now ords 0 items = .ok cs ∧ Stopped w v cs) := by
  unfold putBatch
  refine Spec.bind_requireOpen (fun hclosed => Or.inr (Or.inl ⟨hclosed, Unchanged.refl w⟩))
    fun hopen => ?_
  refine Spec.ite (fun _ => Spec.pure fun _ _ => trivial) fun _ =>
    Spec.bind_getWorld ?_
  rintro w rfl
  refine Spec.bind_ofExcept ?_ fun cs hcs => ?_
  · rintro e v he rfl
    exact Or.inr (Or.inr (Or.inl ⟨⟨e, he⟩, Unchanged.refl v⟩))
  refine Spec.bind (Q := fun _ _ => True) ((appendItems_outcome cs 0).post
    (fun _ _ _ => trivial) fun e v hv => hv.imp_right fun h => Or.inr (Or.inr ⟨hopen, cs, hcs, h⟩))
    fun _ => ?_
  refine Spec.bind (Q := fun _ _ => True) ((enforceItems_failure ords cs 0 []).conseq
    (fun _ _ => trivial) (fun _ _ _ => trivial) fun _ _ h => Or.inl h) fun _ => ?_
  refine Spec.bind (Q := fun _ _ => True) (Spec.doWhen (fun _ => ?_) fun _ _ _ => trivial)
    fun _ => ?_
  · refine Spec.of_world fun u _ => ?_
    refine Spec.bind (Q := fun _ _ => True) ((flushBlob_failure w.db.curGen).post
      (fun _ _ _ => trivial) fun _ _ h => Or.inl h) fun _ => ?_
    refine Spec.of_world fun z _ => (flushMain_cases A z).post
      (fun _ _ _ => trivial) fun e _ h => Or.inl (fileFailure_of_unanswered h.2)
  · exact Spec.bind (Spec.updateDB (Q := fun _ _ => True) fun _ _ => trivial) fun _ =>
      Spec.updateDB fun _ _ => trivial

end Writes

/-- A batch that returned an error other than that of a file operation left the log and the indexes
as they were if and only if the store was closed, an item failed its check, or the index values of
the first item are among those that cannot be encoded. -/
theorem failed_batch_unchanged_iff (w : World) (ords : Nat → MapOrder) (items : List PutItem)
    {plan plan' : List Answer} {e : Err} {v : World}
    (hrun : putBatch ords items ⟨w, plan⟩ = (.error e, ⟨v, plan'⟩)) (hfile : ¬ FileFailure e) :
    v.dir.main = w.dir.main ∧ v.db.idx = w.db.idx ↔
      (w.db.closed = true ∨ ∀ cs, w.db.checkItems w.now ords 0 items = .ok cs →
        (∀ c ∈ cs, AnyMap.Encodable c.ix) ∨
          ∃ c rest, cs = c :: rest ∧ ¬ AnyMap.Encodable c.ix) := by
  have hout := (putBatch_outcome (A := fun _ => True) ords items).error rfl
      (fun _ _ => trivial) hrun
  rcases hout with hf | ⟨hclosed, hv⟩ | ⟨⟨e', he'⟩, hv⟩ | ⟨hopen, cs, hcs, hstop⟩
  · exact absurd hf hfile
  · exact iff_of_true hv (Or.inl hclosed)
  · refine iff_of_true hv (Or.inr fun cs hcs => ?_)
    rw [he'] at hcs
    cases hcs
  · have hnone := hstop.not_encodable
    cases hstop with
    | @first c cs hc hv =>
        refine iff_of_true hv (Or.inr fun cs' hcs' => Or.inr ?_)
        rw [hcs] at hcs'
        exact ⟨c, cs, (Except.ok.inj hcs').symm, hc⟩
    | @later c cs hc _ hlong =>
        refine iff_of_false (fun hv => ?_) ?_
        · rw [Unchanged.mainBytes hv] at hlong
          exact lt_irrefl _ hlong
        · rintro (hclosed | hcond)
          · rw [hopen] at hclosed
            cases hclosed
          · rcases hcond _ hcs with hall | ⟨c', rest, heq, hc'⟩
            · exact hnone hall
            · rw [← (List.cons.inj heq).1] at hc'
              exact hc' hc

/-! ## A number that is not finite -/

/-- A number index without an `Extract` function. -/
def scored : Options := { indexes := [{ name := [0x6E], kind := .number }] }

/-- An empty store with that index. -/
def emptyStore : World := runEvents { now := ⟨0, Millis.zero_bounded⟩ } [.openStore scored []]

/-- The value `{}` under a key, with an index value. -/
def withScore (key : Bytes) (score : AnyValue) : PutItem :=
  { key := key, value := [0x7B, 0x7D], ix := Tree.empty.set ([0x6E], score) }

/-- NaN. -/
def notANumber : AnyValue := .f64 ⟨false, 2047 * 2 ^ 52 + 2, by decide⟩

/-- The batch of `a` with the score 1 and `b` with the score NaN. -/
def secondInvalid : Except Err Unit × Env World :=
  putBatch (fun _ => .sorted) [withScore [0x61] (.int 1), withScore [0x62] notANumber]
  ⟨emptyStore, []⟩

/-- The batch fails on its second item, and has written the first one. -/
theorem first_item_written :
    secondInvalid.1 = .error (.batchItem 1 (some [0x62]) .marshal) ∧
      (emptyStore.db.idx.pk.get [0x61]).isSome = false ∧
      (secondInvalid.2.world.db.idx.pk.get [0x61]).isSome = true ∧
      emptyStore.dir.mainBytes.length < secondInvalid.2.world.dir.mainBytes.length := by
  decide +kernel

/-- The batch of `b` alone. -/
def onlyInvalid : Except Err Unit × Env World :=
  putBatch (fun _ => .sorted) [withScore [0x62] notANumber] ⟨emptyStore, []⟩

theorem onlyInvalid_error : onlyInvalid.1 = .error (.batchItem 0 (some [0x62]) .marshal) := by
  decide +kernel

/-- A batch whose first item cannot be encoded. -/
theorem invalid_first_item_unchanged :
    onlyInvalid.2.world.dir.main = emptyStore.dir.main ∧
        onlyInvalid.2.world.db.idx = emptyStore.db.idx ↔
      (emptyStore.db.closed = true ∨
        ∀ cs, emptyStore.db.checkItems emptyStore.now (fun _ => .sorted) 0
          [withScore [0x62] notANumber] = .ok cs →
        (∀ c ∈ cs, AnyMap.Encodable c.ix) ∨
          ∃ c rest, cs = c :: rest ∧ ¬ AnyMap.Encodable c.ix) := by
  have hrun : onlyInvalid = (.error (.batchItem 0 (some [0x62]) .marshal),
      ⟨onlyInvalid.2.world, onlyInvalid.2.plan⟩) := Prod.ext onlyInvalid_error rfl
  unfold onlyInvalid at hrun
  exact failed_batch_unchanged_iff emptyStore (fun _ => .sorted)
    [withScore [0x62] notANumber] hrun id

end NteeDb.Properties.BatchAtomicity
