import NteeDb.Core.Runs
import NteeDb.Invariants.Reads

/-!
# The secondary indexes stay in step with the primary one

`SecInv` of the open store is kept by every operation, whatever the system
answers to its file steps: the trees change together with the primary entries,
between file steps.  Opening establishes it from any directory, provided that the
keys of a hint it starts from are distinct.

The same walk over the programs shows that no operation forgets that a length has
wrapped; `Watched` says which of the two is asked for.
-/

namespace NteeDb.Core

open NteeDb.Verified
open Faults OrderedTree JsonCodec

/-- The trees of the store are those of the declared indexes, and in step with its
primary entries. -/
structure Indexes.InStep (ix : Indexes) (defs : List IndexDef) : Prop where
  inv : SecInv ix
  declared : ix.secs.decls = defs.map fun d => (newSecIndex d).decl

private theorem ext_decl {s t : SecIndex} (hdecl : s.decl = t.decl)
    (hmem : ∀ e, e ∈ s.tree ↔ e ∈ t.tree) : s = t := by
  obtain ⟨name, kind, max, tree⟩ := s
  obtain ⟨name', kind', max', tree'⟩ := t
  injection hdecl with h1 h2 h3
  subst h1 h2 h3
  rw [show tree = tree' from Tree.ext_mem hmem]

private theorem ext_decls {s t : List SecIndex} (hdecl : s.map SecIndex.decl = t.map SecIndex.decl)
    (hmem : ∀ a ∈ s, ∀ b ∈ t, a.decl = b.decl → ∀ e, e ∈ a.tree ↔ e ∈ b.tree) : s = t := by
  induction s generalizing t with
  | nil =>
      cases t with
      | nil => rfl
      | cons b t => cases hdecl
  | cons a s ih =>
      cases t with
      | nil => cases hdecl
      | cons b t =>
          obtain ⟨hab, hst⟩ := List.cons.inj hdecl
          rw [ext_decl hab (hmem a (List.mem_cons_self ..) b (List.mem_cons_self ..) hab),
            ih hst fun x hx y hy => hmem x (List.mem_cons_of_mem _ hx) y
            (List.mem_cons_of_mem _ hy)]

/-- Indexes in step with the same declarations have the same trees if for each of them the
primary entries give rise to the same entries. -/
theorem Indexes.InStep.secs_eq_declared {ix ix' : Indexes} {defs : List IndexDef}
    (h : ix.InStep defs) (h' : ix'.InStep defs) (hpk : ∀ si ∈ ix.secs.items, ∀ e,
      (∃ p ∈ ix.pk, Indexed si p e) ↔ ∃ p ∈ ix'.pk, Indexed si p e) : ix.secs = ix'.secs := by
  refine SecIndexes.ext_items (ext_decls (h.declared.trans h'.declared.symm) ?_)
  intro a ha b hb hdecl e
  have hname : a.name = b.name := congrArg Decl.name hdecl
  have hkind : a.kind = b.kind := congrArg Decl.kind hdecl
  rw [h.inv.mem_iff a ha, h'.inv.mem_iff b hb, hpk a ha]
  simp only [indexed_congr hname hkind]

theorem Indexes.InStep.secs_eq {ix ix' : Indexes} {defs : List IndexDef} (h : ix.InStep defs)
    (h' : ix'.InStep defs)
    (hpk : ∀ si e, (∃ p ∈ ix.pk, Indexed si p e) ↔ ∃ p ∈ ix'.pk, Indexed si p e) :
    ix.secs = ix'.secs := h.secs_eq_declared h' fun si _ => hpk si

/-- The trees are a function of the primary entries. -/
theorem Indexes.InStep.ext {ix ix' : Indexes} {defs : List IndexDef} (h : ix.InStep defs)
    (h' : ix'.InStep defs) (hpk : ix.pk = ix'.pk) : ix = ix' := by
  have hsecs := h.secs_eq h' fun si e => by rw [hpk]
  cases ix
  cases ix'
  cases hpk
  cases hsecs
  rfl

theorem Indexes.InStep.put {ix : Indexes} {defs : List IndexDef} (h : ix.InStep defs) {e : PkEntry}
    (he : e.ix = Tree.empty) {ixv : AnyMap} (hixv : AnyMap.Encodable ixv) :
    (ix.put e ixv).InStep defs := ⟨h.inv.put he hixv, (ix.put_decls he ixv).trans h.declared⟩

theorem Indexes.InStep.delete {ix : Indexes} {defs : List IndexDef} (h : ix.InStep defs)
    (key : Bytes) : (ix.delete key).InStep defs :=
  ⟨h.inv.delete key, (ix.delete_decls key).trans h.declared⟩

theorem Indexes.InStep.removeAll {ix : Indexes} {defs : List IndexDef} (h : ix.InStep defs)
    (doomed : List PkEntry) : (ix.removeAll doomed).InStep defs :=
  ⟨h.inv.removeAll doomed, (ix.removeAll_decls doomed).trans h.declared⟩

/-- The open store is in step. -/
def InStep (w : World) : Prop := w.db.idx.InStep w.db.opts.indexes

/-- What is watched along a run. -/
structure Watch where
  inStep : Bool := false
  wrapped : Bool := false

/-- The store is in step, if that is watched; a length has wrapped, if that is watched.
The latter is a fact of the past, which no operation undoes. -/
def Watched (k : Watch) (w : World) : Prop :=
  (k.inStep = true → w.db.idx.InStep w.db.opts.indexes) ∧ (k.wrapped = true → w.wrapped = true)

theorem watched_inStep {w : World} : Watched { inStep := true } w ↔ InStep w :=
  ⟨fun h => h.1 rfl, fun h => ⟨fun _ => h, fun hk => absurd hk (by decide)⟩⟩

theorem watched_wrapped {w : World} : Watched { wrapped := true } w ↔ w.wrapped = true :=
  ⟨fun h => h.2 rfl, fun h => ⟨fun hk => absurd hk (by decide), fun _ => h⟩⟩

variable {A : Answer → Prop} {k : Watch}

theorem Watched.or_wrapped {k : Watch} {w : World} (h : Watched k w) (b : Bool) :
    k.wrapped = true → (w.wrapped || b) = true := fun hk => by rw [h.2 hk]; rfl

/-! ## Index values that were written or read -/

theorem encodable_of_marshal {r : Record} {line : Bytes} (h : marshalRecord r = some line) :
    AnyMap.Encodable r.ix := by
  have hix : r.toWire.ix = r.ix := by
    simp only [Record.toWire]
    split <;> rfl
  obtain ⟨js, hjs, _⟩ := Option.map_eq_some_iff.mp (show r.toWire.marshal = some line from h)
  exact hix ▸ AnyMap.encodable_of_encodeMembers hjs

theorem encodable_of_unmarshal {line : Bytes} {r : Record} (h : unmarshalRecord line = some r) :
    AnyMap.Encodable r.ix := by
  obtain ⟨s, hs, rfl⟩ := Option.map_eq_some_iff.mp h
  have hix : s.ofWire.ix = s.ix := by
    simp only [Record.ofWire]
    split <;> rfl
  rw [hix]
  refine unmarshal_invariant (P := fun r : Record => AnyMap.Encodable r.ix)
    AnyMap.encodable_empty ?_ hs
  have hmap {α : Type} {x : Option α} {f : α → Record} {t t' : Record}
      (hx : x.map f = some t') (hf : ∀ a, (f a).ix = t.ix) (ht : AnyMap.Encodable t.ix) :
      AnyMap.Encodable t'.ix := by
    obtain ⟨a, _, rfl⟩ := Option.map_eq_some_iff.mp hx
    rwa [hf a]
  simp only [recordFields, List.forall_mem_cons]
  refine ⟨?_, ?_, ?_, ?_, ?_, ?_, ?_, ?_, by simp⟩
  any_goals
    intro j t t' hread ht
    exact hmap hread (fun _ => rfl) ht
  · intro j t t' hread ht
    obtain ⟨m, hm, rfl⟩ := Option.map_eq_some_iff.mp hread
    exact AnyMap.encodable_readMap hm ht

theorem encodable_of_parseHintLines {ls : List Bytes} {es : List PkEntry}
    (h : parseHintLines ls = some es) : ∀ e ∈ es, AnyMap.Encodable e.ix := by
  have hline {l : Bytes} {e : PkEntry} (he : unmarshal hintFields { key := [] } l = some e) :
      AnyMap.Encodable e.ix := by
    refine unmarshal_invariant (P := fun e : PkEntry => AnyMap.Encodable e.ix)
      AnyMap.encodable_empty ?_ he
    have hmap {α : Type} {x : Option α} {f : α → PkEntry} {t t' : PkEntry}
        (hx : x.map f = some t') (hf : ∀ a, (f a).ix = t.ix) (ht : AnyMap.Encodable t.ix) :
        AnyMap.Encodable t'.ix := by
      obtain ⟨a, _, rfl⟩ := Option.map_eq_some_iff.mp hx
      rwa [hf a]
    simp only [hintFields, List.forall_mem_cons]
    refine ⟨?_, ?_, ?_, ?_, ?_, by simp⟩
    any_goals
      intro j t t' hread ht
      exact hmap hread (fun _ => rfl) ht
    · intro j t t' hread ht
      obtain ⟨m, hm, rfl⟩ := Option.map_eq_some_iff.mp hread
      exact AnyMap.encodable_readMap hm ht
  induction ls generalizing es with
  | nil =>
      cases h
      simp
  | cons l ls ih =>
      obtain ⟨e, he, h⟩ := Option.bind_eq_some_iff.mp h
      obtain ⟨es', hes', h⟩ := Option.bind_eq_some_iff.mp h
      cases h
      rw [List.forall_mem_cons]
      exact ⟨hline he, ih hes'⟩

/-! ## The write path -/

theorem syncMain_keeps : Keeps A (Watched k) syncMain := Keeps.atomicStep fun _ h => h

theorem syncBlob_keeps (gen : Int64) : Keeps A (Watched k) (syncBlob gen) :=
  Keeps.atomicStep fun _ h => h

theorem appendSync_keeps (r : Record) (m : Mutation) (sync : Bool) :
    Spec A (Watched k) (appendSync r m sync)
      (fun _ w => Watched k w ∧ AnyMap.Encodable r.ix) fun _ => Watched k := by
  rw [appendSync]
  split
  · exact Spec.fail fun _ h => h
  · next line hline =>
      refine Spec.bind Keeps.getWorld fun w => ?_
      refine Spec.bind (Keeps.require _ _) fun _ => ?_
      refine Spec.bind (Keeps.fileStep (fun _ h => ⟨h.1, h.or_wrapped _⟩) fun _ _ _ h => h)
        fun _ => ?_
      refine Spec.bind (Keeps.doWhen syncMain_keeps) fun _ => ?_
      refine Spec.bind (Keeps.updateDB fun _ h => h) fun _ => ?_
      exact Spec.pure fun _ h => ⟨h, encodable_of_marshal hline⟩

theorem append_keeps (bs : BlobStore) (value : Bytes) : Keeps A (Watched k) (bs.append value) :=
  Keeps.bind (Keeps.require _ _) fun _ => Keeps.bind Keeps.getWorld fun _ =>
    Keeps.bind (Keeps.require _ _) fun _ =>
    Keeps.bind (Keeps.fileStep (fun _ h => ⟨h.1, h.or_wrapped _⟩) fun _ _ _ h => h) fun _ =>
    Keeps.pure _

theorem appendBlob_keeps (gen : Int64) (value : Bytes) :
    Keeps A (Watched k) (appendBlob gen value) := by
  refine Keeps.bind Keeps.getWorld fun w => ?_
  split
  · exact Keeps.fail _
  · exact Keeps.bind (append_keeps _ _) fun _ =>
      Keeps.bind (Keeps.updateDB fun _ h => h) fun _ => Keeps.pure _

theorem flushBlob_keeps (gen : Int64) : Keeps A (Watched k) (flushBlob gen) := by
  refine Keeps.bind Keeps.getWorld fun w => ?_
  split
  · exact Keeps.pure ()
  · exact Keeps.bind (Keeps.require _ _) fun _ => syncBlob_keeps gen

/-- The record of a write carries the index values of the write. -/
theorem storeValue_keeps (key value : Bytes) (ix : AnyMap) (exp : Int64) (counter : Bool) :
    Spec A (Watched k) (storeValue key value ix exp counter)
      (fun r w => Watched k w ∧ r.ix = ix) fun _ => Watched k := by
  refine Spec.bind Keeps.getWorld fun w => ?_
  refine Spec.ite (fun _ => ?_) fun _ => ?_
  · refine Spec.bind (appendBlob_keeps _ _) fun ref => ?_
    refine Spec.bind (flushBlob_keeps _) fun _ => ?_
    exact Spec.pure fun _ h => ⟨h, rfl⟩
  · exact Spec.pure fun _ h => ⟨h, rfl⟩

theorem appendRecord_keeps (key value : Bytes) (ix : AnyMap) (exp : Int64)
    (durable counter : Bool) :
    Keeps A (Watched k) (appendRecord key value ix exp durable counter) := by
  refine Spec.bind (storeValue_keeps key value ix exp counter) fun r => ?_
  refine Spec.bind (Q := fun _ w => Watched k w ∧ AnyMap.Encodable ix) ?_ fun loc => ?_
  · refine Spec.of_world fun w hw => ?_
    obtain ⟨hstep, rfl⟩ := hw
    exact (appendSync_keeps r _ durable).pre fun v hv => by
      rw [hv]
      exact hstep
  · exact Spec.updateDB fun w h => ⟨fun hk => ⟨(h.1.1 hk).inv.put rfl h.2,
      (Indexes.put_decls _ rfl _).trans (h.1.1 hk).declared⟩, h.1.2⟩

theorem deleteLocked_keeps (key : Bytes) : Keeps A (Watched k) (deleteLocked key) := by
  refine Spec.bind Keeps.getWorld fun w => ?_
  refine Spec.bind (appendSync_keeps _ _ _) fun _ => ?_
  exact Spec.updateDB fun w h => ⟨fun hk => ⟨(h.1.1 hk).inv.delete key,
    (Indexes.delete_decls _ key).trans (h.1.1 hk).declared⟩, h.1.2⟩

/-! ## Hints, and what leaves the indexes alone -/

theorem writeIndexHint_keeps (pk : PkIndex) (covers : Int64) (of : Nat) :
    Keeps A (Watched k) (writeIndexHint pk covers of) := by
  refine Keeps.bind Keeps.quietStep fun _ => ?_
  split
  · exact Keeps.fail _
  · exact Keeps.bind Keeps.quietStep fun _ => Keeps.bind Keeps.quietStep fun _ =>
      Keeps.bind Keeps.quietStep fun _ => Keeps.atomicStep fun _ h => h

theorem checkpointHint_keeps : Keeps A (Watched k) checkpointHint :=
  Keeps.bind Keeps.getWorld fun _ =>
    Keeps.bind (flushBlob_keeps _) fun _ => Keeps.bind syncMain_keeps fun _ =>
    Keeps.bind (writeIndexHint_keeps _ _ _) fun _ => Keeps.updateDB fun _ h => h

theorem writeHint_keeps : Keeps A (Watched k) writeHint :=
  Keeps.bind (Keeps.updateDB fun _ h => h) fun _ => checkpointHint_keeps

theorem maybeWriteHint_keeps : Keeps A (Watched k) maybeWriteHint := by
  refine Keeps.updateDB fun w h => ?_
  rw [DB.maybeSnapshot]
  split
  · exact h
  · exact ⟨h.1, h.2⟩

theorem flushJob_keeps (j : HintSnapshot) : Keeps A (Watched k) (flushJob j) :=
  Keeps.bind Keeps.getWorld fun _ => Keeps.bind (Keeps.require _ _) fun _ =>
    Keeps.bind (syncBlob_keeps _) fun _ => syncMain_keeps

theorem hintAsyncFlush_keeps : Keeps A (Watched k) hintAsyncFlush := by
  refine Keeps.bind Keeps.getWorld fun w => ?_
  split
  · exact Keeps.pure ()
  · refine Keeps.ite (fun _ => Keeps.pure ()) fun _ => ?_
    refine Keeps.bind (Keeps.attempt (flushJob_keeps _)) fun r => ?_
    cases r with
    | ok _ => exact Keeps.updateDB fun _ h => h
    | error e =>
        exact Keeps.ite (fun _ => Keeps.fail e) fun _ => Keeps.updateDB fun _ h => h

theorem hintAsyncWrite_keeps : Keeps A (Watched k) hintAsyncWrite := by
  refine Keeps.bind Keeps.getWorld fun w => ?_
  split
  · exact Keeps.pure ()
  · refine Keeps.ite (fun _ => ?_) fun _ => Keeps.pure ()
    exact Keeps.bind (Keeps.doWhen (Keeps.ignoreError (writeIndexHint_keeps _ _ _)))
      fun _ => Keeps.updateDB fun _ h => h

theorem awaitHint_keeps : Keeps A (Watched k) awaitHint :=
  Keeps.bind hintAsyncFlush_keeps fun _ => hintAsyncWrite_keeps

theorem closeMainHandles_keeps : Keeps A (Watched k) closeMainHandles :=
  Keeps.bind (Keeps.updateDB fun _ h => h) fun _ => Keeps.quietStep

theorem close_keeps : Keeps A (Watched k) close := by
  refine Keeps.bind Keeps.getWorld fun w => ?_
  refine Keeps.ite (fun _ => Keeps.pure ()) fun _ => ?_
  exact Keeps.bind (Keeps.updateDB fun _ h => h) fun _ =>
    Keeps.bind awaitHint_keeps fun _ =>
    Keeps.bind (Keeps.onError writeHint_keeps (Keeps.ignoreError closeMainHandles_keeps))
      fun _ => closeMainHandles_keeps

/-! ## Put, delete, retention -/

theorem enforceOne_keeps (nv : Bytes × AnyValue) : Keeps A (Watched k) (enforceOne nv) := by
  refine Keeps.bind Keeps.getWorld fun w => ?_
  split
  · exact Keeps.pure ()
  · exact Keeps.forEach deleteLocked_keeps _

theorem countWrites_keeps (n : Nat) : Keeps A (Watched k) (countWrites n) :=
  Keeps.updateDB fun _ h => h

theorem putIndexed_keeps (ord : MapOrder) (key value : Bytes) (explicit : AnyMap)
    (ttl : List Int64) : Keeps A (Watched k) (putIndexed ord key value explicit ttl) := by
  refine Keeps.bind Keeps.getWorld fun _ =>
    Keeps.bind (Keeps.ofExcept _) fun exp =>
    Keeps.bind requireOpen_keeps fun _ => Keeps.bind Keeps.getWorld fun _ =>
    Keeps.bind (Keeps.ofExcept _) fun ix => ?_
  exact Keeps.bind (Keeps.ofExcept _) fun _ =>
    Keeps.bind (appendRecord_keeps _ _ _ _ _ _) fun _ =>
    Keeps.bind (Keeps.forEach enforceOne_keeps _) fun _ =>
    Keeps.bind (countWrites_keeps 1) fun _ => maybeWriteHint_keeps

theorem delete_keeps (key : Bytes) : Keeps A (Watched k) (delete key) := by
  refine Keeps.bind requireOpen_keeps fun _ =>
    Keeps.bind Keeps.getWorld fun w => ?_
  split
  · exact Keeps.pure ()
  · exact Keeps.bind (deleteLocked_keeps key) fun _ => maybeWriteHint_keeps

theorem appendItems_keeps (i : Nat) (cs : List CheckedItem) :
    Keeps A (Watched k) (appendItems i cs) := by
  induction cs generalizing i with
  | nil => exact Keeps.pure ()
  | cons c cs ih =>
      refine Keeps.bind ?_ fun _ => ih (i + 1)
      refine Keeps.bind (Keeps.attempt (appendRecord_keeps _ _ _ _ _ _)) fun r => ?_
      cases r with
      | ok _ => exact Keeps.pure _
      | error e => exact Keeps.fail _

theorem enforceItems_keeps (ords : Nat → MapOrder) (i : Nat) (cs : List CheckedItem)
    (seen : List Bytes) : Keeps A (Watched k) (enforceItems ords i cs seen) := by
  induction cs generalizing i seen with
  | nil => exact Keeps.pure ()
  | cons c cs ih =>
      refine Keeps.bind (Keeps.foldEach (fun seen nv => ?_) _ _) fun _ => ih _ _
      exact Keeps.ite (fun _ => Keeps.pure _) fun _ =>
        Keeps.bind (enforceOne_keeps nv) fun _ => Keeps.pure _

theorem putBatch_keeps (ords : Nat → MapOrder) (items : List PutItem) :
    Keeps A (Watched k) (putBatch ords items) := by
  refine Keeps.bind requireOpen_keeps fun _ =>
    Keeps.ite (fun _ => Keeps.pure ()) fun _ => ?_
  refine Keeps.bind Keeps.getWorld fun w =>
    Keeps.bind (Keeps.ofExcept _) fun checked => ?_
  exact Keeps.bind (appendItems_keeps 0 checked) fun _ =>
    Keeps.bind (enforceItems_keeps ords 0 checked []) fun _ =>
    Keeps.bind (Keeps.doWhen
      (Keeps.bind (flushBlob_keeps _) fun _ => syncMain_keeps)) fun _ =>
    Keeps.bind (countWrites_keeps _) fun _ => maybeWriteHint_keeps

theorem removePkBody_keeps (doomed : List PkEntry) : Keeps A (Watched k) (removePkBody doomed) := by
  refine Keeps.bind Keeps.getWorld fun w =>
    Keeps.bind (Keeps.forEach (fun e => ?_) doomed) fun _ =>
    Keeps.updateDB fun w h => ⟨fun hk => ⟨(h.1 hk).inv.removeAll doomed,
      (Indexes.removeAll_decls _ doomed).trans (h.1 hk).declared⟩, h.2⟩
  exact Spec.bind (appendSync_keeps _ _ _) fun _ => Spec.pure fun _ h => h.1

theorem removePkEntries_keeps (doomed : List PkEntry) :
    Keeps A (Watched k) (removePkEntries doomed) :=
  Keeps.ite (fun _ => Keeps.pure _) fun _ =>
    Keeps.bind (removePkBody_keeps doomed) fun _ =>
    Keeps.bind writeHint_keeps fun _ => Keeps.pure _

theorem removeByPkLess_keeps (cutoff : Bytes) : Keeps A (Watched k) (removeByPkLess cutoff) :=
  Keeps.bind requireOpen_keeps fun _ =>
    Keeps.bind Keeps.getWorld fun _ => removePkEntries_keeps _

theorem removeByPkGreater_keeps (cutoff : Bytes) : Keeps A (Watched k) (removeByPkGreater cutoff) :=
  Keeps.bind requireOpen_keeps fun _ =>
    Keeps.bind Keeps.getWorld fun _ => removePkEntries_keeps _

theorem reapCycle_keeps (n : Nat) : Keeps A (Watched k) (reapCycle n) := by
  refine Keeps.bind Keeps.getWorld fun _ =>
    Keeps.bind (Keeps.updateDB fun _ h => h) fun _ =>
    Keeps.bind Keeps.getWorld fun _ =>
    Keeps.ite (fun _ => Keeps.pure ()) fun _ => Keeps.ignoreError ?_
  refine Keeps.bind (Keeps.foldEach (fun reaped r => ?_) _ _) fun _ =>
    Keeps.doWhen (Keeps.bind (Keeps.doWhen (Keeps.ignoreError syncMain_keeps))
      fun _ => maybeWriteHint_keeps)
  exact Keeps.bind Keeps.getWorld fun _ =>
    Keeps.ite (fun _ => Keeps.bind (deleteLocked_keeps _) fun _ => Keeps.pure _)
      fun _ => Keeps.pure _

/-! ## Counters -/

theorem patchCounter_keeps (e : PkEntry) (pos : Nat) (next : Int64) :
    Keeps A (Watched k) (patchCounter e pos next) :=
  Keeps.bind (Keeps.require _ _) fun _ => Keeps.bind Keeps.getWorld fun _ =>
    Keeps.bind (Keeps.fileStep (fun _ h => h) fun _ _ _ h => h) fun _ =>
    Keeps.doWhen syncMain_keeps

theorem incrAppend_keeps (key : Bytes) (v exp : Int64) :
    Keeps A (Watched k) (incrAppend key v exp) :=
  Keeps.bind Keeps.getWorld fun _ =>
    Keeps.bind (appendRecord_keeps _ _ _ _ _ _) fun _ =>
    Keeps.bind (countWrites_keeps 1) fun _ => maybeWriteHint_keeps

theorem storeCounter_keeps (e : PkEntry) (old : Record) (next : Int64) :
    Keeps A (Watched k) (storeCounter e old next) := by
  rw [storeCounter]
  split
  · exact patchCounter_keeps _ _ _
  · exact incrAppend_keeps _ _ _

theorem liveCounter_keeps (key : Bytes) : Keeps A (Watched k) (liveCounter key) := by
  refine Keeps.bind Keeps.getWorld fun w => ?_
  split
  · exact Keeps.pure none
  · exact Keeps.ite
      (fun _ => Keeps.bind (deleteLocked_keeps key) fun _ => Keeps.pure none)
      fun _ => Keeps.pure _

theorem counterUpdate_keeps {β : Type} (key : Bytes) (createExp : Int64)
    (step : Int64 → Except Err (Option Int64 × β)) :
    Keeps A (Watched k) (counterUpdate key createExp step) := by
  refine Keeps.bind (liveCounter_keeps key) fun r => ?_
  cases r with
  | none =>
      refine Keeps.bind (Keeps.ofExcept _) fun r => ?_
      split
      · exact Keeps.pure r
      · exact Keeps.bind (incrAppend_keeps _ _ _) fun _ => Keeps.pure r
  | some e =>
      refine Keeps.bind (readRecord_keeps e) fun old =>
        Keeps.bind (Keeps.ofExcept _) fun cur =>
        Keeps.bind (Keeps.ofExcept _) fun r => ?_
      split
      · exact Keeps.pure r
      · exact Keeps.bind (storeCounter_keeps _ _ _) fun _ => Keeps.pure r

theorem counterOp_keeps {β : Type} (key : Bytes) (ttl : List Int64)
    (step : Int64 → Except Err (Option Int64 × β)) : Keeps A (Watched k) (counterOp key ttl step) :=
  Keeps.bind Keeps.getWorld fun _ =>
    Keeps.bind (Keeps.ofExcept _) fun _ =>
    Keeps.bind requireOpen_keeps fun _ =>
    Keeps.bind (counterUpdate_keeps key _ step) fun _ => Keeps.pure _

/-! ## Rewrites -/

theorem compactTransform_keeps (r : Record) : Keeps A (Watched k) (compactTransform r) :=
  Keeps.bind Keeps.getWorld fun _ => Keeps.pure _

theorem reindexTransform_keeps (r : Record) : Keeps A (Watched k) (reindexTransform r) :=
  Keeps.bind Keeps.getWorld fun _ => Keeps.bind (readValue_keeps r) fun _ =>
    Keeps.bind (Keeps.ofExcept _) fun _ => Keeps.pure _

theorem relieveTransform_keeps (r : Record) : Keeps A (Watched k) (relieveTransform r) := by
  refine Keeps.bind (compactTransform_keeps r) fun r => ?_
  split
  · exact Keeps.pure r
  · refine Keeps.bind (blobReadAt_keeps _) fun val =>
      Keeps.bind Keeps.getWorld fun w => ?_
    split
    · exact Keeps.fail _
    · exact Keeps.bind (append_keeps _ _) fun _ =>
        Keeps.bind (Keeps.updateDB fun _ h => h) fun _ => Keeps.pure _

theorem writeCompact_keeps (line : Bytes) : Keeps A (Watched k) (writeCompact line) :=
  Keeps.bind Keeps.getWorld fun _ => Keeps.bind (Keeps.require _ _) fun _ =>
    Keeps.fileStep (fun _ h => ⟨h.1, h.or_wrapped _⟩) fun _ _ _ h => h

/-- The index being built carries only values that were written. -/
def Build.Encodable (b : Build) : Prop := ∀ p ∈ b.pk, AnyMap.Encodable p.ix

theorem rewriteEntry_keeps {transform : Record → StoreM Record}
    (htr : ∀ r, Keeps A (Watched k) (transform r)) (now : Millis) (b : Build) (e : PkEntry)
    (hb : b.Encodable) :
    Spec A (Watched k) (rewriteEntry transform now b e)
      (fun b' w => b'.Encodable ∧ Watched k w) fun _ => Watched k := by
  refine Spec.ite (fun _ => Spec.pure fun _ h => ⟨hb, h⟩) fun _ => ?_
  refine Spec.bind (readRecord_keeps e) fun r => Spec.bind (htr r) fun r' => ?_
  split
  · exact Spec.fail fun _ h => h
  · next line hline =>
      refine Spec.bind (writeCompact_keeps line) fun _ => Spec.pure fun w h => ⟨?_, h⟩
      intro p hp
      rcases Tree.mem_set_key.mp hp with rfl | ⟨hp, _⟩
      · exact encodable_of_marshal hline
      · exact hb p hp

theorem buildRewrite_keeps {transform : Record → StoreM Record}
    (htr : ∀ r, Keeps A (Watched k) (transform r)) :
    Spec A (Watched k) (buildRewrite transform)
      (fun pk w => (∀ p ∈ pk, AnyMap.Encodable p.ix) ∧ Watched k w) fun _ => Watched k := by
  refine Spec.bind (Keeps.atomicStep fun _ h => h) fun _ =>
    Spec.bind Keeps.getWorld fun w => ?_
  refine Spec.bind (Q := fun (b : Build) v => b.Encodable ∧ Watched k v) ?_ fun b => ?_
  · have hfold := Spec.foldEach (A := A) (E := fun _ => Watched k)
      (I := fun _ (b : Build) v => b.Encodable ∧ Watched k v)
      (fun e es b => Spec.of_pure (rewriteEntry_keeps htr w.now b e))
      w.db.idx.pk.items {}
    exact hfold.pre fun _ h => ⟨fun p hp => absurd hp (Tree.not_mem_empty p), h⟩
  · refine Spec.bind (Q := fun _ v => b.Encodable ∧ Watched k v)
      (Spec.quietStep (fun _ h => h) (fun _ _ _ h => h.2) fun _ _ h => h.2) fun _ =>
      Spec.bind (Q := fun _ v => b.Encodable ∧ Watched k v)
      (Spec.quietStep (fun _ h => h) (fun _ _ _ h => h.2) fun _ _ h => h.2) fun _ =>
      Spec.bind (Q := fun _ v => b.Encodable ∧ Watched k v)
      (Spec.quietStep (fun _ h => h) (fun _ _ _ h => h.2) fun _ _ h => h.2) fun _ =>
      Spec.pure fun _ h => h

theorem removeCompact_keeps : Keeps A (Watched k) removeCompact :=
  Keeps.ignoreError (Keeps.atomicStep fun _ h => h)

theorem flushRelieve_keeps : Keeps A (Watched k) flushRelieve := by
  refine Keeps.bind Keeps.getWorld fun w => ?_
  split
  · exact Keeps.pure ()
  · exact Keeps.onError (syncBlob_keeps _) removeCompact_keeps

theorem failStop_keeps {α : Type} (cause : Err) : Keeps A (Watched k) (failStop cause : StoreM α) :=
  Keeps.bind (Keeps.updateDB fun _ h => h) fun _ =>
    Keeps.bind awaitHint_keeps fun _ => Keeps.fail _

theorem orFailStop_keeps {α : Type} {c : StoreM α} (hc : Keeps A (Watched k) c) :
    Keeps A (Watched k) (orFailStop c) := by
  refine Keeps.bind (Keeps.attempt hc) fun r => ?_
  cases r with
  | ok a => exact Keeps.pure a
  | error e => exact Keeps.ite (fun _ => Keeps.fail e) fun _ => failStop_keeps e

theorem openMainHandles_keeps : Keeps A (Watched k) openMainHandles :=
  Keeps.bind (Keeps.atomicStep fun _ h => h) fun _ =>
    Keeps.bind Keeps.quietStep fun _ => Keeps.bind Keeps.quietStep fun _ =>
    Keeps.bind Keeps.quietStep fun _ => Keeps.modify fun _ h => h

theorem retireOthers_keeps : Keeps A (Watched k) retireOthers := by
  refine Keeps.bind Keeps.getWorld fun w => ?_
  split
  · exact Keeps.pure ()
  · refine Keeps.bind (Keeps.forEach (fun g => ?_) _) fun _ =>
      Keeps.updateDB fun _ h => h
    exact Keeps.bind (Keeps.ignoreError Keeps.quietStep) fun _ =>
      Keeps.bind (Keeps.ignoreError (Keeps.atomicStep fun _ h => h)) fun _ =>
      Keeps.updateDB fun _ h => h

theorem swapBody_keeps (pk : PkIndex) (hpk : k.inStep = true → ∀ p ∈ pk, AnyMap.Encodable p.ix) :
    Keeps A (Watched k) (swapBody pk) :=
  Keeps.bind (Keeps.ignoreError closeMainHandles_keeps) fun _ =>
    Keeps.bind (orFailStop_keeps (Keeps.atomicStep fun _ h => h)) fun _ =>
    Keeps.bind (orFailStop_keeps openMainHandles_keeps) fun _ =>
    Keeps.bind (Keeps.updateDB fun _ h => ⟨fun hk =>
      ⟨SecInv.rebuild (hpk hk), (Indexes.rebuildSec_decls _).trans (h.1 hk).declared⟩, h.2⟩)
      fun _ =>
    retireOthers_keeps

theorem swap_keeps (pk : PkIndex) (hpk : k.inStep = true → ∀ p ∈ pk, AnyMap.Encodable p.ix) :
    Keeps A (Watched k) (swap pk) :=
  Keeps.bind (swapBody_keeps pk hpk) fun _ => writeHint_keeps

theorem rewriteBody_keeps {transform : Record → StoreM Record}
    (htr : ∀ r, Keeps A (Watched k) (transform r)) :
    Keeps A (Watched k) (rewriteBody transform) := by
  refine Spec.bind (Q := fun pk w => (∀ p ∈ pk, AnyMap.Encodable p.ix) ∧ Watched k w) ?_
    fun pk => Spec.of_pure fun hpk => swap_keeps pk fun _ => hpk
  refine Spec.bind removeCompact_keeps fun _ => ?_
  refine Spec.bind (Spec.onError (buildRewrite_keeps htr) (fun _ _ => removeCompact_keeps)
    fun _ _ _ h => h) fun pk => ?_
  exact Spec.of_pure fun hpk => Spec.bind flushRelieve_keeps fun _ =>
    Spec.pure fun _ h => ⟨hpk, h⟩

theorem gated_keeps {c : StoreM Unit} (hc : Keeps A (Watched k) c) :
    Keeps A (Watched k) (gated c) :=
  Keeps.bind
    (Keeps.bind requireOpen_keeps fun _ => Keeps.updateDB fun _ h => h) fun _ =>
    Keeps.bind (Keeps.onError hc (Keeps.updateDB fun _ h => h)) fun _ =>
    Keeps.updateDB fun _ h => h

theorem compact_keeps : Keeps A (Watched k) compact :=
  gated_keeps (rewriteBody_keeps compactTransform_keeps)

theorem writeMeta_keeps (indexes : List MetaIndex) : Keeps A (Watched k) (writeMeta indexes) :=
  Keeps.bind Keeps.quietStep fun _ => Keeps.atomicStep fun _ h => h

theorem reindex_keeps : Keeps A (Watched k) reindex :=
  Keeps.bind (gated_keeps (rewriteBody_keeps reindexTransform_keeps)) fun _ =>
    Keeps.bind Keeps.getWorld fun _ =>
    Keeps.bind (Keeps.updateDB fun _ h => h) fun _ => writeMeta_keeps _

theorem openBlobs_keeps (gen : Int64) : Keeps A (Watched k) (openBlobs gen) :=
  Keeps.bind (Keeps.atomicStep fun _ h => h) fun _ =>
    Keeps.bind Keeps.quietStep fun _ =>
    Keeps.bind Keeps.getWorld fun _ => Keeps.pure _

theorem abandonRelieve_keeps : Keeps A (Watched k) abandonRelieve := by
  refine Keeps.bind Keeps.getWorld fun w => ?_
  split
  · exact Keeps.pure ()
  · exact Keeps.ite (fun _ => Keeps.pure ()) fun _ =>
      Keeps.bind (Keeps.updateDB fun _ h => h) fun _ =>
      Keeps.bind (Keeps.ignoreError Keeps.quietStep) fun _ =>
      Keeps.ignoreError (Keeps.atomicStep fun _ h => h)

theorem blobsRelieve_keeps : Keeps A (Watched k) blobsRelieve := by
  refine gated_keeps (Keeps.bind ?_ fun _ => Keeps.bind
    (Keeps.onError (rewriteBody_keeps relieveTransform_keeps) abandonRelieve_keeps) fun _ =>
    Keeps.updateDB fun _ h => h)
  exact Keeps.bind Keeps.getWorld fun _ =>
    Keeps.bind (Keeps.modify fun _ h => ⟨h.1, h.or_wrapped _⟩) fun _ =>
    Keeps.bind (openBlobs_keeps _) fun _ => Keeps.updateDB fun _ h => h

/-! ## All operations -/

theorem dropValue_keeps {α : Type} {c : StoreM α} (h : Keeps A (Watched k) c) :
    Keeps A (Watched k) (dropValue c) :=
  Keeps.bind h fun _ => Keeps.pure ()

/-- Every operation keeps what is watched. -/
theorem op_keeps (o : Op) : Keeps A (Watched k) o.run := by
  cases o with
  | put ord key value ttl => exact putIndexed_keeps ord key value Tree.empty ttl
  | putIndexed ord key value ix ttl => exact putIndexed_keeps ord key value ix ttl
  | putBatch ords items => exact putBatch_keeps ords items
  | delete key => exact delete_keeps key
  | removeByPkLess cutoff => exact dropValue_keeps (removeByPkLess_keeps cutoff)
  | removeByPkGreater cutoff => exact dropValue_keeps (removeByPkGreater_keeps cutoff)
  | incr key delta ttl => exact dropValue_keeps (counterOp_keeps key ttl _)
  | topup key amount max ttl =>
      exact dropValue_keeps (Keeps.bind (Keeps.require _ _) fun _ => counterOp_keeps key ttl _)
  | take key amount left ttl =>
      exact dropValue_keeps (Keeps.bind (Keeps.require _ _) fun _ => counterOp_keeps key ttl _)
  | get key => exact dropValue_keeps (get_keeps (fun _ _ h => h) key)
  | getMany keys => exact dropValue_keeps (getMany_keeps (fun _ _ h => h) keys)
  | has key => exact dropValue_keeps (has_keeps (fun _ _ h => h) key)
  | prefixScan p => exact dropValue_keeps (prefixScan_keeps (fun _ _ h => h) p)
  | compact => exact compact_keeps
  | reindex => exact reindex_keeps
  | blobsRelieve => exact blobsRelieve_keeps
  | close => exact close_keeps
  | reapCycle n => exact reapCycle_keeps n
  | hintAsyncFlush => exact hintAsyncFlush_keeps
  | hintAsyncWrite => exact hintAsyncWrite_keeps

/-! ## Opening -/

/-- The keys of a hint that `Open` would start from are distinct. -/
def Dir.HintKeysDistinct (d : Dir) : Prop :=
  ∀ hint ∈ d.usableHint, hint.1.Pairwise fun a b => a.key ≠ b.key

instance (d : Dir) : Decidable d.HintKeysDistinct :=
  inferInstanceAs (Decidable (∀ hint ∈ d.usableHint, hint.1.Pairwise fun a b => a.key ≠ b.key))

theorem SecInv.apply {ix : Indexes} (h : SecInv ix) {r : Record} (hr : AnyMap.Encodable r.ix)
    (off : Int64) (n : Int32) : SecInv (ix.apply r off n) := by
  rw [Indexes.apply]
  split
  · exact h.delete r.key
  · exact h.put rfl hr

theorem Indexes.apply_decls (ix : Indexes) (r : Record) (off : Int64) (n : Int32) :
    (ix.apply r off n).secs.decls = ix.secs.decls := by
  rw [Indexes.apply]
  split
  · exact Indexes.delete_decls _ _
  · exact Indexes.put_decls _ rfl _

/-- What the callback keeps holds after the scan. -/
theorem scanLines_invariant {σ : Type} {P : σ → Prop}
    {fn : σ → Record → Int64 → Int32 → Option σ}
    (hfn : ∀ s line r off n s', unmarshalRecord line = some r → fn s r off n = some s' → P s → P s')
    (lines : List Bytes) (off : Int64) (s : σ) (hs : P s) : P (scanLines fn lines off s).1 := by
  induction lines generalizing off s with
  | nil => exact hs
  | cons line lines ih =>
      rw [scanLines]
      split
      · exact hs
      · next r hr =>
          split
          · exact hs
          · next s' hs' => exact ih _ s' (hfn s line r off _ s' hr hs' hs)

/-- Replaying the log keeps the indexes in step. -/
theorem Indexes.InStep.replay {d : Dir} {ix : Indexes} {defs : List IndexDef} (h : ix.InStep defs)
    {start : Int64} {res : Indexes × Int64}
    (hscan : scanMainLog d.main start d.replayRecord ix = .ok res) : res.1.InStep defs := by
  unfold scanMainLog at hscan
  split at hscan
  · cases hscan
    exact h
  · split at hscan
    · cases hscan
    · cases hscan
      refine scanLines_invariant (P := fun ix => ix.InStep defs) ?_ _ _ ix h
      intro s line r off n s' hr hs' hs
      rw [Dir.replayRecord] at hs'
      split at hs'
      · cases hs'
      · cases hs'
        exact ⟨hs.inv.apply (encodable_of_unmarshal hr) off n,
          (Indexes.apply_decls _ _ _ _).trans hs.declared⟩

theorem declareAll_empty {defs : List IndexDef} {secs secs' : SecIndexes}
    (h : declareAll defs secs = .ok secs') (hsecs : ∀ si ∈ secs.items, si.tree = Tree.empty) :
    ∀ si ∈ secs'.items, si.tree = Tree.empty := by
  induction defs generalizing secs with
  | nil =>
      cases h
      exact hsecs
  | cons d defs ih =>
      rw [declareAll] at h
      cases hd : secs.declare d with
      | error e =>
          rw [hd] at h
          cases h
      | ok next =>
          rw [hd] at h
          refine ih h ?_
          rw [SecIndexes.declare] at hd
          split at hd
          · cases hd
          · split at hd
            · cases hd
            · cases hd
              intro si hsi
              rcases List.mem_append.mp hsi with hsi | hsi
              · exact hsecs si hsi
              · rw [List.mem_singleton.mp hsi]
                rfl

theorem declareAll_decls {defs : List IndexDef} {secs secs' : SecIndexes}
    (h : declareAll defs secs = .ok secs') :
    secs'.decls = secs.decls ++ defs.map fun d => (newSecIndex d).decl := by
  induction defs generalizing secs with
  | nil =>
      cases h
      simp
  | cons d defs ih =>
      rw [declareAll] at h
      cases hd : secs.declare d with
      | error e =>
          rw [hd] at h
          cases h
      | ok next =>
          rw [hd] at h
          rw [ih h, List.map_cons]
          rw [SecIndexes.declare] at hd
          split at hd
          · cases hd
          · split at hd
            · cases hd
            · cases hd
              simp [SecIndexes.decls]

/-- The indexes loaded from a hint with distinct keys are in step. -/
theorem secInv_of_hint {d : Dir} {es : List PkEntry} {covers : Int64} {secs : SecIndexes}
    (hd : d.HintKeysDistinct) (h : d.usableHint = some (es, covers))
    (hsecs : ∀ si ∈ secs.items, si.tree = Tree.empty) :
    SecInv (es.foldl Indexes.loadEntry ⟨Tree.empty, secs⟩) := by
  refine SecInv.foldl_loadEntry (SecInv.of_empty hsecs) (hd (es, covers) h) ?_ fun e _ => rfl
  rw [Dir.usableHint] at h
  obtain ⟨⟨es', covers'⟩, hload, h⟩ := Option.bind_eq_some_iff.mp h
  obtain ⟨bytes, _, h⟩ := Option.bind_eq_some_iff.mp h
  split at h
  · cases h
    rw [loadIndexHint] at hload
    obtain ⟨hint, _, hload⟩ := Option.bind_eq_some_iff.mp hload
    obtain ⟨tokens, _, hload⟩ := Option.bind_eq_some_iff.mp hload
    split at hload
    · cases hload
    · next first rest =>
        obtain ⟨m, _, hload⟩ := Option.bind_eq_some_iff.mp hload
        split at hload
        · cases hload
        · obtain ⟨es'', hes, hload⟩ := Option.bind_eq_some_iff.mp hload
          cases hload
          exact encodable_of_parseHintLines hes
  · cases h

theorem truncateMain_keeps (goodEnd : Int64) : Keeps A (Watched k) (truncateMain goodEnd) :=
  Keeps.bind Keeps.getWorld fun _ => Keeps.ite
    (fun _ => Keeps.bind (Keeps.require _ _) fun _ => Keeps.atomicStep fun _ h => h)
    fun _ => Keeps.pure ()

theorem replayTail_keeps (start : Int64) {ix : Indexes} {defs : List IndexDef}
    (hix : k.inStep = true → ix.InStep defs) :
    Spec A (Watched k) (replayTail start ix)
      (fun ix' w => (k.inStep = true → ix'.InStep defs) ∧ Watched k w) fun _ => Watched k := by
  refine Spec.bind (Q := fun (r : Indexes × Int64) w =>
    (k.inStep = true → r.1.InStep defs) ∧ Watched k w) ?_ fun r => ?_
  · exact Spec.readStep (fun _ w h hr => ⟨fun hk => (hix hk).replay hr, h⟩) (fun _ _ h _ => h)
      (fun _ _ _ h => h) fun _ _ h => h
  · exact Spec.of_pure fun hr => Spec.bind (truncateMain_keeps r.2) fun _ =>
      Spec.pure fun _ h => ⟨hr, h⟩

theorem load_keeps {secs : SecIndexes} {defs : List IndexDef}
    (hsecs : ∀ si ∈ secs.items, si.tree = Tree.empty)
    (hdecls : secs.decls = defs.map fun d => (newSecIndex d).decl) :
    Spec A
      (fun w => Watched k w ∧ (k.inStep = true → w.dir.HintKeysDistinct)) (load secs)
      (fun ix w => (k.inStep = true → ix.InStep defs) ∧ Watched k w) fun _ => Watched k := by
  refine Spec.bind (Q := fun u w => (∀ es covers, u = some (es, covers) →
      k.inStep = true → (es.foldl Indexes.loadEntry ⟨Tree.empty, secs⟩).InStep defs) ∧
      Watched k w) ?_ fun u => ?_
  · refine Spec.optionalRead (fun w h => ⟨fun es covers hu hk => ?_, h.1⟩)
      (fun _ w _ h => ⟨fun _ _ hu => (by cases hu), h.1⟩) fun w _ h => h.1
    exact ⟨secInv_of_hint (h.2 hk) hu hsecs, (Indexes.foldl_loadEntry_decls _ _).trans hdecls⟩
  · cases u with
    | none =>
        exact Spec.of_pure fun _ =>
          replayTail_keeps 0 fun _ => ⟨SecInv.of_empty hsecs, hdecls⟩
    | some hint =>
        exact Spec.of_pure fun hu => replayTail_keeps hint.2 (hu hint.1 hint.2 rfl)

theorem adoptSchema_keeps (defs : List IndexDef) (hadData : Bool) :
    Keeps A (Watched k) (adoptSchema defs hadData) :=
  Keeps.bind (Keeps.optionalRead _) fun _ =>
    Keeps.bind (writeMeta_keeps _) fun _ => Keeps.pure _

theorem openGens_keeps (gens : List Int64) : Keeps A (Watched k) (openGens gens) :=
  Keeps.foldEach (fun _ g => Keeps.bind (openBlobs_keeps g) fun _ =>
    Keeps.pure _) gens Tree.empty

/-- Opening a store whose hint, if it is used, has distinct keys. -/
theorem openStore_keeps (opts : Options) :
    Spec A (fun w => Watched k w ∧ (k.inStep = true → w.dir.HintKeysDistinct)) (openStore opts)
      (fun _ => Watched k) fun _ => Watched k := by
  refine Spec.bind (Q := fun _ w => Watched k w ∧ (k.inStep = true → w.dir.HintKeysDistinct))
    (Spec.getWorld fun _ h => h) fun w => ?_
  refine Spec.bind_require (fun _ h _ => h.1) fun _ => ?_
  refine Spec.bind_ofExcept (fun _ _ _ h => h.1) fun secs hr => ?_
  refine Spec.bind (load_keeps (declareAll_empty hr (by simp [noIndexes])) (declareAll_decls hr))
    fun idx => ?_
  refine Spec.of_pure fun hidx => ?_
  exact Spec.bind (adoptSchema_keeps _ _) fun _ =>
    Spec.bind openMainHandles_keeps fun _ =>
    Spec.bind Keeps.getWorld fun _ =>
    Spec.bind (openGens_keeps _) fun _ => Spec.updateDB fun _ h => by
      have hdefs : opts.withDefaults.indexes = opts.indexes := by
        rw [Options.withDefaults]
        split <;> rfl
      refine ⟨fun hk => ?_, h.2⟩
      show idx.InStep opts.withDefaults.indexes
      rw [hdefs]
      exact hidx hk

end NteeDb.Core
