import NteeDb.Invariants.IndexValues
import NteeDb.Invariants.Open
import NteeDb.Invariants.Reads
import NteeDb.Core.Runs

/-!
# Blob before log before hint

What has been synced when: every blob that a record of the log refers to lies in
the synced part of its file, and a hint covers no more of the log than is synced
(`SyncOrder`).  Every operation of the write path keeps this in every state it
passes through, whatever the lengths involved: the tracked sizes may wrap, but they
never run ahead of the files.
-/

namespace NteeDb.Core

open NteeDb.Verified
open Faults Lines OrderedTree JsonCodec

/-! ## The order -/

/-- The blob lies in the synced part of its file. -/
structure Durable.Within (s : Durable) (b : BlobRef) : Prop where
  off : 0 ≤ b.off
  start : b.off.toInt ≤ s.blobs b.gen
  finish : b.off.toInt + b.size.toInt ≤ s.blobs b.gen

/-- A snapshot of the primary index covers what the log holds, and once its files
have been flushed, what is synced. -/
structure SnapshotOrder (d : Dir) (s : Durable) (j : HintSnapshot) : Prop where
  scalar : ∀ e ∈ j.pk, e.ix.Scalar
  covers : j.covers.toInt ≤ d.mainBytes.length
  flushed : j.flushed = true → j.covers.toInt ≤ s.main

/-- The files are synced in order: blobs, then the log, then the hint. -/
structure SyncOrder (d : Dir) (s : Durable) (size : Int64) (stores : BlobStores) (pk : PkIndex)
    (job : Option HintSnapshot) : Prop where
  main : s.main ≤ d.mainBytes.length
  blobs : ∀ gen, s.blobs gen ≤ (d.blobBytes gen).length
  lines : ∃ ls, d.mainBytes = joinLines ls ∧ ∀ l ∈ ls, newline ∉ l ∧
    ∀ r b, unmarshalRecord l = some r → r.blob = some b → s.Within b
  hint : ∀ es covers, loadIndexHint d.hint = some (es, covers) → covers.toInt ≤ s.main
  size : size.toInt.natAbs ≤ d.mainBytes.length
  stores : ∀ bs ∈ stores, 0 ≤ bs.size ∧ bs.size.toInt ≤ (d.blobBytes bs.gen).length
  scalar : ∀ e ∈ pk, e.ix.Scalar
  job : ∀ j ∈ job, SnapshotOrder d s j

/-- The files of the store are synced in order. -/
def SyncOrdered (w : World) : Prop :=
  SyncOrder w.dir w.durable w.db.size w.db.blobs w.db.idx.pk w.db.job

/-- The synced parts grow. -/
structure Durable.Grows (s s' : Durable) : Prop where
  main : s.main ≤ s'.main
  blobs : ∀ gen, s.blobs gen ≤ s'.blobs gen

theorem Durable.Within.grow {s s' : Durable} {b : BlobRef} (h : s.Within b) (hg : s.Grows s') :
    s'.Within b := by
  have hblob := hg.blobs b.gen
  have hstart := h.start
  have hfinish := h.finish
  exact ⟨h.off, by omega, by omega⟩

section Order

variable {d : Dir} {s : Durable} {size : Int64} {stores : BlobStores} {pk : PkIndex}
  {job : Option HintSnapshot}

/-- Syncing more. -/
theorem SyncOrder.sync (h : SyncOrder d s size stores pk job) {s' : Durable} (hg : s.Grows s')
    (hmain : s'.main ≤ d.mainBytes.length)
    (hblobs : ∀ gen, s'.blobs gen ≤ (d.blobBytes gen).length) :
    SyncOrder d s' size stores pk job := by
  obtain ⟨ls, hls, hlines⟩ := h.lines
  have hle := hg.main
  refine ⟨hmain, hblobs, ⟨ls, hls, fun l hl => ⟨(hlines l hl).1, fun r b hr hb => ?_⟩⟩,
    fun es covers hload => ?_, h.size, h.stores, h.scalar, fun j hj => ?_⟩
  · exact ((hlines l hl).2 r b hr hb).grow hg
  · have hcovers := h.hint es covers hload
    omega
  · have hold := h.job j hj
    refine ⟨hold.scalar, hold.covers, fun hfl => ?_⟩
    have hcovers := hold.flushed hfl
    omega

theorem SyncOrder.syncMain (h : SyncOrder d s size stores pk job) :
    SyncOrder d { s with main := d.mainBytes.length } size stores pk job :=
  h.sync ⟨h.main, fun _ => le_refl _⟩ (le_refl _) h.blobs

theorem grows_setBlob {n : Nat} {gen : Int64} (h : s.blobs gen ≤ n) :
    s.Grows (s.setBlob gen n) := by
  refine ⟨le_refl _, fun g => ?_⟩
  show s.blobs g ≤ if g = gen then n else s.blobs g
  split
  · next heq => rw [heq]; exact h
  · exact le_refl _

theorem SyncOrder.syncBlob (h : SyncOrder d s size stores pk job) (gen : Int64) :
    SyncOrder d (s.setBlob gen (d.blobBytes gen).length) size stores pk job := by
  refine h.sync (grows_setBlob (h.blobs gen)) h.main fun g => ?_
  show (if g = gen then (d.blobBytes gen).length else s.blobs g) ≤ _
  split
  · next heq => rw [heq]
  · exact h.blobs g

/-- Appending a line whose blob is synced. -/
theorem SyncOrder.appendMain (h : SyncOrder d s size stores pk job) {r : Record} {line : Bytes}
    (hline : Written r line) (hblob : ∀ b, r.blob = some b → s.Within b) :
    SyncOrder (d.appendMain (line ++ [newline])) s size stores pk job := by
  obtain ⟨ls, hls, hlines⟩ := h.lines
  have hbytes : (d.appendMain (line ++ [newline])).mainBytes
      = d.mainBytes ++ (line ++ [newline]) := rfl
  have hlen : d.mainBytes.length ≤ (d.mainBytes ++ (line ++ [newline])).length := by
    rw [List.length_append]
    exact Nat.le_add_right _ _
  refine ⟨le_trans h.main hlen, h.blobs, ⟨ls ++ [line], ?_, fun l hl => ?_⟩, h.hint,
    le_trans h.size hlen, h.stores, h.scalar, fun j hj => ?_⟩
  · rw [hbytes, hls, joinLines_append]
    rfl
  · rcases List.mem_append.mp hl with hl | hl
    · exact hlines l hl
    · cases List.mem_singleton.mp hl
      refine ⟨hline.newline_not_mem, fun r' b hr' hb => ?_⟩
      rw [hline.unmarshal] at hr'
      cases hr'
      exact hblob b hb
  · have hold := h.job j hj
    refine ⟨hold.scalar, ?_, hold.flushed⟩
    have hcovers := hold.covers
    rw [hbytes]
    omega

theorem SyncOrder.appendBlob (h : SyncOrder d s size stores pk job) (gen : Int64) (value : Bytes) :
    SyncOrder (d.appendBlob gen value) s size stores pk job := by
  have hlen : ∀ g, (d.blobBytes g).length ≤ ((d.appendBlob gen value).blobBytes g).length := by
    intro g
    rw [Dir.blobBytes_appendBlob]
    split
    · next heq => rw [heq, List.length_append]; exact Nat.le_add_right _ _
    · exact le_refl _
  refine ⟨h.main, fun g => le_trans (h.blobs g) (hlen g), h.lines, h.hint, h.size, fun bs hbs => ?_,
    h.scalar, fun j hj => ⟨(h.job j hj).scalar, (h.job j hj).covers, (h.job j hj).flushed⟩⟩
  obtain ⟨hpos, hle⟩ := h.stores bs hbs
  have := hlen bs.gen
  exact ⟨hpos, by omega⟩

/-- A new hint that covers no more than is synced. -/
theorem SyncOrder.newHint (h : SyncOrder d s size stores pk job) {snapshot : PkIndex}
    {covers : Int64} {bytes : Bytes} (hscalar : ∀ e ∈ snapshot, e.ix.Scalar)
    (hcovers : covers.toInt ≤ s.main) (hbytes : hintBytes snapshot covers = some bytes) :
    SyncOrder { d with hint := some bytes } s size stores pk job := by
  refine ⟨h.main, h.blobs, h.lines, fun es c hload => ?_, h.size, h.stores, h.scalar,
    fun j hj => ⟨(h.job j hj).scalar, (h.job j hj).covers, (h.job j hj).flushed⟩⟩
  obtain ⟨bytes', hbytes', hread⟩ := loadIndexHint_hintBytes hscalar covers
  rw [hbytes] at hbytes'
  cases hbytes'
  cases hread _ hload
  exact hcovers

end Order

/-! ## Lengths that may wrap -/

/-- A wrapped length is no larger than the length. -/
theorem natAbs_int32_ofNat_le (n : Nat) : (Int32.ofNat n).toInt.natAbs ≤ n := by
  rw [Int32.toInt_ofNat', show Int32.size = 4294967296 from rfl, Int.bmod_def]
  split
  · omega
  · omega

theorem natAbs_add_le {a : Int64} {n : Int32} {m k : Nat} (ha : a.toInt.natAbs ≤ m)
    (hn : n.toInt.natAbs ≤ k) (hlt : m + k < maxFileSize) :
    (a + n.toInt64).toInt.natAbs ≤ m + k := by
  rw [maxFileSize] at hlt
  rw [Int64.toInt_add, Int32.toInt_toInt64, Int.bmod_def]
  split
  · omega
  · omega

/-! ## Appending -/

/-- A blob reference within the file, synced or not. -/
def Dir.Reaches (d : Dir) (gen : Int64) (b : BlobRef) : Prop :=
  0 ≤ b.off ∧ b.off.toInt ≤ (d.blobBytes gen).length ∧
    b.off.toInt + b.size.toInt ≤ (d.blobBytes gen).length

/-- A counter operation creates its counter: no live record of the key is there. -/
def DB.creates (db : DB) (now : Millis) (key : Bytes) : Bool :=
  match db.idx.pk.get key with
  | none => true
  | some e => e.expiredAt now.ms

section Steps

variable {A : Answer → Prop} (hA : ∀ k, ¬ A (.fail k))

theorem syncMain_ordered : Keeps A SyncOrdered syncMain := Keeps.atomicStep fun _ h => h.syncMain

include hA

theorem appendSync_ordered {r : Record} (htext : r.text = []) {secs : SecIndexes}
    (hacc : AcceptedMap secs r.ix) (m : Mutation) (sync : Bool) :
    Spec A (fun w => SyncOrdered w ∧ ∀ b, r.blob = some b → w.durable.Within b)
      (appendSync r m sync) (fun _ w => SyncOrdered w ∧ r.ix.Scalar) fun _ => SyncOrdered := by
  rw [appendSync]
  split
  · exact Spec.fail fun _ h => h.1
  · next line hline =>
      have hscalar := scalar_of_marshal hacc hline
      refine Spec.bind_getWorld fun w hw => ?_
      refine Spec.bind_require (fun v hv _ => hv ▸ hw.1) fun hroom => ?_
      have hroom := of_decide_eq_true hroom
      -- the tracked size is behind by the line until the last step
      refine Spec.bind (Q := fun _ v => SyncOrdered v ∧
          v.db.size.toInt.natAbs + (line.length + 1) ≤ v.dir.mainBytes.length ∧
          v.dir.mainBytes.length < maxFileSize)
        (Spec.fileStep ?_ (fun k _ hk => absurd hk (hA k)) fun v _ hv => hv ▸ hw.1) fun _ => ?_
      · rintro v rfl
        refine ⟨SyncOrder.appendMain hw.1 ⟨htext, hscalar, hline⟩ hw.2, ?_⟩
        have hsize := hw.1.size
        show _ ≤ (v.dir.mainBytes ++ (line ++ [newline])).length ∧
          (v.dir.mainBytes ++ (line ++ [newline])).length < maxFileSize
        simp only [List.length_append, List.length_singleton]
        exact ⟨by omega, hroom⟩
      · refine Spec.bind (Q := fun _ v => SyncOrdered v ∧
            v.db.size.toInt.natAbs + (line.length + 1) ≤ v.dir.mainBytes.length ∧
            v.dir.mainBytes.length < maxFileSize)
          (Spec.doWhen (fun _ => Spec.atomicStep (fun v hv => ⟨hv.1.syncMain, hv.2⟩)
            (fun k _ hk => absurd hk (hA k)) fun _ _ hv => hv.1) fun _ hv _ => hv) fun _ => ?_
        refine Spec.bind (Q := fun _ => SyncOrdered) (Spec.updateDB fun v hv => ?_) fun _ =>
          Spec.pure fun _ h => ⟨h, hscalar⟩
        obtain ⟨hord, hle, hlt⟩ := hv
        have hsum := natAbs_add_le (le_refl v.db.size.toInt.natAbs)
          (natAbs_int32_ofNat_le (line.length + 1)) (lt_of_le_of_lt hle hlt)
        exact ⟨hord.main, hord.blobs, hord.lines, hord.hint, le_trans hsum hle, hord.stores,
          hord.scalar, hord.job⟩

theorem appendBlob_ordered (gen : Int64) (value : Bytes) :
    Spec A SyncOrdered (appendBlob gen value)
      (fun ref w => SyncOrdered w ∧ (w.db.blobStore gen).isSome = true ∧ w.dir.Reaches gen ref)
      fun _ => SyncOrdered := by
  refine Spec.bind_getWorld fun w hw => ?_
  split
  · exact Spec.fail fun v hv => hv ▸ hw
  · next bs hbs =>
      obtain ⟨hmem, hkey⟩ := Tree.get?_eq_some.mp hbs
      obtain ⟨hpos, hle⟩ := hw.stores bs hmem
      cases (Int64.toInt_inj.mp hkey : bs.gen = gen)
      refine Spec.bind (Q := fun (r : BlobRef × BlobStore) (v : World) => SyncOrdered v ∧
        r.2.gen = bs.gen ∧ 0 ≤ r.2.size ∧ r.2.size.toInt ≤ (v.dir.blobBytes bs.gen).length ∧
        v.dir.Reaches bs.gen r.1) ?_ fun r => ?_
      · refine Spec.bind_require (fun _ hv _ => hv ▸ hw) fun _ => Spec.bind_getWorld ?_
        rintro v rfl
        refine Spec.bind_require (fun u hu _ => hu ▸ hw) fun hroom => ?_
        have hroom := of_decide_eq_true hroom
        refine Spec.bind (Q := fun _ u => SyncOrdered u ∧
            bs.size.toInt + value.length ≤ (u.dir.blobBytes bs.gen).length ∧
            (u.dir.blobBytes bs.gen).length < maxFileSize)
          (Spec.fileStep ?_ (fun k _ hk => absurd hk (hA k)) fun u _ hu => hu ▸ hw) fun _ => ?_
        · rintro u rfl
          refine ⟨SyncOrder.appendBlob hw bs.gen value, ?_⟩
          show _ ≤ (((u.dir.appendBlob bs.gen value).blobBytes bs.gen).length : Int) ∧
            ((u.dir.appendBlob bs.gen value).blobBytes bs.gen).length < maxFileSize
          rw [Dir.blobBytes_appendBlob, if_pos rfl, List.length_append]
          exact ⟨by omega, hroom⟩
        · refine Spec.pure fun u hu => ?_
          obtain ⟨hord, hend, hlt⟩ := hu
          rw [maxFileSize] at hlt
          have hbound := natAbs_int32_ofNat_le value.length
          have hpos' : (0 : Int) ≤ bs.size.toInt := Int64.le_iff_toInt_le.mp hpos
          have hsum : (bs.size + Int64.ofNat value.length).toInt
              = bs.size.toInt + value.length := by
            rw [Int64.toInt_add, Int64.toInt_ofNat_of_lt (by omega), Int.bmod_def]
            split <;> omega
          refine ⟨hord, rfl, ?_, ?_, hpos, ?_, ?_⟩
          · rw [Int64.le_iff_toInt_le, hsum]
            show (0 : Int) ≤ _
            omega
          · show (bs.size + Int64.ofNat value.length).toInt ≤ _
            rw [hsum]
            exact hend
          · show bs.size.toInt ≤ _
            omega
          · show bs.size.toInt + (Int32.ofNat value.length).toInt ≤ _
            omega
      · refine Spec.bind (Q := fun _ v => SyncOrdered v ∧
          (v.db.blobStore bs.gen).isSome = true ∧ v.dir.Reaches bs.gen r.1)
          (Spec.updateDB fun v hv => ?_) fun _ => Spec.pure fun _ h => h
        obtain ⟨hord, hgen, hrpos, hrle, hreach⟩ := hv
        refine ⟨⟨hord.main, hord.blobs, hord.lines, hord.hint, hord.size, fun b hb => ?_,
          hord.scalar, hord.job⟩, ?_, hreach⟩
        · rcases Tree.mem_set_key.mp hb with rfl | ⟨hb, _⟩
          · exact ⟨hrpos, hgen ▸ hrle⟩
          · exact hord.stores b hb
        · show ((v.db.blobs.set r.2).get? { gen := bs.gen }).isSome = true
          rw [blobStores_get_set, if_pos hgen.symm]
          rfl

/-- Flushing a blob file whose store is open makes what it holds durable. -/
theorem flushBlob_ordered (gen : Int64) (b : BlobRef) :
    Spec A (fun w => SyncOrdered w ∧ (w.db.blobStore gen).isSome = true ∧ w.dir.Reaches gen b)
      (flushBlob gen) (fun _ w => SyncOrdered w ∧ w.durable.Within { b with gen := gen })
      fun _ => SyncOrdered := by
  refine Spec.bind_getWorld fun w hw => ?_
  split
  · next hnone =>
      rw [hnone] at hw
      exact absurd hw.2.1 (by decide)
  · refine Spec.bind_require (fun _ hv _ => hv ▸ hw.1) fun _ => ?_
    refine Spec.atomicStep ?_ (fun k _ hk => absurd hk (hA k)) fun v _ hv => hv ▸ hw.1
    rintro v rfl
    refine ⟨hw.1.syncBlob gen, hw.2.2.1, ?_, ?_⟩
    · show b.off.toInt ≤ ((if gen = gen then (v.dir.blobBytes gen).length else _ : Nat) : Int)
      rw [if_pos rfl]
      exact hw.2.2.2.1
    · show b.off.toInt + b.size.toInt ≤
        ((if gen = gen then (v.dir.blobBytes gen).length else _ : Nat) : Int)
      rw [if_pos rfl]
      exact hw.2.2.2.2

omit hA in
theorem flushBlob_keepsOrder (φ : Dir → Prop) (gen : Int64) :
    Spec A (fun w => SyncOrdered w ∧ φ w.dir) (flushBlob gen)
      (fun _ w => SyncOrdered w ∧ φ w.dir) fun _ => SyncOrdered := by
  refine Spec.bind (Spec.getWorld (S := fun _ w => SyncOrdered w ∧ φ w.dir)
    fun _ h => h) fun w => ?_
  split
  · exact Spec.pure fun _ h => h
  · refine Spec.bind_require (fun _ h _ => h.1) fun _ => ?_
    exact Spec.atomicStep (fun v h => ⟨h.1.syncBlob gen, h.2⟩) (fun _ _ _ h => h.1) fun _ _ h => h.1

/-- A value in the blob file is synced before the record that refers to it exists. -/
theorem storeValue_ordered (key value : Bytes) (ix : AnyMap) (exp : Int64) (counter : Bool) :
    Spec A SyncOrdered (storeValue key value ix exp counter)
      (fun r w => (r.text = [] ∧ r.ix = ix) ∧ SyncOrdered w ∧
        ∀ b, r.blob = some b → w.durable.Within b) fun _ => SyncOrdered := by
  refine Spec.bind Keeps.getWorld fun w => ?_
  refine Spec.ite (fun _ => ?_) fun _ => ?_
  · refine Spec.bind (appendBlob_ordered hA w.db.curGen value) fun ref => ?_
    refine Spec.bind (flushBlob_ordered hA w.db.curGen ref) fun _ => ?_
    refine Spec.pure fun v hv => ⟨⟨rfl, rfl⟩, hv.1, fun b hb => ?_⟩
    cases hb
    exact hv.2
  · refine Spec.pure fun v hv => ⟨⟨rfl, rfl⟩, hv, fun b hb => ?_⟩
    cases hb

theorem appendRecord_ordered (key value : Bytes) {ix : AnyMap} {secs : SecIndexes}
    (hacc : AcceptedMap secs ix) (exp : Int64) (durable counter : Bool) :
    Keeps A SyncOrdered (appendRecord key value ix exp durable counter) := by
  refine Spec.bind (storeValue_ordered hA key value ix exp counter) fun r => ?_
  refine Spec.of_pure fun hr => ?_
  refine Spec.bind (appendSync_ordered hA hr.1 (hr.2.symm ▸ hacc) _ _) fun loc => ?_
  refine Spec.updateDB fun w h => ⟨h.1.main, h.1.blobs, h.1.lines, h.1.hint, h.1.size, h.1.stores,
    fun e he => ?_, h.1.job⟩
  have he : e ∈ (w.db.idx.put { key := key, off := loc.1, n := loc.2, exp := exp } ix).pk := he
  rw [Indexes.put_pk _ rfl] at he
  rcases Tree.mem_set_key.mp he with rfl | ⟨he, _⟩
  · exact hr.2 ▸ h.2
  · exact h.1.scalar e he

theorem tombstone_ordered (key : Bytes) (sync : Bool) :
    Keeps A SyncOrdered (appendSync (tombstone key) (.del key) sync) := by
  refine (appendSync_ordered hA rfl (acceptedMap_empty ⟨[], List.nodup_nil⟩) _ sync).conseq
    (fun w h => ⟨h, fun b hb => ?_⟩) (fun _ _ h => h.1) fun _ _ h => h
  cases hb

theorem deleteLocked_ordered (key : Bytes) : Keeps A SyncOrdered (deleteLocked key) := by
  refine Keeps.bind Keeps.getWorld fun w =>
    Keeps.bind (tombstone_ordered hA key _) fun _ => ?_
  refine Keeps.updateDB fun w h => ⟨h.main, h.blobs, h.lines, h.hint, h.size, h.stores,
    fun e he => ?_, h.job⟩
  have he : e ∈ (w.db.idx.delete key).pk := he
  rw [Indexes.delete_pk] at he
  exact h.scalar e (Tree.mem_delete_key.mp he).1

/-! ## Hints -/

omit hA in
theorem writeIndexHint_ordered {pk : PkIndex} (hscalar : ∀ e ∈ pk, e.ix.Scalar) (covers : Int64)
    (of : Nat) :
    Spec A (fun w => SyncOrdered w ∧ covers.toInt ≤ w.durable.main) (writeIndexHint pk covers of)
      (fun _ => SyncOrdered) fun _ => SyncOrdered := by
  have hquiet : Spec A (fun w => SyncOrdered w ∧ covers.toInt ≤ w.durable.main) quietStep
      (fun _ w => SyncOrdered w ∧ covers.toInt ≤ w.durable.main) fun _ => SyncOrdered :=
    Spec.quietStep (fun _ h => h) (fun _ _ _ h => h.1) fun _ _ h => h.1
  refine Spec.bind hquiet fun _ => ?_
  split
  · exact Spec.fail fun _ h => h.1
  · next bytes hbytes =>
      refine Spec.bind hquiet fun _ => Spec.bind hquiet fun _ =>
        Spec.bind hquiet fun _ => ?_
      exact Spec.atomicStep (fun w h => h.1.newHint hscalar h.2 hbytes) (fun _ _ _ h => h.1)
        fun _ _ h => h.1

omit hA in
theorem checkpointHint_ordered : Keeps A SyncOrdered checkpointHint := by
  refine Spec.bind_getWorld fun w hw => ?_
  have hcovers : w.db.size.toInt ≤ w.dir.mainBytes.length := by
    have := hw.size
    omega
  refine Spec.bind ((flushBlob_keepsOrder (fun d => d.mainBytes = w.dir.mainBytes)
    w.db.curGen).pre fun v hv => by rw [hv]; exact ⟨hw, rfl⟩) fun _ => ?_
  refine Spec.bind (Q := fun _ v => SyncOrdered v ∧ w.db.size.toInt ≤ v.durable.main) ?_
    fun _ => ?_
  · rw [flushMain]
    refine Spec.atomicStep (fun v hv => ⟨hv.1.syncMain, ?_⟩) (fun _ _ _ h => h.1) fun _ _ h => h.1
    show w.db.size.toInt ≤ v.dir.mainBytes.length
    rw [hv.2]
    exact hcovers
  · exact Spec.bind (writeIndexHint_ordered hw.scalar w.db.size w.db.handles) fun _ =>
      Keeps.updateDB fun _ h => h

omit hA in
theorem writeHint_ordered : Keeps A SyncOrdered writeHint :=
  Keeps.bind (Keeps.updateDB fun _ h => h) fun _ => checkpointHint_ordered

omit hA in
theorem maybeWriteHint_ordered : Keeps A SyncOrdered maybeWriteHint := by
  refine Keeps.updateDB fun w h => ?_
  rw [DB.maybeSnapshot]
  split
  · exact h
  · refine ⟨h.main, h.blobs, h.lines, h.hint, h.size, h.stores, h.scalar, fun j hj => ?_⟩
    cases Option.some.inj hj
    have hsize := h.size
    refine ⟨h.scalar, ?_, fun hfl => by cases hfl⟩
    show w.db.size.toInt ≤ w.dir.mainBytes.length
    omega

omit hA in
/-- The background writer's flush makes what its snapshot covers durable. -/
theorem hintAsyncFlush_ordered : Keeps A SyncOrdered hintAsyncFlush := by
  refine Spec.bind_getWorld fun w hw => ?_
  have hkeep : ∀ v, v = w → SyncOrdered v := fun v hv => hv ▸ hw
  split
  · exact Spec.pure hkeep
  · next j hj =>
      have hsnap := hw.job j hj
      refine Spec.ite (fun _ => Spec.pure hkeep) fun _ => ?_
      have hflush : Spec A (fun v => v = w) (flushJob j)
          (fun _ v => SyncOrdered v ∧ j.covers.toInt ≤ v.durable.main) fun _ => SyncOrdered := by
        refine Spec.bind (Spec.getWorld (S := fun _ v => v = w) fun _ h => h) fun _ => ?_
        refine Spec.bind_require (fun v h _ => hkeep v h) fun _ => ?_
        refine Spec.bind (Q := fun _ v => SyncOrdered v ∧ v.dir = w.dir)
          (Spec.atomicStep ?_ (fun _ v _ h => hkeep v h) fun v _ h => hkeep v h) fun _ => ?_
        · rintro v rfl
          exact ⟨hw.syncBlob j.blobGen, rfl⟩
        · refine Spec.atomicStep (fun v h => ⟨h.1.syncMain, ?_⟩) (fun _ _ _ h => h.1)
            fun _ _ h => h.1
          show j.covers.toInt ≤ v.dir.mainBytes.length
          rw [h.2]
          exact hsnap.covers
      refine Spec.bind_attempt hflush (fun _ => ?_) fun e => ?_
      · refine Spec.updateDB fun v h => ⟨h.1.main, h.1.blobs, h.1.lines, h.1.hint, h.1.size,
          h.1.stores, h.1.scalar, fun j' hj' => ?_⟩
        cases Option.some.inj hj'
        have hmain := h.1.main
        have hdur := h.2
        refine ⟨hsnap.scalar, ?_, fun _ => h.2⟩
        show j.covers.toInt ≤ v.dir.mainBytes.length
        omega
      · refine Spec.ite (fun _ => Spec.fail fun _ h => h) fun _ =>
          Spec.updateDB fun v h => ⟨h.main, h.blobs, h.lines, h.hint, h.size, h.stores, h.scalar,
            fun j' hj' => ?_⟩
        cases hj'

omit hA in
theorem hintAsyncWrite_ordered : Keeps A SyncOrdered hintAsyncWrite := by
  refine Spec.bind_getWorld fun w hw => ?_
  split
  · exact Spec.pure fun v hv => hv ▸ hw
  · next j hj =>
      have hsnap := hw.job j hj
      refine Spec.ite (fun hfl => ?_) fun _ => Spec.pure fun v hv => hv ▸ hw
      refine Spec.bind (Q := fun _ => SyncOrdered) ?_ fun _ => Spec.updateDB fun v h =>
        ⟨h.main, h.blobs, h.lines, h.hint, h.size, h.stores, h.scalar, fun j' hj' => by cases hj'⟩
      refine Spec.doWhen (fun _ => ?_) fun v hv _ => hv ▸ hw
      refine Spec.ignoreError ((writeIndexHint_ordered hsnap.scalar j.covers j.handles).pre
        fun v hv => ?_) (fun _ _ _ h => h) fun _ _ _ h => h
      rw [hv]
      exact ⟨hw, hsnap.flushed hfl⟩

omit hA in
theorem awaitHint_ordered : Keeps A SyncOrdered awaitHint :=
  Keeps.bind hintAsyncFlush_ordered fun _ => hintAsyncWrite_ordered

omit hA in
theorem close_ordered : Keeps A SyncOrdered close := by
  have hclose : Keeps A SyncOrdered closeMainHandles :=
    Keeps.bind (Keeps.updateDB fun _ h => h) fun _ => Keeps.quietStep
  refine Keeps.bind Keeps.getWorld fun w => ?_
  refine Keeps.ite (fun _ => Keeps.pure ()) fun _ => ?_
  exact Keeps.bind (Keeps.updateDB fun _ h => h) fun _ =>
    Keeps.bind awaitHint_ordered fun _ =>
    Keeps.bind (Keeps.onError writeHint_ordered (Keeps.ignoreError hclose)) fun _ => hclose

/-! ## The operations -/

theorem enforceOne_ordered (nv : Bytes × AnyValue) : Keeps A SyncOrdered (enforceOne nv) := by
  refine Keeps.bind Keeps.getWorld fun w => ?_
  split
  · exact Keeps.pure ()
  · exact Keeps.forEach (deleteLocked_ordered hA) _

theorem putIndexed_ordered (ord : MapOrder) (key value : Bytes) (explicit : AnyMap)
    (ttl : List Int64) : Keeps A SyncOrdered (putIndexed ord key value explicit ttl) := by
  refine Keeps.bind Keeps.getWorld fun _ =>
    Keeps.bind (Keeps.ofExcept _) fun exp =>
    Keeps.bind requireOpen_keeps fun _ => Keeps.bind Keeps.getWorld fun w => ?_
  refine Spec.bind_ofExcept (fun _ _ _ h => h) fun ix hix => ?_
  have hacc : AcceptedMap w.db.idx.secs ix := fun nv hnv => (buildIndexValues_mem hix nv hnv).2
  exact Keeps.bind (Keeps.ofExcept _) fun _ =>
    Keeps.bind (appendRecord_ordered hA key value hacc _ _ _) fun _ =>
    Keeps.bind (Keeps.forEach (enforceOne_ordered hA) _) fun _ =>
    Keeps.bind (Keeps.updateDB fun _ h => h) fun _ => maybeWriteHint_ordered

theorem delete_ordered (key : Bytes) : Keeps A SyncOrdered (delete key) := by
  refine Keeps.bind requireOpen_keeps fun _ =>
    Keeps.bind Keeps.getWorld fun w => ?_
  split
  · exact Keeps.pure ()
  · exact Keeps.bind (deleteLocked_ordered hA key) fun _ => maybeWriteHint_ordered

theorem appendItems_ordered {secs : SecIndexes} (i : Nat) {cs : List CheckedItem}
    (hcs : ∀ c ∈ cs, AcceptedMap secs c.ix) : Keeps A SyncOrdered (appendItems i cs) := by
  induction cs generalizing i with
  | nil => exact Keeps.pure ()
  | cons c cs ih =>
      rw [List.forall_mem_cons] at hcs
      refine Keeps.bind ?_ fun _ => ih (i + 1) hcs.2
      refine Keeps.bind (Keeps.attempt (appendRecord_ordered hA _ _ hcs.1 _ _ _))
        fun r => ?_
      cases r with
      | ok _ => exact Keeps.pure _
      | error e => exact Keeps.fail _

theorem enforceItems_ordered (ords : Nat → MapOrder) (i : Nat) (cs : List CheckedItem)
    (seen : List Bytes) : Keeps A SyncOrdered (enforceItems ords i cs seen) := by
  induction cs generalizing i seen with
  | nil => exact Keeps.pure ()
  | cons c cs ih =>
      refine Keeps.bind (Keeps.foldEach (fun seen nv => ?_) _ _) fun _ => ih _ _
      exact Keeps.ite (fun _ => Keeps.pure _) fun _ =>
        Keeps.bind (enforceOne_ordered hA nv) fun _ => Keeps.pure _

theorem putBatch_ordered (ords : Nat → MapOrder) (items : List PutItem) :
    Keeps A SyncOrdered (putBatch ords items) := by
  have hflush (gen : Int64) : Keeps A SyncOrdered (flushBlob gen) :=
    (flushBlob_keepsOrder (fun _ => True) gen).conseq (fun _ h => ⟨h, trivial⟩) (fun _ _ h => h.1)
      fun _ _ h => h
  refine Keeps.bind requireOpen_keeps fun _ =>
    Keeps.ite (fun _ => Keeps.pure ()) fun _ => ?_
  refine Keeps.bind Keeps.getWorld fun w => ?_
  refine Spec.bind_ofExcept (fun _ _ _ h => h) fun checked hcs => ?_
  exact Keeps.bind (appendItems_ordered hA 0 (checkItems_accepted hcs)) fun _ =>
    Keeps.bind (enforceItems_ordered hA ords 0 checked []) fun _ =>
    Keeps.bind (Keeps.doWhen
      (Keeps.bind (hflush _) fun _ => syncMain_ordered)) fun _ =>
    Keeps.bind (Keeps.updateDB fun _ h => h) fun _ => maybeWriteHint_ordered

theorem removePkBody_ordered (doomed : List PkEntry) :
    Keeps A SyncOrdered (removePkBody doomed) := by
  refine Keeps.bind Keeps.getWorld fun w =>
    Keeps.bind (Keeps.forEach (fun e => ?_) doomed) fun _ => ?_
  · exact Keeps.bind (tombstone_ordered hA e.key w.db.opts.syncEveryWrite) fun _ =>
      Keeps.pure _
  refine Keeps.updateDB fun w h => ⟨h.main, h.blobs, h.lines, h.hint, h.size, h.stores,
    fun e he => ?_, h.job⟩
  have he : e ∈ doomed.foldl (fun pk e => pk.remove e.key) w.db.idx.pk := he
  exact h.scalar e (SecInv.mem_foldl_remove.mp he).1

theorem removePkEntries_ordered (doomed : List PkEntry) :
    Keeps A SyncOrdered (removePkEntries doomed) :=
  Keeps.ite (fun _ => Keeps.pure _) fun _ =>
    Keeps.bind (removePkBody_ordered hA doomed) fun _ =>
    Keeps.bind writeHint_ordered fun _ => Keeps.pure _

theorem reapCycle_ordered (n : Nat) : Keeps A SyncOrdered (reapCycle n) := by
  refine Keeps.bind Keeps.getWorld fun _ =>
    Keeps.bind (Keeps.updateDB fun _ h => h) fun _ =>
    Keeps.bind Keeps.getWorld fun _ =>
    Keeps.ite (fun _ => Keeps.pure ()) fun _ => Keeps.ignoreError ?_
  refine Keeps.bind (Keeps.foldEach (fun reaped r => ?_) _ _) fun _ =>
    Keeps.doWhen (Keeps.bind (Keeps.doWhen (Keeps.ignoreError syncMain_ordered))
      fun _ => maybeWriteHint_ordered)
  exact Keeps.bind Keeps.getWorld fun _ =>
    Keeps.ite
      (fun _ => Keeps.bind (deleteLocked_ordered hA _) fun _ => Keeps.pure _)
      fun _ => Keeps.pure _

theorem counterOp_ordered {β : Type} (key : Bytes) (ttl : List Int64)
    (step : Int64 → Except Err (Option Int64 × β)) :
    Spec A (fun w => SyncOrdered w ∧ w.db.creates w.now key = true) (counterOp key ttl step)
      (fun _ => SyncOrdered) fun _ => SyncOrdered := by
  refine Spec.bind_getWorld fun w hw => ?_
  refine Spec.bind_ofExcept (fun _ v _ h => h ▸ hw.1) fun exp _ => ?_
  refine Spec.bind (Q := fun _ v => v = w) ?_ fun _ =>
    Spec.bind (Q := fun _ => SyncOrdered) ?_ fun _ => Spec.pure fun _ h => h
  · refine Spec.bind_getWorld ?_
    rintro v rfl
    exact Spec.require (fun _ h _ => h) fun v h _ => h ▸ hw.1
  · refine Spec.bind (Q := fun r v => r = none ∧ SyncOrdered v) ?_ fun r =>
      Spec.of_pure ?_
    · refine Spec.bind_getWorld ?_
      rintro v rfl
      have hcreates := hw.2
      rw [DB.creates] at hcreates
      split
      · exact Spec.pure fun v hv => ⟨rfl, hv ▸ hw.1⟩
      · next e he =>
          rw [he] at hcreates
          rw [if_pos hcreates]
          exact Spec.bind ((deleteLocked_ordered hA key).pre fun v hv => hv ▸ hw.1) fun _ =>
            Spec.pure fun _ h => ⟨rfl, h⟩
    · rintro rfl
      refine Keeps.bind (Keeps.ofExcept _) fun r => ?_
      split
      · exact Keeps.pure r
      · refine Keeps.bind ?_ fun _ => Keeps.pure r
        exact Keeps.bind Keeps.getWorld fun _ =>
          Keeps.bind (appendRecord_ordered hA _ _ (acceptedMap_empty ⟨[], List.nodup_nil⟩)
            _ _ _) fun _ =>
          Keeps.bind (Keeps.updateDB fun _ h => h) fun _ => maybeWriteHint_ordered

end Steps

/-! ## Worlds -/

/-- Without an open store nothing is tracked. -/
theorem SyncOrdered.kill {w : World} (h : SyncOrdered w) : SyncOrdered w.kill :=
  ⟨h.main, h.blobs, h.lines, h.hint, Nat.zero_le _,
    fun bs hbs => absurd hbs (Tree.not_mem_empty bs),
    fun e he => absurd he (Tree.not_mem_empty e), fun j hj => by cases hj⟩

theorem SyncOrdered.settle {α : Type} {r : Except Err α × Env World} (h : SyncOrdered r.2.world) :
    SyncOrdered (settle r) := by
  unfold NteeDb.Core.settle
  split
  · exact h
  · split
    · exact h.kill
    · exact h

/-- An empty directory is in order. -/
theorem syncOrdered_of_empty {w : World} (hmain : w.dir.mainBytes = []) (hhint : w.dir.hint = none)
    (hs : w.durable.main = 0) (hb : ∀ gen, w.durable.blobs gen = 0) (hsize : w.db.size = 0)
    (hstores : ∀ bs ∈ w.db.blobs, bs.size = 0) (hpk : w.db.idx.pk = Tree.empty)
    (hjob : w.db.job = none) : SyncOrdered w := by
  refine ⟨by rw [hs]; exact Nat.zero_le _, fun gen => by rw [hb]; exact Nat.zero_le _,
    ⟨[], hmain, by simp⟩, fun es covers hload => ?_, by rw [hsize]; exact Nat.zero_le _,
    fun bs hbs => ?_, fun e he => ?_, fun j hj => ?_⟩
  · rw [hhint] at hload
    cases hload
  · rw [hstores bs hbs]
    exact ⟨Int64.le_refl 0, Int.natCast_nonneg _⟩
  · rw [hpk] at he
    exact absurd he (Tree.not_mem_empty e)
  · rw [hjob] at hj
    cases hj

/-- What the order says of a line of the log. -/
theorem SyncOrdered.within {w : World} (h : SyncOrdered w) {l : Bytes}
    (hl : l ∈ (splitLines w.dir.mainBytes).1) {r : Record} {b : BlobRef}
    (hr : unmarshalRecord l = some r) (hb : r.blob = some b) : w.durable.Within b := by
  obtain ⟨ls, hls, hlines⟩ := SyncOrder.lines h
  have hsplit :=
    splitLines_joinLines (fun l hl => (hlines l hl).1) (List.not_mem_nil (a := newline))
  rw [List.append_nil, ← hls] at hsplit
  rw [hsplit] at hl
  exact (hlines l hl).2 r b hr hb

end NteeDb.Core
