import NteeDb.Invariants.Rules

/-!
# What reading leaves alone

A read changes nothing but the reaper's queue.  So every read keeps an invariant
that does not look at the queue, whatever the system answers.
-/

namespace NteeDb.Core

open NteeDb.Verified
open Faults

variable {A : Answer → Prop} {I : World → Prop}

theorem requireOpen_keeps : Keeps A I requireOpen :=
  Keeps.bind Keeps.getWorld fun _ => Keeps.require _ _

theorem readRecord_keeps (e : PkEntry) : Keeps A I (readRecord e) :=
  Keeps.bind (Keeps.require _ _) fun _ => Keeps.readStep _

theorem blobReadAt_keeps (ref : BlobRef) : Keeps A I (blobReadAt ref) := by
  refine Keeps.bind Keeps.getWorld fun w => ?_
  split
  · exact Keeps.fail _
  · exact Keeps.bind (Keeps.require _ _) fun _ =>
      Keeps.bind (Keeps.require _ _) fun _ => Keeps.readStep _

theorem readValue_keeps (r : Record) : Keeps A I (readValue r) := by
  rw [readValue]
  split
  · exact Keeps.pure _
  · exact blobReadAt_keeps _

section Queue

variable (hI : ∀ w q, I w → I { w with db := { w.db with reapCh := q } })

include hI

theorem reapAsync_keeps (e : PkEntry) : Keeps A I (reapAsync e) := by
  refine Keeps.updateDB fun w h => ?_
  split
  · exact hI w _ h
  · exact h

theorem pkGetLive_keeps (key : Bytes) : Keeps A I (pkGetLive key) := by
  refine Keeps.bind Keeps.getWorld fun w => ?_
  split
  · exact Keeps.pure none
  · exact Keeps.ite
      (fun _ => Keeps.bind (reapAsync_keeps hI _) fun _ => Keeps.pure none)
      fun _ => Keeps.pure _

theorem lookup_keeps (key : Bytes) : Keeps A I (lookup key) := by
  refine Keeps.bind (pkGetLive_keeps hI key) fun r => ?_
  cases r with
  | none => exact Keeps.pure none
  | some e =>
      exact Keeps.bind (readRecord_keeps e) fun r =>
        Keeps.bind (readValue_keeps r) fun _ => Keeps.pure _

theorem get_keeps (key : Bytes) : Keeps A I (get key) :=
  Keeps.bind requireOpen_keeps fun _ => lookup_keeps hI key

theorem getMany_keeps (keys : List Bytes) : Keeps A I (getMany keys) :=
  Keeps.bind requireOpen_keeps fun _ => Keeps.foldEach
    (fun _ key => Keeps.bind (lookup_keeps hI key) fun _ => Keeps.pure _) keys []

theorem has_keeps (key : Bytes) : Keeps A I (has key) := by
  refine Keeps.bind Keeps.getWorld fun w => ?_
  exact Keeps.ite (fun _ => Keeps.pure _) fun _ =>
    Keeps.bind (pkGetLive_keeps hI key) fun _ => Keeps.pure _

theorem prefixScan_keeps (p : Bytes) : Keeps A I (prefixScan p) := by
  refine Keeps.bind requireOpen_keeps fun _ =>
    Keeps.bind Keeps.getWorld fun w => Keeps.foldEach (fun keys e => ?_) _ _
  exact Keeps.ite
    (fun _ => Keeps.bind (reapAsync_keeps hI e) fun _ => Keeps.pure _)
    fun _ => Keeps.pure _

end Queue

end NteeDb.Core
