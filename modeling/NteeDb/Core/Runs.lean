import NteeDb.Core.Rewrite

/-!
# Operations and runs

The operations of a store as data, and what one of them does to the world when the
system answers its file steps as planned.  An error that ends the process leaves
the files and no open store.
-/

namespace NteeDb.Core

open NteeDb.Verified
open OrderedTree JsonCodec

/-- The operations on a store, with the orders in which a write visits its maps;
the last three are the steps of its background goroutines. -/
inductive Op where
  | put (ord : MapOrder) (key value : Bytes) (ttl : List Int64)
  | putIndexed (ord : MapOrder) (key value : Bytes) (ix : AnyMap) (ttl : List Int64)
  | putBatch (ords : Nat → MapOrder) (items : List PutItem)
  | delete (key : Bytes)
  | removeByPkLess (cutoff : Bytes)
  | removeByPkGreater (cutoff : Bytes)
  | incr (key : Bytes) (delta : Int64) (ttl : List Int64)
  | topup (key : Bytes) (amount max : Int64) (ttl : List Int64)
  | take (key : Bytes) (amount left : Int64) (ttl : List Int64)
  | get (key : Bytes)
  | getMany (keys : List Bytes)
  | has (key : Bytes)
  | prefixScan (p : Bytes)
  | compact
  | reindex
  | blobsRelieve
  | close
  | reapCycle (n : Nat)
  | hintAsyncFlush
  | hintAsyncWrite

/-- Forget the value of a program. -/
def dropValue {α : Type} (c : StoreM α) : StoreM Unit := do
  let _ ← c
  pure ()

/-- The program of an operation. -/
def Op.run : Op → StoreM Unit
  | .put ord key value ttl => NteeDb.Core.put ord key value ttl
  | .putIndexed ord key value ix ttl => NteeDb.Core.putIndexed ord key value ix ttl
  | .putBatch ords items => NteeDb.Core.putBatch ords items
  | .delete key => NteeDb.Core.delete key
  | .removeByPkLess cutoff => dropValue (NteeDb.Core.removeByPkLess cutoff)
  | .removeByPkGreater cutoff => dropValue (NteeDb.Core.removeByPkGreater cutoff)
  | .incr key delta ttl => dropValue (NteeDb.Core.incr key delta ttl)
  | .topup key amount max ttl => dropValue (NteeDb.Core.topup key amount max ttl)
  | .take key amount left ttl => dropValue (NteeDb.Core.take key amount left ttl)
  | .get key => dropValue (NteeDb.Core.get key)
  | .getMany keys => dropValue (NteeDb.Core.getMany keys)
  | .has key => dropValue (NteeDb.Core.has key)
  | .prefixScan p => dropValue (NteeDb.Core.prefixScan p)
  | .compact => NteeDb.Core.compact
  | .reindex => NteeDb.Core.reindex
  | .blobsRelieve => NteeDb.Core.blobsRelieve
  | .close => NteeDb.Core.close
  | .reapCycle n => NteeDb.Core.reapCycle n
  | .hintAsyncFlush => NteeDb.Core.hintAsyncFlush
  | .hintAsyncWrite => NteeDb.Core.hintAsyncWrite

/-- The process dies: the files stay, the open store is gone. -/
def World.kill (w : World) : World := { w with db := {} }

/-- The world after a program has ended. -/
def settle {α : Type} (r : Except Err α × Env World) : World :=
  match r.1 with
  | .ok _ => r.2.world
  | .error e => if e.fatal then r.2.world.kill else r.2.world

/-- The world after a program whose file steps are answered by `plan`. -/
def exec {α : Type} (c : StoreM α) (plan : List Answer) (w : World) : World := settle (c ⟨w, plan⟩)

/-! ## Runs -/

/-- What can happen to a store: an operation or an `Open`, with the answers to its
file steps, the clock showing another instant, the death of the process. -/
inductive Event where
  | openStore (opts : Options) (plan : List Answer)
  | op (o : Op) (plan : List Answer)
  | tick (now : Millis)
  | kill

/-- What an event does to the world. -/
def Event.apply : Event → World → World
  | .openStore opts plan, w => exec (NteeDb.Core.openStore opts) plan w
  | .op o plan, w => exec o.run plan w
  | .tick now, w => { w with now := now }
  | .kill, w => w.kill

/-- The world `w` is reached from `w₀` by events that `ok` allows. -/
inductive Reaches (ok : World → Event → Prop) (w₀ : World) : World → Prop
  | start : Reaches ok w₀ w₀
  | step {w : World} {ev : Event} (hw : Reaches ok w₀ w) (hev : ok w ev) :
      Reaches ok w₀ (ev.apply w)

/-- What holds at the start and is kept by every allowed event holds in every
world reached. -/
theorem Reaches.invariant {ok : World → Event → Prop} {w₀ w : World} {I : World → Prop}
    (h : Reaches ok w₀ w) (hstart : I w₀)
    (hstep : ∀ w ev, ok w ev → I w → I (ev.apply w)) : I w := by
  induction h with
  | start => exact hstart
  | step hw hev ih => exact hstep _ _ hev ih

/-- The events of a list are allowed one after the other. -/
def AllowedRun (ok : World → Event → Prop) : World → List Event → Prop
  | _, [] => True
  | w, ev :: evs => ok w ev ∧ AllowedRun ok (ev.apply w) evs

/-- The world after a list of events. -/
def runEvents : World → List Event → World
  | w, [] => w
  | w, ev :: evs => runEvents (ev.apply w) evs

theorem reaches_runEvents {ok : World → Event → Prop} {w₀ w : World} {evs : List Event}
    (h : Reaches ok w₀ w) (hevs : AllowedRun ok w evs) : Reaches ok w₀ (runEvents w evs) := by
  induction evs generalizing w with
  | nil => exact h
  | cons ev evs ih => exact ih (h.step hevs.1) hevs.2

end NteeDb.Core
