import Mathlib.Logic.Function.Basic

/-!
# Calls on one handle

The calls of one `DB` as threads, split where the source takes or waits for a lock: `lockWrite`,
the compaction gate, the swap under `mu`, the background hint writer, and `Close`.  What a call
writes is left open; a thread in the middle of a critical part may write at any time.

`Close` also waits for the reaper before it takes the lock.  A reaper batch is a mutation here,
which may start at any time, so that wait only removes interleavings and is left out.
-/

namespace NteeDb.Core.Handle

/-- The calls that take the lock exclusively.  `mutate` is any of `Put`, `PutBatch`, `Delete`,
the counters, the range deletes and a reaper batch. -/
inductive Call where
  | mutate
  | compact
  | reindex
  | relieve
  | close
  deriving DecidableEq, Repr

/-- Where a thread stands. -/
inductive Pc where
  /-- Outside any call. -/
  | idle
  /-- In the `lockWrite` the call begins with. -/
  | waiting (call : Call)
  /-- A mutation that holds `mu` and found the store open. -/
  | inside
  /-- Holds `mu`, found the store closed, and is about to return. -/
  | refused
  /-- Behind the raised gate, building the new log without `mu`. -/
  | gated (call : Call)
  /-- Holds `mu` for the swap of a rewrite. -/
  | swapping (call : Call)
  /-- `BlobsRelieve` after an error, about to look at `closed` under `mu`. -/
  | failing
  /-- `BlobsRelieve` that found the store open, about to remove its new generation. -/
  | cleaning
  /-- About to lower the gate; `next` when a `Reindex` goes on with `markReindexed`. -/
  | lowering (next : Bool)
  /-- `Reindex` in its second `lockWrite`. -/
  | marking
  /-- `Reindex` in `markReindexed`, holding `mu`. -/
  | stamping
  /-- A read, holding `mu` shared. -/
  | reading
  /-- `writeHintAsync`. -/
  | hinting
  /-- `Close` with `closed` set, holding `mu`, waiting for hint writers. -/
  | closing
  /-- `Close` writing the last hint and closing the files. -/
  | finishing
  /-- `Close` after it released `LOCK`, still holding `mu`. -/
  | leaving
  deriving DecidableEq, Repr

/-- The handle. -/
structure State where
  /-- The thread that holds `mu` exclusively. -/
  mu : Option Nat := none
  /-- Threads that hold `mu` shared. -/
  readers : Nat := 0
  compacting : Bool := false
  closed : Bool := false
  /-- The `LOCK` file has been released. -/
  released : Bool := false
  /-- Running hint writers (`hintWG`). -/
  hints : List Nat := []
  pcs : Nat → Pc := fun _ => .idle

/-- What may happen next. -/
inductive Action where
  | begin (t : Nat) (call : Call)
  | beginRead (t : Nat)
  | acquire (t : Nat)
  /-- A write, rename, truncation or removal of a file of the store directory. -/
  | write (t : Nat)
  /-- `maybeWriteHint` starts a hint writer `h`. -/
  | spawn (t h : Nat)
  | endHint (h : Nat)
  | unlock (t : Nat)
  /-- `buildRewrite` failed. -/
  | abort (t : Nat)
  | takeSwap (t : Nat)
  | endSwap (t : Nat) (ok : Bool)
  | failStop (t : Nat)
  | look (t : Nat)
  | cleaned (t : Nat)
  | lowerGate (t : Nat)
  | mark (t : Nat)
  | drained (t : Nat)
  | release (t : Nat)
  | endRead (t : Nat)
  deriving DecidableEq, Repr

/-- A thread moves on. -/
def State.move (s : State) (t : Nat) (pc : Pc) : State :=
  { s with pcs := Function.update s.pcs t pc }

/-- `mu` can be taken exclusively. -/
def State.free (s : State) : Bool := s.mu.isNone && s.readers == 0

/-- Where a rewrite goes after an error. -/
def afterError : Call → Pc
  | .relieve => .failing
  | _ => .lowering false

/-- A call has got the lock in `lockWrite` and looks at `closed`. -/
def State.enter (s : State) (t : Nat) : Call → State
  | .mutate =>
      if s.closed then { s.move t .refused with mu := some t }
      else { s.move t .inside with mu := some t }
  | .close =>
      if s.closed then { s.move t .refused with mu := some t }
      else { s.move t .closing with mu := some t, closed := true }
  -- `raiseGate` unlocks at once.
  | call =>
      if s.closed then s.move t .idle else { s.move t (.gated call) with compacting := true }

/-- Whether a thread is where files may be written. -/
def Pc.writes : Pc → Bool
  | .inside | .gated _ | .swapping _ | .cleaning | .stamping | .hinting | .finishing => true
  | _ => false

/-- One step; `none` when the thread is not where the action starts from, or has to wait. -/
def step (s : State) : Action → Option State
  | .begin t call => if s.pcs t = .idle then some (s.move t (.waiting call)) else none
  | .beginRead t =>
      -- A read that finds the store closed returns at once, having done nothing.
      if s.pcs t = .idle ∧ s.mu = none then
        if s.closed then some s else some { s.move t .reading with readers := s.readers + 1 }
      else none
  | .acquire t =>
      match s.pcs t with
      | .waiting call =>
          if s.free = true ∧ s.compacting = false then some (s.enter t call) else none
      | _ => none
  | .write t => if (s.pcs t).writes then some s else none
  | .spawn t h =>
      if s.pcs t = .inside ∧ s.pcs h = .idle then
        some { s.move h .hinting with hints := h :: s.hints }
      else none
  | .endHint h =>
      if s.pcs h = .hinting then
        some { s.move h .idle with hints := s.hints.filter (· ≠ h) }
      else none
  | .unlock t =>
      match s.pcs t with
      | .inside | .refused | .stamping | .leaving => some { s.move t .idle with mu := none }
      | _ => none
  | .abort t =>
      match s.pcs t with
      | .gated call => some (s.move t (afterError call))
      | _ => none
  | .takeSwap t =>
      match s.pcs t with
      | .gated call =>
          if s.free then some { s.move t (.swapping call) with mu := some t } else none
      | _ => none
  | .endSwap t ok =>
      match s.pcs t with
      | .swapping call =>
          some { s.move t (if ok then .lowering (call = .reindex) else afterError call) with
            mu := none }
      | _ => none
  | .failStop t =>
      match s.pcs t with
      | .swapping call =>
          if s.hints = [] then
            some { s.move t (afterError call) with mu := none, closed := true, released := true }
          else none
      | _ => none
  | .look t =>
      if s.pcs t = .failing ∧ s.free = true then
        some (s.move t (if s.closed then .lowering false else .cleaning))
      else none
  | .cleaned t => if s.pcs t = .cleaning then some (s.move t (.lowering false)) else none
  | .lowerGate t =>
      match s.pcs t with
      | .lowering next =>
          if s.free then
            some { s.move t (if next then .marking else .idle) with compacting := false }
          else none
      | _ => none
  -- The second `lockWrite` of `Reindex`: `closed` is not looked at.
  | .mark t =>
      if s.pcs t = .marking ∧ s.free = true ∧ s.compacting = false then
        some { s.move t .stamping with mu := some t }
      else none
  | .drained t =>
      if s.pcs t = .closing ∧ s.hints = [] then some (s.move t .finishing) else none
  | .release t =>
      if s.pcs t = .finishing then some { s.move t .leaving with released := true } else none
  | .endRead t =>
      if s.pcs t = .reading then some { s.move t .idle with readers := s.readers - 1 } else none

/-- A run of steps. -/
def run : State → List Action → Option State
  | s, [] => some s
  | s, a :: as => (step s a).bind fun s' => run s' as

end NteeDb.Core.Handle
