import NteeDb.Core.Write

/-!
# Counters

`counter.go`.  A counter is stored as a sign and nineteen digits, so a new value
has the width of the old one and is written over it in place; only creation, and
any mismatch of the line, appends a record.
-/

namespace NteeDb.Core

open NteeDb.Verified
open Json Decimal OrderedTree

/-! ## The fixed-width form -/

/-- The last `n` decimal digits of `m`, most significant first. -/
def fixedDigits : Nat → Nat → Bytes
  | 0, _ => []
  | n + 1, m => fixedDigits n (m / 10) ++ [digit (m % 10)]

/-- `formatCounter` -/
def formatCounter (v : Int64) : Bytes :=
  (if v < 0 then 0x2D else 0x2B) :: fixedDigits 19 v.toInt.natAbs

/-- `parseCounter` -/
def parseCounter : Bytes → Option Int64
  | [] => none
  | sign :: ds =>
      if ds.length = 19 ∧ (sign = 0x2B ∨ sign = 0x2D) ∧ ds.all isDigit then
        let mag := natOfDigits ds
        if sign = 0x2B then if mag ≤ 9223372036854775807 then some (Int64.ofNat mag) else none
        else if mag ≤ 9223372036854775808 then some (Int64.ofInt (-mag)) else none
      else none

/-! ## Updating -/

/-- `bytes.Index` -/
def indexOf (pat : Bytes) : Bytes → Option Nat
  | [] => if pat = [] then some 0 else none
  | b :: rest => if pat.isPrefixOf (b :: rest) then some 0 else (indexOf pat rest).map (· + 1)

/-- The member of a record's line that holds its value as text. -/
def valuePattern (value : Bytes) : Bytes := [0x22, 0x73, 0x22, 0x3A, 0x22] ++ value ++ [0x22]

/-- Where in its line the value of a counter record is, if the line is as the
record would be written now. -/
def patchPosition (e : PkEntry) (r : Record) : Option Nat := do
  if e.ix.items ≠ [] then none
  else do
    let line ← marshalRecord r
    if Int32.ofNat line.length + 1 ≠ e.n then none
    else do
      let i ← indexOf (valuePattern r.value) line
      return i + 5

/-- The in-place update. -/
def patchCounter (e : PkEntry) (pos : Nat) (next : Int64) : StoreM Unit := do
  let off := e.off + Int64.ofNat pos
  require (decide (0 ≤ off)) .io
  let w ← Faults.getWorld
  fileStep
    (fun w => { w with
      dir := { w.dir with
        main := some (overwrite w.dir.mainBytes off.toInt.toNat (formatCounter next)) }
      acked := w.acked.apply (.put ⟨e.key, formatCounter next, e.exp⟩) })
    (fun kept w => { w with
      dir := { w.dir with
        main := some (overwrite w.dir.mainBytes off.toInt.toNat
          ((formatCounter next).take kept)) } })
  doWhen w.db.opts.syncEveryWrite syncMain

/-- `incrAppend` -/
def incrAppend (key : Bytes) (v exp : Int64) : StoreM Unit := do
  let w ← Faults.getWorld
  appendRecord key (formatCounter v) Tree.empty exp w.db.opts.syncEveryWrite true
  countWrites 1
  maybeWriteHint

/-- Write the next value of a counter: in place, or as a fresh record that keeps
the expiry. -/
def storeCounter (e : PkEntry) (old : Record) (next : Int64) : StoreM Unit :=
  match patchPosition e old with
  | some pos => patchCounter e pos next
  | none => incrAppend e.key next e.exp

/-- The entry of a live counter; an expired one is deleted and reads as missing. -/
def liveCounter (key : Bytes) : StoreM (Option PkEntry) := do
  let w ← Faults.getWorld
  match w.db.idx.pk.get key with
  | none => pure none
  | some e =>
      if e.expiredAt w.now.ms then do
        deleteLocked key
        pure none
      else pure (some e)

/-- The value of a counter record. -/
def counterValue (r : Record) : Except Err Int64 :=
  if r.blob ≠ none ∨ r.counter = false then .error .notCounter
  else
    match parseCounter r.value with
    | none => .error .notCounter
    | some v => .ok v

/-- `counterUpdate`: `step` gives the next value, if it applies, and what the
caller wants to know of it. -/
def counterUpdate {β : Type} (key : Bytes) (createExp : Int64)
    (step : Int64 → Except Err (Option Int64 × β)) : StoreM (Option Int64 × β) := do
  match ← liveCounter key with
  | none => do
      let r ← Prog.ofExcept (step 0)
      match r.1 with
      | none => pure r
      | some next => do
          incrAppend key next createExp
          pure r
  | some e => do
      let old ← readRecord e
      let cur ← Prog.ofExcept (counterValue old)
      let r ← Prog.ofExcept (step cur)
      match r.1 with
      | none => pure r
      | some next => do
          storeCounter e old next
          pure r

/-! ## The operations -/

/-- `math.MaxInt64` -/
def maxInt64 : Int64 := 9223372036854775807
/-- `math.MinInt64` -/
def minInt64 : Int64 := -9223372036854775808

/-- The step of `Incr`. -/
def incrStep (delta cur : Int64) : Except Err (Option Int64 × Int64) :=
  if (0 < delta ∧ maxInt64 - delta < cur) ∨ (delta < 0 ∧ cur < minInt64 - delta) then
    .error .counterOverflow
  else .ok (some (cur + delta), cur + delta)

/-- The step of `Topup`: what did not fit comes along. -/
def topupStep (amount max cur : Int64) : Except Err (Option Int64 × Int64) :=
  let applied :=
    if max ≤ cur then 0
    else if maxInt64 - amount < cur ∨ max < cur + amount then max - cur
    else amount
  .ok (if applied = 0 then none else some (cur + applied), amount - applied)

/-- The step of `Take`. -/
def takeStep (amount left cur : Int64) : Except Err (Option Int64 × Bool) :=
  if cur < minInt64 + amount ∨ cur - amount < left then .ok (none, false)
  else .ok (some (cur - amount), true)

/-- What the three operations share: the checks, then the update. -/
def counterOp {β : Type} (key : Bytes) (ttl : List Int64)
    (step : Int64 → Except Err (Option Int64 × β)) : StoreM β := do
  let w ← Faults.getWorld
  let createExp ← Prog.ofExcept (resolveTTL w.now ttl)
  requireOpen
  let r ← counterUpdate key createExp step
  pure r.2

/-- `Incr` -/
def incr (key : Bytes) (delta : Int64) (ttl : List Int64) : StoreM Int64 :=
  counterOp key ttl (incrStep delta)

/-- `Topup` -/
def topup (key : Bytes) (amount max : Int64) (ttl : List Int64) : StoreM Int64 := do
  require (decide (0 ≤ amount)) .negativeAmount
  counterOp key ttl (topupStep amount max)

/-- `Take` -/
def take (key : Bytes) (amount left : Int64) (ttl : List Int64) : StoreM Bool := do
  require (decide (0 ≤ amount)) .negativeAmount
  counterOp key ttl (takeStep amount left)

end NteeDb.Core
