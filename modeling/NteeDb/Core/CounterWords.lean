import NteeDb.Core.Counter

/-!
# The counter form in machine words

`formatCounter` and `parseCounter` as `counter.go` computes them, with the magnitude in a
`uint64` and the sign taken off and put back in `int64`.  `NteeDb.Core.formatCounter` and
`NteeDb.Core.parseCounter` are the same functions over unbounded numbers.
-/

namespace NteeDb.Core.Words

open NteeDb.Verified

/-- `counterWidth` -/
def counterWidth : Nat := 20

/-- The loop of `formatCounter`, which fills the digits from the last one on. -/
def digitLoop : Nat → UInt64 → Bytes → Bytes
  | 0, _, acc => acc
  | n + 1, mag, acc => digitLoop n (mag / 10) ((0x30 + mag % 10).toUInt8 :: acc)

/-- `formatCounter` -/
def formatCounter (v : Int64) : Bytes :=
  let sign : UInt8 := if v < 0 then 0x2D else 0x2B
  -- negated in two steps: the least int64 has no positive counterpart
  let mag : UInt64 := if v < 0 then (-(v + 1)).toUInt64 + 1 else v.toUInt64
  sign :: digitLoop (counterWidth - 1) mag []

/-- The loop of `parseCounter`. -/
def magLoop : UInt64 → Bytes → Option UInt64
  | mag, [] => some mag
  | mag, c :: cs =>
      if c < 0x30 ∨ 0x39 < c then none else magLoop (mag * 10 + (c - 0x30).toUInt64) cs

/-- `math.MaxInt64` as a `uint64`. -/
def maxMag : UInt64 := 9223372036854775807

/-- `parseCounter` -/
def parseCounter : Bytes → Option Int64
  | [] => none
  | sign :: ds =>
      if (sign :: ds).length ≠ counterWidth ∨ (sign ≠ 0x2B ∧ sign ≠ 0x2D) then none
      else
        match magLoop 0 ds with
        | none => none
        | some mag =>
            if sign = 0x2B then
              if maxMag < mag then none else some mag.toInt64
            else if maxMag + 1 < mag then none
            else some (-(mag - 1).toInt64 - 1)

end NteeDb.Core.Words
