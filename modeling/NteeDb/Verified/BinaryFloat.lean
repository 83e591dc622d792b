import NteeDb.Verified.Decimal
import Mathlib.Tactic.Ring
import Mathlib.Tactic.Positivity

/-!
# Binary floating point, its decimal text and the way back

A floating-point number of a binary interchange format is its bit pattern: a
sign and a magnitude, the exponent field above the mantissa field.  Magnitudes
of finite numbers are ordered as the numbers are, so the rank of a number *is*
its magnitude and a comparison is one of integers.

Every finite number is an integer multiple of the format's least positive one;
`ulps` is that integer.  `round` takes an exact rational to the nearest
magnitude, ties to even, which is the conversion a correctly rounding decimal
reader performs.

The writer emits the fewest significant digits that read back to the same
number, nearest to its exact value.  It searches digit counts and keeps the
first candidate that does read back; seventeen digits always suffice for
binary64 (nine for binary32), so the exact expansion that ends the search is
never reached.  Stating it keeps the round trip `parseFloat_formatFloat` free of
that fact.
-/

namespace NteeDb.Verified.BinaryFloat

open NteeDb.Verified.Json
open NteeDb.Verified.Decimal

/-- A binary interchange format: mantissa field width, the exponent of the least
positive number (negated), and the largest exponent code, which marks infinity
and NaN. -/
structure Format where
  mant : Nat
  unit : Nat
  top : Nat
  deriving DecidableEq, Repr

/-- IEEE 754 binary64. -/
def binary64 : Format := ⟨52, 1074, 2047⟩

/-- IEEE 754 binary32. -/
def binary32 : Format := ⟨23, 149, 255⟩

/-- Magnitude of infinity. -/
def Format.inf (F : Format) : Nat := F.top * 2 ^ F.mant

/-- A number of the format, as its bit pattern. -/
structure Float (F : Format) where
  neg : Bool
  mag : Nat
  lt : mag < (F.top + 1) * 2 ^ F.mant
  deriving DecidableEq

namespace Float

variable {F : Format}

/-- Not a number: the top exponent code with a mantissa. -/
def isNaN (x : Float F) : Bool := F.inf < x.mag

/-- Neither infinite nor NaN. -/
def isFinite (x : Float F) : Bool := x.mag < F.inf

/-- The rank of a number; both zeros have rank `0`. -/
def ord (x : Float F) : Int := if x.neg then -(x.mag : Int) else x.mag

/-- `x < y`, false when either is NaN. -/
def less (x y : Float F) : Bool := !x.isNaN && !y.isNaN && x.ord < y.ord

/-- `x == y`, false when either is NaN; the two zeros are equal. -/
def equal (x y : Float F) : Bool := !x.isNaN && !y.isNaN && x.ord = y.ord

end Float

/-! ## Magnitudes and what they stand for -/

/-- A finite magnitude as a multiple of the least positive number. -/
def ulps (p n : Nat) : Nat :=
  if n < 2 ^ p then n else (2 ^ p + n % 2 ^ p) * 2 ^ (n / 2 ^ p - 1)

/-- The greatest magnitude whose multiple is at most `t`. -/
def floorMag (p t : Nat) : Nat :=
  if t < 2 ^ (p + 1) then t else (t.log2 - p) * 2 ^ p + t / 2 ^ (t.log2 - p)

theorem floorMag_ulps (p n : Nat) : floorMag p (ulps p n) = n := by
  have hp : 0 < 2 ^ p := Nat.two_pow_pos p
  have hp1 : 2 ^ (p + 1) = 2 ^ p * 2 := Nat.pow_succ 2 p
  unfold ulps
  split
  · next h =>
      rw [floorMag, if_pos]
      omega
  · next h =>
      have hdm := Nat.div_add_mod n (2 ^ p)
      have hf : n % 2 ^ p < 2 ^ p := Nat.mod_lt _ hp
      have he : 1 ≤ n / 2 ^ p := (Nat.one_le_div_iff hp).mpr (by omega)
      obtain ⟨e, he'⟩ : ∃ e, n / 2 ^ p = e + 1 := ⟨n / 2 ^ p - 1, by omega⟩
      rw [he'] at hdm ⊢
      simp only [Nat.add_sub_cancel]
      by_cases h0 : e = 0
      · subst h0
        rw [floorMag, if_pos (by simp; omega)]
        simp only [Nat.zero_add, Nat.mul_one, Nat.pow_zero] at hdm ⊢
        omega
      · -- the leading bit of `(2^p + f) * 2^e` is bit `p + e`
        have h2e : 2 ≤ 2 ^ e := by
          calc 2 = 2 ^ 1 := rfl
            _ ≤ 2 ^ e := Nat.pow_le_pow_right (by decide) (by omega)
        have hlog : ((2 ^ p + n % 2 ^ p) * 2 ^ e).log2 = p + e := by
          rw [Nat.log2_eq_iff (by positivity)]
          constructor
          · rw [Nat.pow_add]
            exact Nat.mul_le_mul_right _ (by omega)
          · rw [show p + e + 1 = (p + 1) + e by omega, Nat.pow_add 2 (p + 1) e]
            exact Nat.mul_lt_mul_of_pos_right (by omega) (Nat.two_pow_pos e)
        have hge : ¬ (2 ^ p + n % 2 ^ p) * 2 ^ e < 2 ^ (p + 1) := by
          rw [not_lt, hp1]
          exact Nat.mul_le_mul (by omega) h2e
        rw [floorMag, if_neg hge, hlog, Nat.add_sub_cancel_left,
          Nat.mul_div_cancel _ (Nat.two_pow_pos e)]
        have hexp : 2 ^ p * (e + 1) = e * 2 ^ p + 2 ^ p := by ring
        omega

/-- The numbers of a format are strictly increasing with their magnitude. -/
theorem ulps_lt_succ (p n : Nat) : ulps p n < ulps p (n + 1) := by
  have hp : 0 < 2 ^ p := Nat.two_pow_pos p
  unfold ulps
  by_cases h1 : n + 1 < 2 ^ p
  · rw [if_pos (by omega), if_pos h1]
    omega
  by_cases h2 : n < 2 ^ p
  · have hn : n + 1 = 2 ^ p := by omega
    rw [if_pos h2, if_neg h1, hn, Nat.mod_self, Nat.div_self hp]
    simp only [Nat.sub_self, Nat.pow_zero, Nat.mul_one]
    omega
  rw [if_neg h2, if_neg h1]
  have hdm := Nat.div_add_mod n (2 ^ p)
  have hf : n % 2 ^ p < 2 ^ p := Nat.mod_lt _ hp
  have he : 1 ≤ n / 2 ^ p := (Nat.one_le_div_iff hp).mpr (by omega)
  by_cases hcarry : n % 2 ^ p + 1 = 2 ^ p
  · -- the mantissa wraps and the exponent grows
    have hn1 : n + 1 = 2 ^ p * (n / 2 ^ p + 1) := by rw [Nat.mul_succ]; omega
    have hdiv : (n + 1) / 2 ^ p = n / 2 ^ p + 1 := by
      rw [hn1, Nat.mul_div_cancel_left _ hp]
    have hmod : (n + 1) % 2 ^ p = 0 := by rw [hn1, Nat.mul_mod_right]
    obtain ⟨e, he'⟩ : ∃ e, n / 2 ^ p = e + 1 := ⟨n / 2 ^ p - 1, by omega⟩
    rw [hdiv, hmod, he']
    simp only [Nat.add_sub_cancel, Nat.add_zero]
    rw [show 2 ^ p * 2 ^ (e + 1) = (2 ^ p * 2) * 2 ^ e by ring]
    exact Nat.mul_lt_mul_of_pos_right (by omega) (Nat.two_pow_pos e)
  · have hdiv : (n + 1) / 2 ^ p = n / 2 ^ p := by
      apply Nat.div_eq_of_lt_le
      · rw [Nat.mul_comm]; omega
      · rw [Nat.mul_comm, Nat.mul_succ]; omega
    have hmod : (n + 1) % 2 ^ p = n % 2 ^ p + 1 := by
      have := Nat.div_add_mod (n + 1) (2 ^ p)
      rw [hdiv] at this
      omega
    rw [hdiv, hmod]
    exact Nat.mul_lt_mul_of_pos_right (by omega) (Nat.two_pow_pos _)

/-- Nearest magnitude of the rational `num / den`, ties to even, saturating at
infinity. -/
def round (F : Format) (num den : Nat) : Nat :=
  let n := floorMag F.mant (num * 2 ^ F.unit / den)
  let twice := 2 * (num * 2 ^ F.unit)
  let mid := (ulps F.mant n + ulps F.mant (n + 1)) * den
  min F.inf
    (if twice < mid then n
     else if mid < twice then n + 1
     else if n % 2 = 0 then n else n + 1)

/-- An exactly representable rational rounds to its own magnitude. -/
theorem round_exact {F : Format} {num den n : Nat} (hden : 0 < den) (hn : n ≤ F.inf)
    (h : num * 2 ^ F.unit = ulps F.mant n * den) : round F num den = n := by
  have hfloor : floorMag F.mant (num * 2 ^ F.unit / den) = n := by
    rw [h, Nat.mul_div_cancel _ hden, floorMag_ulps]
  have hlt : 2 * (num * 2 ^ F.unit) < (ulps F.mant n + ulps F.mant (n + 1)) * den := by
    rw [h, ← Nat.mul_assoc]
    apply Nat.mul_lt_mul_of_pos_right _ hden
    have := ulps_lt_succ F.mant n
    omega
  simp only [round, hfloor, hlt, if_true]
  omega

theorem round_le_inf (F : Format) (num den : Nat) : round F num den ≤ F.inf :=
  Nat.min_le_left _ _

private theorem inf_lt (F : Format) : F.inf < (F.top + 1) * 2 ^ F.mant :=
  Nat.mul_lt_mul_of_pos_right (Nat.lt_succ_self _) (Nat.two_pow_pos _)

/-- The number nearest to `± num / den`; infinite when out of range. -/
def ofRatio (F : Format) (neg : Bool) (num den : Nat) : Float F :=
  ⟨neg, round F num den, lt_of_le_of_lt (round_le_inf F num den) (inf_lt F)⟩

/-- `m * 10 ^ e` as a numerator and a denominator. -/
def tenTimes (m : Nat) : Int → Nat × Nat
  | .ofNat e => (m * 10 ^ e, 1)
  | .negSucc e => (m, 10 ^ (e + 1))

/-- The number nearest to `± m * 10 ^ e`; infinite when out of range. -/
def ofDecimal (F : Format) (neg : Bool) (m : Nat) (e : Int) : Float F :=
  ofRatio F neg (tenTimes m e).1 (tenTimes m e).2

/-- The number nearest to an integer. -/
def ofInt (F : Format) (i : Int) : Float F := ofRatio F (decide (i < 0)) i.natAbs 1

/-! ## Reading a literal -/

/-- The exponent of a literal, from the text the exponent rule took. -/
def exponentOf : Bytes → Int
  | [] => 0
  | _ :: rest =>
      if (scanExpSign rest).1 = [0x2D] then -(natOfDigits (scanExpSign rest).2 : Int)
      else natOfDigits (scanExpSign rest).2

/-- The number a literal denotes, correctly rounded; `none` when the text is no
literal or the number is out of range. -/
def parseFloat (F : Format) (lit : Bytes) : Option (Float F) := do
  let i ← scanInt (scanSign lit).2
  let f ← scanFrac i.2
  let e ← scanExp f.2
  let frac := f.1.drop 1
  let x := ofDecimal F ((scanSign lit).1 != []) (natOfDigits (i.1 ++ frac))
    (exponentOf e.1 - frac.length)
  if e.2 = [] ∧ x.isFinite then some x else none

/-! ## Writing a number -/

/-- `floor (log10 x)` of a positive rational below `10 ^ 400` and above `10 ^ -400`. -/
def log10Floor (num den : Nat) : Int :=
  ((natDigits (num * 10 ^ 400 / den)).length : Int) - 401

/-- The two decimals of `n` significant digits around `num / den`, nearest first:
each as its digits and the power of ten they are scaled by. -/
def neighbours (num den n : Nat) : List (Nat × Int) :=
  let s : Int := n - 1 - log10Floor num den
  let a := num * (tenTimes 1 s).1
  let b := den * (tenTimes 1 s).2
  let lo := a / b
  let rem := a % b
  -- the upper neighbour may need one digit more, which is then a trailing zero
  let up : Nat × Int := if lo + 1 = 10 ^ n then (10 ^ (n - 1), 1 - s) else (lo + 1, -s)
  if 2 * rem < b ∨ (2 * rem = b ∧ lo % 2 = 0) then [(lo, -s), up] else [up, (lo, -s)]

/-- `n` zeros. -/
def zeros (n : Nat) : Bytes := List.replicate n 0x30

/-- Positional form of `m * 10 ^ e`. -/
def positional (m : Nat) (e : Int) : Bytes :=
  let ds := natDigits m
  let point := (ds.length : Int) + e
  if point ≤ 0 then [0x30, 0x2E] ++ zeros (-point).toNat ++ ds
  else if (ds.length : Int) ≤ point then ds ++ zeros (point - ds.length).toNat
  else ds.take point.toNat ++ 0x2E :: ds.drop point.toNat

/-- Exponent form of `m * 10 ^ e`, with `width` digits of exponent at least. -/
def exponential (width : Nat) (m : Nat) (e : Int) : Bytes :=
  let ds := natDigits m
  let x := (ds.length : Int) + e - 1
  let xs := natDigits x.natAbs
  let frac := ds.drop 1
  ds.take 1 ++ (if frac = [] then [] else 0x2E :: frac) ++
    [0x65, if x < 0 then 0x2D else 0x2B] ++ zeros (width - xs.length) ++ xs

/-- Literals of one, two, … seventeen significant digits around `x`; `render`
lays out digits and a power of ten. -/
def candidates (F : Format) (render : Nat → Int → Bytes) (x : Float F) : List Bytes :=
  let decimals : List (Nat × Int) :=
    if x.mag = 0 then [(0, 0)]
    else (List.range 17).flatMap fun n => neighbours (ulps F.mant x.mag) (2 ^ F.unit) (n + 1)
  decimals.map fun c => (if x.neg then [0x2D] else []) ++ render c.1 c.2

/-- The shortest literal that reads back to `x`. -/
def shortest (F : Format) (render : Nat → Int → Bytes) (x : Float F) : Option Bytes :=
  (candidates F render x).find? fun lit => isNumber lit && decide (parseFloat F lit = some x)

/-- All digits of `x`, scaled by the power of ten of its least positive number. -/
def exactText (F : Format) (x : Float F) : Bytes :=
  (if x.neg then [0x2D] else []) ++ natDigits (ulps F.mant x.mag * 5 ^ F.unit) ++
    [0x65, 0x2D] ++ natDigits F.unit

/-- Text of a finite number, laid out by `render`. -/
def textOf (F : Format) (render : Nat → Int → Bytes) (x : Float F) : Bytes :=
  (shortest F render x).getD (exactText F x)

/-- The layout of a JSON number: positional between `10 ^ -6` and `10 ^ 21`,
exponential outside, with no leading zero in a one-digit exponent. -/
def jsonLayout (F : Format) (x : Float F) : Nat → Int → Bytes :=
  if x.mag ≠ 0 ∧ (x.mag < round F 1 (10 ^ 6) ∨ round F (10 ^ 21) 1 ≤ x.mag) then
    exponential 1
  else positional

/-- JSON text of a finite number. -/
def formatFloat (F : Format) (x : Float F) : Bytes := textOf F (jsonLayout F x) x

/-- The layout of the default verb of formatted printing: exponential when the
decimal exponent is below `-4` or at least `6`, with two digits of exponent. -/
def printLayout (m : Nat) (e : Int) : Bytes :=
  let x := ((natDigits m).length : Int) + e - 1
  if m ≠ 0 ∧ (x < -4 ∨ 6 ≤ x) then exponential 2 m e else positional m e

/-! ## Reading back what was written -/

private theorem scanExp_exact (u : Nat) :
    scanExp (0x65 :: 0x2D :: natDigits u) = some (0x65 :: 0x2D :: natDigits u, []) := by
  have hdig := natDigits_digits u
  obtain ⟨b, rest, heq, -⟩ := natDigits_ne_minus u
  rw [heq] at hdig ⊢
  have hrest : ∀ c ∈ rest, isDigit c = true := fun c hc => hdig c (by simp [hc])
  have htake : rest.takeWhile isDigit = rest := List.takeWhile_eq_self_iff.mpr hrest
  have hdrop : rest.dropWhile isDigit = [] := List.dropWhile_eq_nil_iff.mpr hrest
  simp [scanExp, scanExpSign, scanDigits, hdig b (by simp), htake, hdrop]

private theorem scan_exact {F : Format} (x : Float F) :
    scanSign (exactText F x) = (if x.neg then [0x2D] else [],
      natDigits (ulps F.mant x.mag * 5 ^ F.unit) ++ ([0x65, 0x2D] ++ natDigits F.unit)) := by
  cases hneg : x.neg with
  | true => simp [exactText, hneg, scanSign]
  | false =>
      simp only [exactText, hneg, Bool.false_eq_true, if_false, List.nil_append,
        List.append_assoc]
      exact scanSign_natDigits _ _

theorem isNumber_exactText {F : Format} (x : Float F) : isNumber (exactText F x) = true := by
  have hsign := scan_exact x
  have hint := scanInt_natDigits (ulps F.mant x.mag * 5 ^ F.unit)
    ([0x65, 0x2D] ++ natDigits F.unit) (by simp; decide)
  simp only [isNumber, scanNumber, hsign, hint, Option.bind_eq_bind, Option.bind_some]
  simp only [scanFrac, List.cons_append, List.nil_append, show (0x65 : UInt8) ≠ 0x2E by decide,
    if_false, Option.bind_some, scanExp_exact]
  simp [exactText]

private theorem round_exactText {F : Format} {n : Nat} (h : n < F.inf) :
    round F (ulps F.mant n * 5 ^ F.unit) (10 ^ F.unit) = n := by
  apply round_exact (Nat.pow_pos (by decide)) (Nat.le_of_lt h)
  have h10 : (5 : Nat) ^ F.unit * 2 ^ F.unit = 10 ^ F.unit := by rw [← Nat.mul_pow]
  rw [Nat.mul_assoc, h10]

private theorem ofDecimal_exactText {F : Format} (hu : 0 < F.unit) (x : Float F)
    (hx : x.mag < F.inf) :
    ofDecimal F x.neg (ulps F.mant x.mag * 5 ^ F.unit) (-(F.unit : Int)) = x := by
  obtain ⟨u, hu'⟩ : ∃ u, F.unit = u + 1 := ⟨F.unit - 1, by omega⟩
  have hneg : -((F.unit : Nat) : Int) = Int.negSucc u := by rw [hu']; rfl
  rw [ofDecimal, hneg, tenTimes, ← hu', ofRatio]
  simp only [round_exactText hx]

private theorem exponentOf_exactText (u : Nat) :
    exponentOf (0x65 :: 0x2D :: natDigits u) = -(u : Int) := by
  simp [exponentOf, scanExpSign, natOfDigits_natDigits]

/-- The exact expansion reads back to the number it expands. -/
theorem parseFloat_exactText {F : Format} (hu : 0 < F.unit) (x : Float F)
    (hx : x.isFinite = true) : parseFloat F (exactText F x) = some x := by
  have hsign := scan_exact x
  have hmag : x.mag < F.inf := by simpa [Float.isFinite] using hx
  have hval := ofDecimal_exactText hu x hmag
  -- the digits stay opaque: only their own text is looked at
  generalize ulps F.mant x.mag * 5 ^ F.unit = m at hsign hval
  have hint := scanInt_natDigits m ([0x65, 0x2D] ++ natDigits F.unit) (by simp; decide)
  have hs : ((if x.neg = true then [0x2D] else ([] : Bytes)) != []) = x.neg := by
    cases x.neg <;> rfl
  simp only [parseFloat, hsign, hint, Option.bind_eq_bind, Option.bind_some]
  simp only [scanFrac, List.cons_append, List.nil_append, show (0x65 : UInt8) ≠ 0x2E by decide,
    if_false, Option.bind_some, scanExp_exact, List.drop_nil, List.append_nil,
    natOfDigits_natDigits, List.length_nil]
  rw [exponentOf_exactText, hs, Nat.cast_zero, Int.sub_zero, hval]
  simp [hx]

private theorem shortest_some {F : Format} {render : Nat → Int → Bytes} {x : Float F}
    {lit : Bytes} (h : shortest F render x = some lit) :
    isNumber lit = true ∧ parseFloat F lit = some x := by
  rw [shortest] at h
  have hp := List.find?_some h
  rw [Bool.and_eq_true, decide_eq_true_eq] at hp
  exact hp

/-- **Number round trip.**  The text of a finite number is a literal, and reads
back to the same bit pattern. -/
theorem parseFloat_textOf {F : Format} (hu : 0 < F.unit) (render : Nat → Int → Bytes)
    (x : Float F) (hx : x.isFinite = true) :
    isNumber (textOf F render x) = true ∧ parseFloat F (textOf F render x) = some x := by
  rcases Option.eq_none_or_eq_some (shortest F render x) with h | ⟨lit, h⟩
  · rw [textOf, h, Option.getD_none]
    exact ⟨isNumber_exactText x, parseFloat_exactText hu x hx⟩
  · rw [textOf, h, Option.getD_some]
    exact shortest_some h

theorem parseFloat_formatFloat {F : Format} (hu : 0 < F.unit) (x : Float F)
    (hx : x.isFinite = true) :
    isNumber (formatFloat F x) = true ∧ parseFloat F (formatFloat F x) = some x :=
  parseFloat_textOf hu _ x hx

theorem isFinite_of_parseFloat {F : Format} {lit : Bytes} {x : Float F}
    (h : parseFloat F lit = some x) : x.isFinite = true := by
  simp only [parseFloat, Option.bind_eq_bind, Option.bind_eq_some_iff] at h
  obtain ⟨_, _, _, _, _, _, h⟩ := h
  split at h
  · next hc =>
      cases h
      exact hc.2
  · cases h

/-- An integer's own text reads as the number nearest to it. -/
theorem parseFloat_intDigits {F : Format} (i : Int) (h : (ofInt F i).isFinite = true) :
    parseFloat F (intDigits i) = some (ofInt F i) := by
  cases i with
  | ofNat n =>
      have hsign := scanSign_natDigits n []
      have hint := scanInt_natDigits n [] (by simp)
      rw [List.append_nil] at hsign hint
      have hval : ofDecimal F false n 0 = ofInt F (Int.ofNat n) := by
        have hneg : decide (Int.ofNat n < 0) = false := by simp
        rw [ofInt, hneg]
        simp [ofDecimal, tenTimes]
      simp only [intDigits, parseFloat, hsign, hint, scanFrac, scanExp, Option.bind_eq_bind,
        Option.bind_some, List.drop_nil, List.append_nil, natOfDigits_natDigits, exponentOf,
        List.length_nil, Nat.cast_zero, Int.sub_zero]
      rw [show (([] : Bytes) != []) = false from rfl, hval]
      simp only [h, and_self, if_true]
  | negSucc n =>
      have hint := scanInt_natDigits (n + 1) [] (by simp)
      rw [List.append_nil] at hint
      have hval : ofDecimal F true (n + 1) 0 = ofInt F (Int.negSucc n) := by
        simp [ofDecimal, tenTimes, ofInt]
      simp only [intDigits, parseFloat, scanSign, if_true, hint, scanFrac, scanExp,
        Option.bind_eq_bind, Option.bind_some, List.drop_nil, List.append_nil,
        natOfDigits_natDigits, exponentOf, List.length_nil, Nat.cast_zero, Int.sub_zero]
      rw [show (([0x2D] : Bytes) != []) = true from rfl, hval]
      simp only [h, and_self, if_true]

private theorem floorMag_lt {p t k : Nat} (hk : p + 1 ≤ k) (h : t < 2 ^ k) :
    floorMag p t < (k - p + 1) * 2 ^ p := by
  have hp : 0 < 2 ^ p := Nat.two_pow_pos p
  have hp1 : 2 ^ (p + 1) = 2 * 2 ^ p := by rw [Nat.pow_succ, Nat.mul_comm]
  rw [floorMag]
  split
  · next hlt =>
      have : 2 * 2 ^ p ≤ (k - p + 1) * 2 ^ p := Nat.mul_le_mul_right _ (by omega)
      omega
  · next hge =>
      have ht : t ≠ 0 := by omega
      have hlog : t.log2 < k := (Nat.log2_lt ht).mpr h
      have hdiv : t / 2 ^ (t.log2 - p) < 2 * 2 ^ p := by
        rw [Nat.div_lt_iff_lt_mul (Nat.two_pow_pos _), ← hp1, ← Nat.pow_add]
        calc t < 2 ^ (t.log2 + 1) := Nat.lt_log2_self
          _ ≤ 2 ^ (p + 1 + (t.log2 - p)) := Nat.pow_le_pow_right (by decide) (by omega)
      calc (t.log2 - p) * 2 ^ p + t / 2 ^ (t.log2 - p)
          < (t.log2 - p) * 2 ^ p + 2 * 2 ^ p := by omega
        _ = (t.log2 - p + 2) * 2 ^ p := by ring
        _ ≤ (k - p + 1) * 2 ^ p := Nat.mul_le_mul_right _ (by omega)

private theorem lt_of_floorMag_lt {p t top : Nat} (htop : 0 < top)
    (h : floorMag p t < top * 2 ^ p) : t < 2 ^ (p + top) := by
  by_contra hge
  have ht : 2 ^ (p + 1) ≤ t :=
    le_trans (Nat.pow_le_pow_right (by decide) (by omega)) (not_lt.mp hge)
  have hlog : p + top ≤ t.log2 := by
    have hne : t ≠ 0 := by
      have := Nat.two_pow_pos (p + 1)
      omega
    exact (Nat.le_log2 hne).mpr (not_lt.mp hge)
  rw [floorMag, if_neg (not_lt.mpr ht)] at h
  have hle : top * 2 ^ p ≤ (t.log2 - p) * 2 ^ p := Nat.mul_le_mul_right _ (by omega)
  exact absurd h (not_lt.mpr (le_trans hle (Nat.le_add_right _ _)))

private theorem round_lt_inf {F : Format} {num den k : Nat} (hden : 0 < den)
    (h : num * 2 ^ F.unit < 2 ^ k * den) (hk : F.mant + 1 ≤ k) (htop : k - F.mant + 1 < F.top) :
    round F num den < F.inf := by
  have hfloor := floorMag_lt hk ((Nat.div_lt_iff_lt_mul hden).mpr h)
  have hp : 0 < 2 ^ F.mant := Nat.two_pow_pos _
  have hinf : (k - F.mant + 1 + 1) * 2 ^ F.mant ≤ F.inf := Nat.mul_le_mul_right _ (by omega)
  have hsucc : (k - F.mant + 1 + 1) * 2 ^ F.mant
      = (k - F.mant + 1) * 2 ^ F.mant + 2 ^ F.mant := by ring
  rw [round, min_lt_iff]
  right
  split
  · omega
  · split
    · omega
    · split <;> omega

/-- An integer below `2 ^ k` is in range when the format's exponents reach `k`. -/
theorem isFinite_ofInt {F : Format} {i : Int} {k : Nat} (h : i.natAbs < 2 ^ k)
    (hk : F.mant + 1 ≤ k + F.unit) (htop : k + F.unit - F.mant + 1 < F.top) :
    (ofInt F i).isFinite = true := by
  have hlt : i.natAbs * 2 ^ F.unit < 2 ^ (k + F.unit) * 1 := by
    rw [Nat.mul_one, Nat.pow_add]
    exact Nat.mul_lt_mul_of_pos_right h (Nat.two_pow_pos _)
  exact decide_eq_true (round_lt_inf Nat.one_pos hlt hk htop)

private theorem num_lt_of_round_lt {F : Format} {num den : Nat} (hden : 0 < den)
    (htop : 0 < F.top) (h : round F num den < F.inf) :
    num * 2 ^ F.unit < 2 ^ (F.mant + F.top) * den := by
  have hfloor : floorMag F.mant (num * 2 ^ F.unit / den) < F.top * 2 ^ F.mant := by
    rw [round, min_lt_iff, or_iff_right (lt_irrefl _)] at h
    have hinf : F.inf = F.top * 2 ^ F.mant := rfl
    split at h
    · omega
    · split at h
      · omega
      · split at h <;> omega
  exact (Nat.div_lt_iff_lt_mul hden).mp (lt_of_floorMag_lt htop hfloor)

private theorem tenTimes_den_pos (m : Nat) (e : Int) : 0 < (tenTimes m e).2 := by
  cases e with
  | ofNat e => exact Nat.one_pos
  | negSucc e => exact Nat.pow_pos (by decide)

/-- A literal in range of a format is in range of a wider one. -/
theorem parseFloat_wider {F G : Format} (htop : 0 < F.top) (hunit : F.unit ≤ G.unit)
    (hk : G.mant + 1 ≤ F.mant + F.top + (G.unit - F.unit))
    (hG : F.mant + F.top + (G.unit - F.unit) - G.mant + 1 < G.top) {lit : Bytes} {x : Float F}
    (h : parseFloat F lit = some x) : ∃ y, parseFloat G lit = some y := by
  simp only [parseFloat, Option.bind_eq_bind, Option.bind_eq_some_iff] at h
  obtain ⟨i, hi, f, hf, e, he, h⟩ := h
  split at h
  · next hc =>
      simp only [parseFloat, hi, hf, he, Option.bind_eq_bind, Option.bind_some]
      refine ⟨_, if_pos ⟨hc.1, ?_⟩⟩
      have hden := tenTimes_den_pos (natOfDigits (i.1 ++ f.1.drop 1))
        (exponentOf e.1 - (f.1.drop 1).length)
      have hnum := num_lt_of_round_lt hden htop (of_decide_eq_true hc.2)
      apply decide_eq_true
      apply round_lt_inf hden _ hk hG
      calc _ = (tenTimes (natOfDigits (i.1 ++ f.1.drop 1))
              (exponentOf e.1 - (f.1.drop 1).length)).1 * 2 ^ F.unit * 2 ^ (G.unit - F.unit) := by
            rw [Nat.mul_assoc, ← Nat.pow_add, Nat.add_sub_cancel' hunit]
        _ < _ := Nat.mul_lt_mul_of_pos_right hnum (Nat.two_pow_pos _)
        _ = _ := by
            rw [Nat.pow_add _ (F.mant + F.top)]
            ring
  · cases h

/-- The same number in another format, rounded to it. -/
def convert (G : Format) {F : Format} (x : Float F) : Float G :=
  if x.isNaN then
    ⟨x.neg, (G.top + 1) * 2 ^ G.mant - 1,
      Nat.sub_lt (Nat.mul_pos (Nat.succ_pos _) (Nat.two_pow_pos _)) Nat.one_pos⟩
  else if x.isFinite then ofRatio G x.neg (ulps F.mant x.mag) (2 ^ F.unit)
  else ⟨x.neg, G.inf, inf_lt G⟩

end NteeDb.Verified.BinaryFloat
