import NteeDb.Core.CounterWords
import NteeDb.Invariants.CounterText
import Mathlib.Data.List.Induction

/-!
# The text form of a counter

`formatCounter` and `parseCounter` work on machine words.  Neither loses anything to their
width: both compute what the definitions over unbounded numbers say.  Reading a form gives its
number back, but zero has two forms that are read, one of them with a minus sign, and only
the other one is ever written.
-/

namespace NteeDb.Properties.CounterForm

open NteeDb.Core NteeDb.Verified NteeDb.Verified.Json NteeDb.Verified.Decimal

/-! ## The words hold the magnitudes -/

/-- The `int64` of a word is the word, or lies 2^64 below it. -/
theorem toInt_eq_word (v : Int64) :
    v.toInt = if 2 * v.toUInt64.toNat < 2 ^ 64 then (v.toUInt64.toNat : Int)
      else v.toUInt64.toNat - 2 ^ 64 :=
  BitVec.toInt_eq_toNat_cond v.toBitVec

theorem magnitude_nonneg {v : Int64} (h : 0 ≤ v.toInt) : v.toUInt64.toNat = v.toInt.natAbs := by
  have hword := toInt_eq_word v
  have hlt := v.toUInt64.toNat_lt
  split at hword
  · omega
  · omega

theorem magnitude_neg {v : Int64} (h : v.toInt < 0) :
    ((-(v + 1)).toUInt64 + 1).toNat = v.toInt.natAbs := by
  have hword := toInt_eq_word v
  have hlt := v.toUInt64.toNat_lt
  have hneg : (-(v + 1)).toUInt64 + 1 = -v.toUInt64 := by
    rw [Int64.toUInt64_neg, Int64.toUInt64_add, UInt64.neg_add]
    exact UInt64.sub_add_cancel _ _
  rw [hneg, UInt64.toNat_neg]
  change (2 ^ 64 - v.toUInt64.toNat) % 2 ^ 64 = _
  split at hword
  · omega
  · omega

theorem digit_word (mag : UInt64) : (0x30 + mag % 10).toUInt8 = digit (mag.toNat % 10) := by
  apply UInt8.toNat_inj.mp
  have hmod : mag.toNat % 10 < 10 := Nat.mod_lt _ (by decide)
  have hsum : (0x30 + mag % 10).toNat = 0x30 + mag.toNat % 10 := by
    rw [UInt64.toNat_add, UInt64.toNat_mod]
    change (48 + mag.toNat % 10) % 2 ^ 64 = 48 + mag.toNat % 10
    omega
  rw [digit_toNat hmod, UInt64.toNat_toUInt8, hsum]
  omega

theorem digitLoop_eq (n : Nat) (mag : UInt64) (acc : Bytes) :
    Words.digitLoop n mag acc = fixedDigits n mag.toNat ++ acc := by
  induction n generalizing mag acc with
  | zero => rfl
  | succ n ih =>
      have hdiv : (mag / 10).toNat = mag.toNat / 10 := UInt64.toNat_div mag 10
      rw [Words.digitLoop, ih, hdiv, digit_word, fixedDigits]
      simp

/-- Formatting in words is formatting. -/
theorem words_format (v : Int64) : Words.formatCounter v = formatCounter v := by
  have hsign : v < 0 ↔ v.toInt < 0 := Int64.lt_iff_toInt_lt
  simp only [Words.formatCounter, formatCounter, digitLoop_eq, List.append_nil]
  by_cases h : v < 0
  · rw [if_pos h, if_pos h, magnitude_neg (hsign.mp h)]
    rfl
  · rw [if_neg h, if_neg h, magnitude_nonneg (Int.not_lt.mp fun h' => h (hsign.mpr h'))]
    rfl

/-! ## Reading in words -/

theorem isDigit_iff_range (c : UInt8) : isDigit c = true ↔ ¬ (c < 0x30 ∨ 0x39 < c) := by
  rw [isDigit, Bool.and_eq_true, decide_eq_true_iff, decide_eq_true_iff]
  simp only [not_or, UInt8.not_lt]

theorem magLoop_step {c : UInt8} (h : isDigit c = true) (m : Nat) :
    UInt64.ofNat m * 10 + (c - 0x30).toUInt64 = UInt64.ofNat (m * 10 + (c.toNat - 0x30)) := by
  have hlow : (0x30 : UInt8) ≤ c := by
    rw [isDigit, Bool.and_eq_true, decide_eq_true_iff] at h
    exact h.1
  have hc : (c - 0x30).toUInt64 = UInt64.ofNat (c.toNat - 0x30) := by
    apply UInt64.toNat_inj.mp
    have hlt := c.toNat_lt
    rw [UInt8.toNat_toUInt64, UInt8.toNat_sub_of_le _ _ hlow, UInt64.toNat_ofNat']
    change c.toNat - 48 = (c.toNat - 48) % 2 ^ 64
    omega
  rw [hc, UInt64.ofNat_add, UInt64.ofNat_mul]
  rfl

/-- The loop reads the digits, modulo the width of the word. -/
theorem magLoop_eq (cs : Bytes) (m : Nat) :
    Words.magLoop (UInt64.ofNat m) cs
      = if cs.all isDigit then some (UInt64.ofNat (valueOnto m cs)) else none := by
  induction cs generalizing m with
  | nil => rfl
  | cons c cs ih =>
      rw [Words.magLoop]
      by_cases hc : isDigit c = true
      · rw [if_neg ((isDigit_iff_range c).mp hc), magLoop_step hc, ih, List.all_cons, hc]
        rfl
      · have hrange : c < 0x30 ∨ 0x39 < c := by
          by_contra hnot
          exact hc ((isDigit_iff_range c).mpr hnot)
        rw [if_pos hrange, List.all_cons, if_neg]
        simp [hc]

theorem valueOnto_lt {cs : Bytes} (h : ∀ c ∈ cs, isDigit c = true) (m : Nat) :
    valueOnto m cs < (m + 1) * 10 ^ cs.length := by
  induction cs generalizing m with
  | nil => simp [valueOnto]
  | cons c cs ih =>
      have hc := h c List.mem_cons_self
      have hdigit : c.toNat - 0x30 < 10 := by
        rw [isDigit, Bool.and_eq_true, decide_eq_true_iff, decide_eq_true_iff,
          UInt8.le_iff_toNat_le, UInt8.le_iff_toNat_le] at hc
        have hhigh : c.toNat ≤ 0x39 := hc.2
        omega
      calc valueOnto m (c :: cs)
          = valueOnto (m * 10 + (c.toNat - 0x30)) cs := rfl
        _ < (m * 10 + (c.toNat - 0x30) + 1) * 10 ^ cs.length :=
            ih (fun d hd => h d (List.mem_cons_of_mem c hd)) _
        _ ≤ ((m + 1) * 10) * 10 ^ cs.length := Nat.mul_le_mul_right _ (by omega)
        _ = (m + 1) * 10 ^ (c :: cs).length := by
            rw [List.length_cons, Nat.pow_succ, Nat.mul_assoc, Nat.mul_comm 10]

/-- Nineteen digits fit a word. -/
theorem natOfDigits_lt_word {ds : Bytes} (hlen : ds.length = 19)
    (hds : ∀ c ∈ ds, isDigit c = true) : natOfDigits ds < 2 ^ 64 := by
  have hlt := valueOnto_lt hds 0
  rw [hlen] at hlt
  have hword : (0 + 1) * 10 ^ 19 < 2 ^ 64 := by decide
  exact Nat.lt_trans hlt hword

/-- Putting the sign back, `mag - 1` wrapping for zero. -/
theorem negated_word (m : Nat) :
    -(UInt64.ofNat m - 1).toInt64 - 1 = Int64.ofInt (-(m : Int)) := by
  have hsub : (UInt64.ofNat m - 1).toInt64 = Int64.ofNat m - 1 := by
    rw [UInt64.toInt64_sub, UInt64.toInt64_ofNat']
    rfl
  rw [hsub, Int64.neg_sub, Int64.ofInt_neg, Int64.ofInt_eq_ofNat, Int64.sub_eq_add_neg,
    Int64.sub_eq_add_neg, Int64.add_comm 1, Int64.add_assoc]
  have hone : (1 : Int64) + -1 = 0 := by decide
  rw [hone, Int64.add_zero]

/-- Parsing in words is parsing. -/
theorem words_parse (b : Bytes) : Words.parseCounter b = parseCounter b := by
  cases b with
  | nil => rfl
  | cons sign ds =>
      have hzero : Words.magLoop 0 ds = _ := magLoop_eq ds 0
      rw [Words.parseCounter, parseCounter, hzero]
      by_cases hshape : ds.length = 19 ∧ (sign = 0x2B ∨ sign = 0x2D)
      · have hgate : ¬ ((sign :: ds).length ≠ Words.counterWidth ∨
            (sign ≠ 0x2B ∧ sign ≠ 0x2D)) := by
          simp only [List.length_cons, Words.counterWidth]
          grind
        rw [if_neg hgate]
        by_cases hall : ds.all isDigit = true
        · have hlt := natOfDigits_lt_word hshape.1 (List.all_eq_true.mp hall)
          have hword : (UInt64.ofNat (natOfDigits ds)).toNat = natOfDigits ds :=
            UInt64.toNat_ofNat_of_lt' hlt
          rw [if_pos hall, if_pos ⟨hshape.1, hshape.2, hall⟩]
          have hmax : Words.maxMag < UInt64.ofNat (natOfDigits ds)
              ↔ ¬ natOfDigits ds ≤ 9223372036854775807 := by
            rw [UInt64.lt_iff_toNat_lt, hword]
            exact Nat.not_le.symm
          have hmin : Words.maxMag + 1 < UInt64.ofNat (natOfDigits ds)
              ↔ ¬ natOfDigits ds ≤ 9223372036854775808 := by
            rw [UInt64.lt_iff_toNat_lt, hword]
            exact Nat.not_le.symm
          have hpos : (UInt64.ofNat (natOfDigits ds)).toInt64 = Int64.ofNat (natOfDigits ds) :=
            UInt64.toInt64_ofNat'
          dsimp only [natOfDigits] at *
          rw [hpos, negated_word]
          simp only [hmax, hmin, ite_not]
        · rw [if_neg hall, if_neg fun h => hall h.2.2]
      · have hgate : (sign :: ds).length ≠ Words.counterWidth ∨ (sign ≠ 0x2B ∧ sign ≠ 0x2D) := by
          simp only [List.length_cons, Words.counterWidth]
          grind
        rw [if_pos hgate, if_neg fun h => hshape ⟨h.1, h.2.1⟩]

/-! ## One form for each number -/

theorem natOfDigits_snoc (ds : Bytes) (c : UInt8) :
    natOfDigits (ds ++ [c]) = natOfDigits ds * 10 + (c.toNat - 0x30) := by
  simp only [natOfDigits, valueOnto, List.foldl_append, List.foldl_cons, List.foldl_nil]

/-- Digits are what is written for the number they read as. -/
theorem fixedDigits_natOfDigits (ds : Bytes) (h : ∀ c ∈ ds, isDigit c = true) :
    fixedDigits ds.length (natOfDigits ds) = ds := by
  induction ds using List.reverseRecOn with
  | nil => rfl
  | append_singleton ds c ih =>
      have hc := h c (by simp)
      rw [isDigit, Bool.and_eq_true, decide_eq_true_iff, decide_eq_true_iff,
        UInt8.le_iff_toNat_le, UInt8.le_iff_toNat_le] at hc
      have hlow : 0x30 ≤ c.toNat := hc.1
      have hhigh : c.toNat ≤ 0x39 := hc.2
      have hdiv : natOfDigits (ds ++ [c]) / 10 = natOfDigits ds := by
        rw [natOfDigits_snoc]
        omega
      have hmod : natOfDigits (ds ++ [c]) % 10 = c.toNat - 0x30 := by
        rw [natOfDigits_snoc]
        omega
      have hdigit : digit (c.toNat - 0x30) = c := by
        rw [digit, Nat.add_sub_cancel' hlow, UInt8.ofNat_toNat]
      rw [List.length_append, List.length_singleton, fixedDigits, hdiv, hmod, hdigit,
        ih fun d hd => h d (by simp [hd])]

/-- A minus sign and nineteen zeros. -/
def negativeZero : Bytes := 0x2D :: List.replicate 19 0x30

theorem fixedDigits_zero (n : Nat) : fixedDigits n 0 = List.replicate n 0x30 := by
  induction n with
  | zero => rfl
  | succ n ih =>
      rw [fixedDigits, Nat.zero_div, ih, List.replicate_succ']
      rfl

/-- What is read is what is written for the number, the negative zero apart. -/
theorem format_parse_iff {b : Bytes} {v : Int64} (h : parseCounter b = some v) :
    formatCounter v = b ↔ b ≠ negativeZero := by
  cases b with
  | nil => cases h
  | cons sign ds =>
      rw [parseCounter] at h
      split at h
      case isFalse => cases h
      case isTrue hform =>
      have hback := fixedDigits_natOfDigits ds (List.all_eq_true.mp hform.2.2)
      rw [hform.1] at hback
      dsimp only at h
      split at h
      · next hplus =>
          split at h
          · next hle =>
              have hv : v.toInt = natOfDigits ds := by
                rw [← Option.some.inj h, Int64.toInt_ofNat_of_lt (by omega)]
              have hnonneg : ¬ v < 0 := by
                rw [Int64.lt_iff_toInt_lt, hv]
                exact Int.not_lt.mpr (Int.natCast_nonneg _)
              rw [formatCounter, if_neg hnonneg, hv, Int.natAbs_natCast, hback, hplus]
              constructor
              · intro _ heq
                cases heq
              · intro _
                rfl
          · cases h
      · next hplus =>
          have hminus : sign = 0x2D := hform.2.1.resolve_left hplus
          split at h
          · next hle =>
              have hv : v.toInt = -(natOfDigits ds : Int) := by
                rw [← Option.some.inj h, Int64.toInt_ofInt]
                change (-(natOfDigits ds : Int)).bmod (2 ^ 64) = _
                exact Int.bmod_eq_of_le (by omega) (by omega)
              by_cases hzero : natOfDigits ds = 0
              · -- the number is zero, which is written with a plus sign
                have hds : ds = List.replicate 19 0x30 := by
                  rw [← hback, hzero, fixedDigits_zero]
                have hnonneg : ¬ v < 0 := by
                  rw [Int64.lt_iff_toInt_lt, hv, hzero]
                  decide
                rw [formatCounter, if_neg hnonneg, hminus, hds]
                constructor
                · intro heq
                  cases heq
                · intro hne
                  exact absurd rfl hne
              · have hneg : v < 0 := by
                  rw [Int64.lt_iff_toInt_lt, hv]
                  change -(natOfDigits ds : Int) < 0
                  omega
                rw [formatCounter, if_pos hneg, hv, Int.natAbs_neg, Int.natAbs_natCast,
                  hback, hminus]
                constructor
                · intro _ heq
                  apply hzero
                  rw [(List.cons.inj heq).2]
                  decide
                · intro _
                  rfl
          · cases h

/-- The functions compute the exact ones, every number is read back from its form, and a form
that is read is the one written for its number if and only if it is not the negative zero. -/
theorem counter_form_iff (v : Int64) (b : Bytes) :
    Words.formatCounter v = formatCounter v ∧ Words.parseCounter b = parseCounter b ∧
      Words.parseCounter (Words.formatCounter v) = some v ∧
      ∀ n, Words.parseCounter b = some n → (Words.formatCounter n = b ↔ b ≠ negativeZero) := by
  refine ⟨words_format v, words_parse b, ?_, ?_⟩
  · rw [words_parse, words_format]
    exact parse_format v
  · intro n h
    rw [words_parse] at h
    rw [words_format]
    exact format_parse_iff h

theorem least_counter_form :
    Words.parseCounter (0x2D :: fixedDigits 19 9223372036854775808) = some minInt64 ∧
      Words.formatCounter minInt64 = 0x2D :: fixedDigits 19 9223372036854775808 :=
  ⟨by decide, ((counter_form_iff minInt64 _).2.2.2 _ (by decide)).mpr (by decide)⟩

theorem negative_zero_read :
    Words.parseCounter negativeZero = some 0 ∧ Words.formatCounter 0 ≠ negativeZero := by decide

end NteeDb.Properties.CounterForm
