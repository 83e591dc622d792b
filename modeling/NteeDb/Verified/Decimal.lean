import NteeDb.Verified.Json

/-!
# Decimal text of integers

`natDigits` writes a natural number in decimal, most significant digit first and
with no leading zero; `natOfDigits` reads a run of digits.  Both are the usual
base-10 loops.  `intDigits` adds the sign, and `parseInt` reads an integer
literal back: a JSON number literal with no fraction and no exponent.

`parseInt_intDigits` is the round trip, and `isNumber_intDigits` says the text
is a JSON number literal.
-/

namespace NteeDb.Verified.Decimal

open NteeDb.Verified.Json

/-- ASCII of a digit. -/
def digit (d : Nat) : UInt8 := UInt8.ofNat (0x30 + d)

/-- Prepend the digits of `n` to `acc`; `fuel` bounds their number. -/
def digitsOnto : Nat → Nat → Bytes → Bytes
  | 0, _, acc => acc
  | fuel + 1, n, acc =>
      if n / 10 = 0 then digit (n % 10) :: acc
      else digitsOnto fuel (n / 10) (digit (n % 10) :: acc)

/-- Decimal digits of `n`. -/
def natDigits (n : Nat) : Bytes := digitsOnto (n + 1) n []

/-- Value of a run of digits, on top of `acc`. -/
def valueOnto (acc : Nat) (ds : Bytes) : Nat :=
  ds.foldl (fun n d => n * 10 + (d.toNat - 0x30)) acc

/-- Value of a run of digits. -/
def natOfDigits (ds : Bytes) : Nat := valueOnto 0 ds

/-- Decimal text of an integer. -/
def intDigits : Int → Bytes
  | .ofNat n => natDigits n
  | .negSucc n => 0x2D :: natDigits (n + 1)

/-- The integer an integer literal denotes; no fraction, no exponent. -/
def parseInt (lit : Bytes) : Option Int :=
  match scanInt (scanSign lit).2 with
  | some (ds, []) =>
      if (scanSign lit).1 = [] then some (natOfDigits ds) else some (-(natOfDigits ds : Int))
  | _ => none

/-! ## Digits -/

theorem digit_toNat {d : Nat} (h : d < 10) : (digit d).toNat = 0x30 + d := by
  simp only [digit, UInt8.toNat_ofNat']
  omega

theorem isDigit_digit {d : Nat} (h : d < 10) : isDigit (digit d) = true := by
  have hall : ∀ m : Fin 10, isDigit (digit m.val) = true := by decide
  exact hall ⟨d, h⟩

theorem digit_ne_zero {d : Nat} (h : d < 10) (h0 : d ≠ 0) : digit d ≠ 0x30 := by
  have hall : ∀ m : Fin 10, m.val ≠ 0 → digit m.val ≠ 0x30 := by decide
  exact hall ⟨d, h⟩ h0

theorem digitsOnto_digits (fuel n : Nat) (acc : Bytes) (h : ∀ b ∈ acc, isDigit b = true) :
    ∀ b ∈ digitsOnto fuel n acc, isDigit b = true := by
  induction fuel generalizing n acc with
  | zero => exact h
  | succ fuel ih =>
      have hmod : n % 10 < 10 := Nat.mod_lt _ (by decide)
      have hcons : ∀ b ∈ digit (n % 10) :: acc, isDigit b = true := by
        intro b hb
        rcases List.mem_cons.mp hb with rfl | hb
        · exact isDigit_digit hmod
        · exact h b hb
      simp only [digitsOnto]
      split
      · exact hcons
      · exact ih (n / 10) _ hcons

theorem natDigits_digits (n : Nat) : ∀ b ∈ natDigits n, isDigit b = true :=
  digitsOnto_digits (n + 1) n [] (by simp)

theorem length_digitsOnto_le {k : Nat} (fuel n : Nat) (acc : Bytes) (hn : n < 10 ^ (k + 1)) :
    (digitsOnto fuel n acc).length ≤ acc.length + k + 1 := by
  induction fuel generalizing n k acc with
  | zero =>
      rw [digitsOnto]
      omega
  | succ fuel ih =>
      rw [digitsOnto]
      split
      · rw [List.length_cons]
        omega
      · next hmore =>
          cases k with
          | zero => omega
          | succ k =>
              have hdiv : n / 10 < 10 ^ (k + 1) := by omega
              have hstep := ih (n / 10) (digit (n % 10) :: acc) hdiv
              rw [List.length_cons] at hstep
              omega

theorem length_intDigits_le {k : Nat} {i : Int} (hi : i.natAbs < 10 ^ (k + 1)) :
    (intDigits i).length ≤ k + 2 := by
  cases i with
  | ofNat n =>
      have hlen := length_digitsOnto_le (n + 1) n [] hi
      rw [List.length_nil] at hlen
      rw [intDigits, natDigits]
      omega
  | negSucc n =>
      have hlen := length_digitsOnto_le (n + 1 + 1) (n + 1) [] hi
      rw [List.length_nil] at hlen
      rw [intDigits, natDigits, List.length_cons]
      omega

/-- Reading the digits on top of `0` is reading them on top of `n`. -/
theorem valueOnto_digitsOnto (fuel n : Nat) (acc : Bytes) (h : n < fuel) :
    valueOnto 0 (digitsOnto fuel n acc) = valueOnto n acc := by
  induction fuel generalizing n acc with
  | zero => omega
  | succ fuel ih =>
      have hmod : n % 10 < 10 := Nat.mod_lt _ (by decide)
      have hstep : valueOnto (n / 10) (digit (n % 10) :: acc) = valueOnto n acc := by
        simp only [valueOnto, List.foldl_cons, digit_toNat hmod]
        congr 1
        omega
      simp only [digitsOnto]
      split
      · next h0 => rw [← hstep, h0]
      · rw [ih (n / 10) _ (by omega), hstep]

theorem natOfDigits_natDigits (n : Nat) : natOfDigits (natDigits n) = n :=
  valueOnto_digitsOnto (n + 1) n [] (Nat.lt_succ_self n)

/-- The leading digit is `0` for zero only, and then it is the only digit. -/
theorem digitsOnto_head (fuel n : Nat) (acc : Bytes) (h : n < fuel) :
    ∃ d ds, digitsOnto fuel n acc = digit d :: ds ∧ d < 10 ∧
      (d = 0 → n = 0 ∧ ds = acc) := by
  induction fuel generalizing n acc with
  | zero => omega
  | succ fuel ih =>
      simp only [digitsOnto]
      split
      · next h0 =>
          refine ⟨n % 10, acc, rfl, Nat.mod_lt _ (by decide), ?_⟩
          intro hd
          exact ⟨by omega, rfl⟩
      · next h0 =>
          obtain ⟨d, ds, heq, hd, hz⟩ := ih (n / 10) (digit (n % 10) :: acc) (by omega)
          exact ⟨d, ds, heq, hd, fun hd0 => absurd (hz hd0).1 h0⟩

/-- The digits of a number are exactly what the integer rule of the grammar
takes from a text that goes on with something else. -/
theorem scanInt_natDigits (n : Nat) (t : Bytes) (ht : ∀ b r, t = b :: r → isDigit b = false) :
    scanInt (natDigits n ++ t) = some (natDigits n, t) := by
  obtain ⟨d, ds, heq, hd, hz⟩ := digitsOnto_head (n + 1) n [] (Nat.lt_succ_self n)
  have hdig := natDigits_digits n
  rw [natDigits, heq] at hdig ⊢
  by_cases h0 : d = 0
  · obtain ⟨-, rfl⟩ := hz h0
    subst h0
    rfl
  · have hds : ∀ b ∈ ds, isDigit b = true := fun b hb => hdig b (by simp [hb])
    have htake : (ds ++ t).takeWhile isDigit = ds := by
      rw [List.takeWhile_append_of_pos hds]
      cases t with
      | nil => simp
      | cons b r => simp [ht b r rfl]
    have hdrop : (ds ++ t).dropWhile isDigit = t := by
      rw [List.dropWhile_append_of_pos hds]
      cases t with
      | nil => simp
      | cons b r => simp [ht b r rfl]
    simp [scanInt, digit_ne_zero hd h0, isDigit_digit hd, htake, hdrop]

theorem natDigits_ne_minus (n : Nat) : ∃ b rest, natDigits n = b :: rest ∧ b ≠ 0x2D := by
  obtain ⟨d, ds, heq, hd, _⟩ := digitsOnto_head (n + 1) n [] (Nat.lt_succ_self n)
  refine ⟨digit d, ds, heq, ?_⟩
  have hall : ∀ m : Fin 10, digit m.val ≠ 0x2D := by decide
  exact hall ⟨d, hd⟩

theorem scanSign_natDigits (n : Nat) (t : Bytes) :
    scanSign (natDigits n ++ t) = ([], natDigits n ++ t) := by
  obtain ⟨b, rest, heq, hb⟩ := natDigits_ne_minus n
  simp [heq, scanSign, hb]

/-! ## Integer literals -/

theorem isNumber_natDigits (n : Nat) : isNumber (natDigits n) = true := by
  have hsign := scanSign_natDigits n []
  have hint := scanInt_natDigits n [] (by simp)
  rw [List.append_nil] at hsign hint
  simp [isNumber, scanNumber, hsign, hint, scanFrac, scanExp]

theorem isNumber_intDigits (i : Int) : isNumber (intDigits i) = true := by
  cases i with
  | ofNat n => exact isNumber_natDigits n
  | negSucc n =>
      have hint := scanInt_natDigits (n + 1) [] (by simp)
      rw [List.append_nil] at hint
      simp [intDigits, isNumber, scanNumber, scanSign, hint, scanFrac, scanExp]

/-- **Integer round trip.** -/
theorem parseInt_intDigits (i : Int) : parseInt (intDigits i) = some i := by
  cases i with
  | ofNat n =>
      have hsign := scanSign_natDigits n []
      have hint := scanInt_natDigits n [] (by simp)
      rw [List.append_nil] at hsign hint
      simp [intDigits, parseInt, hsign, hint, natOfDigits_natDigits]
  | negSucc n =>
      have hint := scanInt_natDigits (n + 1) [] (by simp)
      rw [List.append_nil] at hint
      simp [intDigits, parseInt, scanSign, hint, natOfDigits_natDigits, Int.negSucc_eq]

end NteeDb.Verified.Decimal
