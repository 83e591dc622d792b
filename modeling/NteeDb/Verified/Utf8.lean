import Mathlib.Data.List.Lex
import Mathlib.Data.FinEnum
import Mathlib.Order.Lattice
import Mathlib.Tactic.Ring

/-!
# Byte strings and UTF-8

A byte string is a `List UInt8`, ordered lexicographically by byte.  `runeLen`
is the length of the well-formed UTF-8 sequence a byte string starts with (the
acceptance ranges of RFC 3629: no overlong form, no surrogate, nothing above
U+10FFFF), or `0` when the string starts with no such sequence.

`valid` says that a string is a sequence of well-formed sequences, and
`sanitize` replaces every byte that starts none by U+FFFD.  Both walk the
string one byte at a time with a count of continuation bytes still owed, so
they are structurally recursive and evaluate in the kernel.

## Main results

* `sanitize_eq_self` — a valid string is unchanged.
* `valid_sanitize` — the result is always valid; with the first fact this makes
  `sanitize` the identity exactly on the valid strings (`sanitize_eq_iff`).
-/

namespace NteeDb.Verified

/-- Byte strings. -/
abbrev Bytes := List UInt8

instance instLinearOrderUInt8 : LinearOrder UInt8 where
  le_refl := UInt8.le_refl
  le_trans _ _ _ := UInt8.le_trans
  le_antisymm _ _ := UInt8.le_antisymm
  le_total := UInt8.le_total
  lt_iff_le_not_ge a b := by
    rw [UInt8.lt_iff_toNat_lt, UInt8.le_iff_toNat_le, UInt8.le_iff_toNat_le]
    omega
  toDecidableLE := inferInstance
  toDecidableLT := inferInstance
  toDecidableEq := inferInstance

/-- A statement about every byte is a finite check. -/
theorem forall_byte {p : UInt8 → Prop} (h : ∀ n : Fin 256, p (UInt8.ofNat n.val)) (b : UInt8) :
    p b := by
  have := h ⟨b.toNat, b.toNat_lt⟩
  simpa using this

namespace Utf8

/-- A continuation byte, `80..BF`. -/
def isCont (b : UInt8) : Bool := 0x80 ≤ b && b ≤ 0xBF

/-- The second byte allowed after the lead byte of a three-byte sequence. -/
def second3 (b0 b1 : UInt8) : Bool :=
  if b0 = 0xE0 then 0xA0 ≤ b1 && b1 ≤ 0xBF
  else if b0 = 0xED then 0x80 ≤ b1 && b1 ≤ 0x9F
  else isCont b1

/-- The second byte allowed after the lead byte of a four-byte sequence. -/
def second4 (b0 b1 : UInt8) : Bool :=
  if b0 = 0xF0 then 0x90 ≤ b1 && b1 ≤ 0xBF
  else if b0 = 0xF4 then 0x80 ≤ b1 && b1 ≤ 0x8F
  else isCont b1

/-- Length of the well-formed UTF-8 sequence the string starts with; `0` if
there is none. -/
def runeLen : Bytes → Nat
  | [] => 0
  | b0 :: rest =>
      if b0 < 0x80 then 1
      else if 0xC2 ≤ b0 && b0 ≤ 0xDF then
        match rest with
        | b1 :: _ => if isCont b1 then 2 else 0
        | _ => 0
      else if 0xE0 ≤ b0 && b0 ≤ 0xEF then
        match rest with
        | b1 :: b2 :: _ => if second3 b0 b1 && isCont b2 then 3 else 0
        | _ => 0
      else if 0xF0 ≤ b0 && b0 ≤ 0xF4 then
        match rest with
        | b1 :: b2 :: b3 :: _ =>
            if second4 b0 b1 && isCont b2 && isCont b3 then 4 else 0
        | _ => 0
      else 0

/-- `validFrom k s`: after `k` bytes still owed to the current sequence, the
string is a sequence of well-formed sequences. -/
def validFrom : Nat → Bytes → Bool
  | 0, [] => true
  | _ + 1, [] => false
  | k + 1, _ :: rest => validFrom k rest
  | 0, b :: rest =>
      match runeLen (b :: rest) with
      | 0 => false
      | n + 1 => validFrom n rest

/-- The whole string is well-formed UTF-8. -/
def valid (s : Bytes) : Bool := validFrom 0 s

/-- UTF-8 of U+FFFD, the replacement character. -/
def replacement : Bytes := [0xEF, 0xBF, 0xBD]

/-- `sanitizeFrom k s`: copy `k` bytes, then replace every byte that starts no
well-formed sequence. -/
def sanitizeFrom : Nat → Bytes → Bytes
  | _, [] => []
  | k + 1, b :: rest => b :: sanitizeFrom k rest
  | 0, b :: rest =>
      match runeLen (b :: rest) with
      | 0 => replacement ++ sanitizeFrom 0 rest
      | n + 1 => b :: sanitizeFrom n rest

/-- The string with every byte outside a well-formed sequence replaced. -/
def sanitize (s : Bytes) : Bytes := sanitizeFrom 0 s

/-! ## A sequence is read from its own bytes only -/

theorem runeLen_le_length (s : Bytes) : runeLen s ≤ s.length := by
  unfold runeLen
  repeat' split
  all_goals simp only [List.length_cons, List.length_nil]
  all_goals omega

/-- Bytes after a well-formed sequence do not matter to it. -/
theorem runeLen_take_append (s t : Bytes) (n : Nat) (h : runeLen s = n) :
    runeLen (s.take n ++ t) = n ∨ n = 0 := by
  rcases s with _ | ⟨b0, rest⟩
  · simp [runeLen] at h
    exact Or.inr h.symm
  · subst h
    by_cases h1 : b0 < 0x80
    · left
      simp [runeLen, h1]
    · by_cases h2 : (0xC2 ≤ b0 && b0 ≤ 0xDF) = true
      · rcases rest with _ | ⟨b1, rest⟩
        · simp [runeLen, h1, h2]
        · by_cases hc : isCont b1 = true <;> simp [runeLen, h1, h2, hc]
      · by_cases h3 : (0xE0 ≤ b0 && b0 ≤ 0xEF) = true
        · rcases rest with _ | ⟨b1, _ | ⟨b2, rest⟩⟩
          · simp [runeLen, h1, h2, h3]
          · simp [runeLen, h1, h2, h3]
          · by_cases hc : (second3 b0 b1 && isCont b2) = true <;>
              simp [runeLen, h1, h2, h3, hc]
        · by_cases h4 : (0xF0 ≤ b0 && b0 ≤ 0xF4) = true
          · rcases rest with _ | ⟨b1, _ | ⟨b2, _ | ⟨b3, rest⟩⟩⟩
            · simp [runeLen, h1, h2, h3, h4]
            · simp [runeLen, h1, h2, h3, h4]
            · simp [runeLen, h1, h2, h3, h4]
            · by_cases hc : (second4 b0 b1 && isCont b2 && isCont b3) = true <;>
                simp [runeLen, h1, h2, h3, h4, hc]
          · simp [runeLen, h1, h2, h3, h4]

/-- `sanitizeFrom` copies the owed bytes verbatim. -/
theorem sanitizeFrom_eq (k : Nat) (s : Bytes) :
    sanitizeFrom k s = s.take k ++ sanitizeFrom 0 (s.drop k) := by
  induction k generalizing s with
  | zero => simp
  | succ k ih =>
      cases s with
      | nil => simp [sanitizeFrom]
      | cons b rest => simp [sanitizeFrom, ih rest]

theorem sanitize_cons_bad {b : UInt8} {rest : Bytes} (h : runeLen (b :: rest) = 0) :
    sanitizeFrom 0 (b :: rest) = replacement ++ sanitizeFrom 0 rest := by
  rw [sanitizeFrom, h]

theorem sanitize_cons_rune {b : UInt8} {rest : Bytes} {n : Nat}
    (h : runeLen (b :: rest) = n + 1) :
    sanitizeFrom 0 (b :: rest) = b :: (rest.take n ++ sanitizeFrom 0 (rest.drop n)) := by
  rw [sanitizeFrom, h, ← sanitizeFrom_eq]

/-! ## Validity -/

theorem sanitizeFrom_eq_self (k : Nat) (s : Bytes) (h : validFrom k s = true) :
    sanitizeFrom k s = s := by
  induction s generalizing k with
  | nil => cases k <;> rfl
  | cons b rest ih =>
      cases k with
      | succ k =>
          rw [sanitizeFrom, ih k (by simpa [validFrom] using h)]
      | zero =>
          rw [validFrom] at h
          rw [sanitizeFrom]
          split at h
          · cases h
          · next n hn => rw [ih n h]

theorem sanitize_eq_self {s : Bytes} (h : valid s = true) : sanitize s = s :=
  sanitizeFrom_eq_self 0 s h

theorem validFrom_drop (k : Nat) (s : Bytes) (hk : k ≤ s.length) :
    validFrom k s = validFrom 0 (s.drop k) := by
  induction k generalizing s with
  | zero => simp
  | succ k ih =>
      cases s with
      | nil => simp at hk
      | cons b rest => simpa [validFrom] using ih rest (by simpa using hk)

private theorem validFrom_replacement (t : Bytes) :
    validFrom 0 (replacement ++ t) = validFrom 0 t := by
  simp [replacement, validFrom, runeLen, second3, isCont]

/-- The replaced string is always well formed. -/
theorem valid_sanitizeFrom (k : Nat) (s : Bytes) (hk : k ≤ s.length) :
    validFrom k (sanitizeFrom k s) = true := by
  induction s generalizing k with
  | nil =>
      have : k = 0 := by simpa using hk
      subst this
      rfl
  | cons b rest ih =>
      cases k with
      | succ k =>
          rw [sanitizeFrom, validFrom]
          exact ih k (by simpa using hk)
      | zero =>
          rw [sanitizeFrom]
          split
          · rw [validFrom_replacement]
            exact ih 0 (Nat.zero_le _)
          · next n hn =>
              have hlen : n ≤ rest.length := by
                have := runeLen_le_length (b :: rest)
                simp only [List.length_cons] at this
                omega
              -- the copied sequence reads back with the same length
              have hrl : runeLen (b :: sanitizeFrom n rest) = n + 1 := by
                rw [sanitizeFrom_eq]
                rcases runeLen_take_append (b :: rest) (sanitizeFrom 0 (rest.drop n))
                    (n + 1) hn with h | h
                · simpa using h
                · omega
              rw [validFrom, hrl]
              exact ih n hlen

theorem valid_sanitize (s : Bytes) : valid (sanitize s) = true :=
  valid_sanitizeFrom 0 s (Nat.zero_le _)

theorem sanitize_eq_iff {s : Bytes} : sanitize s = s ↔ valid s = true := by
  constructor
  · intro h
    rw [← h]
    exact valid_sanitize s
  · exact sanitize_eq_self

@[simp] theorem sanitize_sanitize (s : Bytes) : sanitize (sanitize s) = sanitize s :=
  sanitize_eq_self (valid_sanitize s)

/-- An ASCII string is valid. -/
theorem valid_of_ascii {s : Bytes} (h : ∀ b ∈ s, b < 0x80) : valid s = true := by
  induction s with
  | nil => rfl
  | cons b rest ih =>
      have hb : b < 0x80 := h b (by simp)
      have hrest := ih fun c hc => h c (by simp [hc])
      simpa [valid, validFrom, runeLen, hb] using hrest

end Utf8

end NteeDb.Verified
