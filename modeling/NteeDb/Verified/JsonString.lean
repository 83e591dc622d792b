import NteeDb.Verified.Utf8

/-!
# JSON string literals over byte strings

The writer and the reader of a JSON string literal, as a byte-level codec does
them.  The writer escapes quotes, backslashes, control bytes, the three HTML
characters `<`, `>`, `&`, and U+2028/U+2029; every byte that is not part of
well-formed UTF-8 becomes the escape of U+FFFD.  The reader takes every escape
of the grammar, joins surrogate pairs, and replaces raw invalid bytes too.

Reading back a written literal therefore returns the *sanitized* string
(`parseStr_escape`): the two agree exactly on well-formed UTF-8, and on nothing
else.  `escape_no_newline` is what a line-oriented log needs.
-/

namespace NteeDb.Verified.Json

open NteeDb.Verified.Utf8

/-- `"` -/
abbrev quote : UInt8 := 0x22

/-- The backslash. -/
abbrev backslash : UInt8 := 0x5C

/-! ## Hexadecimal digits -/

/-- Lower-case hexadecimal digit of a number below 16. -/
def hexDigit (n : Nat) : UInt8 :=
  if n < 10 then UInt8.ofNat (0x30 + n) else UInt8.ofNat (0x57 + n)

/-- Value of a hexadecimal digit of either case. -/
def hexVal (b : UInt8) : Option Nat :=
  if 0x30 ≤ b && b ≤ 0x39 then some (b.toNat - 0x30)
  else if 0x61 ≤ b && b ≤ 0x66 then some (b.toNat - 0x57)
  else if 0x41 ≤ b && b ≤ 0x46 then some (b.toNat - 0x37)
  else none

theorem hexVal_hexDigit (n : Nat) (h : n < 16) : hexVal (hexDigit n) = some n := by
  have hall : ∀ m : Fin 16, hexVal (hexDigit m.val) = some m.val := by decide
  exact hall ⟨n, h⟩

/-- Value of four hexadecimal digits. -/
def hex4 (a b c d : UInt8) : Option Nat := do
  let a ← hexVal a
  let b ← hexVal b
  let c ← hexVal c
  let d ← hexVal d
  return ((a * 16 + b) * 16 + c) * 16 + d

/-- UTF-8 of a code point. -/
def utf8Encode (r : Nat) : Bytes :=
  if r < 0x80 then [UInt8.ofNat r]
  else if r < 0x800 then [UInt8.ofNat (0xC0 + r / 0x40), UInt8.ofNat (0x80 + r % 0x40)]
  else if r < 0x10000 then
    [UInt8.ofNat (0xE0 + r / 0x1000), UInt8.ofNat (0x80 + r / 0x40 % 0x40),
      UInt8.ofNat (0x80 + r % 0x40)]
  else
    [UInt8.ofNat (0xF0 + r / 0x40000), UInt8.ofNat (0x80 + r / 0x1000 % 0x40),
      UInt8.ofNat (0x80 + r / 0x40 % 0x40), UInt8.ofNat (0x80 + r % 0x40)]

/-! ## Writing -/

/-- ASCII bytes written as themselves. -/
def safe (b : UInt8) : Bool :=
  0x20 ≤ b && b != quote && b != backslash && b != 0x3C && b != 0x3E && b != 0x26

/-- `\u00` and two hexadecimal digits. -/
def escapeHex (b : UInt8) : Bytes :=
  [backslash, 0x75, 0x30, 0x30, hexDigit (b.toNat / 16), hexDigit (b.toNat % 16)]

/-- The letter of a two-byte escape, for the bytes that have one. -/
def escapeLetter (b : UInt8) : Option UInt8 :=
  if b = quote then some quote
  else if b = backslash then some backslash
  else if b = 0x08 then some 0x62
  else if b = 0x0C then some 0x66
  else if b = 0x0A then some 0x6E
  else if b = 0x0D then some 0x72
  else if b = 0x09 then some 0x74
  else none

/-- One ASCII byte of a literal. -/
def escapeAscii (b : UInt8) : Bytes :=
  if safe b then [b]
  else
    match escapeLetter b with
    | some c => [backslash, c]
    | none => escapeHex b

/-- The escape of U+FFFD, six bytes. -/
def escapedReplacement : Bytes := [backslash, 0x75, 0x66, 0x66, 0x66, 0x64]

/-- The last digit of the escape of U+2028 or U+2029, if the string starts with
one of them. -/
def lineSeparator : Bytes → Option UInt8
  | b0 :: b1 :: b2 :: _ =>
      if b0 = 0xE2 ∧ b1 = 0x80 then
        if b2 = 0xA8 then some 0x38 else if b2 = 0xA9 then some 0x39 else none
      else none
  | _ => none

/-- `escapeFrom skip copy s`: drop `skip` bytes, copy `copy` bytes, then escape. -/
def escapeFrom : Nat → Nat → Bytes → Bytes
  | _, _, [] => []
  | d + 1, k, _ :: rest => escapeFrom d k rest
  | 0, k + 1, b :: rest => b :: escapeFrom 0 k rest
  | 0, 0, b :: rest =>
      if b < 0x80 then escapeAscii b ++ escapeFrom 0 0 rest
      else
        match runeLen (b :: rest) with
        | 0 => escapedReplacement ++ escapeFrom 0 0 rest
        | n + 1 =>
            match lineSeparator (b :: rest) with
            | some d => [backslash, 0x75, 0x32, 0x30, 0x32, d] ++ escapeFrom 2 0 rest
            | none => b :: escapeFrom 0 n rest

/-- The body of the literal of `s`, without its quotes. -/
def escape (s : Bytes) : Bytes := escapeFrom 0 0 s

/-- The literal of `s`. -/
def printStr (s : Bytes) : Bytes := quote :: (escape s ++ [quote])

/-! ## Reading -/

/-- The byte a two-byte escape stands for. -/
def unescapeLetter (c : UInt8) : Option UInt8 :=
  if c = quote then some quote
  else if c = backslash then some backslash
  else if c = 0x2F then some 0x2F
  else if c = 0x62 then some 0x08
  else if c = 0x66 then some 0x0C
  else if c = 0x6E then some 0x0A
  else if c = 0x72 then some 0x0D
  else if c = 0x74 then some 0x09
  else none

/-- Put decoded bytes in front of what the rest of the literal decodes to. -/
def prepend (p : Bytes) (r : Option (Bytes × Bytes)) : Option (Bytes × Bytes) :=
  r.map fun q => (p ++ q.1, q.2)

/-- A UTF-16 surrogate half. -/
def isSurrogate (u : Nat) : Bool := 0xD800 ≤ u && u < 0xE000

/-- The code point of a surrogate pair, if it is one. -/
def joinSurrogates (u v : Nat) : Option Nat :=
  if 0xD800 ≤ u && u < 0xDC00 && 0xDC00 ≤ v && v < 0xE000 then
    some ((u - 0xD800) * 0x400 + (v - 0xDC00) + 0x10000)
  else none

/-- The code unit of an escape `uXXXX`, read after its backslash. -/
def uEscape : Bytes → Option Nat
  | c :: h1 :: h2 :: h3 :: h4 :: _ => if c = 0x75 then hex4 h1 h2 h3 h4 else none
  | _ => none

/-- The code point a high surrogate `u` makes with the escape that follows, if
it makes one. -/
def lowHalf (u : Nat) : Bytes → Option Nat
  | b :: rest => if b = backslash then (uEscape rest).bind (joinSurrogates u) else none
  | [] => none

/-- `parseStr skip copy s`: drop `skip` bytes, copy `copy` bytes, then read a
literal's body up to its closing quote.  Returns the decoded bytes and what
follows the quote. -/
def parseStr : Nat → Nat → Bytes → Option (Bytes × Bytes)
  | _, _, [] => none
  | d + 1, k, _ :: rest => parseStr d k rest
  | 0, k + 1, b :: rest => prepend [b] (parseStr 0 k rest)
  | 0, 0, b :: rest =>
      if b = quote then some ([], rest)
      else if b = backslash then
        match uEscape rest with
        | some u =>
            if isSurrogate u then
              match lowHalf u (rest.drop 5) with
              | some r => prepend (utf8Encode r) (parseStr 11 0 rest)
              | none => prepend replacement (parseStr 5 0 rest)
            else prepend (utf8Encode u) (parseStr 5 0 rest)
        | none =>
            match rest.head?.bind unescapeLetter with
            | some x => prepend [x] (parseStr 1 0 rest)
            | none => none
      else if b < 0x20 then none
      else if b < 0x80 then prepend [b] (parseStr 0 0 rest)
      else
        match runeLen (b :: rest) with
        | 0 => prepend replacement (parseStr 0 0 rest)
        | n + 1 => prepend [b] (parseStr 0 n rest)

/-! ## Reading back what was written -/

@[simp] theorem prepend_some (p a r : Bytes) : prepend p (some (a, r)) = some (p ++ a, r) := rfl

theorem prepend_prepend (p q : Bytes) (r : Option (Bytes × Bytes)) :
    prepend p (prepend q r) = prepend (p ++ q) r := by
  cases r with
  | none => rfl
  | some a => simp [prepend]

theorem prepend_nil (r : Option (Bytes × Bytes)) : prepend [] r = r := by
  cases r <;> rfl

theorem escapeFrom_copy (k : Nat) (s : Bytes) :
    escapeFrom 0 k s = s.take k ++ escapeFrom 0 0 (s.drop k) := by
  induction k generalizing s with
  | zero => simp
  | succ k ih =>
      cases s with
      | nil => simp [escapeFrom]
      | cons b rest => simp [escapeFrom, ih rest]

theorem escapeFrom_skip (d : Nat) (s : Bytes) :
    escapeFrom d 0 s = escapeFrom 0 0 (s.drop d) := by
  induction d generalizing s with
  | zero => simp
  | succ d ih =>
      cases s with
      | nil => simp [escapeFrom]
      | cons b rest => simp [escapeFrom, ih rest]

theorem parseStr_skip (d : Nat) (s : Bytes) :
    parseStr d 0 s = parseStr 0 0 (s.drop d) := by
  induction d generalizing s with
  | zero => simp
  | succ d ih =>
      cases s with
      | nil => simp [parseStr]
      | cons b rest => simp [parseStr, ih rest]

theorem parseStr_copy (k : Nat) (s t : Bytes) (h : s.length = k) :
    parseStr 0 k (s ++ t) = prepend s (parseStr 0 0 t) := by
  induction k generalizing s with
  | zero =>
      have : s = [] := List.length_eq_zero_iff.mp h
      subst this
      simp [prepend_nil]
  | succ k ih =>
      cases s with
      | nil => simp at h
      | cons b rest =>
          simp only [List.cons_append, parseStr]
          rw [ih rest (by simpa using h), prepend_prepend]
          rfl

/-- A `\u` escape of a code point outside the surrogates. -/
theorem parseStr_hex (h1 h2 h3 h4 : UInt8) (u : Nat) (t : Bytes)
    (hu : hex4 h1 h2 h3 h4 = some u) (hs : isSurrogate u = false) :
    parseStr 0 0 (backslash :: 0x75 :: h1 :: h2 :: h3 :: h4 :: t) =
      prepend (utf8Encode u) (parseStr 0 0 t) := by
  have hesc : uEscape (0x75 :: h1 :: h2 :: h3 :: h4 :: t) = some u := by
    simp [uEscape, hu]
  rw [parseStr]
  simp only [hesc, hs, Bool.false_eq_true, if_false, if_true,
    show backslash ≠ quote by decide]
  rw [parseStr_skip]
  rfl

theorem unescapeLetter_escapeLetter {b c : UInt8} (h : escapeLetter b = some c) :
    unescapeLetter c = some b ∧ c ≠ 0x75 := by
  unfold escapeLetter at h
  repeat' split at h
  all_goals first
    | (cases h; subst_vars; decide)
    | cases h

private theorem toNat_lt_of_lt {b : UInt8} (h : b < 0x80) : b.toNat < 128 := by
  simpa [UInt8.lt_iff_toNat_lt] using h

/-- One ASCII byte reads back. -/
theorem parseStr_escapeAscii (b : UInt8) (t : Bytes) (h : b < 0x80) :
    parseStr 0 0 (escapeAscii b ++ t) = prepend [b] (parseStr 0 0 t) := by
  unfold escapeAscii
  split
  · next hsafe =>
      simp only [safe, Bool.and_eq_true, decide_eq_true_eq, bne_iff_ne, ne_eq] at hsafe
      obtain ⟨⟨⟨⟨⟨h20, hq⟩, hb⟩, _⟩, _⟩, _⟩ := hsafe
      have hlt : ¬ b < 0x20 := not_lt.mpr h20
      simp [parseStr, hq, hb, hlt, h]
  · split
    · next c hc =>
        obtain ⟨hu, hne⟩ := unescapeLetter_escapeLetter hc
        have hesc : uEscape (c :: t) = none := by
          rcases t with _ | ⟨_, _ | ⟨_, _ | ⟨_, _ | ⟨_, _⟩⟩⟩⟩ <;> simp [uEscape, hne]
        simp only [List.cons_append, List.nil_append]
        rw [parseStr]
        simp only [hesc, show backslash ≠ quote by decide, if_false, if_true, List.head?_cons,
          Option.bind_some, hu]
        rw [parseStr_skip]
        rfl
    · have hb := toNat_lt_of_lt h
      have h1 := hexVal_hexDigit (b.toNat / 16) (by omega)
      have h2 := hexVal_hexDigit (b.toNat % 16) (by omega)
      have h0 : hexVal 0x30 = some 0 := by decide
      have hu : hex4 0x30 0x30 (hexDigit (b.toNat / 16)) (hexDigit (b.toNat % 16)) =
          some b.toNat := by
        simp only [hex4, h0, h1, h2, Option.bind_eq_bind, Option.bind_some, Option.pure_def,
          Option.some.injEq]
        omega
      have hs : isSurrogate b.toNat = false := by
        simp only [isSurrogate, Bool.and_eq_false_iff, decide_eq_false_iff_not]
        omega
      have henc : utf8Encode b.toNat = [b] := by simp [utf8Encode, hb]
      simp only [escapeHex, List.cons_append, List.nil_append]
      rw [parseStr_hex _ _ _ _ _ _ hu hs, henc]

private theorem lineSeparator_some {s : Bytes} {d : UInt8} (h : lineSeparator s = some d) :
    ∃ rest, (d = 0x38 ∧ s = 0xE2 :: 0x80 :: 0xA8 :: rest) ∨
      (d = 0x39 ∧ s = 0xE2 :: 0x80 :: 0xA9 :: rest) := by
  rcases s with _ | ⟨b0, _ | ⟨b1, _ | ⟨b2, rest⟩⟩⟩ <;> simp only [lineSeparator] at h
  all_goals try cases h
  refine ⟨rest, ?_⟩
  repeat' split at h
  all_goals simp_all

/-- **Literal round trip.**  Reading a written literal returns the sanitized
string and stops right after the closing quote. -/
theorem parseStr_escape (s t : Bytes) :
    parseStr 0 0 (escape s ++ quote :: t) = some (sanitize s, t) := by
  unfold escape sanitize
  -- strong induction on the length: a rune takes several bytes at once
  induction hn : s.length using Nat.strong_induction_on generalizing s with
  | _ n ih =>
      rcases s with _ | ⟨b, rest⟩
      · simp [escapeFrom, sanitizeFrom, parseStr]
      · have hlen : rest.length < n := by simp [← hn]
        by_cases hb : b < 0x80
        · have hrl : runeLen (b :: rest) = 0 + 1 := by simp [runeLen, hb]
          rw [sanitize_cons_rune hrl]
          simp only [escapeFrom, hb, if_true, List.append_assoc]
          rw [parseStr_escapeAscii b _ hb, ih rest.length hlen rest rfl]
          simp
        · have hrlen := runeLen_le_length (b :: rest)
          cases hrl : runeLen (b :: rest) with
          | zero =>
              have hu : hex4 0x66 0x66 0x66 0x64 = some 0xFFFD := by decide
              rw [sanitize_cons_bad hrl]
              simp only [escapeFrom, hb, if_false, hrl, escapedReplacement, List.cons_append,
                List.nil_append]
              rw [parseStr_hex _ _ _ _ _ _ hu (by decide), ih rest.length hlen rest rfl]
              simp [utf8Encode, replacement]
          | succ m =>
              rw [hrl, List.length_cons] at hrlen
              have hm : m ≤ rest.length := by omega
              have hdrop : (rest.drop m).length < n := by
                rw [List.length_drop]
                omega
              rw [sanitize_cons_rune hrl]
              cases hd : lineSeparator (b :: rest) with
              | some d =>
                  obtain ⟨r, hr⟩ := lineSeparator_some hd
                  have hm2 : m = 2 := by
                    rcases hr with ⟨_, hr⟩ | ⟨_, hr⟩ <;> rw [hr] at hrl <;>
                      simp [runeLen, second3, isCont] at hrl <;> omega
                  subst hm2
                  simp only [escapeFrom, hb, if_false, hrl, hd, List.cons_append,
                    List.nil_append]
                  rw [escapeFrom_skip]
                  rcases hr with ⟨rfl, hr⟩ | ⟨rfl, hr⟩
                  · have hu : hex4 0x32 0x30 0x32 0x38 = some 0x2028 := by decide
                    rw [parseStr_hex _ _ _ _ _ _ hu (by decide),
                      ih _ hdrop (rest.drop 2) rfl]
                    simp only [List.cons.injEq] at hr
                    obtain ⟨rfl, rfl⟩ := hr
                    simp [utf8Encode]
                  · have hu : hex4 0x32 0x30 0x32 0x39 = some 0x2029 := by decide
                    rw [parseStr_hex _ _ _ _ _ _ hu (by decide),
                      ih _ hdrop (rest.drop 2) rfl]
                    simp only [List.cons.injEq] at hr
                    obtain ⟨rfl, rfl⟩ := hr
                    simp [utf8Encode]
              | none =>
                  have hq : b ≠ quote := by rintro rfl; exact hb (by decide)
                  have hbs : b ≠ backslash := by rintro rfl; exact hb (by decide)
                  have h20 : ¬ b < 0x20 := fun h => hb (lt_trans h (by decide))
                  simp only [escapeFrom, hb, if_false, hrl, hd]
                  rw [escapeFrom_copy]
                  -- the copied sequence is recognised with the same length
                  have hrl' : runeLen (b :: (rest.take m ++
                      (escapeFrom 0 0 (rest.drop m) ++ quote :: t))) = m + 1 := by
                    rcases runeLen_take_append (b :: rest)
                        (escapeFrom 0 0 (rest.drop m) ++ quote :: t) (m + 1) hrl with h | h
                    · simpa using h
                    · omega
                  simp only [List.cons_append, List.append_assoc]
                  rw [parseStr]
                  simp only [hq, hbs, h20, hb, if_false, hrl']
                  rw [parseStr_copy m (rest.take m) _ (by simp [hm]),
                    ih _ hdrop (rest.drop m) rfl]
                  simp

/-! ## The writer emits no control byte -/

private theorem second3_ge {x y : UInt8} (h : second3 x y = true) : 0x80 ≤ y := by
  unfold second3 isCont at h
  repeat' split at h
  all_goals simp only [Bool.and_eq_true, decide_eq_true_eq] at h
  all_goals exact le_trans (by decide) h.1

private theorem second4_ge {x y : UInt8} (h : second4 x y = true) : 0x80 ≤ y := by
  unfold second4 isCont at h
  repeat' split at h
  all_goals simp only [Bool.and_eq_true, decide_eq_true_eq] at h
  all_goals exact le_trans (by decide) h.1

private theorem isCont_ge {x : UInt8} (h : isCont x = true) : 0x80 ≤ x := by
  simp only [isCont, Bool.and_eq_true, decide_eq_true_eq] at h
  exact h.1

/-- Every byte of a multi-byte sequence is at least `80`. -/
theorem runeLen_ge {b : UInt8} {rest : Bytes} {m : Nat} (h : runeLen (b :: rest) = m + 1)
    (hb : ¬ b < 0x80) : ∀ c ∈ rest.take m, 0x80 ≤ c := by
  by_cases h2 : (0xC2 ≤ b && b ≤ 0xDF) = true
  · rcases rest with _ | ⟨b1, rest⟩
    · simp
    · by_cases h1 : isCont b1 = true
      · simp only [runeLen, hb, h2, h1, if_true, if_false] at h
        obtain rfl : m = 1 := by omega
        simpa using isCont_ge h1
      · simp [runeLen, hb, h2, h1] at h
  by_cases h3 : (0xE0 ≤ b && b ≤ 0xEF) = true
  · rcases rest with _ | ⟨b1, _ | ⟨b2, rest⟩⟩
    · simp
    · simp [runeLen, hb, h2, h3] at h
    · by_cases h1 : (second3 b b1 && isCont b2) = true
      · simp only [runeLen, hb, h2, h3, h1, if_true, if_false, Bool.false_eq_true] at h
        obtain rfl : m = 2 := by omega
        rw [Bool.and_eq_true] at h1
        simpa using ⟨second3_ge h1.1, isCont_ge h1.2⟩
      · simp [runeLen, hb, h2, h3, h1] at h
  by_cases h4 : (0xF0 ≤ b && b ≤ 0xF4) = true
  · rcases rest with _ | ⟨b1, _ | ⟨b2, _ | ⟨b3, rest⟩⟩⟩
    · simp
    · simp [runeLen, hb, h2, h3, h4] at h
    · simp [runeLen, hb, h2, h3, h4] at h
    · by_cases h1 : (second4 b b1 && isCont b2 && isCont b3) = true
      · simp only [runeLen, hb, h2, h3, h4, h1, if_true, if_false, Bool.false_eq_true] at h
        obtain rfl : m = 3 := by omega
        rw [Bool.and_eq_true, Bool.and_eq_true] at h1
        simpa using ⟨second4_ge h1.1.1, isCont_ge h1.1.2, isCont_ge h1.2⟩
      · simp [runeLen, hb, h2, h3, h4, h1] at h
  · simp [runeLen, hb, h2, h3, h4] at h

/-- The body of a literal as the writer makes it: in it a quote stands only after a
backslash that escapes it, and no byte is a control byte. -/
inductive Escaped : Bytes → Prop
  | nil : Escaped []
  | plain {b : UInt8} {rest : Bytes} (hge : 0x20 ≤ b) (hquote : b ≠ quote) (h : Escaped rest) :
      Escaped (b :: rest)
  | pair {c : UInt8} {rest : Bytes} (hge : 0x20 ≤ c) (h : Escaped rest) :
      Escaped (backslash :: c :: rest)

theorem Escaped.append {xs ys : Bytes} (hx : Escaped xs) (hy : Escaped ys) :
    Escaped (xs ++ ys) := by
  induction hx with
  | nil => exact hy
  | plain hge hquote _ ih => exact .plain hge hquote ih
  | pair hge _ ih => exact .pair hge ih

theorem Escaped.of_plain {xs : Bytes} (h : ∀ b ∈ xs, 0x20 ≤ b ∧ b ≠ quote) : Escaped xs := by
  induction xs with
  | nil => exact .nil
  | cons b xs ih =>
      rw [List.forall_mem_cons] at h
      exact .plain h.1.1 h.1.2 (ih h.2)

/-- A backslash, a byte and plain bytes. -/
private theorem escaped_pair {c : UInt8} {tail : Bytes} (hc : 0x20 ≤ c)
    (htail : ∀ b ∈ tail, 0x20 ≤ b ∧ b ≠ quote) : Escaped (backslash :: c :: tail) :=
  .pair hc (.of_plain htail)

private theorem escaped_high {xs : Bytes} (h : ∀ b ∈ xs, 0x80 ≤ b) : Escaped xs :=
  .of_plain fun b hb => ⟨le_trans (by decide) (h b hb),
    fun hq => absurd (h b hb) (by rw [hq]; decide)⟩

private theorem hexDigit_plain (n : Nat) (h : n < 16) :
    0x20 ≤ hexDigit n ∧ hexDigit n ≠ quote := by
  have hall : ∀ m : Fin 16, 0x20 ≤ hexDigit m.val ∧ hexDigit m.val ≠ quote := by decide
  exact hall ⟨n, h⟩

private theorem escaped_escapeAscii (b : UInt8) : Escaped (escapeAscii b) := by
  rw [escapeAscii]
  split
  · next hsafe =>
      simp only [safe, Bool.and_eq_true, bne_iff_ne, decide_eq_true_eq] at hsafe
      exact .plain hsafe.1.1.1.1.1 hsafe.1.1.1.1.2 .nil
  · split
    · next c hc =>
        refine .pair ?_ .nil
        unfold escapeLetter at hc
        repeat' split at hc
        all_goals cases hc
        all_goals decide
    · have hlt := UInt8.toNat_lt b
      refine escaped_pair (by decide) ?_
      simp only [List.forall_mem_cons, List.not_mem_nil, false_imp_iff, implies_true, and_true]
      exact ⟨by decide, by decide, hexDigit_plain _ (by omega), hexDigit_plain _ (by omega)⟩

theorem escaped_escape (s : Bytes) : Escaped (escape s) := by
  unfold escape
  induction hn : s.length using Nat.strong_induction_on generalizing s with
  | _ n ih =>
      rcases s with _ | ⟨b, rest⟩
      · simp only [escapeFrom]
        exact .nil
      · have hlen : rest.length < n := by simp [← hn]
        have hdrop : ∀ k, (rest.drop k).length < n := by
          intro k
          rw [List.length_drop]
          omega
        by_cases hb : b < 0x80
        · simp only [escapeFrom, hb, if_true]
          exact (escaped_escapeAscii b).append (ih _ hlen rest rfl)
        · simp only [escapeFrom, hb, if_false]
          split
          · exact (escaped_pair (by decide) (by simp [quote]) : Escaped escapedReplacement).append
              (ih _ hlen rest rfl)
          · next m hrl =>
              split
              · next d hd =>
                  rw [escapeFrom_skip]
                  refine Escaped.append ?_ (ih _ (hdrop 2) _ rfl)
                  obtain ⟨_, ⟨rfl, _⟩ | ⟨rfl, _⟩⟩ := lineSeparator_some hd
                  · exact escaped_pair (by decide) (by simp [quote])
                  · exact escaped_pair (by decide) (by simp [quote])
              · rw [escapeFrom_copy, ← List.cons_append]
                refine (escaped_high ?_).append (ih _ (hdrop m) _ rfl)
                exact List.forall_mem_cons.mpr ⟨not_lt.mp hb, runeLen_ge hrl hb⟩

/-- Bytes that need no escape are copied. -/
theorem escape_of_safe {s : Bytes} (h : ∀ b ∈ s, safe b = true ∧ b < 0x80) : escape s = s := by
  unfold escape
  induction s with
  | nil => rw [escapeFrom]
  | cons b rest ih =>
      rw [List.forall_mem_cons] at h
      rw [escapeFrom, if_pos h.1.2, ih h.2, escapeAscii, if_pos h.1.1]
      rfl

/-- No byte of a literal's body is a control byte; in particular there is no
newline in it. -/
theorem escape_ge (s : Bytes) : ∀ c ∈ escape s, 0x20 ≤ c := by
  have hall : ∀ body, Escaped body → ∀ c ∈ body, 0x20 ≤ c := by
    intro body h
    induction h with
    | nil => simp
    | plain hge _ _ ih => exact List.forall_mem_cons.mpr ⟨hge, ih⟩
    | pair hge _ ih =>
        exact List.forall_mem_cons.mpr ⟨by decide, List.forall_mem_cons.mpr ⟨hge, ih⟩⟩
  exact hall _ (escaped_escape s)

/-! ## The width of a sanitized string -/

private theorem runeLen_e2 {rest : Bytes} {m : Nat} (h : runeLen (0xE2 :: rest) = m + 1) :
    m = 2 ∧ ∃ b1 b2 more, rest = b1 :: b2 :: more := by
  rcases rest with _ | ⟨b1, _ | ⟨b2, more⟩⟩
  · cases h
  · cases h
  · refine ⟨?_, b1, b2, more, rfl⟩
    have hval : runeLen (0xE2 :: b1 :: b2 :: more) =
        if second3 0xE2 b1 && isCont b2 then 3 else 0 := rfl
    rw [hval] at h
    split at h
    · omega
    · omega

/-- Whether a rune is a line separator is read from its own bytes. -/
private theorem lineSeparator_rune {b : UInt8} {rest : Bytes} {m : Nat}
    (h : runeLen (b :: rest) = m + 1) (t : Bytes) :
    lineSeparator (b :: (rest.take m ++ t)) = lineSeparator (b :: rest) := by
  by_cases hb : b = 0xE2
  · subst hb
    obtain ⟨rfl, b1, b2, more, rfl⟩ := runeLen_e2 h
    rfl
  · have hnone : ∀ s : Bytes, lineSeparator (b :: s) = none := by
      intro s
      rcases s with _ | ⟨b1, _ | ⟨b2, more⟩⟩
      · rfl
      · rfl
      · rw [lineSeparator, if_neg fun hsep => hb hsep.1]
    rw [hnone, hnone]

/-- The literal of a rune of several bytes. -/
private theorem escapeFrom_rune {b : UInt8} {rest : Bytes} {m : Nat} (hb : ¬ b < 0x80)
    (h : runeLen (b :: rest) = m + 1) :
    escapeFrom 0 0 (b :: rest)
      = ((lineSeparator (b :: rest)).elim (b :: rest.take m)
          fun d => [backslash, 0x75, 0x32, 0x30, 0x32, d]) ++ escapeFrom 0 0 (rest.drop m) := by
  simp only [escapeFrom, hb, if_false, h]
  cases hsep : lineSeparator (b :: rest) with
  | none => simp only [Option.elim_none, escapeFrom_copy m rest, List.cons_append]
  | some d =>
      have hm : m = 2 := by
        obtain ⟨r, hr⟩ := lineSeparator_some hsep
        rcases hr with ⟨-, hr⟩ | ⟨-, hr⟩
        · rw [(List.cons.inj hr).1] at h
          exact (runeLen_e2 h).1
        · rw [(List.cons.inj hr).1] at h
          exact (runeLen_e2 h).1
      subst hm
      dsimp only [Option.elim_some]
      rw [escapeFrom_skip 2 rest]

/-- The literal of a sanitized string is no longer than that of the string, and shorter unless
the string is valid: a byte outside a rune takes six bytes, the replacement character three. -/
theorem length_escape_sanitize (s : Bytes) :
    (escape (sanitize s)).length ≤ (escape s).length ∧
      ((escape (sanitize s)).length = (escape s).length → sanitize s = s) := by
  unfold escape sanitize
  induction hn : s.length using Nat.strong_induction_on generalizing s with
  | _ n ih =>
      rcases s with _ | ⟨b, rest⟩
      · exact ⟨Nat.le_refl _, fun _ => rfl⟩
      · have hlen : rest.length < n := by simp [← hn]
        have hrlen := runeLen_le_length (b :: rest)
        cases hrl : runeLen (b :: rest) with
        | zero =>
            have hb : ¬ b < 0x80 := fun hb => by simp [runeLen, hb] at hrl
            obtain ⟨hle, -⟩ := ih rest.length hlen rest rfl
            have hnew : escapeFrom 0 0 (replacement ++ sanitizeFrom 0 rest)
                = replacement ++ escapeFrom 0 0 (sanitizeFrom 0 rest) := by
              simp [replacement, escapeFrom, runeLen, second3, isCont, lineSeparator]
            have hold : escapeFrom 0 0 (b :: rest) = escapedReplacement ++ escapeFrom 0 0 rest := by
              simp only [escapeFrom, hb, if_false, hrl]
            have hthree : replacement.length = 3 := rfl
            have hsix : escapedReplacement.length = 6 := rfl
            rw [sanitize_cons_bad hrl, hnew, hold, List.length_append, List.length_append]
            exact ⟨by omega, fun heq => absurd heq (by omega)⟩
        | succ m =>
            rw [hrl, List.length_cons] at hrlen
            have hm : (rest.take m).length = m := List.length_take_of_le (by omega)
            have hdrop : (rest.drop m).length < n := by
              rw [List.length_drop]
              omega
            obtain ⟨hle, hself⟩ := ih _ hdrop (rest.drop m) rfl
            have hback : sanitizeFrom 0 (rest.drop m) = rest.drop m →
                b :: (rest.take m ++ sanitizeFrom 0 (rest.drop m)) = b :: rest := by
              intro h
              rw [h, List.take_append_drop]
            rw [sanitize_cons_rune hrl]
            by_cases hb : b < 0x80
            · have hone : m = 0 := by simpa [runeLen, hb] using hrl.symm
              subst hone
              simp only [escapeFrom, hb, if_true, List.length_append, List.take_zero,
                List.nil_append, List.drop_zero] at hle hself hback ⊢
              exact ⟨by omega, fun heq => hback (hself (by omega))⟩
            · have hrl' : runeLen (b :: (rest.take m ++ sanitizeFrom 0 (rest.drop m))) = m + 1 := by
                rcases runeLen_take_append (b :: rest) (sanitizeFrom 0 (rest.drop m)) (m + 1) hrl
                  with h | h
                · simpa using h
                · omega
              rw [escapeFrom_rune hb hrl', escapeFrom_rune hb hrl, lineSeparator_rune hrl,
                List.take_left' hm, List.drop_left' hm, List.length_append, List.length_append]
              exact ⟨by omega, fun heq => hback (hself (by omega))⟩

end NteeDb.Verified.Json
