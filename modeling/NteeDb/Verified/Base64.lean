import NteeDb.Verified.Utf8

/-!
# Standard base64 with padding

Three bytes are four symbols of six bits; a last group of one or two bytes is
padded.  The reader skips line breaks, wants the padding exactly where the
writer puts it, and does not look at the unused bits of a padded group.
-/

namespace NteeDb.Verified.Base64

/-- The padding symbol. -/
abbrev pad : UInt8 := 0x3D

/-- Symbol of a six-bit number. -/
def symbol (n : Nat) : UInt8 :=
  if n < 26 then UInt8.ofNat (0x41 + n)
  else if n < 52 then UInt8.ofNat (0x47 + n)
  else if n < 62 then UInt8.ofNat (n - 4)
  else if n = 62 then 0x2B
  else 0x2F

/-- Six-bit number of a symbol. -/
def value (b : UInt8) : Option Nat :=
  if 0x41 ≤ b && b ≤ 0x5A then some (b.toNat - 0x41)
  else if 0x61 ≤ b && b ≤ 0x7A then some (b.toNat - 0x47)
  else if 0x30 ≤ b && b ≤ 0x39 then some (b.toNat + 4)
  else if b = 0x2B then some 62
  else if b = 0x2F then some 63
  else none

/-- Base64 of a byte string. -/
def encode : Bytes → Bytes
  | [] => []
  | [a] => [symbol (a.toNat / 4), symbol (a.toNat % 4 * 16), pad, pad]
  | [a, b] =>
      [symbol (a.toNat / 4), symbol (a.toNat % 4 * 16 + b.toNat / 16),
        symbol (b.toNat % 16 * 4), pad]
  | a :: b :: c :: rest =>
      symbol (a.toNat / 4) :: symbol (a.toNat % 4 * 16 + b.toNat / 16) ::
        symbol (b.toNat % 16 * 4 + c.toNat / 64) :: symbol (c.toNat % 64) :: encode rest

/-- Read groups of four symbols. -/
def decodeGroups : Bytes → Option Bytes
  | [] => some []
  | c0 :: c1 :: c2 :: c3 :: rest => do
      let v0 ← value c0
      let v1 ← value c1
      let a := UInt8.ofNat (v0 * 4 + v1 / 16)
      if c2 = pad then
        if c3 = pad ∧ rest = [] then some [a] else none
      else do
        let v2 ← value c2
        let b := UInt8.ofNat (v1 % 16 * 16 + v2 / 4)
        if c3 = pad then
          if rest = [] then some [a, b] else none
        else do
          let v3 ← value c3
          let bs ← decodeGroups rest
          return a :: b :: UInt8.ofNat (v2 % 4 * 64 + v3) :: bs
  | _ => none

/-- The byte string of a base64 text; line breaks are skipped. -/
def decode (s : Bytes) : Option Bytes :=
  decodeGroups (s.filter fun b => b != 0x0A && b != 0x0D)

theorem value_symbol {n : Nat} (h : n < 64) : value (symbol n) = some n := by
  have hall : ∀ m : Fin 64, value (symbol m.val)
      = some m.val := by set_option maxRecDepth 2000 in decide
  exact hall ⟨n, h⟩

theorem symbol_ne_pad {n : Nat} (h : n < 64) : symbol n ≠ pad := by
  have hall : ∀ m : Fin 64, symbol m.val ≠ pad := by set_option maxRecDepth 2000 in decide
  exact hall ⟨n, h⟩

theorem symbol_printable {n : Nat} (h : n < 64) : 0x20 ≤ symbol n ∧ symbol n < 0x80 := by
  have hall : ∀ m : Fin 64, 0x20 ≤ symbol m.val ∧
      symbol m.val < 0x80 := by set_option maxRecDepth 2000 in decide
  exact hall ⟨n, h⟩

/-- An encoded string consists of symbols and padding. -/
theorem encode_forall {p : UInt8 → Prop} (hsymbol : ∀ n < 64, p (symbol n)) (hpad : p pad)
    (s : Bytes) : ∀ b ∈ encode s, p b := by
  fun_induction encode s with
  | case1 => simp
  | case2 a =>
      have ha := a.toNat_lt
      simp only [List.mem_cons, List.not_mem_nil, or_false]
      rintro b (rfl | rfl | rfl | rfl)
      · exact hsymbol _ (by omega)
      · exact hsymbol _ (by omega)
      · exact hpad
      · exact hpad
  | case3 a b =>
      have ha := a.toNat_lt
      have hb := b.toNat_lt
      simp only [List.mem_cons, List.not_mem_nil, or_false]
      rintro x (rfl | rfl | rfl | rfl)
      · exact hsymbol _ (by omega)
      · exact hsymbol _ (by omega)
      · exact hsymbol _ (by omega)
      · exact hpad
  | case4 a b c rest ih =>
      have ha := a.toNat_lt
      have hb := b.toNat_lt
      have hc := c.toNat_lt
      simp only [List.mem_cons]
      rintro x (rfl | rfl | rfl | rfl | hx)
      · exact hsymbol _ (by omega)
      · exact hsymbol _ (by omega)
      · exact hsymbol _ (by omega)
      · exact hsymbol _ (by omega)
      · exact ih x hx

/-- Every byte of an encoded string is printable ASCII. -/
theorem encode_printable (s : Bytes) : ∀ b ∈ encode s, 0x20 ≤ b ∧ b < 0x80 :=
  encode_forall (fun _ h => symbol_printable h) (by decide) s

private theorem ofNat_eq {n : Nat} {b : UInt8} (h : n = b.toNat) : UInt8.ofNat n = b := by
  subst h
  exact UInt8.ofNat_toNat

theorem decodeGroups_encode (s : Bytes) : decodeGroups (encode s) = some s := by
  fun_induction encode s with
  | case1 => rfl
  | case2 a =>
      have ha := a.toNat_lt
      simp only [decodeGroups, value_symbol (show a.toNat / 4 < 64 by omega),
        value_symbol (show a.toNat % 4 * 16 < 64 by omega), Option.bind_eq_bind, Option.bind_some,
        if_true, and_self, Option.some.injEq, List.cons.injEq, and_true]
      exact ofNat_eq (by omega)
  | case3 a b =>
      have ha := a.toNat_lt
      have hb := b.toNat_lt
      simp only [decodeGroups, value_symbol (show a.toNat / 4 < 64 by omega),
        value_symbol (show a.toNat % 4 * 16 + b.toNat / 16 < 64 by omega),
        value_symbol (show b.toNat % 16 * 4 < 64 by omega),
        symbol_ne_pad (show b.toNat % 16 * 4 < 64 by omega), Option.bind_eq_bind,
        Option.bind_some, if_true, if_false, Option.some.injEq, List.cons.injEq, and_true]
      exact ⟨ofNat_eq (by omega), ofNat_eq (by omega)⟩
  | case4 a b c rest ih =>
      have ha := a.toNat_lt
      have hb := b.toNat_lt
      have hc := c.toNat_lt
      simp only [decodeGroups, value_symbol (show a.toNat / 4 < 64 by omega),
        value_symbol (show a.toNat % 4 * 16 + b.toNat / 16 < 64 by omega),
        value_symbol (show b.toNat % 16 * 4 + c.toNat / 64 < 64 by omega),
        value_symbol (show c.toNat % 64 < 64 by omega),
        symbol_ne_pad (show b.toNat % 16 * 4 + c.toNat / 64 < 64 by omega),
        symbol_ne_pad (show c.toNat % 64 < 64 by omega), ih, Option.bind_eq_bind,
        Option.bind_some, if_false, Option.pure_def, Option.some.injEq, List.cons.injEq, and_true]
      exact ⟨ofNat_eq (by omega), ofNat_eq (by omega), ofNat_eq (by omega)⟩

/-- **Base64 round trip.** -/
theorem decode_encode (s : Bytes) : decode (encode s) = some s := by
  have hfilter : (encode s).filter (fun b => b != 0x0A && b != 0x0D) = encode s := by
    rw [List.filter_eq_self]
    intro b hb
    have hge := (encode_printable s b hb).1
    simp only [Bool.and_eq_true, bne_iff_ne, ne_eq]
    constructor
    · rintro rfl
      exact absurd hge (by decide)
    · rintro rfl
      exact absurd hge (by decide)
  rw [decode, hfilter, decodeGroups_encode]

end NteeDb.Verified.Base64
