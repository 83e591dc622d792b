import NteeDb.Core.Counter
import NteeDb.Invariants.Log

/-!
# The text of a counter

A counter's value is twenty bytes of text, whatever the value (`parse_format`), and no
byte of it needs an escape.  So two lines of one counter differ in those bytes only, and
the search for the member that holds them finds it: the quotes of a key are escaped, so
the text searched for cannot begin inside the key.

## Main results

* `marshalRecord_counter` — the line of a counter, with the value between two parts that
  do not depend on it.
* `patchPosition_counter` — where the value is in the line.
-/

namespace NteeDb.Core

open NteeDb.Verified
open Json Decimal OrderedTree JsonCodec

/-! ## The fixed-width form -/

theorem length_fixedDigits (n m : Nat) : (fixedDigits n m).length = n := by
  induction n generalizing m with
  | zero => rfl
  | succ n ih => rw [fixedDigits, List.length_append, ih, List.length_singleton]

theorem fixedDigits_digits (n m : Nat) : ∀ b ∈ fixedDigits n m, isDigit b = true := by
  induction n generalizing m with
  | zero => simp [fixedDigits]
  | succ n ih =>
      rw [fixedDigits, List.forall_mem_append, List.forall_mem_singleton]
      exact ⟨ih _, isDigit_digit (Nat.mod_lt _ (by decide))⟩

theorem natOfDigits_fixedDigits {n m : Nat} (h : m < 10 ^ n) :
    natOfDigits (fixedDigits n m) = m := by
  induction n generalizing m with
  | zero =>
      rw [Nat.lt_one_iff.mp h]
      rfl
  | succ n ih =>
      have hdiv : m / 10 < 10 ^ n := by
        rw [Nat.pow_succ] at h
        omega
      have hlast := digit_toNat (Nat.mod_lt m (by decide : 10 > 0))
      have hsplit : natOfDigits (fixedDigits (n + 1) m)
          = natOfDigits (fixedDigits n (m / 10)) * 10 + ((digit (m % 10)).toNat - 0x30) := by
        rw [fixedDigits, natOfDigits, valueOnto, List.foldl_append]
        rfl
      rw [hsplit, ih hdiv, hlast]
      omega

/-- Text of a counter's width that goes through JSON as it is. -/
structure CounterText (t : Bytes) : Prop where
  length : t.length = 20
  plain : ∀ b ∈ t, safe b = true ∧ b < 0x80

private theorem safe_of_isDigit {b : UInt8} (h : isDigit b = true) : safe b = true ∧ b < 0x80 := by
  have hall : ∀ d : Fin 10, safe (digit d.val) = true ∧ digit d.val < 0x80 := by decide
  rw [isDigit, Bool.and_eq_true, decide_eq_true_iff, decide_eq_true_iff, UInt8.le_iff_toNat_le,
    UInt8.le_iff_toNat_le] at h
  have hlow : 0x30 ≤ b.toNat := h.1
  have hhigh : b.toNat ≤ 0x39 := h.2
  have hb : b = digit (b.toNat - 0x30) := by
    rw [digit, Nat.add_sub_cancel' hlow, UInt8.ofNat_toNat]
  rw [hb]
  exact hall ⟨b.toNat - 0x30, by omega⟩

theorem CounterText.of_digits {sign : UInt8} (hsign : sign = 0x2B ∨ sign = 0x2D) {ds : Bytes}
    (hlen : ds.length = 19) (hds : ∀ b ∈ ds, isDigit b = true) : CounterText (sign :: ds) := by
  refine ⟨by rw [List.length_cons, hlen], List.forall_mem_cons.mpr ⟨?_, fun b hb =>
    safe_of_isDigit (hds b hb)⟩⟩
  rcases hsign with rfl | rfl <;> decide

theorem counterText_format (v : Int64) : CounterText (formatCounter v) := by
  refine .of_digits ?_ (length_fixedDigits _ _) (fixedDigits_digits _ _)
  split
  · exact Or.inr rfl
  · exact Or.inl rfl

theorem counterText_of_parse {t : Bytes} {v : Int64} (h : parseCounter t = some v) :
    CounterText t := by
  cases t with
  | nil => cases h
  | cons sign ds =>
      rw [parseCounter] at h
      split at h
      · next hform => exact .of_digits hform.2.1 hform.1 (List.all_eq_true.mp hform.2.2)
      · cases h

theorem CounterText.ne_nil {t : Bytes} (h : CounterText t) : t ≠ [] := by
  rintro rfl
  cases h.length

theorem CounterText.valid {t : Bytes} (h : CounterText t) : Utf8.valid t = true :=
  Utf8.valid_of_ascii fun b hb => (h.plain b hb).2

theorem CounterText.printStr {t : Bytes} (h : CounterText t) :
    printStr t = quote :: (t ++ [quote]) := by
  rw [Json.printStr, escape_of_safe h.plain]

/-- A counter's text reads as its value. -/
theorem parse_format (v : Int64) : parseCounter (formatCounter v) = some v := by
  have hlow := Int64.le_toInt v
  have hhigh := Int64.toInt_lt v
  have hmag : v.toInt.natAbs < 10 ^ 19 := by omega
  have hform : ∀ sign : UInt8, sign = 0x2B ∨ sign = 0x2D →
      (fixedDigits 19 v.toInt.natAbs).length = 19 ∧ (sign = 0x2B ∨ sign = 0x2D) ∧
        (fixedDigits 19 v.toInt.natAbs).all isDigit = true := fun sign hsign =>
    ⟨length_fixedDigits _ _, hsign, List.all_eq_true.mpr (fixedDigits_digits _ _)⟩
  rw [formatCounter]
  split
  · next hneg =>
      have hneg : v.toInt < 0 := Int64.lt_iff_toInt_lt.mp hneg
      have hback : -(v.toInt.natAbs : Int) = v.toInt := by omega
      rw [parseCounter, if_pos (hform _ (Or.inr rfl)), natOfDigits_fixedDigits hmag]
      dsimp only
      rw [if_neg (by decide), if_pos (by omega), hback, Int64.ofInt_toInt]
  · next hpos =>
      have hpos : 0 ≤ v.toInt := by
        rw [Int64.lt_iff_toInt_lt] at hpos
        exact Int.not_lt.mp hpos
      have hback : (v.toInt.natAbs : Int) = v.toInt := by omega
      rw [parseCounter, if_pos (hform _ (Or.inl rfl)), natOfDigits_fixedDigits hmag]
      dsimp only
      rw [if_pos rfl, if_pos (by omega), ← Int64.ofInt_eq_ofNat, hback, Int64.ofInt_toInt]

/-! ## The line of a counter -/

/-- The line of a counter up to its value. -/
def counterHead (key : Bytes) : Bytes :=
  [0x7B, quote, 0x6B, quote, 0x3A, quote] ++ (escape key ++
    [quote, 0x2C, quote, 0x73, quote, 0x3A, quote])

/-- The line of a counter after its value. -/
def counterTail (counter : Bool) (exp : Int64) : Bytes :=
  quote :: printMembersTail (Members.ofList (omitEmpty (!counter) (cName, .bool counter) ++
    omitEmpty (exp = 0) (expName, .num (intDigits exp.toInt))))

/-- A record that holds a counter's text and no index values. -/
structure HoldsCounter (r : Record) : Prop where
  text : r.text = []
  value : CounterText r.value
  ix : r.ix.items = []
  blob : r.blob = none
  live : r.deleted = false

theorem marshalRecord_counter {r : Record} (h : HoldsCounter r) :
    marshalRecord r = some (counterHead r.key ++ (r.value ++ counterTail r.counter r.exp)) := by
  have hwire : r.toWire = { r with text := r.value, value := [] } :=
    if_pos ⟨h.value.ne_nil, h.value.valid⟩
  have hmembers : r.toWire.members [] = (kName, .str r.key) :: (sName, .str r.value) ::
      (omitEmpty (!r.counter) (cName, .bool r.counter) ++
        omitEmpty (r.exp = 0) (expName, .num (intDigits r.exp.toInt))) := by
    rw [hwire]
    simp [Record.members, omitEmpty, h.value.ne_nil, h.blob, blobMembers, h.live, h.ix]
  have hix : r.toWire.ix = r.ix := by rw [hwire]
  rw [marshalRecord, Record.marshal, hix, h.ix]
  show some (print (.obj (Members.ofList (r.toWire.members [])))) = _
  rw [hmembers]
  simp only [Members.ofList, print, printMembers, printMembersTail, h.value.printStr]
  have hk : printStr kName = [quote, 0x6B, quote] := by decide
  have hs : printStr sName = [quote, 0x73, quote] := by decide
  rw [hk, hs]
  simp [printStr, counterHead, counterTail]

/-! ## Finding the value -/

theorem indexOf_cons {pat : Bytes} {b : UInt8} {rest : Bytes}
    (h : pat.isPrefixOf (b :: rest) = false) :
    indexOf pat (b :: rest) = (indexOf pat rest).map (· + 1) := by
  rw [indexOf, h]
  rfl

/-- A quote that opens or ends a string, or is escaped within it, does not begin the
member that holds the value. -/
private theorem not_prefix_quote {body : Bytes} (h : Escaped body) (value rest : Bytes) :
    (valuePattern value).isPrefixOf (quote :: (body ++ quote :: 0x2C :: rest)) = false := by
  cases h with
  | nil => rfl
  | plain _ hquote h =>
      cases h with
      | nil => simp [valuePattern, quote, List.isPrefixOf]
      | plain _ hquote' _ =>
          have hne : ((0x22 : UInt8) == _) = false := beq_eq_false_iff_ne.mpr (Ne.symm hquote')
          simp [valuePattern, List.isPrefixOf, hne]
      | pair _ _ => simp [valuePattern, List.isPrefixOf, backslash]
  | pair _ _ => simp [valuePattern, List.isPrefixOf, backslash]

private theorem indexOf_body {body : Bytes} (h : Escaped body) (value rest : Bytes) :
    indexOf (valuePattern value) (body ++ quote :: 0x2C :: rest)
      = (indexOf (valuePattern value) (quote :: 0x2C :: rest)).map (· + body.length) := by
  have hne : ∀ {b : UInt8} {xs : Bytes}, b ≠ quote →
      (valuePattern value).isPrefixOf (b :: xs) = false := by
    intro b xs hb
    have hbeq : ((0x22 : UInt8) == b) = false := beq_eq_false_iff_ne.mpr (Ne.symm hb)
    simp [valuePattern, List.isPrefixOf, hbeq]
  induction h with
  | nil => simp
  | plain _ hquote _ ih =>
      rw [List.cons_append, indexOf_cons (hne hquote), ih, Option.map_map]
      rfl
  | pair _ hrest ih =>
      rename_i c body _
      have hc : (valuePattern value).isPrefixOf (c :: (body ++ quote :: 0x2C :: rest)) = false := by
        by_cases hq : c = quote
        · rw [hq]
          exact not_prefix_quote hrest value rest
        · exact hne hq
      rw [List.cons_append, List.cons_append, indexOf_cons (hne (by decide)), indexOf_cons hc, ih,
        Option.map_map, Option.map_map]
      rfl

/-- The first match in a counter's line is at its value. -/
theorem indexOf_counter (key value : Bytes) (counter : Bool) (exp : Int64) :
    indexOf (valuePattern value) (counterHead key ++ (value ++ counterTail counter exp))
      = some ((counterHead key).length - 5) := by
  have hline : counterHead key ++ (value ++ counterTail counter exp)
      = [0x7B, quote, 0x6B, quote, 0x3A] ++ quote :: (escape key ++ quote :: 0x2C ::
          (valuePattern value ++ (counterTail counter exp).tail)) := by
    simp [counterHead, counterTail, valuePattern, quote]
  have hmatch : indexOf (valuePattern value) (quote :: 0x2C ::
      (valuePattern value ++ (counterTail counter exp).tail)) = some 2 := by
    rw [indexOf_cons (by simp [valuePattern, List.isPrefixOf]),
      indexOf_cons (by simp [valuePattern, List.isPrefixOf])]
    simp [valuePattern, indexOf]
  have hopen := not_prefix_quote (escaped_escape key) value
    (valuePattern value ++ (counterTail counter exp).tail)
  have hlen : (counterHead key).length - 5 = 2 + (escape key).length + 1 + 5 := by
    simp [counterHead]
    omega
  rw [hline, hlen]
  simp only [List.cons_append, List.nil_append]
  rw [indexOf_cons (by simp [valuePattern, List.isPrefixOf]),
    indexOf_cons (by simp [valuePattern, List.isPrefixOf, quote]),
    indexOf_cons (by simp [valuePattern, List.isPrefixOf]),
    indexOf_cons (by simp [valuePattern, List.isPrefixOf, quote]),
    indexOf_cons (by simp [valuePattern, List.isPrefixOf]), indexOf_cons hopen,
    indexOf_body (escaped_escape key), hmatch]
  rfl

/-- The in-place update of a counter's line. -/
theorem overwrite_counter {key value value' : Bytes} {counter : Bool} {exp : Int64}
    (hlen : value'.length = value.length) :
    overwrite (counterHead key ++ (value ++ counterTail counter exp))
    (counterHead key).length value'
      = counterHead key ++ (value' ++ counterTail counter exp) := by
  rw [overwrite, hlen, List.take_left, ← List.append_assoc, ← List.length_append, List.drop_left]
  simp

end NteeDb.Core
