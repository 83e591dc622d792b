import NteeDb.Verified.JsonString
import Mathlib.Data.List.TakeWhile
import Mathlib.Tactic.Common

/-!
# JSON texts: syntax tree, writer and reader

`print` writes a tree compactly, members in the order given; `parse` reads a
text with white space anywhere the grammar allows it and with a bound on the
nesting depth.  Number literals are kept as their bytes: what a number means is
decided by whoever reads the tree.

The reader recurses on fuel.  Every recursive call has consumed a byte, so the
length of the text is always enough.

## Main results

* `parse_print` — reading a written tree returns the tree with its strings and
  member names sanitized.
* `print_ge` — a written tree contains no control byte.
-/

namespace NteeDb.Verified.Json

open NteeDb.Verified.Utf8

mutual

/-- A JSON value. -/
inductive Value where
  | null
  | bool (b : Bool)
  | num (lit : Bytes)
  | str (s : Bytes)
  | arr (xs : Elems)
  | obj (ms : Members)

/-- The elements of an array. -/
inductive Elems where
  | nil
  | cons (x : Value) (xs : Elems)

/-- The members of an object, in text order; a name may occur twice. -/
inductive Members where
  | nil
  | cons (name : Bytes) (x : Value) (ms : Members)

end

/-- Members as a list. -/
def Members.toList : Members → List (Bytes × Value)
  | .nil => []
  | .cons name x ms => (name, x) :: ms.toList

/-- Members of a list. -/
def Members.ofList : List (Bytes × Value) → Members
  | [] => .nil
  | (name, x) :: ms => .cons name x (ofList ms)

@[simp] theorem Members.toList_ofList (ms : List (Bytes × Value)) :
    (Members.ofList ms).toList = ms := by
  induction ms with
  | nil => rfl
  | cons m ms ih => simp [Members.ofList, Members.toList, ih]

/-! ## Number literals -/

/-- A decimal digit. -/
def isDigit (b : UInt8) : Bool := 0x30 ≤ b && b ≤ 0x39

/-- Optional minus sign. -/
def scanSign : Bytes → Bytes × Bytes
  | b :: rest => if b = 0x2D then ([b], rest) else ([], b :: rest)
  | [] => ([], [])

/-- `0`, or a digit other than `0` and more digits. -/
def scanInt : Bytes → Option (Bytes × Bytes)
  | b :: rest =>
      if b = 0x30 then some ([b], rest)
      else if isDigit b then some (b :: rest.takeWhile isDigit, rest.dropWhile isDigit)
      else none
  | [] => none

/-- One or more digits. -/
def scanDigits : Bytes → Option (Bytes × Bytes)
  | b :: rest =>
      if isDigit b then some (b :: rest.takeWhile isDigit, rest.dropWhile isDigit) else none
  | [] => none

/-- Optional fraction. -/
def scanFrac : Bytes → Option (Bytes × Bytes)
  | b :: rest =>
      if b = 0x2E then (scanDigits rest).map fun q => (b :: q.1, q.2) else some ([], b :: rest)
  | [] => some ([], [])

/-- Sign of an exponent. -/
def scanExpSign : Bytes → Bytes × Bytes
  | b :: rest => if b = 0x2B ∨ b = 0x2D then ([b], rest) else ([], b :: rest)
  | [] => ([], [])

/-- Optional exponent. -/
def scanExp : Bytes → Option (Bytes × Bytes)
  | b :: rest =>
      if b = 0x65 ∨ b = 0x45 then
        (scanDigits (scanExpSign rest).2).map fun q => (b :: ((scanExpSign rest).1 ++ q.1), q.2)
      else some ([], b :: rest)
  | [] => some ([], [])

/-- The number literal a text starts with, and what follows it. -/
def scanNumber (s : Bytes) : Option (Bytes × Bytes) := do
  let i ← scanInt (scanSign s).2
  let f ← scanFrac i.2
  let e ← scanExp f.2
  return ((scanSign s).1 ++ i.1 ++ f.1 ++ e.1, e.2)

/-- The whole text is one number literal. -/
def isNumber (lit : Bytes) : Bool := scanNumber lit == some (lit, [])

/-- Bytes that could continue a number literal. -/
def continuesNumber (b : UInt8) : Bool := isDigit b || b = 0x2E || b = 0x65 || b = 0x45

/-- What may follow a value: nothing, or a byte no number literal continues with. -/
def EndsValue : Bytes → Prop
  | [] => True
  | b :: _ => continuesNumber b = false

/-! ## Writing -/

/-- `null` -/
def nullLit : Bytes := [0x6E, 0x75, 0x6C, 0x6C]

/-- `true` -/
def trueLit : Bytes := [0x74, 0x72, 0x75, 0x65]

/-- `false` -/
def falseLit : Bytes := [0x66, 0x61, 0x6C, 0x73, 0x65]

mutual

/-- Compact text of a value. -/
def print : Value → Bytes
  | .null => nullLit
  | .bool b => if b then trueLit else falseLit
  | .num lit => lit
  | .str s => printStr s
  | .arr xs => 0x5B :: printElems xs
  | .obj ms => 0x7B :: printMembers ms

/-- Elements after the opening bracket, with the closing one. -/
def printElems : Elems → Bytes
  | .nil => [0x5D]
  | .cons x xs => print x ++ printElemsTail xs

/-- Elements after the first. -/
def printElemsTail : Elems → Bytes
  | .nil => [0x5D]
  | .cons x xs => 0x2C :: (print x ++ printElemsTail xs)

/-- Members after the opening brace, with the closing one. -/
def printMembers : Members → Bytes
  | .nil => [0x7D]
  | .cons name x ms => printStr name ++ 0x3A :: (print x ++ printMembersTail ms)

/-- Members after the first. -/
def printMembersTail : Members → Bytes
  | .nil => [0x7D]
  | .cons name x ms =>
      0x2C :: (printStr name ++ 0x3A :: (print x ++ printMembersTail ms))

end

/-! ## Reading -/

/-- JSON white space. -/
def isWs (b : UInt8) : Bool := b = 0x20 || b = 0x09 || b = 0x0A || b = 0x0D

/-- Drop leading white space. -/
def skipWs (s : Bytes) : Bytes := s.dropWhile isWs

/-- What follows a literal word. -/
def word (w : Bytes) (s : Bytes) : Option Bytes :=
  if w.isPrefixOf s then some (s.drop w.length) else none

/-- Skip white space and take one given byte. -/
def expect (c : UInt8) (s : Bytes) : Option Bytes :=
  match skipWs s with
  | b :: rest => if b = c then some rest else none
  | [] => none

mutual

/-- `parseValue fuel depth s`: the value a text starts with, and what follows.
`depth` is how many more arrays and objects may be opened. -/
def parseValue : Nat → Nat → Bytes → Option (Value × Bytes)
  | 0, _, _ => none
  | fuel + 1, depth, s =>
      match skipWs s with
      | [] => none
      | b :: rest =>
          if b = quote then (parseStr 0 0 rest).map fun q => (.str q.1, q.2)
          else if b = 0x7B then
            match depth with
            | 0 => none
            | depth + 1 =>
                match expect 0x7D rest with
                | some r => some (.obj .nil, r)
                | none => (parseMembers fuel depth rest).map fun q => (.obj q.1, q.2)
          else if b = 0x5B then
            match depth with
            | 0 => none
            | depth + 1 =>
                match expect 0x5D rest with
                | some r => some (.arr .nil, r)
                | none => (parseElems fuel depth rest).map fun q => (.arr q.1, q.2)
          else if b = 0x6E then (word nullLit (b :: rest)).map fun r => (.null, r)
          else if b = 0x74 then (word trueLit (b :: rest)).map fun r => (.bool true, r)
          else if b = 0x66 then (word falseLit (b :: rest)).map fun r => (.bool false, r)
          else (scanNumber (b :: rest)).map fun q => (.num q.1, q.2)

/-- One or more elements and the closing bracket. -/
def parseElems : Nat → Nat → Bytes → Option (Elems × Bytes)
  | 0, _, _ => none
  | fuel + 1, depth, s => do
      let v ← parseValue fuel depth s
      match expect 0x5D v.2 with
      | some r => some (.cons v.1 .nil, r)
      | none => do
          let r ← expect 0x2C v.2
          let q ← parseElems fuel depth r
          return (.cons v.1 q.1, q.2)

/-- One or more members and the closing brace. -/
def parseMembers : Nat → Nat → Bytes → Option (Members × Bytes)
  | 0, _, _ => none
  | fuel + 1, depth, s => do
      let r ← expect quote s
      let k ← parseStr 0 0 r
      let r ← expect 0x3A k.2
      let v ← parseValue fuel depth r
      match expect 0x7D v.2 with
      | some r => some (.cons k.1 v.1 .nil, r)
      | none => do
          let r ← expect 0x2C v.2
          let q ← parseMembers fuel depth r
          return (.cons k.1 v.1 q.1, q.2)

end

/-- Read a whole text, with at most `depth` nested arrays and objects. -/
def parse (depth : Nat) (s : Bytes) : Option Value :=
  match parseValue (s.length + 1) depth s with
  | some (j, r) => if skipWs r = [] then some j else none
  | none => none

/-! ## Measures of a tree -/

mutual

/-- Fuel the reader needs for the text of a value. -/
def Value.fuel : Value → Nat
  | .arr xs => xs.fuel + 1
  | .obj ms => ms.fuel + 1
  | _ => 1

/-- Fuel for the elements. -/
def Elems.fuel : Elems → Nat
  | .nil => 0
  | .cons x xs => x.fuel + xs.fuel + 1

/-- Fuel for the members. -/
def Members.fuel : Members → Nat
  | .nil => 0
  | .cons _ x ms => x.fuel + ms.fuel + 1

end

mutual

/-- Nesting depth of a value. -/
def Value.depth : Value → Nat
  | .arr xs => xs.depth + 1
  | .obj ms => ms.depth + 1
  | _ => 0

/-- Greatest depth of the elements. -/
def Elems.depth : Elems → Nat
  | .nil => 0
  | .cons x xs => max x.depth xs.depth

/-- Greatest depth of the members. -/
def Members.depth : Members → Nat
  | .nil => 0
  | .cons _ x ms => max x.depth ms.depth

end

mutual

/-- Every number of the tree is a number literal. -/
def Value.WF : Value → Prop
  | .num lit => isNumber lit = true
  | .arr xs => xs.WF
  | .obj ms => ms.WF
  | _ => True

/-- Every number of the elements is a number literal. -/
def Elems.WF : Elems → Prop
  | .nil => True
  | .cons x xs => x.WF ∧ xs.WF

/-- Every number of the members is a number literal. -/
def Members.WF : Members → Prop
  | .nil => True
  | .cons _ x ms => x.WF ∧ ms.WF

end

mutual

/-- The tree with its strings and member names sanitized. -/
def Value.sanitize : Value → Value
  | .str s => .str (Utf8.sanitize s)
  | .arr xs => .arr xs.sanitize
  | .obj ms => .obj ms.sanitize
  | j => j

/-- Elements with their strings sanitized. -/
def Elems.sanitize : Elems → Elems
  | .nil => .nil
  | .cons x xs => .cons x.sanitize xs.sanitize

/-- Members with their names and strings sanitized. -/
def Members.sanitize : Members → Members
  | .nil => .nil
  | .cons name x ms => .cons (Utf8.sanitize name) x.sanitize ms.sanitize

end

/-! ## A number literal ends where its grammar ends

Each scanner takes the longest text its rule allows.  Appending to the input
changes nothing when something was left over, or when what is appended cannot
continue the literal.
-/

private theorem takeWhile_append_of_end {p : UInt8 → Bool} (s t : Bytes)
    (h : s.dropWhile p = [] → ∀ b r, t = b :: r → p b = false) :
    (s ++ t).takeWhile p = s.takeWhile p ∧ (s ++ t).dropWhile p = s.dropWhile p ++ t := by
  induction s with
  | nil =>
      cases t with
      | nil => simp
      | cons b r => simp [h rfl b r rfl]
  | cons a s ih =>
      by_cases ha : p a = true
      · have := ih (by simpa [ha] using h)
        simp [ha, this]
      · simp [ha]

/-- `scan` stops in front of `t` whenever it has consumed all of its input and
`t` cannot continue a number. -/
private def Stops (scan : Bytes → Option (Bytes × Bytes)) : Prop :=
  ∀ s t p r, scan s = some (p, r) → (r = [] → EndsValue t) → scan (s ++ t) = some (p, r ++ t)

private theorem EndsValue.not_digit {t : Bytes} (h : EndsValue t) :
    ∀ b r, t = b :: r → isDigit b = false := by
  rintro b r rfl
  simp only [EndsValue, continuesNumber, Bool.or_eq_false_iff] at h
  exact h.1.1.1

private theorem digits_stops (rest t : Bytes)
    (h : rest.dropWhile isDigit = [] → EndsValue t) :
    (rest ++ t).takeWhile isDigit = rest.takeWhile isDigit ∧
      (rest ++ t).dropWhile isDigit = rest.dropWhile isDigit ++ t :=
  takeWhile_append_of_end rest t fun hr => (h hr).not_digit

private theorem scanInt_stops : Stops scanInt := by
  intro s t p r h hend
  cases s with
  | nil => simp [scanInt] at h
  | cons b rest =>
      simp only [scanInt, List.cons_append] at h ⊢
      split at h
      · next hb =>
          simp only [Option.some.injEq, Prod.mk.injEq] at h
          obtain ⟨rfl, rfl⟩ := h
          simp [hb]
      · next hb =>
          split at h
          · next hd =>
              simp only [Option.some.injEq, Prod.mk.injEq] at h
              obtain ⟨rfl, rfl⟩ := h
              have := digits_stops rest t hend
              simp [hb, hd, this]
          · cases h

private theorem scanDigits_stops : Stops scanDigits := by
  intro s t p r h hend
  cases s with
  | nil => simp [scanDigits] at h
  | cons b rest =>
      simp only [scanDigits, List.cons_append] at h ⊢
      split at h
      · next hd =>
          simp only [Option.some.injEq, Prod.mk.injEq] at h
          obtain ⟨rfl, rfl⟩ := h
          have := digits_stops rest t hend
          simp [hd, this]
      · cases h

private theorem scanFrac_stops : Stops scanFrac := by
  intro s t p r h hend
  cases s with
  | nil =>
      simp only [scanFrac, Option.some.injEq, Prod.mk.injEq] at h
      obtain ⟨rfl, rfl⟩ := h
      cases t with
      | nil => rfl
      | cons b t =>
          have hb := hend rfl
          simp only [EndsValue, continuesNumber, Bool.or_eq_false_iff,
            decide_eq_false_iff_not] at hb
          simp [scanFrac, hb.1.1.2]
  | cons b rest =>
      simp only [scanFrac, List.cons_append] at h ⊢
      split at h
      · next hb =>
          simp only [Option.map_eq_some_iff, Prod.mk.injEq] at h
          obtain ⟨q, hq, rfl, rfl⟩ := h
          have := scanDigits_stops rest t q.1 q.2 hq hend
          simp [hb, this]
      · next hb =>
          simp only [Option.some.injEq, Prod.mk.injEq] at h
          obtain ⟨rfl, rfl⟩ := h
          simp [hb]

private theorem scanExp_stops : Stops scanExp := by
  intro s t p r h hend
  cases s with
  | nil =>
      simp only [scanExp, Option.some.injEq, Prod.mk.injEq] at h
      obtain ⟨rfl, rfl⟩ := h
      cases t with
      | nil => rfl
      | cons b t =>
          have hb := hend rfl
          simp only [EndsValue, continuesNumber, Bool.or_eq_false_iff,
            decide_eq_false_iff_not] at hb
          simp [scanExp, hb.1.2, hb.2]
  | cons b rest =>
      simp only [scanExp, List.cons_append] at h ⊢
      split at h
      · next hb =>
          simp only [Option.map_eq_some_iff, Prod.mk.injEq] at h
          obtain ⟨q, hq, rfl, rfl⟩ := h
          have hsign : scanExpSign (rest ++ t) =
              ((scanExpSign rest).1, (scanExpSign rest).2 ++ t) := by
            cases rest with
            | nil => simp [scanExpSign, scanDigits] at hq
            | cons c rest =>
                simp only [scanExpSign, List.cons_append]
                split <;> simp
          have := scanDigits_stops _ t q.1 q.2 hq hend
          simp [hb, hsign, this]
      · next hb =>
          simp only [Option.some.injEq, Prod.mk.injEq] at h
          obtain ⟨rfl, rfl⟩ := h
          simp [hb]

private theorem scanNumber_stops : Stops scanNumber := by
  intro s t p r h hend
  simp only [scanNumber, Option.bind_eq_bind, Option.pure_def, Option.bind_eq_some_iff,
    Option.some.injEq, Prod.mk.injEq] at h
  obtain ⟨i, hi, f, hf, e, he, rfl, rfl⟩ := h
  have hsign : scanSign (s ++ t) = ((scanSign s).1, (scanSign s).2 ++ t) := by
    cases s with
    | nil => simp [scanSign, scanInt] at hi
    | cons b s =>
        simp only [scanSign, List.cons_append]
        split <;> simp
  -- a scanner that leaves input behind is not at the end of the text
  have hi' : scanInt ((scanSign s).2 ++ t) = some (i.1, i.2 ++ t) := by
    apply scanInt_stops _ _ _ _ hi
    intro hnil
    rw [hnil] at hf
    simp only [scanFrac, Option.some.injEq] at hf
    subst hf
    simp only [scanExp, Option.some.injEq] at he
    subst he
    exact hend rfl
  have hf' : scanFrac (i.2 ++ t) = some (f.1, f.2 ++ t) := by
    apply scanFrac_stops _ _ _ _ hf
    intro hnil
    rw [hnil] at he
    simp only [scanExp, Option.some.injEq] at he
    subst he
    exact hend rfl
  have he' := scanExp_stops f.2 t e.1 e.2 he hend
  simp [scanNumber, hsign, hi', hf', he']

/-- A number literal is read up to its own end. -/
theorem scanNumber_append {lit t : Bytes} (h : isNumber lit = true) (ht : EndsValue t) :
    scanNumber (lit ++ t) = some (lit, t) := by
  have := scanNumber_stops lit t lit [] (by simpa [isNumber] using h) fun _ => ht
  simpa using this

/-- First bytes of a number literal. -/
theorem isNumber_head {lit : Bytes} (h : isNumber lit = true) :
    ∃ b rest, lit = b :: rest ∧ (b = 0x2D ∨ isDigit b = true) := by
  cases lit with
  | nil => simp [isNumber, scanNumber, scanSign, scanInt] at h
  | cons b rest =>
      refine ⟨b, rest, rfl, ?_⟩
      by_contra hne
      rw [not_or] at hne
      have h30 : b ≠ 0x30 := by
        rintro rfl
        exact hne.2 (by decide)
      simp [isNumber, scanNumber, scanSign, scanInt, hne.1, hne.2, h30] at h

/-! ## Reading back what was written -/

/-- A written value starts with none of the bytes the reader looks for first. -/
theorem print_head {j : Value} (h : j.WF) :
    ∃ b rest, print j = b :: rest ∧ isWs b = false ∧ b ≠ 0x5D ∧ b ≠ 0x7D := by
  cases j with
  | null => exact ⟨0x6E, _, rfl, by decide⟩
  | bool v => cases v <;> exact ⟨_, _, rfl, by decide⟩
  | num lit =>
      obtain ⟨b, rest, hlit, hb⟩ := isNumber_head h
      refine ⟨b, rest, hlit, ?_⟩
      have hall : ∀ b : UInt8, b = 0x2D ∨ isDigit b = true →
          isWs b = false ∧ b ≠ 0x5D ∧ b ≠ 0x7D :=
          forall_byte (by set_option maxRecDepth 2000 in decide)
      exact hall b hb
  | str s => exact ⟨quote, _, rfl, by decide⟩
  | arr xs => exact ⟨0x5B, _, rfl, by decide⟩
  | obj ms => exact ⟨0x7B, _, rfl, by decide⟩

private theorem skipWs_cons {b : UInt8} {rest : Bytes} (h : isWs b = false) :
    skipWs (b :: rest) = b :: rest := by
  simp [skipWs, h]

private theorem expect_self (c : UInt8) (rest : Bytes) (h : isWs c = false) :
    expect c (c :: rest) = some rest := by
  simp [expect, skipWs_cons h]

private theorem expect_ne {b c : UInt8} {rest : Bytes} (h : isWs b = false) (hne : b ≠ c) :
    expect c (b :: rest) = none := by
  simp [expect, skipWs_cons h, hne]

theorem printElemsTail_cons (x : Value) (xs : Elems) :
    printElemsTail (.cons x xs) = 0x2C :: printElems (.cons x xs) := by
  simp [printElemsTail, printElems]

theorem printMembersTail_cons (name : Bytes) (x : Value) (ms : Members) :
    printMembersTail (.cons name x ms) = 0x2C :: printMembers (.cons name x ms) := by
  simp [printMembersTail, printMembers]

private theorem endsValue_elemsTail (xs : Elems) (t : Bytes) :
    EndsValue (printElemsTail xs ++ t) := by
  cases xs with
  | nil => exact (by decide : continuesNumber 0x5D = false)
  | cons x xs =>
      rw [printElemsTail_cons]
      exact (by decide : continuesNumber 0x2C = false)

private theorem endsValue_membersTail (ms : Members) (t : Bytes) :
    EndsValue (printMembersTail ms ++ t) := by
  cases ms with
  | nil => exact (by decide : continuesNumber 0x7D = false)
  | cons name x ms =>
      rw [printMembersTail_cons]
      exact (by decide : continuesNumber 0x2C = false)

/-- What one level of fuel buys: values, element lists and member lists read
back with everything after them left alone. -/
private structure ReadsBack (fuel : Nat) : Prop where
  value : ∀ (j : Value) (depth : Nat) (t : Bytes), j.WF → j.fuel ≤ fuel → j.depth ≤ depth →
    EndsValue t → parseValue fuel depth (print j ++ t) = some (j.sanitize, t)
  elems : ∀ (x : Value) (xs : Elems) (depth : Nat) (t : Bytes), (Elems.cons x xs).WF →
    (Elems.cons x xs).fuel ≤ fuel → (Elems.cons x xs).depth ≤ depth →
    parseElems fuel depth (printElems (.cons x xs) ++ t) = some ((Elems.cons x xs).sanitize, t)
  members : ∀ (name : Bytes) (x : Value) (ms : Members) (depth : Nat) (t : Bytes),
    (Members.cons name x ms).WF → (Members.cons name x ms).fuel ≤ fuel →
    (Members.cons name x ms).depth ≤ depth →
    parseMembers fuel depth (printMembers (.cons name x ms) ++ t) =
      some ((Members.cons name x ms).sanitize, t)

private theorem fuel_pos (j : Value) : 1 ≤ j.fuel := by
  cases j <;> simp [Value.fuel]

private theorem elems_step {fuel : Nat} (ih : ReadsBack fuel) (x : Value) (xs : Elems)
    (depth : Nat) (t : Bytes) (hwf : (Elems.cons x xs).WF)
    (hfuel : (Elems.cons x xs).fuel ≤ fuel + 1) (hdepth : (Elems.cons x xs).depth ≤ depth) :
    parseElems (fuel + 1) depth (printElems (.cons x xs) ++ t) =
      some ((Elems.cons x xs).sanitize, t) := by
  simp only [Elems.WF, Elems.fuel, Elems.depth] at hwf hfuel hdepth
  have hx := ih.value x depth (printElemsTail xs ++ t) hwf.1 (by omega) (by omega)
    (endsValue_elemsTail xs t)
  simp only [parseElems, printElems, List.append_assoc, hx, Option.bind_eq_bind, Option.bind_some,
    Elems.sanitize]
  cases xs with
  | nil =>
      simp only [printElemsTail, List.cons_append, List.nil_append]
      rw [expect_self _ _ (by decide)]
      simp [Elems.sanitize]
  | cons y ys =>
      have hys := ih.elems y ys depth t hwf.2 (by omega) (by omega)
      rw [printElemsTail_cons, List.cons_append, expect_ne (by decide) (by decide),
        expect_self _ _ (by decide)]
      simp [hys]

private theorem members_step {fuel : Nat} (ih : ReadsBack fuel) (name : Bytes) (x : Value)
    (ms : Members) (depth : Nat) (t : Bytes) (hwf : (Members.cons name x ms).WF)
    (hfuel : (Members.cons name x ms).fuel ≤ fuel + 1)
    (hdepth : (Members.cons name x ms).depth ≤ depth) :
    parseMembers (fuel + 1) depth (printMembers (.cons name x ms) ++ t) =
      some ((Members.cons name x ms).sanitize, t) := by
  simp only [Members.WF, Members.fuel, Members.depth] at hwf hfuel hdepth
  have hx := ih.value x depth (printMembersTail ms ++ t) hwf.1 (by omega) (by omega)
    (endsValue_membersTail ms t)
  simp only [parseMembers, printMembers, printStr, List.cons_append, List.append_assoc,
    List.nil_append, Option.bind_eq_bind]
  rw [expect_self _ _ (by decide)]
  simp only [Option.bind_some, parseStr_escape]
  rw [expect_self _ _ (by decide)]
  simp only [Option.bind_some, hx, Members.sanitize]
  cases ms with
  | nil =>
      simp only [printMembersTail, List.cons_append, List.nil_append]
      rw [expect_self _ _ (by decide)]
      simp [Members.sanitize]
  | cons name' y ys =>
      have hys := ih.members name' y ys depth t hwf.2 (by omega) (by omega)
      rw [printMembersTail_cons, List.cons_append, expect_ne (by decide) (by decide),
        expect_self _ _ (by decide)]
      simp [hys]

private theorem word_append (w t : Bytes) : word w (w ++ t) = some t := by
  simp [word]

private theorem value_step {fuel : Nat} (ih : ReadsBack fuel) (j : Value) (depth : Nat)
    (t : Bytes) (hwf : j.WF) (hfuel : j.fuel ≤ fuel + 1) (hdepth : j.depth ≤ depth)
    (ht : EndsValue t) :
    parseValue (fuel + 1) depth (print j ++ t) = some (j.sanitize, t) := by
  cases j with
  | null =>
      have hw := word_append nullLit t
      simp only [print, nullLit, List.cons_append, List.nil_append] at hw ⊢
      rw [parseValue, skipWs_cons (by decide)]
      simp [hw, nullLit, Value.sanitize, quote]
  | bool v =>
      cases v with
      | true =>
          have hw := word_append trueLit t
          simp only [print, trueLit, if_true, List.cons_append, List.nil_append] at hw ⊢
          rw [parseValue, skipWs_cons (by decide)]
          simp [hw, trueLit, Value.sanitize, quote]
      | false =>
          have hw := word_append falseLit t
          simp only [print, falseLit, Bool.false_eq_true, if_false, List.cons_append,
            List.nil_append] at hw ⊢
          rw [parseValue, skipWs_cons (by decide)]
          simp [hw, falseLit, Value.sanitize, quote]
  | num lit =>
      have hscan := scanNumber_append hwf ht
      obtain ⟨b, rest, rfl, hb⟩ := isNumber_head hwf
      have hall : ∀ b : UInt8, b = 0x2D ∨ isDigit b = true →
          isWs b = false ∧ b ≠ quote ∧ b ≠ 0x7B ∧ b ≠ 0x5B ∧ b ≠ 0x6E ∧ b ≠ 0x74 ∧ b ≠ 0x66 :=
        forall_byte (by set_option maxRecDepth 2000 in decide)
      obtain ⟨hws, h1, h2, h3, h4, h5, h6⟩ := hall b hb
      simp only [print, List.cons_append] at hscan ⊢
      rw [parseValue, skipWs_cons hws]
      simp [h1, h2, h3, h4, h5, h6, hscan, Value.sanitize]
  | str s =>
      simp only [print, printStr, List.cons_append, List.append_assoc, List.nil_append]
      rw [parseValue, skipWs_cons (by decide)]
      simp [parseStr_escape, Value.sanitize]
  | arr xs =>
      simp only [Value.fuel, Value.depth] at hfuel hdepth
      obtain ⟨d, rfl⟩ : ∃ d, depth = d + 1 := ⟨depth - 1, by omega⟩
      simp only [print, List.cons_append]
      rw [parseValue, skipWs_cons (by decide)]
      simp only [show (0x5B : UInt8) ≠ quote by decide, show (0x5B : UInt8) ≠ 0x7B by decide,
        if_false, if_true]
      cases xs with
      | nil =>
          simp only [printElems, List.cons_append, List.nil_append]
          rw [expect_self _ _ (by decide)]
          simp [Value.sanitize, Elems.sanitize]
      | cons x xs =>
          obtain ⟨b, rest, hb, hws, hne, _⟩ := print_head hwf.1
          have hx := ih.elems x xs d t hwf (by omega) (by omega)
          have hexp : expect 0x5D (printElems (.cons x xs) ++ t) = none := by
            simp only [printElems, hb, List.cons_append]
            exact expect_ne hws hne
          simp [hexp, hx, Value.sanitize]
  | obj ms =>
      simp only [Value.fuel, Value.depth] at hfuel hdepth
      obtain ⟨d, rfl⟩ : ∃ d, depth = d + 1 := ⟨depth - 1, by omega⟩
      simp only [print, List.cons_append]
      rw [parseValue, skipWs_cons (by decide)]
      simp only [show (0x7B : UInt8) ≠ quote by decide, if_false, if_true]
      cases ms with
      | nil =>
          simp only [printMembers, List.cons_append, List.nil_append]
          rw [expect_self _ _ (by decide)]
          simp [Value.sanitize, Members.sanitize]
      | cons name x ms =>
          have hx := ih.members name x ms d t hwf (by omega) (by omega)
          have hexp : expect 0x7D (printMembers (.cons name x ms) ++ t) = none := by
            simp only [printMembers, printStr, List.cons_append]
            exact expect_ne (by decide) (by decide)
          simp [hexp, hx, Value.sanitize]

private theorem readsBack (fuel : Nat) : ReadsBack fuel := by
  induction fuel with
  | zero =>
      constructor
      · intro j _ _ _ hfuel
        have := fuel_pos j
        omega
      · intro x xs _ _ _ hfuel
        simp [Elems.fuel] at hfuel
      · intro name x ms _ _ _ hfuel
        simp [Members.fuel] at hfuel
  | succ fuel ih => exact ⟨value_step ih, elems_step ih, members_step ih⟩

mutual

private theorem fuel_le_print : ∀ {j : Value}, j.WF → j.fuel ≤ (print j).length
  | .null, _ => by decide
  | .bool true, _ => by decide
  | .bool false, _ => by decide
  | .num lit, h => by
      obtain ⟨b, rest, rfl, _⟩ := isNumber_head h
      simp [Value.fuel, print]
  | .str s, _ => by simp [Value.fuel, print, printStr]
  | .arr xs, h => by
      have := @fuel_le_printElems xs h
      simp only [Value.fuel, print, List.length_cons]
      omega
  | .obj ms, h => by
      have := @fuel_le_printMembers ms h
      simp only [Value.fuel, print, List.length_cons]
      omega

private theorem fuel_le_printElems : ∀ {xs : Elems}, xs.WF → xs.fuel ≤ (printElems xs).length
  | .nil, _ => by simp [Elems.fuel]
  | .cons x xs, h => by
      have hx := fuel_le_print h.1
      have hxs := fuel_le_printElemsTail h.2
      simp only [Elems.fuel, printElems, List.length_append]
      omega

private theorem fuel_le_printElemsTail :
    ∀ {xs : Elems}, xs.WF → xs.fuel + 1 ≤ (printElemsTail xs).length
  | .nil, _ => by simp [Elems.fuel, printElemsTail]
  | .cons x xs, h => by
      have hx := fuel_le_print h.1
      have hxs := fuel_le_printElemsTail h.2
      simp only [Elems.fuel, printElemsTail, List.length_cons, List.length_append]
      omega

private theorem fuel_le_printMembers :
    ∀ {ms : Members}, ms.WF → ms.fuel ≤ (printMembers ms).length
  | .nil, _ => by simp [Members.fuel]
  | .cons name x ms, h => by
      have hx := fuel_le_print h.1
      have hms := fuel_le_printMembersTail h.2
      simp only [Members.fuel, printMembers, List.length_cons, List.length_append]
      omega

private theorem fuel_le_printMembersTail :
    ∀ {ms : Members}, ms.WF → ms.fuel + 1 ≤ (printMembersTail ms).length
  | .nil, _ => by simp [Members.fuel, printMembersTail]
  | .cons name x ms, h => by
      have hx := fuel_le_print h.1
      have hms := fuel_le_printMembersTail h.2
      simp only [Members.fuel, printMembersTail, List.length_cons, List.length_append]
      omega

end

/-- **Text round trip.**  Reading a written tree returns it with its strings
sanitized. -/
theorem parse_print {j : Value} {depth : Nat} (hwf : j.WF) (hdepth : j.depth ≤ depth) :
    parse depth (print j) = some j.sanitize := by
  have hfuel := fuel_le_print hwf
  have h := (readsBack ((print j).length + 1)).value j depth [] hwf (by omega) hdepth trivial
  rw [List.append_nil] at h
  simp [parse, h, skipWs]

/-! ## The writer emits no control byte -/

private theorem isDigit_ge {b : UInt8} (h : isDigit b = true) : 0x20 ≤ b := by
  simp only [isDigit, Bool.and_eq_true, decide_eq_true_eq] at h
  exact le_trans (by decide) h.1

private theorem takeWhile_digits_ge (s : Bytes) : ∀ c ∈ s.takeWhile isDigit, 0x20 ≤ c :=
  fun _ hc => isDigit_ge (List.mem_takeWhile_imp hc)

private theorem scanDigits_ge {s p r : Bytes} (h : scanDigits s = some (p, r)) :
    ∀ c ∈ p, 0x20 ≤ c := by
  cases s with
  | nil => simp [scanDigits] at h
  | cons b rest =>
      simp only [scanDigits] at h
      split at h
      · next hd =>
          simp only [Option.some.injEq, Prod.mk.injEq] at h
          obtain ⟨rfl, rfl⟩ := h
          intro c hc
          rcases List.mem_cons.mp hc with rfl | hc
          · exact isDigit_ge hd
          · exact takeWhile_digits_ge rest c hc
      · cases h

private theorem scanSign_ge (s : Bytes) : ∀ c ∈ (scanSign s).1, 0x20 ≤ c := by
  cases s with
  | nil => simp [scanSign]
  | cons b rest =>
      simp only [scanSign]
      split
      · next hb => simp [hb]
      · simp

private theorem scanExpSign_ge (s : Bytes) : ∀ c ∈ (scanExpSign s).1, 0x20 ≤ c := by
  cases s with
  | nil => simp [scanExpSign]
  | cons b rest =>
      simp only [scanExpSign]
      split
      · next hb => rcases hb with rfl | rfl <;> simp
      · simp

private theorem scanInt_ge {s p r : Bytes} (h : scanInt s = some (p, r)) :
    ∀ c ∈ p, 0x20 ≤ c := by
  cases s with
  | nil => simp [scanInt] at h
  | cons b rest =>
      by_cases hb : b = 0x30
      · simp only [scanInt, hb, if_true, Option.some.injEq, Prod.mk.injEq] at h
        obtain ⟨rfl, rfl⟩ := h
        simp
      · exact scanDigits_ge (s := b :: rest) (r := r) (by simpa [scanInt, hb, scanDigits] using h)

private theorem scanFrac_ge {s p r : Bytes} (h : scanFrac s = some (p, r)) :
    ∀ c ∈ p, 0x20 ≤ c := by
  cases s with
  | nil =>
      simp only [scanFrac, Option.some.injEq, Prod.mk.injEq] at h
      simp [← h.1]
  | cons b rest =>
      simp only [scanFrac] at h
      split at h
      · next hb =>
          simp only [Option.map_eq_some_iff, Prod.mk.injEq] at h
          obtain ⟨q, hq, rfl, rfl⟩ := h
          intro c hc
          rcases List.mem_cons.mp hc with rfl | hc
          · simp [hb]
          · exact scanDigits_ge hq c hc
      · simp only [Option.some.injEq, Prod.mk.injEq] at h
        simp [← h.1]

private theorem scanExp_ge {s p r : Bytes} (h : scanExp s = some (p, r)) :
    ∀ c ∈ p, 0x20 ≤ c := by
  cases s with
  | nil =>
      simp only [scanExp, Option.some.injEq, Prod.mk.injEq] at h
      simp [← h.1]
  | cons b rest =>
      simp only [scanExp] at h
      split at h
      · next hb =>
          simp only [Option.map_eq_some_iff, Prod.mk.injEq] at h
          obtain ⟨q, hq, rfl, rfl⟩ := h
          intro c hc
          rcases List.mem_cons.mp hc with rfl | hc
          · rcases hb with rfl | rfl <;> simp
          · rcases List.mem_append.mp hc with hc | hc
            · exact scanExpSign_ge rest c hc
            · exact scanDigits_ge hq c hc
      · simp only [Option.some.injEq, Prod.mk.injEq] at h
        simp [← h.1]

/-- A number literal contains no control byte. -/
theorem isNumber_ge {lit : Bytes} (h : isNumber lit = true) : ∀ c ∈ lit, 0x20 ≤ c := by
  have hs : scanNumber lit = some (lit, []) := by simpa [isNumber] using h
  simp only [scanNumber, Option.bind_eq_bind, Option.pure_def, Option.bind_eq_some_iff,
    Option.some.injEq, Prod.mk.injEq] at hs
  obtain ⟨i, hi, f, hf, e, he, hlit, _⟩ := hs
  intro c hc
  rw [← hlit] at hc
  simp only [List.mem_append] at hc
  rcases hc with ((hc | hc) | hc) | hc
  · exact scanSign_ge lit c hc
  · exact scanInt_ge hi c hc
  · exact scanFrac_ge hf c hc
  · exact scanExp_ge he c hc

private theorem printStr_ge (s : Bytes) : ∀ c ∈ printStr s, 0x20 ≤ c := by
  intro c hc
  simp only [printStr, List.mem_cons, List.mem_append, List.not_mem_nil, or_false] at hc
  rcases hc with rfl | hc | rfl
  · decide
  · exact escape_ge s c hc
  · decide

mutual

/-- No byte of a written value is a control byte. -/
theorem print_ge : ∀ {j : Value}, j.WF → ∀ c ∈ print j, 0x20 ≤ c
  | .null, _ => by simp [print, nullLit]
  | .bool true, _ => by simp [print, trueLit]
  | .bool false, _ => by simp [print, falseLit]
  | .num lit, h => isNumber_ge h
  | .str s, _ => printStr_ge s
  | .arr xs, h => by
      intro c hc
      rcases List.mem_cons.mp hc with rfl | hc
      · decide
      · exact @printElems_ge xs h c hc
  | .obj ms, h => by
      intro c hc
      rcases List.mem_cons.mp hc with rfl | hc
      · decide
      · exact @printMembers_ge ms h c hc

private theorem printElems_ge : ∀ {xs : Elems}, xs.WF → ∀ c ∈ printElems xs, 0x20 ≤ c
  | .nil, _ => by simp [printElems]
  | .cons x xs, h => by
      intro c hc
      rcases List.mem_append.mp hc with hc | hc
      · exact print_ge h.1 c hc
      · exact printElemsTail_ge h.2 c hc

private theorem printElemsTail_ge : ∀ {xs : Elems}, xs.WF → ∀ c ∈ printElemsTail xs, 0x20 ≤ c
  | .nil, _ => by simp [printElemsTail]
  | .cons x xs, h => by
      intro c hc
      rcases List.mem_cons.mp hc with rfl | hc
      · decide
      · rcases List.mem_append.mp hc with hc | hc
        · exact print_ge h.1 c hc
        · exact printElemsTail_ge h.2 c hc

private theorem printMembers_ge : ∀ {ms : Members}, ms.WF → ∀ c ∈ printMembers ms, 0x20 ≤ c
  | .nil, _ => by simp [printMembers]
  | .cons name x ms, h => by
      intro c hc
      rcases List.mem_append.mp hc with hc | hc
      · exact printStr_ge name c hc
      · rcases List.mem_cons.mp hc with rfl | hc
        · decide
        · rcases List.mem_append.mp hc with hc | hc
          · exact print_ge h.1 c hc
          · exact printMembersTail_ge h.2 c hc

private theorem printMembersTail_ge :
    ∀ {ms : Members}, ms.WF → ∀ c ∈ printMembersTail ms, 0x20 ≤ c
  | .nil, _ => by simp [printMembersTail]
  | .cons name x ms, h => by
      intro c hc
      rcases List.mem_cons.mp hc with rfl | hc
      · decide
      · rcases List.mem_append.mp hc with hc | hc
        · exact printStr_ge name c hc
        · rcases List.mem_cons.mp hc with rfl | hc
          · decide
          · rcases List.mem_append.mp hc with hc | hc
            · exact print_ge h.1 c hc
            · exact printMembersTail_ge h.2 c hc

end

end NteeDb.Verified.Json
