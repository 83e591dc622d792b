import NteeDb.Verified.Json
import NteeDb.Verified.TextDecoder

/-!
# JSON as a sequence of tokens

A text is cut into tokens, white space between them being dropped, and a pushdown automaton
builds the value.  String literals keep their spelling as pieces (bytes and escapes) next to
their meaning, a list of UTF-16 code units.  So a text can be printed again without white space
and with other escapes, as `json.Compact` does, and still mean the same.
-/

namespace NteeDb.Verified.JsonTokens

open NteeDb.Verified.Json
open NteeDb.Verified.TextDecoder

/-! ## String literals -/

/-- A piece of a string literal. -/
inductive Piece where
  | byte (b : UInt8)
  | esc (c : UInt8)
  | hex (a b c d : UInt8)
  deriving DecidableEq, Repr

/-- The text of a piece. -/
def Piece.print : Piece → Bytes
  | .byte b => [b]
  | .esc c => [backslash, c]
  | .hex a b c d => [backslash, 0x75, a, b, c, d]

/-- A piece that may stand in a literal. -/
def Piece.WF : Piece → Prop
  | .byte b => 0x20 ≤ b ∧ b ≠ quote ∧ b ≠ backslash
  | .esc c => (unescapeLetter c).isSome = true
  | .hex a b c d => (hex4 a b c d).isSome = true

instance : DecidablePred Piece.WF
  | .byte b => inferInstanceAs (Decidable (0x20 ≤ b ∧ b ≠ quote ∧ b ≠ backslash))
  | .esc c => inferInstanceAs (Decidable ((unescapeLetter c).isSome = true))
  | .hex a b c d => inferInstanceAs (Decidable ((hex4 a b c d).isSome = true))

/-- The body of a literal. -/
def printPieces (ps : List Piece) : Bytes := ps.flatMap Piece.print

theorem printPieces_bytes (s : Bytes) : printPieces (s.map .byte) = s := by
  induction s with
  | nil => rfl
  | cons b s ih =>
      rw [List.map_cons, printPieces, List.flatMap_cons, ← printPieces, ih]
      rfl

/-- Put a piece in front of what the rest of the literal reads as. -/
def consPiece (p : Piece) (r : Option (List Piece × Bytes)) : Option (List Piece × Bytes) :=
  r.map fun q => (p :: q.1, q.2)

/-- Read a literal's body up to its closing quote; also returns what follows the quote. -/
def scanStr : Bytes → Option (List Piece × Bytes)
  | [] => none
  | b :: rest =>
      if b = quote then some ([], rest)
      else if b = backslash then
        match rest with
        | [] => none
        | c :: rest' =>
            if c = 0x75 then
              match rest' with
              | h1 :: h2 :: h3 :: h4 :: tail =>
                  if (hex4 h1 h2 h3 h4).isSome then consPiece (.hex h1 h2 h3 h4) (scanStr tail)
                  else none
              | _ => none
            else if (unescapeLetter c).isSome then consPiece (.esc c) (scanStr rest')
            else none
      else if b < 0x20 then none
      else consPiece (.byte b) (scanStr rest)

theorem consPiece_eq_some {p : Piece} {r : Option (List Piece × Bytes)} {ps : List Piece}
    {rest : Bytes} :
    consPiece p r = some (ps, rest) ↔ ∃ qs, r = some (qs, rest) ∧ ps = p :: qs := by
  cases r with
  | none => simp [consPiece]
  | some r => simp [consPiece, Prod.ext_iff, eq_comm, and_comm]

/-- What is read as a literal is its text, the quote and the rest. -/
theorem scanStr_spec {s rest : Bytes} {ps : List Piece} (h : scanStr s = some (ps, rest)) :
    s = printPieces ps ++ quote :: rest ∧ ∀ p ∈ ps, p.WF := by
  fun_induction scanStr s generalizing ps with
  | case1 => cases h
  | case2 tail =>
      cases h
      exact ⟨rfl, by simp⟩
  | case3 => cases h
  | case4 h1 h2 h3 h4 tail hhex _ ih =>
      obtain ⟨qs, hqs, rfl⟩ := consPiece_eq_some.mp h
      obtain ⟨htail, hwf⟩ := ih hqs
      refine ⟨by simp [printPieces, Piece.print, htail], List.forall_mem_cons.mpr ⟨hhex, hwf⟩⟩
  | case5 => cases h
  | case6 => cases h
  | case7 c tail _ hesc _ ih =>
      obtain ⟨qs, hqs, rfl⟩ := consPiece_eq_some.mp h
      obtain ⟨htail, hwf⟩ := ih hqs
      refine ⟨by simp [printPieces, Piece.print, htail], List.forall_mem_cons.mpr ⟨hesc, hwf⟩⟩
  | case8 => cases h
  | case9 => cases h
  | case10 b tail hquote hback hlow ih =>
      obtain ⟨qs, hqs, rfl⟩ := consPiece_eq_some.mp h
      obtain ⟨htail, hwf⟩ := ih hqs
      refine ⟨by simp [printPieces, Piece.print, htail],
        List.forall_mem_cons.mpr ⟨⟨UInt8.not_lt.mp hlow, hquote, hback⟩, hwf⟩⟩

/-- A letter escape is not a `u`. -/
theorem ne_u_of_escape {c : UInt8} (h : (unescapeLetter c).isSome = true) : c ≠ 0x75 := by
  rintro rfl
  exact absurd h (by decide)

/-- A piece in front of a literal is read first. -/
theorem scanStr_piece {p : Piece} (hp : p.WF) (s : Bytes) :
    scanStr (p.print ++ s) = consPiece p (scanStr s) := by
  have hne : backslash ≠ quote := by decide
  cases p with
  | byte b =>
      obtain ⟨hlow, hquote, hback⟩ := hp
      rw [Piece.print, List.singleton_append, scanStr.eq_def]
      simp only [hquote, hback, UInt8.not_lt.mpr hlow, if_false]
  | esc c =>
      have hc : (unescapeLetter c).isSome = true := hp
      rw [Piece.print, List.cons_append, List.singleton_append, scanStr.eq_def]
      simp only [hne, ne_u_of_escape hc, hc, if_false, if_true]
  | hex a b c d =>
      have hhex : (hex4 a b c d).isSome = true := hp
      rw [Piece.print, scanStr.eq_def]
      simp only [List.cons_append, List.nil_append, hne, hhex, if_false, if_true]

/-- The text of pieces is read as these pieces. -/
theorem scanStr_print {ps : List Piece} (hwf : ∀ p ∈ ps, p.WF) (rest : Bytes) :
    scanStr (printPieces ps ++ quote :: rest) = some (ps, rest) := by
  induction ps with
  | nil => rw [printPieces, List.flatMap_nil, List.nil_append, scanStr.eq_def]; simp only [if_true]
  | cons p ps ih =>
      obtain ⟨hp, hps⟩ := List.forall_mem_cons.mp hwf
      rw [printPieces, List.flatMap_cons, List.append_assoc, scanStr_piece hp,
        ← printPieces, ih hps]
      rfl

/-! ## The meaning of a literal -/

/-- UTF-16 of a code point. -/
def utf16 (r : Nat) : List Nat :=
  if r < 0x10000 then [r] else [0xD800 + (r - 0x10000) / 0x400, 0xDC00 + (r - 0x10000) % 0x400]

/-- The code units of a literal, after some bytes of a UTF-8 sequence: the bits read so far and
the number of missing bytes. -/
def unitsFrom : Nat → Nat → List Piece → List Nat
  | _, _, [] => []
  | acc, need, .byte b :: ps =>
      if b < 0x80 then b.toNat :: unitsFrom 0 0 ps
      else if b < 0xC0 then
        match need with
        | 0 => unitsFrom 0 0 ps
        | 1 => utf16 (acc * 64 + b.toNat % 64) ++ unitsFrom 0 0 ps
        | n + 2 => unitsFrom (acc * 64 + b.toNat % 64) (n + 1) ps
      else if b < 0xE0 then unitsFrom (b.toNat % 32) 1 ps
      else if b < 0xF0 then unitsFrom (b.toNat % 16) 2 ps
      else unitsFrom (b.toNat % 8) 3 ps
  | _, _, .esc c :: ps => ((unescapeLetter c).getD 0).toNat :: unitsFrom 0 0 ps
  | _, _, .hex a b c d :: ps => (hex4 a b c d).getD 0 :: unitsFrom 0 0 ps

/-- The string a literal stands for. -/
def units (ps : List Piece) : List Nat := unitsFrom 0 0 ps

/-- A literal of ASCII bytes stands for them. -/
theorem units_ascii {s : Bytes} (h : ∀ b ∈ s, b < 0x80) :
    units (s.map .byte) = s.map UInt8.toNat := by
  rw [units]
  induction s with
  | nil => rfl
  | cons b s ih =>
      obtain ⟨hb, hs⟩ := List.forall_mem_cons.mp h
      rw [List.map_cons, unitsFrom, if_pos hb, ih hs, List.map_cons]

/-- The last digit of the code of a line or paragraph separator in front. -/
def separator : List Piece → Option UInt8
  | .byte a :: .byte b :: .byte c :: _ =>
      if a = 0xE2 ∧ b = 0x80 ∧ c = 0xA8 then some 0x38
      else if a = 0xE2 ∧ b = 0x80 ∧ c = 0xA9 then some 0x39
      else none
  | _ => none

/-- A byte that is unsafe in HTML, written as an escape. -/
def Piece.escape : Piece → Piece
  | .byte b =>
      if b = 0x3C ∨ b = 0x3E ∨ b = 0x26 then
        .hex 0x30 0x30 (hexDigit (b.toNat / 16)) (hexDigit (b.toNat % 16))
      else .byte b
  | p => p

/-- After `k` pieces, escape what is unsafe in HTML and JavaScript. -/
def escapeFrom : Nat → List Piece → List Piece
  | _, [] => []
  | k + 1, _ :: ps => escapeFrom k ps
  | 0, p :: ps =>
      match separator (p :: ps) with
      | some d => .hex 0x32 0x30 0x32 d :: escapeFrom 2 ps
      | none => p.escape :: escapeFrom 0 ps

theorem separator_eq_some {ps : List Piece} {d : UInt8} (h : separator ps = some d) :
    ∃ c rest, ps = .byte 0xE2 :: .byte 0x80 :: .byte c :: rest ∧
      (c = 0xA8 ∧ d = 0x38 ∨ c = 0xA9 ∧ d = 0x39) := by
  unfold separator at h
  split at h
  · next a b c rest =>
      split at h
      · next hc =>
          obtain ⟨rfl, rfl, rfl⟩ := hc
          cases h
          exact ⟨_, rest, rfl, Or.inl ⟨rfl, rfl⟩⟩
      · split at h
        · next hc =>
            obtain ⟨rfl, rfl, rfl⟩ := hc
            cases h
            exact ⟨_, rest, rfl, Or.inr ⟨rfl, rfl⟩⟩
        · cases h
  · cases h

/-- Escaping changes no string. -/
theorem unitsFrom_escapeFrom (acc need k : Nat) (ps : List Piece) :
    unitsFrom acc need (escapeFrom k ps) = unitsFrom acc need (ps.drop k) := by
  induction ps generalizing acc need k with
  | nil => simp [escapeFrom]
  | cons p ps ih =>
      cases k with
      | succ k => exact ih acc need k
      | zero =>
          rw [escapeFrom, List.drop_zero]
          cases hsep : separator (p :: ps) with
          | some d =>
              obtain ⟨c, rest, heq, hcd⟩ := separator_eq_some hsep
              cases heq
              dsimp only
              rcases hcd with ⟨rfl, rfl⟩ | ⟨rfl, rfl⟩
              · exact congrArg (0x2028 :: ·) (ih 0 0 2)
              · exact congrArg (0x2029 :: ·) (ih 0 0 2)
          | none =>
              have hps : ∀ acc need, unitsFrom acc need (escapeFrom 0 ps) = unitsFrom acc need ps :=
                fun acc need => ih acc need 0
              dsimp only
              cases p with
              | byte b =>
                  rw [Piece.escape]
                  split
                  · next hb =>
                      rcases hb with rfl | rfl | rfl
                      · exact congrArg (0x3C :: ·) (hps 0 0)
                      · exact congrArg (0x3E :: ·) (hps 0 0)
                      · exact congrArg (0x26 :: ·) (hps 0 0)
                  · simp only [unitsFrom, hps]
              | esc c => simp only [Piece.escape, unitsFrom, hps]
              | hex a b c d => simp only [Piece.escape, unitsFrom, hps]

theorem units_escape (ps : List Piece) : units (escapeFrom 0 ps) = units ps :=
  unitsFrom_escapeFrom 0 0 0 ps

theorem Piece.WF.escape {p : Piece} (h : p.WF) : p.escape.WF := by
  cases p with
  | byte b =>
      rw [Piece.escape]
      split
      · next hb =>
          rcases hb with rfl | rfl | rfl
          · rfl
          · rfl
          · rfl
      · exact h
  | esc c => exact h
  | hex a b c d => exact h

theorem wf_escapeFrom {k : Nat} {ps : List Piece} (h : ∀ p ∈ ps, p.WF) :
    ∀ p ∈ escapeFrom k ps, p.WF := by
  induction ps generalizing k with
  | nil => simp [escapeFrom]
  | cons p ps ih =>
      obtain ⟨hp, hps⟩ := List.forall_mem_cons.mp h
      cases k with
      | succ k => exact ih hps
      | zero =>
          rw [escapeFrom]
          cases hsep : separator (p :: ps) with
          | some d =>
              obtain ⟨c, rest, _, hcd⟩ := separator_eq_some hsep
              refine List.forall_mem_cons.mpr ⟨?_, ih hps⟩
              rcases hcd with ⟨_, rfl⟩ | ⟨_, rfl⟩
              · exact (by decide : (hex4 0x32 0x30 0x32 0x38).isSome = true)
              · exact (by decide : (hex4 0x32 0x30 0x32 0x39).isSome = true)
          | none => exact List.forall_mem_cons.mpr ⟨hp.escape, ih hps⟩

/-- The first byte of a separator stands between sequences. -/
theorem next_separator {q q' : State} (h : q.next 0xE2 = some q') : q = .start ∧ q' = .two := by
  cases q with
  | start =>
      cases h
      exact ⟨rfl, rfl⟩
  | _ => cases h

/-- An escaped byte is ASCII, and so is the escape. -/
theorem leads_escape {q q' : State} {p : Piece} (h : Leads q p.print q') :
    Leads q p.escape.print q' := by
  cases p with
  | byte b =>
      rw [Piece.escape]
      split
      · next hb =>
          obtain ⟨q₁, hnext, hnil⟩ := leads_cons.mp h
          cases leads_nil.mp hnil
          have hascii : b < 0x80 := by rcases hb with rfl | rfl | rfl <;> decide
          obtain ⟨rfl, rfl⟩ := next_ascii hascii hnext
          refine leads_ascii ?_
          rcases hb with rfl | rfl | rfl
          · simp [Piece.print, hexDigit, backslash]
          · simp [Piece.print, hexDigit, backslash]
          · simp [Piece.print, hexDigit, backslash]
      · exact h
  | esc c => exact h
  | hex a b c d => exact h

/-- Escapes are ASCII, and stand between UTF-8 sequences. -/
theorem leads_escapeFrom {q q' : State} {k : Nat} {ps : List Piece}
    (h : Leads q (printPieces (ps.drop k)) q') : Leads q (printPieces (escapeFrom k ps)) q' := by
  induction ps generalizing q k with
  | nil => simpa [escapeFrom] using h
  | cons p ps ih =>
      cases k with
      | succ k => exact ih h
      | zero =>
          rw [escapeFrom]
          rw [List.drop_zero] at h
          cases hsep : separator (p :: ps) with
          | some d =>
              obtain ⟨c, rest, heq, hcd⟩ := separator_eq_some hsep
              cases heq
              obtain ⟨q₁, h₁, h⟩ := leads_cons.mp h
              obtain ⟨q₂, h₂, h⟩ := leads_cons.mp h
              obtain ⟨q₃, h₃, h⟩ := leads_cons.mp h
              obtain ⟨rfl, rfl⟩ := next_separator h₁
              cases h₂
              have hend : q₃ = .start ∧ ∀ b ∈ Piece.print (.hex 0x32 0x30 0x32 d), b < 0x80 := by
                rcases hcd with ⟨rfl, rfl⟩ | ⟨rfl, rfl⟩
                · cases h₃
                  exact ⟨rfl, by simp [Piece.print, backslash]⟩
                · cases h₃
                  exact ⟨rfl, by simp [Piece.print, backslash]⟩
              obtain ⟨rfl, hascii⟩ := hend
              exact (leads_ascii hascii).append (ih (k := 2) h)
          | none =>
              obtain ⟨q₁, hp, hps⟩ := leads_append.mp h
              exact (leads_escape hp).append (ih (k := 0) hps)

/-! ## Tokens -/

/-- A token of a text. -/
inductive Token where
  | lbrace
  | rbrace
  | lbracket
  | rbracket
  | comma
  | colon
  | null
  | bool (b : Bool)
  | num (lit : Bytes)
  | str (ps : List Piece)
  deriving DecidableEq, Repr

/-- The text of a token. -/
def Token.print : Token → Bytes
  | .lbrace => [0x7B]
  | .rbrace => [0x7D]
  | .lbracket => [0x5B]
  | .rbracket => [0x5D]
  | .comma => [0x2C]
  | .colon => [0x3A]
  | .null => nullLit
  | .bool true => trueLit
  | .bool false => falseLit
  | .num lit => lit
  | .str ps => quote :: (printPieces ps ++ [quote])

/-- The characters of number literals. -/
def isNumChar (b : UInt8) : Bool := continuesNumber b || b = 0x2B || b = 0x2D

/-- A token that a text can have. -/
def Token.WF : Token → Prop
  | .num lit => isNumber lit = true ∧ ∀ b ∈ lit, isNumChar b = true
  | .str ps => ∀ p ∈ ps, p.WF
  | _ => True

instance : DecidablePred Token.WF
  | .num lit => inferInstanceAs (Decidable (isNumber lit = true ∧ ∀ b ∈ lit, isNumChar b = true))
  | .str ps => inferInstanceAs (Decidable (∀ p ∈ ps, p.WF))
  | .lbrace | .rbrace | .lbracket | .rbracket | .comma | .colon | .null | .bool _ =>
      inferInstanceAs (Decidable True)

/-- The tokens of one byte. -/
def punctuation (b : UInt8) : Option Token :=
  if b = 0x7B then some .lbrace
  else if b = 0x7D then some .rbrace
  else if b = 0x5B then some .lbracket
  else if b = 0x5D then some .rbracket
  else if b = 0x2C then some .comma
  else if b = 0x3A then some .colon
  else none

/-- The words, by their first byte. -/
def keyword (b : UInt8) : Option Token :=
  if b = 0x6E then some .null
  else if b = 0x74 then some (.bool true)
  else if b = 0x66 then some (.bool false)
  else none

/-- The token a text starts with, and what follows it. -/
def nextToken : Bytes → Option (Token × Bytes)
  | [] => none
  | b :: rest =>
      match punctuation b, keyword b with
      | some t, _ => some (t, rest)
      | none, some t => (word t.print (b :: rest)).map fun r => (t, r)
      | none, none =>
          if b = quote then (scanStr rest).map fun r => (.str r.1, r.2)
          else if isNumber ((b :: rest).takeWhile isNumChar) = true then
            some (.num ((b :: rest).takeWhile isNumChar), (b :: rest).dropWhile isNumChar)
          else none

/-- The tokens of a text, white space left out. -/
def lexFrom : Nat → Bytes → Option (List Token)
  | _, [] => some []
  | 0, _ :: _ => none
  | fuel + 1, b :: rest =>
      if isWs b then lexFrom fuel rest
      else
        match nextToken (b :: rest) with
        | none => none
        | some (t, rest') => (lexFrom fuel rest').map (t :: ·)

/-- The tokens of a text. -/
def lex (s : Bytes) : Option (List Token) := lexFrom s.length s

/-- The text of some tokens, without white space. -/
def printAll (ts : List Token) : Bytes := ts.flatMap Token.print

theorem word_eq_some {w s rest : Bytes} : word w s = some rest ↔ s = w ++ rest := by
  rw [word]
  split
  · next h =>
      obtain ⟨t, rfl⟩ := List.isPrefixOf_iff_prefix.mp h
      simp
  · next h =>
      refine iff_of_false (by simp) ?_
      rintro rfl
      exact h ( List.isPrefixOf_iff_prefix.mpr ⟨rest, rfl⟩)

theorem punctuation_spec {b : UInt8} {t : Token} (h : punctuation b = some t) :
    t.print = [b] ∧ t.WF := by
  unfold punctuation at h
  split at h
  · next hb => cases h; exact ⟨by rw [hb]; rfl, trivial⟩
  split at h
  · next hb => cases h; exact ⟨by rw [hb]; rfl, trivial⟩
  split at h
  · next hb => cases h; exact ⟨by rw [hb]; rfl, trivial⟩
  split at h
  · next hb => cases h; exact ⟨by rw [hb]; rfl, trivial⟩
  split at h
  · next hb => cases h; exact ⟨by rw [hb]; rfl, trivial⟩
  split at h
  · next hb => cases h; exact ⟨by rw [hb]; rfl, trivial⟩
  · cases h

theorem keyword_wf {b : UInt8} {t : Token} (h : keyword b = some t) : t.WF := by
  unfold keyword at h
  split at h
  · cases h; trivial
  split at h
  · cases h; trivial
  split at h
  · cases h; trivial
  · cases h

/-- A token is read from its own text. -/
theorem nextToken_spec {s rest : Bytes} {t : Token} (h : nextToken s = some (t, rest)) :
    s = t.print ++ rest ∧ t.WF := by
  cases s with
  | nil => cases h
  | cons b tail =>
      rw [nextToken] at h
      cases hpunct : punctuation b with
      | some t' =>
          rw [hpunct] at h
          cases h
          obtain ⟨hprint, hwf⟩ := punctuation_spec hpunct
          exact ⟨by rw [hprint]; rfl, hwf⟩
      | none =>
          rw [hpunct] at h
          cases hkey : keyword b with
          | some t' =>
              rw [hkey] at h
              obtain ⟨rest', hword, heq⟩ := Option.map_eq_some_iff.mp h
              cases heq
              exact ⟨word_eq_some.mp hword, keyword_wf hkey⟩
          | none =>
              rw [hkey] at h
              dsimp only at h
              split at h
              · next hb =>
                  obtain ⟨⟨ps, rest'⟩, hscan, heq⟩ := Option.map_eq_some_iff.mp h
                  cases heq
                  obtain ⟨htail, hwf⟩ := scanStr_spec hscan
                  exact ⟨by simp [Token.print, htail, hb], hwf⟩
              · split at h
                · next hnum =>
                    cases h
                    exact ⟨List.takeWhile_append_dropWhile.symm, hnum,
                      fun c hc => List.mem_takeWhile_imp hc⟩
                · cases h

/-- What may follow a token: no number goes on. -/
def Follows : Token → Bytes → Prop
  | .num _, b :: _ => isNumChar b = false
  | _, _ => True

/-- The first byte of a number literal starts no other token. -/
theorem number_first {b : UInt8} (h : isNumChar b = true) :
    punctuation b = none ∧ keyword b = none ∧ b ≠ quote := by
  have hall : ∀ b : UInt8, isNumChar b = true →
      punctuation b = none ∧ keyword b = none ∧ b ≠ quote :=
      forall_byte (by set_option maxRecDepth 2000 in decide)
  exact hall b h

theorem takeWhile_number {lit rest : Bytes} (hlit : ∀ b ∈ lit, isNumChar b = true)
    (hrest : Follows (.num lit) rest) :
    (lit ++ rest).takeWhile isNumChar = lit ∧ (lit ++ rest).dropWhile isNumChar = rest := by
  rw [List.takeWhile_append_of_pos hlit, List.dropWhile_append_of_pos hlit]
  cases rest with
  | nil => simp
  | cons b rest =>
      have hb : isNumChar b = false := hrest
      simp [hb]

/-- The text of a token is read as this token. -/
theorem nextToken_print {t : Token} {rest : Bytes} (hwf : t.WF) (hrest : Follows t rest) :
    nextToken (t.print ++ rest) = some (t, rest) := by
  cases t with
  | num lit =>
      obtain ⟨hnum, hchars⟩ := hwf
      obtain ⟨htake, hdrop⟩ := takeWhile_number hchars hrest
      obtain ⟨b, tail, rfl, _⟩ := isNumber_head hnum
      obtain ⟨hpunct, hkey, hquote⟩ := number_first (hchars b List.mem_cons_self)
      rw [Token.print, List.cons_append, nextToken, ← List.cons_append, htake, hdrop, hpunct, hkey]
      simp only [hquote, hnum, if_false, if_true]
  | str ps =>
      rw [Token.print, List.cons_append, List.append_assoc, List.singleton_append, nextToken,
        scanStr_print hwf]
      rfl
  | bool b => cases b <;> rfl
  | _ => rfl

/-- Text without some of its white space. -/
inductive Sparse : Bytes → Bytes → Prop
  | nil : Sparse [] []
  | keep {s t : Bytes} (b : UInt8) (h : Sparse s t) : Sparse (b :: s) (b :: t)
  | drop {s t : Bytes} {b : UInt8} (hb : isWs b = true) (h : Sparse s t) : Sparse (b :: s) t

theorem Sparse.append {s t : Bytes} (h : Sparse s t) (p : Bytes) : Sparse (p ++ s) (p ++ t) := by
  induction p with
  | nil => exact h
  | cons b p ih => exact .keep b ih

/-- White space is ASCII. -/
theorem Sparse.leads {s t : Bytes} (h : Sparse s t) {q q' : State} (hs : Leads q s q') :
    Leads q t q' := by
  induction h generalizing q with
  | nil => exact hs
  | keep b _ ih =>
      obtain ⟨p, hp, hrest⟩ := leads_cons.mp hs
      exact leads_cons.mpr ⟨p, hp, ih hrest⟩
  | drop hb _ ih =>
      obtain ⟨p, hp, hrest⟩ := leads_cons.mp hs
      have hall : ∀ b : UInt8, isWs b = true → b < 0x80 :=
        forall_byte (by set_option maxRecDepth 2000 in decide)
      obtain ⟨rfl, rfl⟩ := next_ascii (hall _ hb) hp
      exact ih hrest

/-- The tokens of a text are its text without white space. -/
theorem lexFrom_spec {fuel : Nat} {s : Bytes} {ts : List Token} (h : lexFrom fuel s = some ts) :
    Sparse s (printAll ts) ∧ ∀ t ∈ ts, t.WF := by
  induction fuel generalizing s ts with
  | zero =>
      cases s with
      | nil =>
          cases h
          exact ⟨.nil, by simp⟩
      | cons b rest => cases h
  | succ fuel ih =>
      cases s with
      | nil =>
          cases h
          exact ⟨.nil, by simp⟩
      | cons b rest =>
          rw [lexFrom] at h
          split at h
          · next hws =>
              obtain ⟨hsparse, hwf⟩ := ih h
              exact ⟨.drop hws hsparse, hwf⟩
          · split at h
            · cases h
            · next t rest' htoken =>
                obtain ⟨ts', hts', rfl⟩ := Option.map_eq_some_iff.mp h
                obtain ⟨hsparse, hwf⟩ := ih hts'
                obtain ⟨htext, ht⟩ := nextToken_spec htoken
                rw [htext]
                exact ⟨hsparse.append t.print, List.forall_mem_cons.mpr ⟨ht, hwf⟩⟩

/-- Every token may be followed by the text of the next. -/
def Separate : List Token → Prop
  | [] => True
  | t :: ts => Follows t (printAll ts) ∧ Separate ts

theorem print_cons {t : Token} (h : t.WF) : ∃ b rest, t.print = b :: rest ∧ isWs b = false := by
  cases t with
  | num lit =>
      obtain ⟨hnum, hchars⟩ := h
      obtain ⟨b, tail, rfl, _⟩ := isNumber_head hnum
      have hall : ∀ b : UInt8, isNumChar b = true → isWs b = false :=
        forall_byte (by set_option maxRecDepth 2000 in decide)
      exact ⟨b, tail, rfl, hall b (hchars b List.mem_cons_self)⟩
  | bool b => cases b <;> exact ⟨_, _, rfl, by decide⟩
  | _ => exact ⟨_, _, rfl, by decide⟩

/-- Printed tokens are read back. -/
theorem lexFrom_printAll {ts : List Token} (hwf : ∀ t ∈ ts, t.WF) (hsep : Separate ts) {fuel : Nat}
    (hfuel : ts.length ≤ fuel) : lexFrom fuel (printAll ts) = some ts := by
  induction ts generalizing fuel with
  | nil => cases fuel <;> rfl
  | cons t ts ih =>
      obtain ⟨ht, hts⟩ := List.forall_mem_cons.mp hwf
      obtain ⟨fuel, rfl⟩ : ∃ n, fuel = n + 1 := ⟨fuel - 1, by simp at hfuel; omega⟩
      obtain ⟨b, rest, hprint, hws⟩ := print_cons ht
      have hnext := nextToken_print ht hsep.1
      rw [hprint, List.cons_append] at hnext
      rw [printAll, List.flatMap_cons, hprint, List.cons_append, lexFrom, if_neg (by simp [hws]),
        ← printAll, hnext]
      dsimp only
      rw [ih hts hsep.2 (by simpa using hfuel)]
      rfl

theorem length_le_printAll {ts : List Token} (hwf : ∀ t ∈ ts, t.WF) :
    ts.length ≤ (printAll ts).length := by
  induction ts with
  | nil => simp
  | cons t ts ih =>
      obtain ⟨ht, hts⟩ := List.forall_mem_cons.mp hwf
      obtain ⟨b, rest, hprint, _⟩ := print_cons ht
      have hrest := ih hts
      rw [printAll, List.flatMap_cons, hprint, List.length_append, ← printAll]
      simp only [List.length_cons]
      omega

theorem lex_printAll {ts : List Token} (hwf : ∀ t ∈ ts, t.WF) (hsep : Separate ts) :
    lex (printAll ts) = some ts := lexFrom_printAll hwf hsep (length_le_printAll hwf)

/-! ## Values -/

/-- A parsed value.  A number is given by its literal, an object by its members. -/
inductive Tree where
  | null
  | bool (b : Bool)
  | num (lit : Bytes)
  | str (s : List Nat)
  | arr (xs : List Tree)
  | obj (ms : List (List Nat × Tree))

/-- Set a member of an object; a later one takes the place of an earlier one. -/
def setMember : List (List Nat × Tree) → List Nat → Tree → List (List Nat × Tree)
  | [], k, t => [(k, t)]
  | (k', t') :: ms, k, t => if k' = k then (k, t) :: ms else (k', t') :: setMember ms k t

/-- A member of an object. -/
def getMember : List (List Nat × Tree) → List Nat → Option Tree
  | [], _ => none
  | (k', t) :: ms, k => if k' = k then some t else getMember ms k

/-- An array or object that is not finished. -/
inductive Frame where
  | arr (items : List Tree)
  | obj (ms : List (List Nat × Tree))
  | member (ms : List (List Nat × Tree)) (k : List Nat)

/-- What comes next; `first` right after the opening bracket. -/
inductive Mode where
  | value (first : Bool)
  | key (first : Bool)
  | colon (k : List Nat)
  | after (t : Tree)

/-- The value of a token. -/
def Token.scalar : Token → Option Tree
  | .null => some .null
  | .bool b => some (.bool b)
  | .num lit => some (.num lit)
  | .str ps => some (.str (units ps))
  | _ => none

/-- Where a value is expected. -/
def stepValue (first : Bool) (st : List Frame) : Token → Option (Mode × List Frame)
  | .lbrace => some (.key true, .obj [] :: st)
  | .lbracket => some (.value true, .arr [] :: st)
  | .rbracket =>
      match first, st with
      | true, .arr items :: st' => some (.after (.arr items), st')
      | _, _ => none
  | t => t.scalar.map fun v => (.after v, st)

/-- Where the name of a member is expected. -/
def stepKey (first : Bool) : List Frame → Token → Option (Mode × List Frame)
  | .obj ms :: st, .str ps => some (.colon (units ps), .obj ms :: st)
  | .obj ms :: st, .rbrace => if first then some (.after (.obj ms), st) else none
  | _, _ => none

/-- After the name of a member. -/
def stepColon (k : List Nat) : List Frame → Token → Option (Mode × List Frame)
  | .obj ms :: st, .colon => some (.value false, .member ms k :: st)
  | _, _ => none

/-- After a value. -/
def stepAfter (v : Tree) : List Frame → Token → Option (Mode × List Frame)
  | .arr items :: st, .comma => some (.value false, .arr (items ++ [v]) :: st)
  | .arr items :: st, .rbracket => some (.after (.arr (items ++ [v])), st)
  | .member ms k :: st, .comma => some (.key false, .obj (setMember ms k v) :: st)
  | .member ms k :: st, .rbrace => some (.after (.obj (setMember ms k v)), st)
  | _, _ => none

/-- One token. -/
def step : Mode × List Frame → Token → Option (Mode × List Frame)
  | (.value first, st), t => stepValue first st t
  | (.key first, st), t => stepKey first st t
  | (.colon k, st), t => stepColon k st t
  | (.after v, st), t => stepAfter v st t

/-- The value that some tokens stand for. -/
def build (ts : List Token) : Option Tree :=
  match ts.foldlM step (.value false, []) with
  | some (.after v, []) => some v
  | _ => none

/-- The value of a text; `none` when the text is not JSON. -/
def parse (s : Bytes) : Option Tree := (lex s).bind build

theorem build_eq_some {ts : List Token} {v : Tree} :
    build ts = some v ↔ ts.foldlM step (.value false, []) = some (.after v, []) := by
  rw [build]
  split
  · next v' heq => simp [heq]
  · next hne =>
      refine iff_of_false (by simp) fun h => ?_
      exact hne v h

/-- What a step does does not depend on the frames below. -/
theorem step_frame {m m' : Mode} {st st' : List Frame} {t : Token}
    (h : step (m, st) t = some (m', st')) (base : List Frame) :
    step (m, st ++ base) t = some (m', st' ++ base) := by
  cases m with
  | value first =>
      cases t with
      | rbracket =>
          simp only [step, stepValue] at h
          split at h
          · cases h
            rfl
          · cases h
      | lbrace => cases h; rfl
      | lbracket => cases h; rfl
      | null => cases h; rfl
      | bool b => cases h; rfl
      | num lit => cases h; rfl
      | str ps => cases h; rfl
      | _ => cases h
  | key first =>
      simp only [step, stepKey] at h
      split at h
      · cases h
        rfl
      · split at h
        · next hfirst =>
            cases h
            simp [step, stepKey, hfirst]
        · cases h
      · cases h
  | colon k =>
      simp only [step, stepColon] at h
      split at h
      · cases h
        rfl
      · cases h
  | after v =>
      simp only [step, stepAfter] at h
      split at h
      · cases h; rfl
      · cases h; rfl
      · cases h; rfl
      · cases h; rfl
      · cases h

/-- What a run does does not depend on the frames below. -/
theorem run_frame {m m' : Mode} {st st' : List Frame} {ts : List Token}
    (h : ts.foldlM step (m, st) = some (m', st')) (base : List Frame) :
    ts.foldlM step (m, st ++ base) = some (m', st' ++ base) := by
  induction ts generalizing m st with
  | nil =>
      cases h
      rfl
  | cons t ts ih =>
      rw [List.foldlM_cons, Option.bind_eq_bind, Option.bind_eq_some_iff] at h
      obtain ⟨⟨m₁, st₁⟩, hstep, hrest⟩ := h
      rw [List.foldlM_cons, step_frame hstep base]
      exact ih hrest

/-- A value as the last member of an object. -/
theorem build_member (before : List Token) {ts : List Token} {ms : List (List Nat × Tree)}
    {k : List Nat} {v : Tree} (hbefore : before.foldlM step (.value false, [])
      = some (.value false, [.member ms k])) (h : build ts = some v) :
    build (before ++ ts ++ [.rbrace]) = some (.obj (setMember ms k v)) := by
  have hrun := run_frame (build_eq_some.mp h) [.member ms k]
  rw [List.nil_append] at hrun
  rw [build_eq_some, List.foldlM_append, List.foldlM_append, hbefore]
  simp only [Option.bind_eq_bind, Option.bind_some, hrun]
  rfl

/-- The token with its string escaped for HTML. -/
def Token.escape : Token → Token
  | .str ps => .str (escapeFrom 0 ps)
  | t => t

theorem step_escape (s : Mode × List Frame) (t : Token) : step s t.escape = step s t := by
  cases t with
  | str ps =>
      obtain ⟨m, st⟩ := s
      cases m with
      | value first => simp only [Token.escape, step, stepValue, Token.scalar, units_escape]
      | key first =>
          cases st with
          | nil => rfl
          | cons f st => cases f <;> simp [Token.escape, step, stepKey, units_escape]
      | colon k =>
          cases st with
          | nil => rfl
          | cons f st => cases f <;> rfl
      | after v =>
          cases st with
          | nil => rfl
          | cons f st => cases f <;> rfl
  | _ => rfl

/-- Escaping changes no value. -/
theorem build_escape (ts : List Token) : build (ts.map Token.escape) = build ts := by
  have hrun : ∀ s, (ts.map Token.escape).foldlM step s = ts.foldlM step s := by
    induction ts with
    | nil => exact fun _ => rfl
    | cons t ts ih =>
        intro s
        simp only [List.map_cons, List.foldlM_cons, step_escape, ih]
  rw [build, build, hrun]

/-! ## Compacting -/

/-- After a number comes a comma or a closing bracket. -/
theorem step_num {s s' s'' : Mode × List Frame} {lit : Bytes} {t : Token}
    (h : step s (.num lit) = some s') (h' : step s' t = some s'') :
    t = .comma ∨ t = .rbracket ∨ t = .rbrace := by
  obtain ⟨m, st⟩ := s
  have hafter : s' = (.after (.num lit), st) := by
    cases m with
    | value first => cases h; rfl
    | key first =>
        cases st with
        | nil => cases h
        | cons f st => cases f <;> cases h
    | colon k =>
        cases st with
        | nil => cases h
        | cons f st => cases f <;> cases h
    | after v =>
        cases st with
        | nil => cases h
        | cons f st => cases f <;> cases h
  subst hafter
  simp only [step, stepAfter] at h'
  split at h'
  · exact Or.inl rfl
  · exact Or.inr (Or.inl rfl)
  · exact Or.inl rfl
  · exact Or.inr (Or.inr rfl)
  · cases h'

/-- The tokens of a value do not run into each other. -/
theorem separate_of_run {s s' : Mode × List Frame} {ts : List Token}
    (h : ts.foldlM step s = some s') : Separate ts := by
  induction ts generalizing s with
  | nil => trivial
  | cons t ts ih =>
      rw [List.foldlM_cons, Option.bind_eq_bind, Option.bind_eq_some_iff] at h
      obtain ⟨s₁, hstep, hrest⟩ := h
      refine ⟨?_, ih hrest⟩
      cases t with
      | num lit =>
          cases ts with
          | nil => trivial
          | cons t' ts =>
              rw [List.foldlM_cons, Option.bind_eq_bind, Option.bind_eq_some_iff] at hrest
              obtain ⟨s₂, hstep', _⟩ := hrest
              rcases step_num hstep hstep' with rfl | rfl | rfl
              · exact (by decide : isNumChar 0x2C = false)
              · exact (by decide : isNumChar 0x5D = false)
              · exact (by decide : isNumChar 0x7D = false)
      | _ => cases printAll ts <;> trivial

/-- A value's printed tokens are read as this value. -/
theorem parse_printAll {ts : List Token} (hwf : ∀ t ∈ ts, t.WF) {v : Tree} (h : build ts = some v) :
    parse (printAll ts) = some v := by
  rw [parse, lex_printAll hwf (separate_of_run (build_eq_some.mp h)), Option.bind_some, h]

theorem Token.WF.escape {t : Token} (h : t.WF) : t.escape.WF := by
  cases t with
  | str ps => exact wf_escapeFrom h
  | _ => exact h

/-- The text without white space, escaped for HTML. -/
def compact (s : Bytes) : Option Bytes := (lex s).map fun ts => printAll (ts.map Token.escape)

theorem leads_tokenEscape {q q' : State} {t : Token} (h : Leads q t.print q') :
    Leads q t.escape.print q' := by
  cases t with
  | str ps =>
      obtain ⟨q₁, hq, h⟩ := leads_cons.mp h
      obtain ⟨q₂, hps, hend⟩ := leads_append.mp h
      exact leads_cons.mpr ⟨q₁, hq, (leads_escapeFrom (k := 0) hps).append hend⟩
  | _ => exact h

theorem leads_printAll_escape {q q' : State} {ts : List Token} (h : Leads q (printAll ts) q') :
    Leads q (printAll (ts.map Token.escape)) q' := by
  induction ts generalizing q with
  | nil => exact h
  | cons t ts ih =>
      rw [printAll, List.flatMap_cons] at h
      obtain ⟨q₁, ht, hts⟩ := leads_append.mp h
      exact (leads_tokenEscape ht).append (ih hts)

/-- A compacted text is without errors where the text was. -/
theorem leads_compact {s out : Bytes} (h : compact s = some out) (hs : Leads .start s .start) :
    Leads .start out .start := by
  obtain ⟨ts, hts, rfl⟩ := Option.map_eq_some_iff.mp h
  exact leads_printAll_escape ((lexFrom_spec hts).1.leads hs)

/-- No byte of a piece is a control byte, and only a byte that stands for itself is above ASCII. -/
theorem Piece.print_range {p : Piece} (h : p.WF) :
    ∀ b ∈ p.print, 0x20 ≤ b ∧ (p = .byte b ∨ b < 0x80) := by
  cases p with
  | byte b =>
      intro c hc
      cases List.mem_singleton.mp hc
      exact ⟨h.1, .inl rfl⟩
  | esc c =>
      have hall : ∀ c : UInt8, (unescapeLetter c).isSome = true → 0x20 ≤ c ∧ c < 0x80 :=
        forall_byte (by set_option maxRecDepth 2000 in decide)
      have hrange : ∀ b ∈ Piece.print (.esc c), 0x20 ≤ b ∧ b < 0x80 :=
        List.forall_mem_cons.mpr ⟨by decide, List.forall_mem_cons.mpr ⟨hall c h, by simp⟩⟩
      exact fun b hb => (hrange b hb).imp_right .inr
  | hex a b c d =>
      have hall : ∀ c : UInt8, (hexVal c).isSome = true → 0x20 ≤ c ∧ c < 0x80 :=
        forall_byte (by set_option maxRecDepth 2000 in decide)
      have hhex : (hex4 a b c d).isSome = true := h
      obtain ⟨n, hn⟩ := Option.isSome_iff_exists.mp hhex
      simp only [hex4, Option.bind_eq_bind, Option.bind_eq_some_iff] at hn
      obtain ⟨_, ha, _, hb, _, hc, _, hd, _⟩ := hn
      have hrange : ∀ x ∈ Piece.print (.hex a b c d), 0x20 ≤ x ∧ x < 0x80 := by
        simp only [Piece.print, List.forall_mem_cons]
        exact ⟨by decide, by decide, hall a (by rw [ha]; rfl), hall b (by rw [hb]; rfl),
          hall c (by rw [hc]; rfl), hall d (by rw [hd]; rfl), by simp⟩
      exact fun x hx => (hrange x hx).imp_right .inr

theorem Token.print_ge {t : Token} (h : t.WF) : ∀ b ∈ t.print, 0x20 ≤ b := by
  cases t with
  | num lit => exact isNumber_ge h.1
  | str ps =>
      refine List.forall_mem_cons.mpr ⟨by decide, List.forall_mem_append.mpr ⟨?_, by simp [quote]⟩⟩
      intro b hb
      obtain ⟨p, hp, hb⟩ := List.mem_flatMap.mp hb
      exact (Piece.print_range (h p hp) b hb).1
  | bool b => cases b <;> simp [Token.print, trueLit, falseLit]
  | _ => simp [Token.print, nullLit]

/-- Printed tokens have no control byte. -/
theorem printAll_ge {ts : List Token} (hwf : ∀ t ∈ ts, t.WF) : ∀ b ∈ printAll ts, 0x20 ≤ b := by
  intro b hb
  obtain ⟨t, ht, hb⟩ := List.mem_flatMap.mp hb
  exact Token.print_ge (hwf t ht) b hb

end NteeDb.Verified.JsonTokens
