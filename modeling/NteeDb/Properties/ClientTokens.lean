import NteeDb.Server.Framing
import NteeDb.Verified.JsonString

/-!
# Client tokens and the server's tokenizer

`assertToken` of `protocol.js` refuses strings with a match of `/\s/`; `strings.Fields` splits at
Unicode white space as Go defines it.  The two classes agree but for two characters: U+FEFF is
white space for JavaScript only, U+0085 for Go only.
-/

namespace NteeDb.Properties.ClientTokens

open NteeDb.Net NteeDb.Verified NteeDb.Verified.Json NteeDb.Verified.Decimal

/-! ## Strings of the client -/

/-- The class `\s` of JavaScript regular expressions, on a UTF-16 code unit. -/
def jsSpace (u : UInt16) : Bool :=
  decide ((0x09 ≤ u ∧ u ≤ 0x0D) ∨ u = 0x20 ∨ u = 0xA0 ∨ u = 0x1680 ∨ (0x2000 ≤ u ∧ u ≤ 0x200A)
    ∨ u = 0x2028 ∨ u = 0x2029 ∨ u = 0x202F ∨ u = 0x205F ∨ u = 0x3000 ∨ u = 0xFEFF)

/-- `assertToken` accepts the string, given by its code units. -/
def assertToken (t : List UInt16) : Bool := !t.isEmpty && !t.any jsSpace

/-- The bytes of a code unit that is not half of a character. -/
def unitBytes (u : UInt16) : Bytes :=
  if isSurrogate u.toNat then Utf8.replacement else utf8Encode u.toNat

/-- `Buffer.from(string)`: UTF-8, with lone surrogates replaced. -/
def bufferOf : List UInt16 → Bytes
  | [] => []
  | [u] => unitBytes u
  | u :: v :: rest =>
      match joinSurrogates u.toNat v.toNat with
      | some r => utf8Encode r ++ bufferOf rest
      | none => unitBytes u ++ bufferOf (v :: rest)

/-! ## White space in UTF-8 -/

/-- The characters of `unicode.IsSpace`. -/
def GoSpace (r : Nat) : Prop :=
  (0x09 ≤ r ∧ r ≤ 0x0D) ∨ r = 0x20 ∨ r = 0x85 ∨ r = 0xA0 ∨ r = 0x1680 ∨ (0x2000 ≤ r ∧ r ≤ 0x200A)
    ∨ r = 0x2028 ∨ r = 0x2029 ∨ r = 0x202F ∨ r = 0x205F ∨ r = 0x3000

theorem ofNat_eq_iff {k : Nat} (hk : k < 256) (c : UInt8) : UInt8.ofNat k = c ↔ k = c.toNat := by
  rw [← UInt8.toNat_inj, UInt8.toNat_ofNat_of_lt' hk]

theorem le_ofNat_iff {k : Nat} (hk : k < 256) (c : UInt8) : c ≤ UInt8.ofNat k ↔ c.toNat ≤ k := by
  rw [UInt8.le_iff_toNat_le, UInt8.toNat_ofNat_of_lt' hk]

theorem ofNat_le_iff {k : Nat} (hk : k < 256) (c : UInt8) : UInt8.ofNat k ≤ c ↔ k ≤ c.toNat := by
  rw [UInt8.le_iff_toNat_le, UInt8.toNat_ofNat_of_lt' hk]

/-- No white space character starts with a byte that is neither ASCII nor one of four leads. -/
theorem spaceLen_other {k : Nat} (hk : k < 256) (rest : Bytes)
    (h : ¬ ((0x09 ≤ k ∧ k ≤ 0x0D) ∨ k = 0x20)) (h2 : k ≠ 0xC2) (h3 : k < 0xE1 ∨ 0xE3 < k) :
    spaceLen (UInt8.ofNat k :: rest) = 0 := by
  have hw : ¬ (((0x09 : UInt8) ≤ UInt8.ofNat k ∧ UInt8.ofNat k ≤ 0x0D) ∨ UInt8.ofNat k = 0x20) := by
    rw [le_ofNat_iff hk, ofNat_le_iff hk, ofNat_eq_iff hk]
    exact h
  have hc2 : UInt8.ofNat k ≠ 0xC2 := by
    rw [Ne, ofNat_eq_iff hk]
    exact h2
  have he1 : UInt8.ofNat k ≠ 0xE1 := by
    rw [Ne, ofNat_eq_iff hk]
    show ¬ k = 225
    omega
  have he2 : UInt8.ofNat k ≠ 0xE2 := by
    rw [Ne, ofNat_eq_iff hk]
    show ¬ k = 226
    omega
  have he3 : UInt8.ofNat k ≠ 0xE3 := by
    rw [Ne, ofNat_eq_iff hk]
    show ¬ k = 227
    omega
  unfold spaceLen
  dsimp only
  rw [if_neg hw, if_neg hc2]
  split
  · rw [if_neg]
    rintro (h | h | h | h)
    · exact he1 h.1
    · exact he2 h.1
    · exact he2 h.1
    · exact he3 h.1
  · rfl

theorem spaceLen_two {a b : Nat} (ha : a < 256) (hb : b < 256) (rest : Bytes) (hlow : 0x80 ≤ a)
    (h : ¬ (a = 0xC2 ∧ (b = 0x85 ∨ b = 0xA0))) (h3 : a < 0xE1) :
    spaceLen (UInt8.ofNat a :: UInt8.ofNat b :: rest) = 0 := by
  by_cases h2 : a = 0xC2
  · subst h2
    have hb' : ¬ (UInt8.ofNat b = 0x85 ∨ UInt8.ofNat b = 0xA0) := by
      rw [ofNat_eq_iff hb, ofNat_eq_iff hb]
      exact fun hor => h ⟨rfl, hor⟩
    have hlead : UInt8.ofNat 0xC2 = 0xC2 := rfl
    rw [hlead, spaceLen, if_neg (by decide), if_pos rfl]
    exact if_neg hb'
  · exact spaceLen_other ha _ (by omega) h2 (Or.inl h3)

theorem spaceLen_three {a b c : Nat} (ha : a < 256) (hb : b < 256) (hc : c < 256) (rest : Bytes)
    (hlow : 0xE0 ≤ a)
    (h : ¬ ((a = 0xE1 ∧ b = 0x9A ∧ c = 0x80)
      ∨ (a = 0xE2 ∧ b = 0x80 ∧ ((0x80 ≤ c ∧ c ≤ 0x8A) ∨ c = 0xA8 ∨ c = 0xA9 ∨ c = 0xAF))
      ∨ (a = 0xE2 ∧ b = 0x81 ∧ c = 0x9F) ∨ (a = 0xE3 ∧ b = 0x80 ∧ c = 0x80))) :
    spaceLen (UInt8.ofNat a :: UInt8.ofNat b :: UInt8.ofNat c :: rest) = 0 := by
  have hw : ¬ (((0x09 : UInt8) ≤ UInt8.ofNat a ∧ UInt8.ofNat a ≤ 0x0D) ∨ UInt8.ofNat a = 0x20) := by
    rw [le_ofNat_iff ha, ofNat_le_iff ha, ofNat_eq_iff ha]
    show ¬ ((9 ≤ a ∧ a ≤ 13) ∨ a = 32)
    omega
  have hc2 : UInt8.ofNat a ≠ 0xC2 := by
    rw [Ne, ofNat_eq_iff ha]
    show ¬ a = 194
    omega
  unfold spaceLen
  dsimp only
  rw [if_neg hw, if_neg hc2, if_neg]
  simp only [ofNat_eq_iff ha, ofNat_eq_iff hb, ofNat_eq_iff hc, le_ofNat_iff hc, ofNat_le_iff hc]
  exact h

/-- White space starts nowhere in the bytes, whatever follows them. -/
def Solid (t : Bytes) : Prop := ∀ rest n, n < t.length → spaceLen ((t ++ rest).drop n) = 0

theorem Solid.append {t u : Bytes} (ht : Solid t) (hu : Solid u) : Solid (t ++ u) := by
  intro rest n hn
  by_cases hlt : n < t.length
  · rw [List.append_assoc]
    exact ht (u ++ rest) n hlt
  · rw [List.append_assoc, List.drop_append, List.drop_eq_nil_of_le (Nat.le_of_not_lt hlt),
      List.nil_append]
    rw [List.length_append] at hn
    exact hu rest _ (by omega)

theorem Solid.token {t : Bytes} (h : Solid t) (hne : t ≠ []) : Token t := by
  refine ⟨hne, fun n hn => ?_⟩
  have := h [] n hn
  rwa [List.append_nil] at this

/-- A character that is not white space for Go is solid. -/
theorem solid_utf8Encode {r : Nat} (hr : r < 0x110000) (h : ¬ GoSpace r) :
    Solid (utf8Encode r) := by
  rw [GoSpace] at h
  intro rest n hn
  unfold utf8Encode at hn ⊢
  split at hn
  · next h1 =>
      rw [if_pos h1]
      have hn0 : n = 0 := by simpa using hn
      subst hn0
      exact spaceLen_other (by omega) rest (by omega) (by omega) (by omega)
  next h1 =>
  split at hn
  · next h2 =>
      rw [if_neg h1, if_pos h2]
      rcases n with _ | _ | n
      · exact spaceLen_two (by omega) (by omega) rest (by omega) (by omega) (by omega)
      · exact spaceLen_other (by omega) rest (by omega) (by omega) (by omega)
      · simp only [List.length_cons, List.length_nil] at hn
        omega
  next h2 =>
  split at hn
  · next h3 =>
      rw [if_neg h1, if_neg h2, if_pos h3]
      rcases n with _ | _ | _ | n
      · exact spaceLen_three (by omega) (by omega) (by omega) rest (by omega) (by omega)
      · exact spaceLen_other (by omega) _ (by omega) (by omega) (by omega)
      · exact spaceLen_other (by omega) rest (by omega) (by omega) (by omega)
      · simp only [List.length_cons, List.length_nil] at hn
        omega
  · next h3 =>
      rw [if_neg h1, if_neg h2, if_neg h3]
      rcases n with _ | _ | _ | _ | n
      · exact spaceLen_other (by omega) _ (by omega) (by omega) (by omega)
      · exact spaceLen_other (by omega) _ (by omega) (by omega) (by omega)
      · exact spaceLen_other (by omega) _ (by omega) (by omega) (by omega)
      · exact spaceLen_other (by omega) rest (by omega) (by omega) (by omega)
      · simp only [List.length_cons, List.length_nil] at hn
        omega

theorem utf8Encode_ne_nil (r : Nat) : utf8Encode r ≠ [] := by
  unfold utf8Encode
  split
  · exact List.cons_ne_nil _ _
  split
  · exact List.cons_ne_nil _ _
  split
  · exact List.cons_ne_nil _ _
  · exact List.cons_ne_nil _ _

/-! ## Accepted strings -/

/-- A code unit that is white space neither for JavaScript nor U+0085. -/
theorem not_goSpace_of_unit {u : UInt16} (h : jsSpace u = false) (h85 : u ≠ 0x85) :
    ¬ GoSpace u.toNat := by
  rw [jsSpace, decide_eq_false_iff_not] at h
  simp only [← UInt16.toNat_inj, UInt16.le_iff_toNat_le, Ne] at h h85
  intro hspace
  apply h
  rw [GoSpace] at hspace
  rcases hspace with h' | h' | h' | h' | h' | h' | h' | h' | h' | h' | h'
  · exact Or.inl h'
  · exact Or.inr (Or.inl h')
  · exact absurd h' h85
  all_goals simp_all

theorem solid_unitBytes {u : UInt16} (h : jsSpace u = false) (h85 : u ≠ 0x85) :
    Solid (unitBytes u) := by
  unfold unitBytes
  split
  · have henc : Utf8.replacement = utf8Encode 0xFFFD := by decide
    rw [henc]
    exact solid_utf8Encode (by decide) (by rw [GoSpace]; decide)
  · have hlt := u.toNat_lt
    exact solid_utf8Encode (by omega) (not_goSpace_of_unit h h85)

theorem unitBytes_ne_nil (u : UInt16) : unitBytes u ≠ [] := by
  unfold unitBytes
  split
  · exact List.cons_ne_nil _ _
  · exact utf8Encode_ne_nil _

theorem joinSurrogates_some {u v r : Nat} (h : joinSurrogates u v = some r) :
    0x10000 ≤ r ∧ r < 0x110000 ∧ 0xDC00 ≤ v := by
  unfold joinSurrogates at h
  split at h
  · next hc =>
      simp only [Bool.and_eq_true, decide_eq_true_eq] at hc
      cases h
      omega
  · cases h

theorem bufferOf_ne_nil {t : List UInt16} (h : t ≠ []) : bufferOf t ≠ [] := by
  unfold bufferOf
  split
  · exact absurd rfl h
  · exact unitBytes_ne_nil _
  · split
    · simp [utf8Encode_ne_nil]
    · simp [unitBytes_ne_nil]

/-- The bytes of a string without white space are solid. -/
theorem solid_bufferOf {t : List UInt16} (h : ∀ u ∈ t, jsSpace u = false) (h85 : 0x85 ∉ t) :
    Solid (bufferOf t) := by
  have hunit : ∀ u ∈ t, u ≠ 0x85 := fun u hu heq => h85 (heq ▸ hu)
  clear h85
  fun_induction bufferOf t with
  | case1 => exact fun rest n hn => absurd hn (Nat.not_lt_zero n)
  | case2 u => exact solid_unitBytes (h u (by simp)) (hunit u (by simp))
  | case3 u v rest r hr ih =>
      obtain ⟨hlow, hhigh, _⟩ := joinSurrogates_some hr
      refine Solid.append (solid_utf8Encode hhigh ?_) (ih ?_ ?_)
      · rw [GoSpace]
        omega
      · exact fun u' hu' => h u' (by simp [hu'])
      · exact fun u' hu' => hunit u' (by simp [hu'])
  | case4 u v rest hr ih =>
      refine Solid.append (solid_unitBytes (h u (by simp)) (hunit u (by simp))) (ih ?_ ?_)
      · exact fun u' hu' => h u' (List.mem_cons_of_mem u hu')
      · exact fun u' hu' => hunit u' (List.mem_cons_of_mem u hu')

/-- U+0085 in UTF-8. -/
def nel : Bytes := [0xC2, 0x85]

theorem nel_eq : nel = unitBytes 0x85 := by decide

theorem nel_infix_bufferOf {t : List UInt16} (h85 : 0x85 ∈ t) : nel <:+: bufferOf t := by
  fun_induction bufferOf t with
  | case1 => cases h85
  | case2 u =>
      cases List.mem_singleton.mp h85
      rw [nel_eq]
  | case3 u v rest r hr ih =>
      have hv := (joinSurrogates_some hr).2.2
      rcases List.mem_cons.mp h85 with rfl | h85
      · simp [joinSurrogates] at hr
      rcases List.mem_cons.mp h85 with rfl | h85
      · simp at hv
      · exact (ih h85).trans (List.suffix_append _ _).isInfix
  | case4 u v rest hr ih =>
      rcases List.mem_cons.mp h85 with rfl | h85
      · rw [nel_eq]
        exact (List.prefix_append _ _).isInfix
      · exact (ih h85).trans (List.suffix_append _ _).isInfix

/-! ## What the server reads -/

/-- A token in the making can go on with the bytes that follow without becoming one with U+0085
in it. -/
def Clean (cur more : Bytes) : Prop :=
  ¬ nel <:+: cur ∧ ¬ (cur.getLast? = some 0xC2 ∧ more.head? = some 0x85)

theorem nel_infix_snoc {cur : Bytes} {b : UInt8} (h : nel <:+: cur ++ [b]) :
    nel <:+: cur ∨ cur.getLast? = some 0xC2 ∧ b = 0x85 := by
  obtain ⟨s, t, hst⟩ := h
  rcases List.eq_nil_or_concat t with rfl | ⟨t', c, rfl⟩
  · right
    rw [List.append_nil, nel, show ([0xC2, 0x85] : Bytes) = [0xC2] ++ [0x85] from rfl,
      ← List.append_assoc] at hst
    obtain ⟨hs, hb⟩ := List.append_inj' hst rfl
    rw [← hs]
    exact ⟨by simp, (List.cons.inj hb).1.symm⟩
  · left
    rw [List.concat_eq_append, ← List.append_assoc] at hst
    exact ⟨s, t', (List.append_inj' hst rfl).1⟩

/-- No field holds U+0085. -/
theorem fieldsFrom_clean {k : Nat} {cur more : Bytes} (h : Clean cur (more.drop k)) :
    ∀ f ∈ fieldsFrom k cur more, ¬ nel <:+: f := by
  induction more generalizing k cur with
  | nil =>
      intro f hf
      rw [show fieldsFrom k cur [] = endToken cur [] by cases k <;> rfl, endToken] at hf
      split at hf
      · cases hf
      · rw [List.mem_singleton.mp hf]
        exact h.1
  | cons b rest ih =>
      cases k with
      | succ k => exact ih h
      | zero =>
          intro f hf
          rw [fieldsFrom] at hf
          split at hf
          · next hzero =>
              refine ih ⟨fun hnel => ?_, ?_⟩ f hf
              · rcases nel_infix_snoc hnel with hnel | ⟨hlast, rfl⟩
                · exact h.1 hnel
                · exact h.2 ⟨hlast, rfl⟩
              · rintro ⟨hlast, hhead⟩
                rw [List.getLast?_concat] at hlast
                cases hlast
                cases rest with
                | nil => cases hhead
                | cons c rest =>
                    cases hhead
                    simp [spaceLen] at hzero
          · next n hlen =>
              rw [endToken] at hf
              have hstart : Clean [] (rest.drop n) := ⟨by simp [nel], by simp⟩
              split at hf
              · exact ih hstart f hf
              · rcases List.mem_cons.mp hf with rfl | hf
                · exact h.1
                · exact ih hstart f hf

theorem Word.toLower_text (w : Word) : toLower w.text = w.text := by
  cases w with
  | line cmd => cases cmd <;> rfl
  | put => rfl
  | putex => rfl
  | putx => rfl

/-- The line of a command: its word, tokens and numbers. -/
def commandLine (w : Word) (tokens : List (List UInt16)) (numbers : List Nat) : Bytes :=
  joinTokens (w.text :: (tokens.map bufferOf ++ numbers.map natDigits))

theorem token_of_accepted {t : List UInt16} (h : assertToken t = true) (h85 : 0x85 ∉ t) :
    Token (bufferOf t) := by
  rw [assertToken, Bool.and_eq_true, Bool.not_eq_true', Bool.not_eq_true', List.any_eq_false] at h
  refine (solid_bufferOf (fun u hu => Bool.not_eq_true _ ▸ h.2 u hu) h85).token (bufferOf_ne_nil ?_)
  rintro rfl
  simp at h

theorem token_natDigits (n : Nat) : Token (natDigits n) := by
  refine ⟨natDigits_ne_nil n, fun i hi => ?_⟩
  rw [List.drop_eq_getElem_cons hi]
  exact spaceLen_digit (natDigits_digits n _ (List.getElem_mem hi))

/-- The server recovers the tokens of a line the client built from strings that it accepts, and
from numbers, if and only if no string holds U+0085. -/
theorem client_tokens_recovered_iff (w : Word) (tokens : List (List UInt16)) (numbers : List Nat)
    (haccepted : ∀ t ∈ tokens, assertToken t = true) :
    splitCommand (commandLine w tokens numbers)
        = (w.text, tokens.map bufferOf ++ numbers.map natDigits)
      ↔ ∀ t ∈ tokens, 0x85 ∉ t := by
  constructor
  · intro hsplit t ht h85
    rw [splitCommand] at hsplit
    split at hsplit
    · next hfields =>
        have hargs : [] = tokens.map bufferOf ++ numbers.map natDigits := congrArg Prod.snd hsplit
        have hmem : bufferOf t ∈ tokens.map bufferOf ++ numbers.map natDigits :=
          List.mem_append_left _ (List.mem_map_of_mem ht)
        rw [← hargs] at hmem
        cases hmem
    · next word args hfields =>
        have hargs := congrArg Prod.snd hsplit
        have hmem : bufferOf t ∈ args := by
          rw [show args = _ from hargs]
          exact List.mem_append_left _ (List.mem_map_of_mem ht)
        have hclean : Clean [] ((commandLine w tokens numbers).drop 0) := ⟨by simp [nel], by simp⟩
        refine fieldsFrom_clean hclean (bufferOf t) ?_ (nel_infix_bufferOf h85)
        show bufferOf t ∈ fields (commandLine w tokens numbers)
        rw [hfields]
        exact List.mem_cons_of_mem _ hmem
  · intro hnone
    rw [splitCommand, commandLine, fields_joinTokens]
    · exact congrArg (·, _) (Word.toLower_text w)
    intro t ht
    rcases List.mem_cons.mp ht with rfl | ht
    · exact w.token_text
    rcases List.mem_append.mp ht with ht | ht
    · obtain ⟨s, hs, rfl⟩ := List.mem_map.mp ht
      exact token_of_accepted (haccepted s hs) (hnone s hs)
    · obtain ⟨n, _, rfl⟩ := List.mem_map.mp ht
      exact token_natDigits n

/-- The line of a `put` frame with a key that has a non-breaking hyphen. -/
theorem put_key_recovered :
    (∀ t ∈ [[(0x61 : UInt16), 0x2011]], assertToken t = true) ∧
      (splitCommand (commandLine .put [[0x61, 0x2011]] [2])
          = (Word.put.text, [[0x61, 0x2011]].map bufferOf ++ [2].map natDigits)
        ↔ ∀ t ∈ [[(0x61 : UInt16), 0x2011]], 0x85 ∉ t) :=
  ⟨by simp [assertToken, jsSpace],
    client_tokens_recovered_iff .put [[0x61, 0x2011]] [2] (by simp [assertToken, jsSpace])⟩

/-- The client accepts a key with U+0085 in it, and the server reads two arguments for it: the put
frame becomes an inline put. -/
theorem next_line_splits_key :
    assertToken [0x61, 0x85, 0x62] = true ∧
      (splitCommand (commandLine .put [[0x61, 0x85, 0x62]] [2])).2 = [[0x61], [0x62], [0x32]] := by
  refine ⟨by simp [assertToken, jsSpace], ?_⟩
  decide +kernel

end NteeDb.Properties.ClientTokens
