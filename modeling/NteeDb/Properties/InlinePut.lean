import NteeDb.Server.Framing

/-!
# The value of an inline put

An inline `put` takes its key from `strings.Fields` and its value from `restAfterTokens`, a scan
that knows only the space character.  Here the value is compared with the rest of the line from
its third field on, as `strings.Fields` sees the fields.
-/

namespace NteeDb.Properties.InlinePut

open NteeDb.Net NteeDb.Verified

/-! ## Fields and the text they start -/

/-- Skip white space, the first `k` bytes being part of it. -/
def skipSpaceFrom : Nat → Bytes → Bytes
  | _, [] => []
  | k + 1, _ :: rest => skipSpaceFrom k rest
  | 0, b :: rest =>
      match spaceLen (b :: rest) with
      | 0 => b :: rest
      | n + 1 => skipSpaceFrom n rest

/-- Skip to the next white space. -/
def skipField : Bytes → Bytes
  | [] => []
  | b :: rest => if spaceLen (b :: rest) = 0 then skipField rest else b :: rest

/-- The text from the field number `n` on. -/
def fromField : Nat → Bytes → Bytes
  | 0, line => skipSpaceFrom 0 line
  | n + 1, line => fromField n (skipField (skipSpaceFrom 0 line))

theorem fieldsFrom_skipSpace (k : Nat) (line : Bytes) :
    fieldsFrom k [] line = fields (skipSpaceFrom k line) := by
  induction line generalizing k with
  | nil => cases k <;> rfl
  | cons b rest ih =>
      cases k with
      | succ k => exact ih k
      | zero =>
          cases hlen : spaceLen (b :: rest) with
          | zero => rw [skipSpaceFrom, hlen, fields]
          | succ n =>
              rw [fieldsFrom, skipSpaceFrom, hlen]
              exact (if_pos rfl).trans (ih n)

theorem spaceLen_skipSpace (k : Nat) (line : Bytes) : spaceLen (skipSpaceFrom k line) = 0 := by
  induction line generalizing k with
  | nil => cases k <;> rfl
  | cons b rest ih =>
      cases k with
      | succ k => exact ih k
      | zero =>
          rw [skipSpaceFrom]
          split
          · next hzero => exact hzero
          · next n hlen => exact ih n

theorem skipSpace_suffix (k : Nat) (line : Bytes) : skipSpaceFrom k line <:+ line := by
  induction line generalizing k with
  | nil => cases k <;> exact List.suffix_rfl
  | cons b rest ih =>
      cases k with
      | succ k => exact (ih k).trans (List.suffix_cons b rest)
      | zero =>
          rw [skipSpaceFrom]
          split
          · exact List.suffix_rfl
          · next n hlen => exact (ih n).trans (List.suffix_cons b rest)

theorem skipField_suffix (line : Bytes) : skipField line <:+ line := by
  induction line with
  | nil => exact List.suffix_rfl
  | cons b rest ih =>
      rw [skipField]
      split
      · exact ih.trans (List.suffix_cons b rest)
      · exact List.suffix_rfl

theorem fieldsFrom_field {cur : Bytes} (hcur : cur ≠ []) (line : Bytes) :
    (fieldsFrom 0 cur line).tail = fields (skipField line) := by
  induction line generalizing cur with
  | nil =>
      rw [fieldsFrom, endToken, if_neg hcur]
      rfl
  | cons b rest ih =>
      rw [fieldsFrom, skipField]
      cases hlen : spaceLen (b :: rest) with
      | zero =>
          rw [if_pos rfl]
          exact ih (by simp)
      | succ n =>
          rw [if_neg (Nat.succ_ne_zero n)]
          dsimp only
          rw [endToken, if_neg hcur, List.tail_cons, fields, fieldsFrom, hlen]
          rfl

theorem fields_skipField {line : Bytes} (h : spaceLen line = 0) :
    fields (skipField line) = (fields line).tail := by
  cases line with
  | nil => rfl
  | cons b rest =>
      have hfirst : fields (b :: rest) = fieldsFrom 0 [b] rest := by
        rw [fields, fieldsFrom, h]
        rfl
      rw [hfirst, fieldsFrom_field (List.cons_ne_nil b []), skipField, if_pos h]

/-- The fields of the text from a field on are the fields from there on. -/
theorem fields_fromField (n : Nat) (line : Bytes) :
    fields (fromField n line) = (fields line).drop n := by
  induction n generalizing line with
  | zero => exact (fieldsFrom_skipSpace 0 line).symm
  | succ n ih =>
      have hskip : fields line = fields (skipSpaceFrom 0 line) := fieldsFrom_skipSpace 0 line
      rw [fromField, ih, fields_skipField (spaceLen_skipSpace 0 line), hskip, ← List.drop_one,
        List.drop_drop, Nat.add_comm]

theorem spaceLen_fromField (n : Nat) (line : Bytes) : spaceLen (fromField n line) = 0 := by
  induction n generalizing line with
  | zero => exact spaceLen_skipSpace 0 line
  | succ n ih => exact ih _

theorem fromField_suffix (n : Nat) (line : Bytes) : fromField n line <:+ line := by
  induction n generalizing line with
  | zero => exact skipSpace_suffix 0 line
  | succ n ih => exact (ih _).trans ((skipField_suffix _).trans (skipSpace_suffix 0 line))

/-! ## Words between spaces -/

/-- Spaces, a word without spaces, and at least one space. -/
def SpacedWord (text : Bytes) : Prop :=
  ∃ i word k, text = List.replicate i space ++ word ++ List.replicate (k + 1) space
    ∧ word ≠ [] ∧ space ∉ word

/-- Two words, each followed by spaces, as read by the space character alone. -/
def TwoWords (text : Bytes) : Prop := ∃ a b, text = a ++ b ∧ SpacedWord a ∧ SpacedWord b

theorem dropWhile_spaces (i : Nat) {more : Bytes} (h : more.head? ≠ some space) :
    (List.replicate i space ++ more).dropWhile (· = space) = more := by
  induction i with
  | zero =>
      cases more with
      | nil => rfl
      | cons b more =>
          have hb : b ≠ space := fun heq => h (by rw [heq]; rfl)
          simp [hb]
  | succ i ih =>
      rw [List.replicate_succ, List.cons_append, List.dropWhile_cons, if_pos (by simp)]
      exact ih

theorem dropWhile_word {word : Bytes} (h : space ∉ word) (more : Bytes) :
    (word ++ space :: more).dropWhile (· ≠ space) = space :: more := by
  induction word with
  | nil => simp
  | cons b word ih =>
      have hb : b ≠ space := fun heq => h (heq ▸ List.mem_cons_self)
      rw [List.cons_append, List.dropWhile_cons, if_pos (by simpa using hb)]
      exact ih fun hmem => h (List.mem_cons_of_mem b hmem)

theorem restAfterTokens_spaces (n i : Nat) (more : Bytes) :
    restAfterTokens n (List.replicate i space ++ more) = restAfterTokens n more := by
  have hdrop : (List.replicate i space ++ more).dropWhile (· = space)
      = more.dropWhile (· = space) := by
    induction i with
    | zero => rfl
    | succ i ih =>
        rw [List.replicate_succ, List.cons_append, List.dropWhile_cons, if_pos (by simp), ih]
  cases n with
  | zero => exact hdrop
  | succ n => rw [restAfterTokens, restAfterTokens, hdrop]

/-- Passing a word. -/
theorem restAfterTokens_word (n : Nat) {text : Bytes} (h : SpacedWord text) (more : Bytes) :
    restAfterTokens (n + 1) (text ++ more) = restAfterTokens n more := by
  obtain ⟨i, word, k, rfl, hne, hword⟩ := h
  have hhead : (word ++ (List.replicate (k + 1) space ++ more)).head? ≠ some space := by
    obtain ⟨b, rest, rfl⟩ := List.exists_cons_of_ne_nil hne
    intro heq
    exact hword (by rw [← Option.some.inj heq]; exact List.mem_cons_self)
  rw [List.append_assoc, List.append_assoc, restAfterTokens, dropWhile_spaces i hhead,
    List.replicate_succ, List.cons_append, dropWhile_word hword]
  exact restAfterTokens_spaces n k more

theorem split_spaces (line : Bytes) : ∃ i, line
    = List.replicate i space ++ line.dropWhile (· = space) ∧
      (line.dropWhile (· = space)).head? ≠ some space := by
  induction line with
  | nil => exact ⟨0, rfl, by simp⟩
  | cons b line ih =>
      by_cases hb : b = space
      · obtain ⟨i, hi, hhead⟩ := ih
        have hdrop : (b :: line).dropWhile (· = space) = line.dropWhile (· = space) := by
          rw [List.dropWhile_cons, if_pos (by simpa using hb)]
        rw [hdrop]
        refine ⟨i + 1, ?_, hhead⟩
        rw [List.replicate_succ, List.cons_append, ← hi, hb]
      · have hdrop : (b :: line).dropWhile (· = space) = b :: line := by
          rw [List.dropWhile_cons, if_neg (by simpa using hb)]
        rw [hdrop]
        exact ⟨0, rfl, fun heq => hb (Option.some.inj heq)⟩

theorem split_word (line : Bytes) : ∃ word, line = word ++ line.dropWhile (· ≠ space) ∧
    space ∉ word ∧ ∀ c rest, line.dropWhile (· ≠ space) = c :: rest → c = space := by
  induction line with
  | nil => exact ⟨[], rfl, List.not_mem_nil, by simp⟩
  | cons b line ih =>
      by_cases hb : b = space
      · have hdrop : (b :: line).dropWhile (· ≠ space) = b :: line := by
          rw [List.dropWhile_cons, if_neg (by simpa using hb)]
        rw [hdrop]
        exact ⟨[], rfl, List.not_mem_nil, fun c rest heq => (List.cons.inj heq).1.symm.trans hb⟩
      · obtain ⟨word, hword, hspace, hnext⟩ := ih
        have hdrop : (b :: line).dropWhile (· ≠ space) = line.dropWhile (· ≠ space) := by
          rw [List.dropWhile_cons, if_pos (by simpa using hb)]
        rw [hdrop]
        refine ⟨b :: word, by rw [List.cons_append, ← hword], ?_, hnext⟩
        rw [List.mem_cons, not_or]
        exact ⟨fun heq => hb heq.symm, hspace⟩

/-- What is left after a word, if anything, was behind a word. -/
theorem exists_word (n : Nat) {line r : Bytes} (h : restAfterTokens (n + 1) line = r)
    (hr : r ≠ []) : ∃ text more, line = text ++ more ∧ SpacedWord text ∧ restAfterTokens n more = r
      ∧ more.head? ≠ some space := by
  obtain ⟨i, hi, hhead⟩ := split_spaces line
  obtain ⟨word, hword, hspace, hnext⟩ := split_word (line.dropWhile (· = space))
  rw [restAfterTokens] at h
  cases hrest : (line.dropWhile (· = space)).dropWhile (· ≠ space) with
  | nil =>
      rw [hrest] at h
      exact absurd h.symm hr
  | cons c rest =>
      rw [hrest] at h
      cases hnext c rest hrest
      obtain ⟨k, hk, hmore⟩ := split_spaces rest
      refine ⟨List.replicate i space ++ word ++ List.replicate (k + 1) space,
        rest.dropWhile (· = space), ?_, ⟨i, word, k, rfl, ?_, hspace⟩, ?_, hmore⟩
      · rw [hrest] at hword
        rw [List.append_assoc, List.append_assoc, List.replicate_succ, List.cons_append, ← hk,
          ← hword, ← hi]
      · rintro rfl
        rw [hrest, List.nil_append] at hword
        exact hhead (by rw [hword]; rfl)
      · rw [← restAfterTokens_spaces n k, ← hk]
        exact h

/-- The scan by spaces ends at a text if and only if two words are in front of it. -/
theorem restAfterTokens_two_iff (before : Bytes) {rest : Bytes} (hne : rest ≠ [])
    (hhead : rest.head? ≠ some space) :
    restAfterTokens 2 (before ++ rest) = rest ↔ TwoWords before := by
  constructor
  · intro h
    obtain ⟨a, more, hline, ha, hmore, _⟩ := exists_word 1 h hne
    obtain ⟨b, last, hmore', hb, hlast, hlasthead⟩ := exists_word 0 hmore hne
    have hlast' : last = rest := by
      have hskip := dropWhile_spaces 0 hlasthead
      rw [restAfterTokens] at hlast
      rw [← hlast]
      exact hskip.symm
    subst hlast'
    refine ⟨a, b, ?_, ha, hb⟩
    rw [hmore', ← List.append_assoc] at hline
    exact List.append_cancel_right hline
  · rintro ⟨a, b, rfl, ha, hb⟩
    rw [List.append_assoc, restAfterTokens_word 1 ha, restAfterTokens_word 0 hb, restAfterTokens]
    exact dropWhile_spaces 0 hhead

/-! ## Inline puts -/

variable {δ ι : Type}

/-- What `dispatch` does with an inline `put`. -/
theorem dispatch_inline (s : Server ι) (B : Database δ ι) {line : Bytes} {c : Conn δ}
    {word key tok : Bytes} {more : List Bytes} (hfields : fields line = word :: key :: tok :: more)
    (hput : toLower word = Word.put.text) (hauth : c.sess.st.authed = true)
    (hinline : more = [] → parseInt64 tok = none) :
    s.dispatch B line c = c.run (call (B.put key (restAfterTokens 2 line) none) done) := by
  have hsplit : splitCommand line = (Word.put.text, key :: tok :: more) := by
    rw [splitCommand, hfields, ← hput]
  have hparse : Word.parse Word.put.text = some .put := by decide
  rw [Server.dispatch, hsplit]
  dsimp only
  rw [hparse]
  dsimp only
  rw [if_neg (by rw [hauth]; exact Bool.noConfusion)]
  cases more with
  | nil => rw [Server.putCommand, hinline rfl]
  | cons m more => rw [Server.putCommand]

/-- An inline `put` stores, under the second field of the line, the line from its third field on if
and only if the text before that field is two words in the reading by spaces alone. -/
theorem inline_put_value_iff (s : Server ι) (B : Database δ ι) {line : Bytes} {c : Conn δ}
    {word key tok : Bytes} {more : List Bytes} (hfields : fields line = word :: key :: tok :: more)
    (hput : toLower word = Word.put.text) (hauth : c.sess.st.authed = true)
    (hinline : more = [] → parseInt64 tok = none) :
    ∃ before value, line = before ++ fromField 2 line ∧
      fields (fromField 2 line) = tok :: more ∧
      s.dispatch B line c = c.run (call (B.put key value none) done) ∧
      (value = fromField 2 line ↔ TwoWords before) := by
  obtain ⟨before, hbefore⟩ := fromField_suffix 2 line
  have hthird : fields (fromField 2 line) = tok :: more := by
    rw [fields_fromField, hfields]
    rfl
  have hne : fromField 2 line ≠ [] := by
    intro hnil
    rw [hnil] at hthird
    cases hthird
  have hhead : (fromField 2 line).head? ≠ some space := by
    intro heq
    have hlen := spaceLen_fromField 2 line
    obtain ⟨rest, hrest⟩ : ∃ rest, fromField 2 line = space :: rest := by
      cases hf : fromField 2 line with
      | nil => exact absurd hf hne
      | cons b rest =>
          rw [hf] at heq
          cases heq
          exact ⟨rest, rfl⟩
    rw [hrest, spaceLen_white rest (by decide)] at hlen
    cases hlen
  have hscan := restAfterTokens_two_iff before hne hhead
  rw [hbefore] at hscan
  exact ⟨before, restAfterTokens 2 line, hbefore.symm, hthird,
    dispatch_inline s B hfields hput hauth hinline, hscan⟩

/-- An authenticated session with an empty store, on a connection that has nothing more to
deliver. -/
def loggedIn : Conn (List (Bytes × Bytes)) := ⟨⟨[], []⟩, ⟨true, .user⟩, ⟨1, 1, 0, 0, 0⟩, []⟩

/-- `put k a b` with spaces. -/
def spacedLine : Bytes := ascii ['p', 'u', 't', ' ', 'k', ' ', 'a', ' ', 'b']

/-- The same with a tab in front of the key. -/
def tabbedLine : Bytes := ascii ['p', 'u', 't', '\t', 'k', ' ', 'a', ' ', 'b']

/-- What the store holds after a line. -/
def storedBy (line : Bytes) : List (Bytes × Bytes) :=
  (Server.withPassword.dispatch .recording line loggedIn).2.sess.db

/-- The line with spaces stores `a b`. -/
theorem spaced_line_value : (∃ before value, spacedLine = before ++ fromField 2 spacedLine ∧
    fields (fromField 2 spacedLine) = [[0x61], [0x62]] ∧
    Server.withPassword.dispatch .recording spacedLine loggedIn
      = loggedIn.run (call (Database.recording.put [0x6B] value none) done) ∧
    (value = fromField 2 spacedLine ↔ TwoWords before)) ∧
    storedBy spacedLine = [([0x6B], [0x61, 0x20, 0x62])] :=
  ⟨@inline_put_value_iff _ Unit Server.withPassword .recording spacedLine loggedIn
    (ascii ['p', 'u', 't']) [0x6B] [0x61] [[0x62]] (by decide) (by decide) rfl (by rintro ⟨⟩),
    by decide⟩

/-- With the tab the fields are the same, and the store holds `b` alone. -/
theorem tabbed_line_truncates :
    fields tabbedLine = fields spacedLine ∧ fromField 2 tabbedLine = [0x61, 0x20, 0x62] ∧
      storedBy tabbedLine = [([0x6B], [0x62])] := by
  decide

end NteeDb.Properties.InlinePut
