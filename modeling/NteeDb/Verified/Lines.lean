import NteeDb.Verified.Utf8

/-!
# Newline-terminated lines

A byte string is a sequence of complete lines, each ended by a newline, and a
tail without one.  `splitLines` is that decomposition, `joinLines` its inverse.
-/

namespace NteeDb.Verified.Lines

/-- The line terminator. -/
abbrev newline : UInt8 := 0x0A

/-- Put one byte in front of a decomposition. -/
def pushByte (b : UInt8) : List Bytes × Bytes → List Bytes × Bytes
  | ([], tail) => ([], b :: tail)
  | (l :: ls, tail) => ((b :: l) :: ls, tail)

/-- The complete lines, without their terminators, and the tail. -/
def splitLines : Bytes → List Bytes × Bytes
  | [] => ([], [])
  | b :: rest =>
      if b = newline then ([] :: (splitLines rest).1, (splitLines rest).2)
      else pushByte b (splitLines rest)

/-- Write lines one after the other. -/
def joinLines : List Bytes → Bytes
  | [] => []
  | l :: ls => l ++ newline :: joinLines ls

@[simp] theorem joinLines_nil : joinLines [] = [] := rfl

theorem joinLines_cons (l : Bytes) (ls : List Bytes) :
    joinLines (l :: ls) = l ++ newline :: joinLines ls := rfl

theorem joinLines_append (xs ys : List Bytes) :
    joinLines (xs ++ ys) = joinLines xs ++ joinLines ys := by
  induction xs with
  | nil => rfl
  | cons l xs ih => simp [joinLines, ih]

theorem length_joinLines_cons (l : Bytes) (ls : List Bytes) :
    (joinLines (l :: ls)).length = l.length + 1 + (joinLines ls).length := by
  simp only [joinLines, List.length_append, List.length_cons]
  omega

/-- The bytes are their lines and their tail. -/
theorem joinLines_splitLines (s : Bytes) :
    joinLines (splitLines s).1 ++ (splitLines s).2 = s := by
  induction s with
  | nil => rfl
  | cons b rest ih =>
      rw [splitLines]
      split
      · next h => simp [joinLines, ih, h]
      · revert ih
        cases splitLines rest with
        | mk ls tail =>
            cases ls with
            | nil => simp [pushByte]
            | cons l ls => simp [pushByte, joinLines]

theorem splitLines_tail (s : Bytes) : newline ∉ (splitLines s).2 := by
  induction s with
  | nil => simp [splitLines]
  | cons b rest ih =>
      rw [splitLines]
      split
      · exact ih
      · next h =>
          revert ih
          cases splitLines rest with
          | mk ls tail =>
              cases ls with
              | nil => simp [pushByte, Ne.symm h]
              | cons l ls => exact id

theorem splitLines_lines (s : Bytes) : ∀ l ∈ (splitLines s).1, newline ∉ l := by
  induction s with
  | nil => simp [splitLines]
  | cons b rest ih =>
      rw [splitLines]
      split
      · simpa using ih
      · next h =>
          revert ih
          cases splitLines rest with
          | mk ls tail =>
              cases ls with
              | nil => simp [pushByte]
              | cons l ls =>
                  rw [pushByte, List.forall_mem_cons, List.forall_mem_cons, List.mem_cons, not_or]
                  exact fun ⟨hl, hls⟩ => ⟨⟨Ne.symm h, hl⟩, hls⟩

private theorem splitLines_of_not_mem {s : Bytes} (h : newline ∉ s) : splitLines s = ([], s) := by
  induction s with
  | nil => rfl
  | cons b rest ih =>
      simp only [List.mem_cons, not_or] at h
      rw [splitLines, if_neg (Ne.symm h.1), ih h.2, pushByte]

private theorem splitLines_line {l : Bytes} (hl : newline ∉ l) (rest : Bytes) :
    splitLines (l ++ newline :: rest) = (l :: (splitLines rest).1, (splitLines rest).2) := by
  induction l with
  | nil => simp [splitLines]
  | cons b l ih =>
      simp only [List.mem_cons, not_or] at hl
      rw [List.cons_append, splitLines, if_neg (Ne.symm hl.1), ih hl.2, pushByte]

/-- Lines and a tail without newlines are the decomposition of what they join to. -/
theorem splitLines_joinLines {ls : List Bytes} {tail : Bytes} (hls : ∀ l ∈ ls, newline ∉ l)
    (htail : newline ∉ tail) : splitLines (joinLines ls ++ tail) = (ls, tail) := by
  induction ls with
  | nil => exact splitLines_of_not_mem htail
  | cons l ls ih =>
      rw [List.forall_mem_cons] at hls
      rw [joinLines_cons, List.append_assoc, List.cons_append, splitLines_line hls.1, ih hls.2]

/-- A text cut at a byte keeps its longest wholly present prefix of lines, and a tail
of the next one. -/
theorem splitLines_take {ls : List Bytes} (hls : ∀ l ∈ ls, newline ∉ l) {c k : Nat}
    (hk : (joinLines (ls.take k)).length ≤ c)
    (hmax : k < ls.length → c < (joinLines (ls.take (k + 1))).length) :
    (splitLines ((joinLines ls).take c)).1 = ls.take k := by
  have hkeep : ∀ l ∈ ls.take k, newline ∉ l := fun l hl => hls l (List.mem_of_mem_take hl)
  have hcut : (joinLines ls).take c
      = joinLines (ls.take k) ++ (joinLines (ls.drop k)).take
      (c - (joinLines (ls.take k)).length) := by
    conv_lhs => rw [← List.take_append_drop k ls, joinLines_append]
    rw [List.take_append, List.take_of_length_le hk]
  rw [hcut, splitLines_joinLines hkeep]
  by_cases hlt : k < ls.length
  · rw [List.drop_eq_getElem_cons hlt, joinLines_cons]
    have hnext := hmax hlt
    rw [List.take_succ_eq_append_getElem hlt, joinLines_append, List.length_append,
      length_joinLines_cons, joinLines_nil, List.length_nil] at hnext
    rw [List.take_append_of_le_length (by omega)]
    exact fun hmem => hls _ (List.getElem_mem hlt) (List.mem_of_mem_take hmem)
  · rw [List.drop_eq_nil_of_le (Nat.not_lt.mp hlt), joinLines_nil, List.take_nil]
    exact List.not_mem_nil

/-- Reading on: the lines so far, and then those of the tail and what follows. -/
theorem splitLines_append (xs ys : Bytes) :
    splitLines (xs ++ ys) = ((splitLines xs).1 ++ (splitLines ((splitLines xs).2 ++ ys)).1,
      (splitLines ((splitLines xs).2 ++ ys)).2) := by
  have hjoin : xs ++ ys = joinLines ((splitLines xs).1 ++ (splitLines ((splitLines xs).2 ++ ys)).1)
      ++ (splitLines ((splitLines xs).2 ++ ys)).2 := by
    rw [joinLines_append, List.append_assoc, joinLines_splitLines, ← List.append_assoc,
      joinLines_splitLines]
  have hlines : ∀ l ∈ (splitLines xs).1 ++ (splitLines ((splitLines xs).2 ++ ys)).1,
      newline ∉ l := by
    intro l hl
    rcases List.mem_append.mp hl with hl | hl
    · exact splitLines_lines xs l hl
    · exact splitLines_lines _ l hl
  rw [hjoin, splitLines_joinLines hlines (splitLines_tail _)]

/-- The complete lines of a prefix of a text are the first lines of the text. -/
theorem splitLines_prefix (xs ys : Bytes) : (splitLines xs).1 <+: (splitLines (xs ++ ys)).1 := by
  rw [splitLines_append]
  exact List.prefix_append _ _

/-- A text that ends with a newline has no tail. -/
theorem splitLines_tail_nil {s : Bytes} (h : s = [] ∨ ∃ init, s = init ++ [newline]) :
    (splitLines s).2 = [] := by
  rcases h with rfl | ⟨init, hinit⟩
  · rfl
  · have hjoin := joinLines_splitLines s
    by_contra hne
    have hlast : (joinLines (splitLines s).1 ++ (splitLines s).2).getLast? = some newline := by
      rw [hjoin, hinit, List.getLast?_concat]
    rw [List.getLast?_append_of_ne_nil _ hne] at hlast
    exact splitLines_tail s (List.mem_of_getLast? hlast)

/-! ## The first line -/

theorem not_mem_takeWhile (s : Bytes) : newline ∉ s.takeWhile (· ≠ newline) := by
  induction s with
  | nil => exact List.not_mem_nil
  | cons b rest ih =>
      by_cases hb : b = newline
      · simp [hb]
      · simpa [hb, Ne.symm hb] using ih

/-- A text with a newline is its first line, the newline and the rest. -/
theorem eq_of_newline_mem {s : Bytes} (h : newline ∈ s) :
    s = s.takeWhile (· ≠ newline) ++ newline :: (s.dropWhile (· ≠ newline)).tail := by
  induction s with
  | nil => exact absurd h List.not_mem_nil
  | cons b rest ih =>
      by_cases hb : b = newline
      · subst hb
        simp
      · have hrest : newline ∈ rest := (List.mem_cons.mp h).resolve_left (Ne.symm hb)
        simpa [hb] using ih hrest

/-- There is one first line. -/
theorem line_unique {l l' m m' : Bytes} (hl : newline ∉ l) (hl' : newline ∉ l')
    (heq : l ++ newline :: m = l' ++ newline :: m') : l = l' ∧ m = m' := by
  induction l generalizing l' with
  | nil =>
      cases l' with
      | nil => exact ⟨rfl, (List.cons.inj heq).2⟩
      | cons b l' => exact absurd ((List.cons.inj heq).1 ▸ List.mem_cons_self) hl'
  | cons b l ih =>
      cases l' with
      | nil => exact absurd ((List.cons.inj heq).1 ▸ List.mem_cons_self) hl
      | cons b' l' =>
          obtain ⟨hb, htail⟩ := List.cons.inj heq
          obtain ⟨h₁, h₂⟩ := ih (fun h => hl (List.mem_cons_of_mem _ h))
            (fun h => hl' (List.mem_cons_of_mem _ h)) htail
          exact ⟨by rw [hb, h₁], h₂⟩

end NteeDb.Verified.Lines
