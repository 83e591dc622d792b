import Mathlib.Data.List.Sort
import Mathlib.Order.Basic
import Mathlib.Tactic.Common

/-!
# Ranks in a sorted list

The rank of a value in a strictly increasing list is the number of items below it.  It is
the position at which the value stands, or would have to be inserted, and so decides
whether the value is among the first `n`.
-/

namespace NteeDb.Verified.Ranks

variable {κ : Type} [LinearOrder κ] {xs : List κ} {x : κ}

/-- The number of items below `x`. -/
def rank (xs : List κ) (x : κ) : Nat := (xs.filter fun a => a < x).length

theorem rank_cons (a : κ) (xs : List κ) (x : κ) :
    rank (a :: xs) x = (if a < x then 1 else 0) + rank xs x := by
  rw [rank, List.filter_cons]
  by_cases h : a < x
  · simp only [h, decide_true, if_true, List.length_cons, rank]
    omega
  · simp only [h, decide_false, if_false, rank]
    simp

/-- Nothing is below an item that all others are above. -/
theorem rank_eq_zero (h : ∀ a ∈ xs, ¬ a < x) : rank xs x = 0 := by
  rw [rank, List.length_eq_zero_iff, List.filter_eq_nil_iff]
  exact fun a ha => by simpa using h a ha

theorem rank_eq_zero_iff : rank xs x = 0 ↔ ∀ a ∈ xs, ¬ a < x := by
  refine ⟨fun h a ha hlt => ?_, rank_eq_zero⟩
  have hnil := List.length_eq_zero_iff.mp h
  exact List.not_mem_nil (hnil ▸ List.mem_filter.mpr ⟨ha, decide_eq_true hlt⟩)

/-- Among the first `n` are those with a rank below `n`. -/
theorem mem_take_iff (hs : xs.Pairwise (· < ·)) {n : Nat} :
    x ∈ xs.take n ↔ x ∈ xs ∧ rank xs x < n := by
  induction xs generalizing n with
  | nil => simp
  | cons a xs ih =>
      obtain ⟨ha, hs⟩ := List.pairwise_cons.mp hs
      cases n with
      | zero => simp
      | succ n =>
          rw [List.take_succ_cons, List.mem_cons, ih hs, List.mem_cons, rank_cons]
          constructor
          · rintro (rfl | ⟨hx, hr⟩)
            · have hzero : rank xs x = 0 := rank_eq_zero fun b hb => not_lt_of_gt (ha b hb)
              simp [hzero]
            · refine ⟨Or.inr hx, ?_⟩
              split <;> omega
          · rintro ⟨rfl | hx, hr⟩
            · exact Or.inl rfl
            · rw [if_pos (ha x hx)] at hr
              exact Or.inr ⟨hx, by omega⟩

/-- The item at a position is not below `x` exactly from the rank of `x` on. -/
theorem le_getElem_iff (hs : xs.Pairwise (· < ·)) {j : Nat} (hj : j < xs.length) :
    x ≤ xs[j] ↔ rank xs x ≤ j := by
  induction xs generalizing j with
  | nil => cases hj
  | cons a xs ih =>
      obtain ⟨ha, hs⟩ := List.pairwise_cons.mp hs
      rw [rank_cons]
      cases j with
      | zero =>
          rw [List.getElem_cons_zero]
          constructor
          · intro h
            have hzero : rank xs x = 0 :=
              rank_eq_zero fun b hb => not_lt_of_ge (le_of_lt (lt_of_le_of_lt h (ha b hb)))
            rw [if_neg (not_lt.mpr h), hzero]
          · intro h
            by_contra hlt
            rw [if_pos (not_le.mp hlt)] at h
            omega
      | succ j =>
          have hj' : j < xs.length := Nat.lt_of_succ_lt_succ hj
          rw [List.getElem_cons_succ, ih hs hj']
          by_cases hax : a < x
          · rw [if_pos hax]
            omega
          · have hzero : rank xs x = 0 := rank_eq_zero fun b hb =>
              not_lt_of_ge (le_of_lt (lt_of_le_of_lt (not_lt.mp hax) (ha b hb)))
            rw [if_neg hax, hzero]
            omega

/-- An item stands at its rank. -/
theorem getElem_rank (hs : xs.Pairwise (· < ·)) (hx : x ∈ xs) :
    ∃ h : rank xs x < xs.length, xs[rank xs x] = x := by
  have hlt : rank xs x < xs.length := by
    rw [← List.take_length (l := xs), mem_take_iff hs] at hx
    exact hx.2
  refine ⟨hlt, le_antisymm ?_ ((le_getElem_iff hs hlt).mpr (le_refl _))⟩
  obtain ⟨j, hj, rfl⟩ := List.getElem_of_mem hx
  -- were it above, the items up to `j` would make the rank of `xs[j]` too high
  have hle : rank xs xs[j] ≤ j := (le_getElem_iff hs hj).mp (le_refl _)
  rcases Nat.lt_or_ge (rank xs xs[j]) j with h | h
  · exact le_of_lt (List.pairwise_iff_getElem.mp hs _ _ hlt hj h)
  · have heq : rank xs xs[j] = j := le_antisymm hle h
    simp only [heq, le_refl]

/-! ## What is above -/

/-- The number of items above `x`. -/
def above (xs : List κ) (x : κ) : Nat := (xs.filter fun a => x < a).length

/-- An item, those below it and those above it are all there are. -/
theorem length_eq_rank_add_above (hs : xs.Pairwise (· < ·)) (hx : x ∈ xs) :
    xs.length = rank xs x + 1 + above xs x := by
  induction xs with
  | nil => cases hx
  | cons a xs ih =>
      obtain ⟨ha, hs⟩ := List.pairwise_cons.mp hs
      rw [List.length_cons, rank_cons, above, List.filter_cons]
      rcases List.mem_cons.mp hx with rfl | hx
      · have hzero : rank xs x = 0 := rank_eq_zero fun b hb => not_lt_of_gt (ha b hb)
        have hall : xs.filter (fun a => x < a) = xs :=
          List.filter_eq_self.mpr fun b hb => by simpa using ha b hb
        simp [hzero, hall]
        omega
      · have hlen := ih hs hx
        have hlt := ha x hx
        simp only [hlt, not_lt_of_gt hlt, decide_false, if_true, Bool.false_eq_true, if_false]
        rw [above] at hlen
        omega

/-- Without an item there are those below it and those above it. -/
theorem length_eq_of_not_mem (hx : x ∉ xs) : xs.length = rank xs x + above xs x := by
  rw [rank, above, ← List.countP_eq_length_filter, ← List.countP_eq_length_filter,
    List.length_eq_countP_add_countP fun a => decide (a < x)]
  congr 1
  refine List.countP_congr fun a ha => ?_
  have hne : a ≠ x := fun h => hx (h ▸ ha)
  simp only [decide_eq_true_eq, decide_not, Bool.not_eq_true', decide_eq_false_iff_not]
  rw [not_lt, le_iff_lt_or_eq, or_iff_left (Ne.symm hne)]

/-- Among all but the last `c` are the items with `c` above them. -/
theorem mem_take_sub_iff (hs : xs.Pairwise (· < ·)) {c : Nat} :
    x ∈ xs.take (xs.length - c) ↔ x ∈ xs ∧ c ≤ above xs x := by
  rw [mem_take_iff hs]
  refine and_congr_right fun hx => ?_
  have hlen := length_eq_rank_add_above hs hx
  omega

/-- What is above an item is above it still when only others are gone. -/
theorem above_filter {p : κ → Bool} (h : ∀ a ∈ xs, x < a → p a = true) :
    above (xs.filter p) x = above xs x := by
  rw [above, above, List.filter_filter]
  congr 1
  refine List.filter_congr fun a ha => ?_
  by_cases hlt : x < a
  · simp [hlt, h a ha hlt]
  · simp [hlt]

/-- Sorted lists with the same members are the same. -/
theorem eq_of_mem_iff {ys : List κ} (hs : xs.Pairwise (· < ·)) (hs' : ys.Pairwise (· < ·))
    (h : ∀ a, a ∈ xs ↔ a ∈ ys) : xs = ys :=
  List.Perm.eq_of_pairwise' hs hs' ((List.perm_ext_iff_of_nodup hs.nodup hs'.nodup).mpr h)

/-- What is above depends on the members above. -/
theorem above_congr {ys : List κ} (hs : xs.Pairwise (· < ·)) (hs' : ys.Pairwise (· < ·))
    (h : ∀ a, x < a → (a ∈ xs ↔ a ∈ ys)) : above xs x = above ys x := by
  rw [above, above]
  congr 1
  refine eq_of_mem_iff (hs.filter _) (hs'.filter _) fun a => ?_
  rw [List.mem_filter, List.mem_filter, decide_eq_true_eq]
  exact and_congr_left fun hlt => h a hlt

/-- No more is above when items are gone. -/
theorem above_filter_le (p : κ → Bool) : above (xs.filter p) x ≤ above xs x := by
  rw [above, above, List.filter_filter]
  refine (List.monotone_filter_right xs fun a ha => ?_).length_le
  exact (Bool.and_eq_true _ _ ▸ ha).1

/-- The last `c` items stay above an item that is not one of them when only others are gone. -/
theorem le_above_filter (hs : xs.Pairwise (· < ·)) {c : Nat} {p : κ → Bool}
    (hx : x ∈ xs.take (xs.length - c))
    (hp : ∀ a ∈ xs, a ∉ xs.take (xs.length - c) → p a = true) : c ≤ above (xs.filter p) x := by
  have hpos : 0 < xs.length - c := by
    by_contra hzero
    rw [Nat.eq_zero_of_not_pos hzero, List.take_zero] at hx
    exact absurd hx List.not_mem_nil
  have hsplit := List.take_append_drop (xs.length - c) xs
  have hparts := hs
  rw [← hsplit, List.pairwise_append] at hparts
  -- the last items are kept and are above
  have hkept : (xs.drop (xs.length - c)).filter (fun a => decide (x < a) && p a)
      = xs.drop (xs.length - c) := by
    refine List.filter_eq_self.mpr fun a ha => ?_
    have habove := hparts.2.2 x hx a ha
    have hnot : a ∉ xs.take (xs.length - c) := fun hmem => lt_irrefl a (hparts.2.2 a hmem a ha)
    simp [habove, hp a (List.mem_of_mem_drop ha) hnot]
  have hsub := ((List.drop_sublist (xs.length - c) xs).filter
    (fun a => decide (x < a) && p a)).length_le
  rw [hkept, List.length_drop] at hsub
  rw [above, List.filter_filter]
  omega

end NteeDb.Verified.Ranks
