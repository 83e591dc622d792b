import Mathlib.Data.List.Induction
import NteeDb.Verified.OrderedTree

/-!
# Keyed journals

A journal is a list of items, each of which says something about one key: the last
item about a key decides what is known of it.  Folding a journal into a keyed tree,
an item either setting an entry or deleting the one of its key, builds the tree of
these last words (`get?_foldl`).
-/

namespace NteeDb.Verified.Journal

open NteeDb.Verified.OrderedTree

variable {α β κ : Type} [LinearOrder κ]

/-- The last item about a key. -/
def lastWith (k : α → κ) (x : κ) (xs : List α) : Option α := (xs.filter fun a => k a = x).getLast?

@[simp] theorem lastWith_nil (k : α → κ) (x : κ) : lastWith k x [] = none := rfl

theorem lastWith_append_singleton (k : α → κ) (x : κ) (xs : List α) (a : α)
    [Decidable (k a = x)] :
    lastWith k x (xs ++ [a]) = if k a = x then some a else lastWith k x xs := by
  rw [lastWith, List.filter_append]
  by_cases h : k a = x
  · simp [h]
  · simp [h, lastWith]

/-- The last word of a later part goes before that of an earlier one. -/
theorem lastWith_append (k : α → κ) (x : κ) (xs ys : List α) :
    lastWith k x (xs ++ ys) = (lastWith k x ys).or (lastWith k x xs) := by
  rw [lastWith, List.filter_append, List.getLast?_append]
  rfl

/-- After the last item about a key there is none. -/
theorem lastWith_split {k : α → κ} {x : κ} {xs : List α} {a : α} (h : lastWith k x xs = some a) :
    ∃ before after, xs = before ++ a :: after ∧ ∀ b ∈ after, k b ≠ x := by
  induction xs using List.reverseRecOn with
  | nil => cases h
  | append_singleton xs b ih =>
      rw [lastWith_append_singleton] at h
      split at h
      · cases h
        exact ⟨xs, [], rfl, by simp⟩
      · next hb =>
          obtain ⟨before, after, rfl, hafter⟩ := ih h
          refine ⟨before, after ++ [b], by simp, fun c hc => ?_⟩
          rcases List.mem_append.mp hc with hc | hc
          · exact hafter c hc
          · rw [List.mem_singleton.mp hc]
            exact hb

theorem lastWith_some {k : α → κ} {x : κ} {xs : List α} {a : α} (h : lastWith k x xs = some a) :
    a ∈ xs ∧ k a = x := by
  have hmem := List.mem_of_getLast? h
  rw [List.mem_filter, decide_eq_true_iff] at hmem
  exact hmem

theorem lastWith_eq_none {k : α → κ} {x : κ} {xs : List α} :
    lastWith k x xs = none ↔ ∀ a ∈ xs, k a ≠ x := by
  rw [lastWith, List.getLast?_eq_none_iff, List.filter_eq_nil_iff]
  simp only [decide_eq_true_iff, ne_eq]

/-- One item of a journal: set its entry, or delete the entry of its key. -/
def change {key : β → κ} (k : α → κ) (probe : κ → β) (f : α → Option β) (t : Tree (keyLess key))
    (a : α) : Tree (keyLess key) :=
  match f a with
  | some b => t.set b
  | none => t.delete (probe (k a))

section Fold

variable {key : β → κ} {k : α → κ} {probe : κ → β} {f : α → Option β}

theorem get?_change (hprobe : ∀ x, key (probe x) = x) (hf : ∀ a b, f a = some b → key b = k a)
    (t : Tree (keyLess key)) (a : α) (x : κ) :
    (change k probe f t a).get? (probe x) = if k a = x then f a else t.get? (probe x) := by
  rw [change]
  cases hfa : f a with
  | none => rw [Tree.get?_delete, hprobe, hprobe]; simp only [eq_comm]
  | some b => rw [Tree.get?_set, hprobe, hf a b hfa]; simp only [eq_comm]

/-- The tree of a journal holds the last word on every key. -/
theorem get?_foldl (hprobe : ∀ x, key (probe x) = x) (hf : ∀ a b, f a = some b → key b = k a)
    (xs : List α) (x : κ) :
    (xs.foldl (change k probe f) (Tree.empty : Tree (keyLess key))).get? (probe x)
      = (lastWith k x xs).bind f := by
  induction xs using List.reverseRecOn with
  | nil => rfl
  | append_singleton xs a ih =>
      rw [List.foldl_append, List.foldl_cons, List.foldl_nil, get?_change hprobe hf, ih,
        lastWith_append_singleton]
      split
      · rfl
      · rfl

end Fold

end NteeDb.Verified.Journal
