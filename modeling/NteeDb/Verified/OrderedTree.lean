import Mathlib.Data.List.Lex
import Mathlib.Data.List.Pairwise
import Mathlib.Order.Lattice

/-!
# Ordered trees over a comparator

An in-memory ordered set, seen as what it holds: its items in ascending order of
a caller-supplied strict comparator `less`.  Two items are *equivalent* when
neither is below the other; a tree never holds two equivalent items.  This is
the contract of a generic counted B-tree, with nothing of its node layout.

Every operation is a filter of the item list, so membership after an update is
a propositional fact that needs no order axiom at all (`mem_set`, `mem_delete`).
The order axioms are used in two places only: an update keeps the items sorted,
and a tree is determined by its members (`Tree.ext_mem`).

## Keyed trees

A tree whose comparator compares a key is a finite map.  `keyLess key` is that
comparator for a key in a linear order, and the section at the end gives the
map laws: `get?_set`, `get?_delete` and extensionality by lookup.
-/

namespace NteeDb.Verified.OrderedTree

/-- The comparator is a strict order.  It need not be total: items no side of
which is below the other are equivalent. -/
class StrictComparator {α : Type} (less : α → α → Bool) : Prop where
  irrefl : ∀ a, less a a = false
  trans : ∀ a b c, less a b = true → less b c = true → less a c = true

/-- The items of an ordered tree, in strictly ascending order. -/
structure Tree {α : Type} (less : α → α → Bool) where
  items : List α
  sorted : items.Pairwise (fun a b => less a b = true)

namespace Tree

variable {α : Type} {less : α → α → Bool}

instance [DecidableEq α] : DecidableEq (Tree less) := fun s t =>
  decidable_of_iff (s.items = t.items)
    ⟨fun h => by cases s; cases t; simpa using h, fun h => by rw [h]⟩

instance : Membership α (Tree less) := ⟨fun t a => a ∈ t.items⟩

theorem mem_def {t : Tree less} {a : α} : a ∈ t ↔ a ∈ t.items := Iff.rfl

theorem ext_items {s t : Tree less} (h : s.items = t.items) : s = t := by
  cases s
  cases t
  simpa using h

/-- The tree with no items. -/
def empty : Tree less := ⟨[], List.Pairwise.nil⟩

/-- Number of items. -/
def len (t : Tree less) : Nat := t.items.length

/-- The item equivalent to the probe, if there is one. -/
def get? (t : Tree less) (probe : α) : Option α :=
  t.items.find? fun a => !less a probe && !less probe a

/-- Items not below the pivot, ascending: what an ascending walk that starts at
the pivot visits. -/
def ascend (t : Tree less) (pivot : α) : List α :=
  t.items.filter fun a => !less a pivot

/-- Remove the item equivalent to the probe. -/
def delete (t : Tree less) (probe : α) : Tree less where
  items := t.items.filter fun a => less a probe || less probe a
  sorted := t.sorted.filter _

/-- Insert an item, replacing the one equivalent to it. -/
def set [StrictComparator less] (t : Tree less) (x : α) : Tree less where
  items := t.items.filter (fun a => less a x) ++ x :: t.items.filter (fun a => less x a)
  sorted := by
    rw [List.pairwise_append, List.pairwise_cons]
    refine ⟨t.sorted.filter _, ⟨?_, t.sorted.filter _⟩, ?_⟩
    · intro b hb
      exact (List.mem_filter.mp hb).2
    · intro a ha b hb
      have hax : less a x = true := (List.mem_filter.mp ha).2
      rcases List.mem_cons.mp hb with rfl | hb
      · exact hax
      · exact StrictComparator.trans a x b hax (List.mem_filter.mp hb).2

/-- The items with a property. -/
def filter (t : Tree less) (p : α → Bool) : Tree less where
  items := t.items.filter p
  sorted := t.sorted.filter p

/-- Insert the items of a list, one after the other. -/
def setAll [StrictComparator less] (t : Tree less) (xs : List α) : Tree less :=
  xs.foldl set t

/-! ## Membership -/

@[simp] theorem not_mem_empty (a : α) : ¬ a ∈ (empty : Tree less) := by
  simp [mem_def, empty]

theorem mem_filter {t : Tree less} {p : α → Bool} {a : α} :
    a ∈ t.filter p ↔ a ∈ t ∧ p a = true := List.mem_filter

theorem mem_delete {t : Tree less} {x y : α} :
    y ∈ t.delete x ↔ y ∈ t ∧ (less y x = true ∨ less x y = true) := by
  simp [mem_def, delete]

theorem mem_set [StrictComparator less] {t : Tree less} {x y : α} :
    y ∈ t.set x ↔ y = x ∨ y ∈ t ∧ (less y x = true ∨ less x y = true) := by
  simp only [mem_def, set, List.mem_append, List.mem_filter, List.mem_cons]
  tauto

/-! ## A tree is determined by its members -/

private theorem eq_of_sorted_of_mem_iff [StrictComparator less] :
    ∀ {xs ys : List α}, xs.Pairwise (fun a b => less a b = true) →
      ys.Pairwise (fun a b => less a b = true) → (∀ a, a ∈ xs ↔ a ∈ ys) → xs = ys
  | [], [], _, _, _ => rfl
  | [], y :: ys, _, _, h => by simpa using (h y).mpr
  | x :: xs, [], _, _, h => by simpa using (h x).mp
  | x :: xs, y :: ys, hx, hy, h => by
      rw [List.pairwise_cons] at hx hy
      have asymm : ∀ a b : α, less a b = true → ¬ less b a = true := by
        intro a b hab hba
        have haa := StrictComparator.trans a b a hab hba
        exact Bool.false_ne_true ((StrictComparator.irrefl a).symm.trans haa)
      -- the heads are the least members of either list
      have hhead : x = y := by
        by_contra hne
        have hxy : x ∈ ys := by simpa [hne] using (h x).mp (by simp)
        have hyx : y ∈ xs := by simpa [Ne.symm hne] using (h y).mpr (by simp)
        exact asymm _ _ (hx.1 y hyx) (hy.1 x hxy)
      subst hhead
      have htail : ∀ a, a ∈ xs ↔ a ∈ ys := by
        intro a
        have ha := h a
        simp only [List.mem_cons] at ha
        constructor
        · intro hax
          rcases ha.mp (Or.inr hax) with rfl | hay
          · exact absurd (hx.1 _ hax) (by simp [StrictComparator.irrefl])
          · exact hay
        · intro hay
          rcases ha.mpr (Or.inr hay) with rfl | hax
          · exact absurd (hy.1 _ hay) (by simp [StrictComparator.irrefl])
          · exact hax
      rw [eq_of_sorted_of_mem_iff hx.2 hy.2 htail]

/-- Two trees with the same members are the same tree. -/
theorem ext_mem [StrictComparator less] {s t : Tree less}
    (h : ∀ a, a ∈ s ↔ a ∈ t) : s = t :=
  ext_items (eq_of_sorted_of_mem_iff s.sorted t.sorted h)

/-! ## Initial segments and positions -/

private theorem split_of_pairwise (p : α → Bool) {xs : List α}
    (hs : xs.Pairwise fun a b => p b = true → p a = true) :
    xs = xs.filter p ++ xs.filter fun a => !p a := by
  induction xs with
  | nil => rfl
  | cons x xs ih =>
      obtain ⟨hx, hxs⟩ := List.pairwise_cons.mp hs
      cases hp : p x with
      | true => simp [hp, ← ih hxs]
      | false =>
          -- nothing after `x` satisfies `p`
          have hnone : xs.filter p = [] := by
            rw [List.filter_eq_nil_iff]
            intro a ha hpa
            rw [hx a ha hpa] at hp
            cases hp
          have hall : (xs.filter fun a => !p a) = xs := by
            rw [List.filter_eq_self]
            intro a ha
            have := List.filter_eq_nil_iff.mp hnone a ha
            simpa using this
          simp [hp, hnone, hall]

/-- A property that holds below whatever it holds of cuts the items in two. -/
theorem split_items (t : Tree less) (p : α → Bool)
    (hp : ∀ a b, less a b = true → p b = true → p a = true) :
    t.items = t.items.filter p ++ t.items.filter fun a => !p a :=
  split_of_pairwise p (t.sorted.imp fun hab => hp _ _ hab)

/-- Walking up from a pivot while a property lasts collects all items from the
pivot on that have it, if it holds below whatever it holds of. -/
theorem takeWhile_ascend (t : Tree less) (pivot : α) (p : α → Bool)
    (hp : ∀ a ∈ t, ∀ b ∈ t, less a pivot = false → less a b = true → p b = true → p a = true) :
    (t.ascend pivot).takeWhile p = t.items.filter fun a => !less a pivot && p a := by
  have hdown : (t.ascend pivot).Pairwise fun a b => p b = true → p a = true := by
    refine (t.sorted.filter _).imp_of_mem fun {a b} ha hb hab hpb => ?_
    obtain ⟨ha, hpivot⟩ := List.mem_filter.mp ha
    exact hp a ha b (List.mem_filter.mp hb).1 (by simpa using hpivot) hab hpb
  have hcut : (t.ascend pivot).takeWhile p = (t.ascend pivot).filter p := by
    nth_rewrite 1 [split_of_pairwise p hdown]
    rw [List.takeWhile_append_of_pos fun a ha => (List.mem_filter.mp ha).2]
    have hrest : ((t.ascend pivot).filter fun a => !p a).takeWhile p = [] := by
      cases hne : (t.ascend pivot).filter fun a => !p a with
      | nil => rfl
      | cons a as =>
          have ha := (List.mem_filter.mp (hne ▸ List.mem_cons_self (a := a) (l := as))).2
          rw [List.takeWhile_cons_of_neg (by simpa using ha)]
    rw [hrest, List.append_nil]
  rw [hcut, ascend, List.filter_filter]
  exact List.filter_congr fun a _ => Bool.and_comm _ _

end Tree

/-! ## Binary search -/

/-- Halve `[i, j)` until it is empty; `fuel` bounds the rounds. -/
def searchLoop (f : Nat → Bool) : Nat → Nat → Nat → Nat
  | 0, i, _ => i
  | fuel + 1, i, j =>
      if i < j then
        if f ((i + j) / 2) then searchLoop f fuel i ((i + j) / 2)
        else searchLoop f fuel ((i + j) / 2 + 1) j
      else i

/-- The least position in `[0, n)` at which `f` is true, `n` if there is none, for
an `f` that is false up to some position and true from there on. -/
def search (n : Nat) (f : Nat → Bool) : Nat := searchLoop f n 0 n

private theorem searchLoop_eq {f : Nat → Bool} {k : Nat} (fuel i j : Nat)
    (hik : i ≤ k) (hkj : k ≤ j) (hfuel : j - i ≤ fuel)
    (hlo : ∀ m, m < k → f m = false) (hhi : ∀ m, k ≤ m → m < j → f m = true) :
    searchLoop f fuel i j = k := by
  induction fuel generalizing i j with
  | zero =>
      rw [searchLoop]
      omega
  | succ fuel ih =>
      rw [searchLoop]
      split
      · next hij =>
          split
          · next hf =>
              have hle : k ≤ (i + j) / 2 := by
                by_contra hgt
                rw [hlo _ (not_le.mp hgt)] at hf
                cases hf
              exact ih i _ hik hle (by omega) fun m hkm hm => hhi m hkm (by omega)
          · next hf =>
              have hgt : (i + j) / 2 < k := by
                by_contra hle
                exact hf (hhi _ (not_lt.mp hle) (by omega))
              exact ih _ j (by omega) hkj (by omega) hhi
      · omega

theorem search_eq {f : Nat → Bool} {n k : Nat} (hkn : k ≤ n)
    (hlo : ∀ m, m < k → f m = false) (hhi : ∀ m, k ≤ m → m < n → f m = true) :
    search n f = k :=
  searchLoop_eq n 0 n (Nat.zero_le k) hkn (by omega) hlo hhi

/-- Searching a list cut in two by `f` finds the cut. -/
theorem search_append {α : Type} {f : Nat → Bool} {xs ys : List α} {p : α → Bool}
    (hf : ∀ i (h : i < (xs ++ ys).length), f i = p ((xs ++ ys).get ⟨i, h⟩))
    (hxs : ∀ a ∈ xs, p a = false) (hys : ∀ a ∈ ys, p a = true) :
    search (xs ++ ys).length f = xs.length := by
  apply search_eq
  · simp
  · intro m hm
    have hlen : m < (xs ++ ys).length := by
      rw [List.length_append]
      omega
    rw [hf m hlen, List.get_eq_getElem, List.getElem_append_left hm]
    exact hxs _ (List.getElem_mem hm)
  · intro m hm hlen
    rw [hf m hlen, List.get_eq_getElem, List.getElem_append_right hm]
    exact hys _ (List.getElem_mem _)

/-! ## Keyed trees -/

section Keyed

variable {α κ : Type} [LinearOrder κ]

/-- Compare items by a key. -/
def keyLess (key : α → κ) (a b : α) : Bool := decide (key a < key b)

instance (key : α → κ) : StrictComparator (keyLess key) where
  irrefl a := by simp [keyLess]
  trans a b c hab hbc := by
    simp only [keyLess, decide_eq_true_eq] at *
    exact lt_trans hab hbc

namespace Tree

variable {key : α → κ}

theorem keyLess_iff {a b : α} : keyLess key a b = true ↔ key a < key b := decide_eq_true_iff

theorem keyLess_or_iff {a b : α} :
    keyLess key a b = true ∨ keyLess key b a = true ↔ key a ≠ key b := by
  simp only [keyLess, decide_eq_true_eq]
  exact (ne_iff_lt_or_gt).symm

theorem mem_delete_key {t : Tree (keyLess key)} {x y : α} :
    y ∈ t.delete x ↔ y ∈ t ∧ key y ≠ key x := by
  rw [mem_delete, keyLess_or_iff]

theorem mem_set_key {t : Tree (keyLess key)} {x y : α} :
    y ∈ t.set x ↔ y = x ∨ y ∈ t ∧ key y ≠ key x := by
  rw [mem_set, keyLess_or_iff]

/-- A key occurs at most once. -/
theorem eq_of_key_eq {t : Tree (keyLess key)} {a b : α} (ha : a ∈ t) (hb : b ∈ t)
    (h : key a = key b) : a = b := by
  rw [mem_def] at ha hb
  by_contra hne
  have hp : t.items.Pairwise fun a b => key a ≠ key b :=
    t.sorted.imp fun hab => ne_of_lt (of_decide_eq_true hab)
  have : Std.Symm (fun a b : α => key a ≠ key b) := ⟨fun _ _ => Ne.symm⟩
  exact hp.forall ha hb hne h

theorem get?_eq_some {t : Tree (keyLess key)} {probe a : α} :
    t.get? probe = some a ↔ a ∈ t ∧ key a = key probe := by
  have hequiv : ∀ b, ((!keyLess key b probe && !keyLess key probe b) = true)
      ↔ key b = key probe := by
    intro b
    simp only [keyLess, Bool.and_eq_true, Bool.not_eq_true', decide_eq_false_iff_not, not_lt]
    exact ⟨fun h => le_antisymm h.2 h.1, fun h => ⟨le_of_eq h.symm, le_of_eq h⟩⟩
  constructor
  · intro h
    have hp := List.find?_some (show List.find? _ _ = some a from h)
    exact ⟨List.mem_of_find?_eq_some h, (hequiv a).mp hp⟩
  · rintro ⟨ha, hk⟩
    cases hf : t.get? probe with
    | none =>
        have := List.find?_eq_none.mp hf a ha
        exact absurd ((hequiv a).mpr hk) this
    | some b =>
        have hb : b ∈ t := List.mem_of_find?_eq_some hf
        have hp := List.find?_some (show List.find? _ _ = some b from hf)
        have hkb := (hequiv b).mp hp
        rw [eq_of_key_eq hb ha (hkb.trans hk.symm)]

theorem get?_eq_none {t : Tree (keyLess key)} {probe : α} :
    t.get? probe = none ↔ ∀ a ∈ t, key a ≠ key probe := by
  constructor
  · intro h a ha hk
    have hsome := get?_eq_some.mpr ⟨ha, hk⟩
    rw [h] at hsome
    cases hsome
  · intro h
    cases hf : t.get? probe with
    | none => rfl
    | some b =>
        obtain ⟨hb, hk⟩ := get?_eq_some.mp hf
        exact absurd hk (h b hb)

theorem get?_set (t : Tree (keyLess key)) (x probe : α) [Decidable (key probe = key x)] :
    (t.set x).get? probe = if key probe = key x then some x else t.get? probe := by
  by_cases h : key probe = key x
  · rw [if_pos h, get?_eq_some]
    exact ⟨mem_set_key.mpr (Or.inl rfl), h.symm⟩
  · rw [if_neg h]
    cases hf : t.get? probe with
    | none =>
        rw [get?_eq_none] at hf ⊢
        intro a ha
        rcases mem_set_key.mp ha with rfl | ⟨ha, _⟩
        · exact Ne.symm h
        · exact hf a ha
    | some b =>
        obtain ⟨hb, hk⟩ := get?_eq_some.mp hf
        exact get?_eq_some.mpr ⟨mem_set_key.mpr (Or.inr ⟨hb, hk ▸ h⟩), hk⟩

theorem get?_delete (t : Tree (keyLess key)) (x probe : α) [Decidable (key probe = key x)] :
    (t.delete x).get? probe = if key probe = key x then none else t.get? probe := by
  by_cases h : key probe = key x
  · rw [if_pos h, get?_eq_none]
    intro a ha hk
    exact (mem_delete_key.mp ha).2 (hk.trans h)
  · rw [if_neg h]
    cases hf : t.get? probe with
    | none =>
        rw [get?_eq_none] at hf ⊢
        intro a ha
        exact hf a (mem_delete_key.mp ha).1
    | some b =>
        obtain ⟨hb, hk⟩ := get?_eq_some.mp hf
        exact get?_eq_some.mpr ⟨mem_delete_key.mpr ⟨hb, hk ▸ h⟩, hk⟩

/-- Two keyed trees that answer every lookup alike are the same tree. -/
theorem ext_get? {s t : Tree (keyLess key)} (h : ∀ a, s.get? a = t.get? a) : s = t := by
  apply ext_mem
  intro a
  have ha := h a
  constructor
  · intro hs
    rw [get?_eq_some.mpr ⟨hs, rfl⟩] at ha
    exact (get?_eq_some.mp ha.symm).1
  · intro ht
    rw [get?_eq_some.mpr ⟨ht, rfl⟩] at ha
    exact (get?_eq_some.mp ha).1

/-- A keyed tree that answers every lookup as another one does through `f` holds the
images of its items. -/
theorem items_eq_map {s t : Tree (keyLess key)} {f : α → α} (hf : ∀ a ∈ t, key (f a) = key a)
    (h : ∀ a, s.get? a = (t.get? a).map f) : s.items = t.items.map f := by
  have hsorted : (t.items.map f).Pairwise fun a b => keyLess key a b = true := by
    refine List.pairwise_map.mpr (t.sorted.imp_of_mem fun ha hb hab => ?_)
    rw [keyLess, hf _ ha, hf _ hb]
    exact hab
  refine congrArg Tree.items (show s = ⟨t.items.map f, hsorted⟩ from ext_mem fun x => ?_)
  constructor
  · intro hx
    have hget := h x
    rw [get?_eq_some.mpr ⟨hx, rfl⟩] at hget
    obtain ⟨a, ha, rfl⟩ := Option.map_eq_some_iff.mp hget.symm
    exact List.mem_map.mpr ⟨a, (get?_eq_some.mp ha).1, rfl⟩
  · intro hx
    obtain ⟨a, ha, rfl⟩ := List.mem_map.mp hx
    have hget := h (f a)
    rw [get?_eq_some.mpr ⟨ha, (hf a ha).symm⟩] at hget
    exact (get?_eq_some.mp hget).1

/-! ## Inserting a whole list -/

theorem mem_of_mem_setAll {t : Tree (keyLess key)} {xs : List α} {x : α}
    (h : x ∈ t.setAll xs) : x ∈ xs ∨ x ∈ t := by
  induction xs generalizing t with
  | nil => exact Or.inr h
  | cons y ys ih =>
      rcases ih h with hx | hx
      · exact Or.inl (List.mem_cons_of_mem _ hx)
      · rcases mem_set_key.mp hx with rfl | ⟨hx, _⟩
        · exact Or.inl List.mem_cons_self
        · exact Or.inr hx

theorem mem_setAll_key {t : Tree (keyLess key)} {xs : List α} {x : α}
    (hxs : xs.Pairwise fun a b => key a ≠ key b) :
    x ∈ t.setAll xs ↔ x ∈ xs ∨ x ∈ t ∧ ∀ y ∈ xs, key x ≠ key y := by
  induction xs generalizing t with
  | nil => simp [setAll]
  | cons y ys ih =>
      obtain ⟨hy, hys⟩ := List.pairwise_cons.mp hxs
      rw [show t.setAll (y :: ys) = (t.set y).setAll ys from rfl, ih hys, mem_set_key]
      simp only [List.mem_cons, forall_eq_or_imp]
      constructor
      · rintro (h | ⟨rfl | ⟨h, hk⟩, hall⟩)
        · exact Or.inl (Or.inr h)
        · exact Or.inl (Or.inl rfl)
        · exact Or.inr ⟨h, hk, hall⟩
      · rintro ((rfl | h) | ⟨h, hk, hall⟩)
        · exact Or.inr ⟨Or.inl rfl, hy⟩
        · exact Or.inl h
        · exact Or.inr ⟨Or.inr ⟨h, hk⟩, hall⟩

theorem keys_ne (t : Tree (keyLess key)) : t.items.Pairwise fun a b => key a ≠ key b :=
  t.sorted.imp fun hab => ne_of_lt (of_decide_eq_true hab)

/-- Inserting a tree's own items rebuilds it. -/
theorem setAll_items (t : Tree (keyLess key)) :
    (empty : Tree (keyLess key)).setAll t.items = t := by
  apply ext_mem
  intro a
  rw [mem_setAll_key t.keys_ne]
  simp [mem_def, empty]

end Tree

end Keyed

end NteeDb.Verified.OrderedTree
