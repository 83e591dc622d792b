import NteeDb.Invariants.Exact
import NteeDb.Invariants.Retention
import NteeDb.Invariants.Mutations

/-!
# Evictions from several groups

Evictions for one index value delete records from every index, so that the order of the values
may matter.  It does not as long as what is evicted from one group is not kept by another one
that is over its cap: then exactly the keys go that are to be evicted at the start.
-/

namespace NteeDb.Core

open NteeDb.Verified
open Faults OrderedTree JsonCodec Ranks

/-! ## Groups that agree on what goes -/

/-- What is evicted for one value is evicted for every other value that evicts something and
whose group holds it. -/
def SecIndexes.Harmonious (secs : SecIndexes) (nvs : List (Bytes × AnyValue)) : Prop :=
  ∀ nv ∈ nvs, ∀ nv' ∈ nvs, ∀ si si', secs.get nv.1 = some si → secs.get nv'.1 = some si' →
    ∀ k ∈ si.victims nv.2, k ∈ si'.members nv'.2 →
      si'.victims nv'.2 = [] ∨ k ∈ si'.victims nv'.2

section Victims

variable {ix : Indexes} {si si' : SecIndex} {val : AnyValue} {keys : List Bytes}

/-- What is to be evicted from a group of which only some keys are left: what was to be evicted
before and is left, if nothing that was to be evicted is left, or the keys that are missing were
the lowest, or they were all to be evicted. -/
theorem SecInv.mem_victims_filter {ix' : Indexes} (h : SecInv ix) (h' : SecInv ix')
    (hsi : si ∈ ix.secs.items) (hsi' : si' ∈ ix'.secs.items) (hdecl : si'.decl = si.decl)
    (henc : val.encode ≠ none) {p : Bytes → Prop} [DecidablePred p]
    (hmembers : si'.members val = (si.members val).filter fun k => decide (p k))
    (hlow : (∀ k ∈ si.victims val, ¬ p k) ∨
      (∀ k ∈ si.members val, ¬ p k → ∀ k' ∈ si.members val, p k' → k < k') ∨
      ∀ k ∈ si.members val, ¬ p k → k ∈ si.victims val)
    (key : Bytes) : key ∈ si'.victims val ↔ key ∈ si.victims val ∧ p key := by
  have hmax : si'.max = si.max := congrArg Decl.max hdecl
  rw [h'.mem_victims hsi' henc, hmembers, List.mem_filter, decide_eq_true_eq, SecIndex.cap, hmax,
    ← SecIndex.cap]
  constructor
  · rintro ⟨hpos, ⟨hmem, hleft⟩, hcap⟩
    exact ⟨(h.mem_victims hsi henc).mpr ⟨hpos, hmem, le_trans hcap (above_filter_le _)⟩, hleft⟩
  · rintro ⟨hvic, hleft⟩
    obtain ⟨hpos, hmem, hcap⟩ := (h.mem_victims hsi henc).mp hvic
    refine ⟨hpos, ⟨hmem, hleft⟩, ?_⟩
    rcases hlow with hnone | hlowest | hall
    · exact absurd hleft (hnone key hvic)
    · rw [above_filter]
      · exact hcap
      · intro a ha hlt
        rw [decide_eq_true_eq]
        by_contra hgone
        exact lt_asymm hlt (hlowest a ha hgone key hmem hleft)
    · rw [h.victims_eq hsi henc hpos] at hvic hall
      refine le_above_filter (h.members_sorted hsi henc) hvic fun a ha hnot => ?_
      rw [decide_eq_true_eq]
      by_contra hgone
      exact hnot (hall a ha hgone)

/-- Deleting keys that are to be evicted, or are not in the group, leaves the other evictions as
they are; so does deleting any keys when nothing is to be evicted. -/
theorem SecInv.mem_victims_deleteAll (h : SecInv ix) (hsi : si ∈ ix.secs.items)
    (hsi' : si' ∈ (ix.deleteAll keys).secs.items) (hdecl : si'.decl = si.decl)
    (henc : val.encode ≠ none)
    (hlow : si.victims val = [] ∨ ∀ k ∈ keys, k ∈ si.members val → k ∈ si.victims val)
    (key : Bytes) : key ∈ si'.victims val ↔ key ∈ si.victims val ∧ key ∉ keys := by
  refine h.mem_victims_filter (h.deleteAll keys) hsi hsi' hdecl henc
    (h.members_deleteAll hsi hsi' hdecl henc) ?_ key
  rcases hlow with hnil | hlow
  · left
    rw [hnil]
    exact fun _ hk => absurd hk List.not_mem_nil
  · exact .inr (.inr fun k hmem hk => hlow k (not_not.mp hk) hmem)

/-- Deleting keys makes nothing a victim. -/
theorem SecInv.of_mem_victims_deleteAll (h : SecInv ix) (hsi : si ∈ ix.secs.items)
    (hsi' : si' ∈ (ix.deleteAll keys).secs.items) (hdecl : si'.decl = si.decl)
    (henc : val.encode ≠ none) {key : Bytes} (hkey : key ∈ si'.victims val) :
    key ∈ si.victims val := by
  have hmax : si'.max = si.max := congrArg Decl.max hdecl
  rw [(h.deleteAll keys).mem_victims hsi' henc, h.members_deleteAll hsi hsi' hdecl henc,
    SecIndex.cap, hmax, ← SecIndex.cap] at hkey
  obtain ⟨hpos, hmem, hcap⟩ := hkey
  exact (h.mem_victims hsi henc).mpr
    ⟨hpos, (List.mem_filter.mp hmem).1, le_trans hcap (above_filter_le _)⟩

theorem SecInv.of_mem_victimsOf_deleteAll (h : SecInv ix) {nv : Bytes × AnyValue}
    (henc : nv.2.encode ≠ none) {key : Bytes} (hkey : key ∈ (ix.deleteAll keys).victimsOf nv) :
    key ∈ ix.victimsOf nv := by
  obtain ⟨si', hsi', hvic⟩ := Indexes.mem_victimsOf.mp hkey
  obtain ⟨si, hsi, hdecl⟩ := SecIndexes.get_of_decls (ix.deleteAll_decls keys).symm hsi'
  exact Indexes.mem_victimsOf.mpr ⟨si, hsi, h.of_mem_victims_deleteAll
    (SecIndexes.get_eq_some.mp hsi).1 (SecIndexes.get_eq_some.mp hsi').1 hdecl.symm henc hvic⟩

end Victims

section Survivors

variable {ix : Indexes} {nv : Bytes × AnyValue} {nvs : List (Bytes × AnyValue)}

/-- The evictions for a value after those for another one. -/
theorem SecInv.mem_victimsOf_enforceOne (h : SecInv ix) {nv' : Bytes × AnyValue}
    (henc : nv'.2.encode ≠ none)
    (hpair : ∀ si si', ix.secs.get nv.1 = some si → ix.secs.get nv'.1 = some si' →
      ∀ k ∈ si.victims nv.2, k ∈ si'.members nv'.2 →
        si'.victims nv'.2 = [] ∨ k ∈ si'.victims nv'.2) (key : Bytes) :
    key ∈ (ix.enforceOne nv).victimsOf nv' ↔ key ∈ ix.victimsOf nv' ∧ key ∉ ix.victimsOf nv := by
  have hdecls : (ix.enforceOne nv).secs.decls = ix.secs.decls := ix.enforceOne_decls nv
  have hone : ∀ si₁ si₂, ix.secs.get nv'.1 = some si₁ →
      (ix.enforceOne nv).secs.get nv'.1 = some si₂ → si₂.decl = si₁.decl →
      (key ∈ si₂.victims nv'.2 ↔ key ∈ si₁.victims nv'.2 ∧ key ∉ ix.victimsOf nv) := by
    intro si₁ si₂ h₁ h₂ hdecl
    rw [Indexes.enforceOne_eq] at h₂
    refine h.mem_victims_deleteAll (SecIndexes.get_eq_some.mp h₁).1
      (SecIndexes.get_eq_some.mp h₂).1 hdecl henc ?_ key
    by_cases hnil : si₁.victims nv'.2 = []
    · exact .inl hnil
    · refine .inr fun k hk hmem => ?_
      obtain ⟨si, hsi, hvic⟩ := Indexes.mem_victimsOf.mp hk
      exact (hpair si si₁ hsi h₁ k hvic hmem).resolve_left hnil
  rw [Indexes.mem_victimsOf, Indexes.mem_victimsOf]
  constructor
  · rintro ⟨si₂, h₂, hvic⟩
    obtain ⟨si₁, h₁, hdecl⟩ := SecIndexes.get_of_decls hdecls.symm h₂
    obtain ⟨hvic₁, hkey⟩ := (hone si₁ si₂ h₁ h₂ hdecl.symm).mp hvic
    exact ⟨⟨si₁, h₁, hvic₁⟩, hkey⟩
  · rintro ⟨⟨si₁, h₁, hvic⟩, hkey⟩
    obtain ⟨si₂, h₂, hdecl⟩ := SecIndexes.get_of_decls hdecls h₁
    exact ⟨si₂, h₂, (hone si₁ si₂ h₁ h₂ hdecl).mpr ⟨hvic, hkey⟩⟩

/-- Evictions for one value leave the others in agreement. -/
theorem SecInv.harmonious_enforceOne (h : SecInv ix) (hh : ix.secs.Harmonious nvs)
    (henc : ∀ nv ∈ nvs, nv.2.encode ≠ none) (hnv : nv ∈ nvs) :
    (ix.enforceOne nv).secs.Harmonious nvs := by
  have hdecls : (ix.enforceOne nv).secs.decls = ix.secs.decls := ix.enforceOne_decls nv
  have hvictims := fun nv' (hnv' : nv' ∈ nvs) =>
    h.mem_victimsOf_enforceOne (henc nv' hnv') fun si si' => hh nv hnv nv' hnv' si si'
  intro nv₁ hnv₁ nv₂ hnv₂ si₁' si₂' h₁' h₂' k hk hmem
  obtain ⟨si₁, h₁, hdecl₁⟩ := SecIndexes.get_of_decls hdecls.symm h₁'
  obtain ⟨si₂, h₂, hdecl₂⟩ := SecIndexes.get_of_decls hdecls.symm h₂'
  -- what was to be evicted before, and was not deleted, is still to be evicted
  have hof : ∀ key, key ∈ si₂'.victims nv₂.2 ↔ key ∈ ix.victimsOf nv₂ ∧ key ∉ ix.victimsOf nv := by
    intro key
    rw [← hvictims nv₂ hnv₂, Indexes.mem_victimsOf]
    exact ⟨fun hv => ⟨si₂', h₂', hv⟩, fun ⟨si, hsi, hv⟩ => by rw [h₂'] at hsi; cases hsi; exact hv⟩
  obtain ⟨hbefore, hkept⟩ := (hvictims nv₁ hnv₁ k).mp (Indexes.mem_victimsOf.mpr ⟨si₁', h₁', hk⟩)
  obtain ⟨si, hsi, hvic⟩ := Indexes.mem_victimsOf.mp hbefore
  rw [h₁] at hsi
  cases hsi
  have hmem₂ : k ∈ si₂.members nv₂.2 := by
    rw [Indexes.enforceOne_eq] at h₂'
    rw [h.members_deleteAll (SecIndexes.get_eq_some.mp h₂).1 (SecIndexes.get_eq_some.mp h₂').1
      hdecl₂.symm (henc nv₂ hnv₂)] at hmem
    exact (List.mem_filter.mp hmem).1
  rcases hh nv₁ hnv₁ nv₂ hnv₂ si₁ si₂ h₁ h₂ k hvic hmem₂ with hnil | hvic₂
  · left
    refine List.eq_nil_iff_forall_not_mem.mpr fun key hkey => ?_
    obtain ⟨si, hsi, hkey⟩ := Indexes.mem_victimsOf.mp ((hof key).mp hkey).1
    rw [h₂] at hsi
    cases hsi
    rw [hnil] at hkey
    exact List.not_mem_nil hkey
  · right
    exact (hof k).mpr ⟨Indexes.mem_victimsOf.mpr ⟨si₂, h₂, hvic₂⟩, hkept⟩

theorem SecInv.enforceOne (h : SecInv ix) (nv : Bytes × AnyValue) : SecInv (ix.enforceOne nv) := by
  rw [Indexes.enforceOne_eq]
  exact h.deleteAll _

theorem Indexes.evicts_iff {key : Bytes} :
    ix.Evicts nvs key ↔ ∃ nv ∈ nvs, key ∈ ix.victimsOf nv := by
  simp only [Indexes.Evicts, Indexes.mem_victimsOf]

theorem SecInv.evicts_enforceOne (h : SecInv ix) {all : List (Bytes × AnyValue)}
    (hh : ix.secs.Harmonious all) (henc : ∀ nv ∈ all, nv.2.encode ≠ none)
    (hsub : ∀ nv' ∈ nvs, nv' ∈ all) (hnv : nv ∈ all) {key : Bytes} (hkey : key ∉ ix.victimsOf nv) :
    (ix.enforceOne nv).Evicts nvs key ↔ ix.Evicts nvs key := by
  rw [Indexes.evicts_iff, Indexes.evicts_iff]
  refine exists_congr fun nv' => and_congr_right fun hnv' => ?_
  rw [h.mem_victimsOf_enforceOne (henc nv' (hsub nv' hnv'))
    fun si si' => hh nv hnv nv' (hsub nv' hnv') si si']
  exact and_iff_left hkey

theorem Indexes.enforceOne_get (ix : Indexes) (nv : Bytes × AnyValue) (key : Bytes) :
    (ix.enforceOne nv).pk.get key = if key ∈ ix.victimsOf nv then none else ix.pk.get key := by
  rw [Indexes.enforceOne_eq, Indexes.deleteAll_get]

/-- Evictions only delete. -/
theorem Indexes.get_of_enforce {key : Bytes} {e : PkEntry}
    (h : (ix.enforce nvs).pk.get key = some e) : ix.pk.get key = some e := by
  induction nvs generalizing ix with
  | nil => exact h
  | cons nv nvs ih =>
      have hone : (ix.enforceOne nv).pk.get key = some e := ih h
      rw [Indexes.enforceOne_get] at hone
      split at hone
      · cases hone
      · exact hone

/-- Exactly the keys go that are to be evicted at the start. -/
theorem SecInv.enforce_survivors (h : SecInv ix) {all : List (Bytes × AnyValue)}
    (hh : ix.secs.Harmonious all) (henc : ∀ nv ∈ all, nv.2.encode ≠ none)
    (hsub : ∀ nv ∈ nvs, nv ∈ all) (key : Bytes) :
    (ix.Evicts nvs key → (ix.enforce nvs).pk.get key = none) ∧
      (¬ ix.Evicts nvs key → (ix.enforce nvs).pk.get key = ix.pk.get key) := by
  induction nvs generalizing ix with
  | nil => exact ⟨by rintro ⟨_, ⟨⟩, _⟩, fun _ => rfl⟩
  | cons nv nvs ih =>
      obtain ⟨hnv, hrest⟩ := List.forall_mem_cons.mp hsub
      have hsplit : ix.Evicts (nv :: nvs) key ↔ key ∈ ix.victimsOf nv ∨ ix.Evicts nvs key := by
        simp only [Indexes.Evicts, Indexes.mem_victimsOf, List.mem_cons, exists_eq_or_imp]
      have hget := ix.enforceOne_get nv key
      show (_ → ((ix.enforceOne nv).enforce nvs).pk.get key = none) ∧
        (_ → ((ix.enforceOne nv).enforce nvs).pk.get key = _)
      by_cases hnow : key ∈ ix.victimsOf nv
      · rw [if_pos hnow] at hget
        exact ⟨fun _ => Indexes.enforce_get_none hget,
          fun hnot => absurd (hsplit.mpr (.inl hnow)) hnot⟩
      · rw [if_neg hnow] at hget
        rw [hsplit, or_iff_right hnow, ← h.evicts_enforceOne hh henc hrest hnv hnow, ← hget]
        exact ih (h.enforceOne nv) (h.harmonious_enforceOne hh henc hnv) hrest

end Survivors

/-! ## The pass of a batch -/

section Batch

variable {ix : Indexes} {nvs : List (Bytes × AnyValue)}

/-- The text under which `PutBatch` remembers that a pair has been enforced. -/
def seenKey (nv : Bytes × AnyValue) : Bytes := nv.1 ++ 0 :: sprint nv.2

/-- Pairs that are remembered under the same text evict the same keys. -/
def Indexes.Discerned (ix : Indexes) (nvs : List (Bytes × AnyValue)) : Prop :=
  ∀ nv ∈ nvs, ∀ nv' ∈ nvs, seenKey nv = seenKey nv' →
    ∀ key, key ∈ ix.victimsOf nv ↔ key ∈ ix.victimsOf nv'

theorem Indexes.enforceSeen_get_none (st : Indexes × List Bytes) {key : Bytes}
    (h : st.1.pk.get key = none) : (nvs.foldl Indexes.enforceSeen st).1.pk.get key = none := by
  induction nvs generalizing st with
  | nil => exact h
  | cons nv nvs ih =>
      refine ih _ ?_
      rw [Indexes.enforceSeen]
      split
      · exact h
      · rw [Indexes.enforceOne_get, h, ite_self]

/-- Skipping the pairs that have been enforced makes no difference: nothing is left to evict for
them. -/
theorem SecInv.enforceSeen_survivors (h : SecInv ix) {all : List (Bytes × AnyValue)}
    (hh : ix.secs.Harmonious all) (henc : ∀ nv ∈ all, nv.2.encode ≠ none)
    (hd : ix.Discerned all) (hsub : ∀ nv ∈ nvs, nv ∈ all) {seen : List Bytes}
    (hseen : ∀ nv ∈ all, seenKey nv ∈ seen → ∀ key, key ∉ ix.victimsOf nv) (key : Bytes) :
    (ix.Evicts nvs key → (nvs.foldl Indexes.enforceSeen (ix, seen)).1.pk.get key = none) ∧
      (¬ ix.Evicts nvs key →
        (nvs.foldl Indexes.enforceSeen (ix, seen)).1.pk.get key = ix.pk.get key) := by
  induction nvs generalizing ix seen with
  | nil => exact ⟨by rintro ⟨_, ⟨⟩, _⟩, fun _ => rfl⟩
  | cons nv nvs ih =>
      obtain ⟨hnv, hrest⟩ := List.forall_mem_cons.mp hsub
      have hsplit : ix.Evicts (nv :: nvs) key ↔ key ∈ ix.victimsOf nv ∨ ix.Evicts nvs key := by
        simp only [Indexes.Evicts, Indexes.mem_victimsOf, List.mem_cons, exists_eq_or_imp]
      rw [List.foldl_cons]
      by_cases hskip : seenKey nv ∈ seen
      · have hstep : Indexes.enforceSeen (ix, seen) nv = (ix, seen) :=
          if_pos (List.contains_iff_mem.mpr hskip)
        rw [hstep, hsplit, or_iff_right (hseen nv hnv hskip key)]
        exact ih h hh hd hrest hseen
      · have hstep : Indexes.enforceSeen (ix, seen) nv
            = (ix.enforceOne nv, seen ++ [seenKey nv]) :=
          if_neg fun hc => hskip (List.contains_iff_mem.mp hc)
        have hvictims := fun nv' (hnv' : nv' ∈ all) =>
          h.mem_victimsOf_enforceOne (henc nv' hnv') fun si si' => hh nv hnv nv' hnv' si si'
        have hd' : (ix.enforceOne nv).Discerned all := by
          intro nv₁ hnv₁ nv₂ hnv₂ hkeys k
          rw [hvictims nv₁ hnv₁, hvictims nv₂ hnv₂, hd nv₁ hnv₁ nv₂ hnv₂ hkeys k]
        have hseen' : ∀ nv' ∈ all, seenKey nv' ∈ seen ++ [seenKey nv] →
            ∀ k, k ∉ (ix.enforceOne nv).victimsOf nv' := by
          intro nv' hnv' hmem k hk
          obtain ⟨hk, hnot⟩ := (hvictims nv' hnv' k).mp hk
          rcases List.mem_append.mp hmem with hmem | hmem
          · exact hseen nv' hnv' hmem k hk
          · exact hnot ((hd nv' hnv' nv hnv (List.mem_singleton.mp hmem) k).mp hk)
        have hget := ix.enforceOne_get nv key
        rw [hstep]
        by_cases hnow : key ∈ ix.victimsOf nv
        · rw [if_pos hnow] at hget
          exact ⟨fun _ => Indexes.enforceSeen_get_none _ hget,
            fun hnot => absurd (hsplit.mpr (.inl hnow)) hnot⟩
        · rw [if_neg hnow] at hget
          rw [hsplit, or_iff_right hnow, ← h.evicts_enforceOne hh henc hrest hnv hnow, ← hget]
          exact ih (h.enforceOne nv) (h.harmonious_enforceOne hh henc hnv) hd' hrest hseen'

/-- The pairs of a batch, in the order in which they are enforced. -/
def touchedPairs (ords : Nat → MapOrder) : Nat → List CheckedItem → List (Bytes × AnyValue)
  | _, [] => []
  | i, c :: cs => (ords i).items c.ix ++ touchedPairs ords (i + 1) cs

theorem mem_touchedPairs {ords : Nat → MapOrder} {i : Nat} {cs : List CheckedItem}
    {nv : Bytes × AnyValue} : nv ∈ touchedPairs ords i cs ↔ ∃ c ∈ cs, nv ∈ c.ix := by
  induction cs generalizing i with
  | nil => simp [touchedPairs]
  | cons c cs ih =>
      rw [touchedPairs, List.mem_append, ih, ((ords i).perm c.ix).mem_iff]
      simp only [List.mem_cons, exists_eq_or_imp]
      rfl

theorem Indexes.enforceItems_eq (ords : Nat → MapOrder) (i : Nat) (cs : List CheckedItem)
    (st : Indexes × List Bytes) : Indexes.enforceItems ords i cs st
      = ((touchedPairs ords i cs).foldl Indexes.enforceSeen st).1 := by
  induction cs generalizing i st with
  | nil => rfl
  | cons c cs ih => rw [Indexes.enforceItems, ih, touchedPairs, List.foldl_append]

end Batch

/-! ## Where a record lies makes no difference -/

/-- The same keys with the same index values, and the same trees. -/
structure Indexes.Alike (ix ix' : Indexes) : Prop where
  secs : ix.secs = ix'.secs
  keys : ∀ k, (ix.pk.get k).map PkEntry.ix = (ix'.pk.get k).map PkEntry.ix

section Alike

variable {ix ix' : Indexes}

theorem Indexes.Alike.refl (ix : Indexes) : ix.Alike ix := ⟨rfl, fun _ => rfl⟩

theorem Indexes.Alike.isSome (h : ix.Alike ix') (k : Bytes) :
    (ix.pk.get k).isSome = (ix'.pk.get k).isSome := by
  have hk := congrArg Option.isSome (h.keys k)
  rwa [Option.isSome_map, Option.isSome_map] at hk

theorem Indexes.Alike.put (h : ix.Alike ix') {e e' : PkEntry} (he : e.ix = Tree.empty)
    (he' : e'.ix = Tree.empty) (hkey : e.key = e'.key) (ixv : AnyMap) :
    (ix.put e ixv).Alike (ix'.put e' ixv) := by
  have hixOf : ix.pk.ixOf e.key = ix'.pk.ixOf e'.key := by
    rw [PkIndex.ixOf, PkIndex.ixOf, hkey, h.keys]
  refine ⟨SecIndexes.ext_items ?_, fun k => ?_⟩
  · rw [Indexes.put_secs ix he, Indexes.put_secs ix' he', hixOf, h.secs, hkey]
  · rw [Indexes.put_pk ix he, Indexes.put_pk ix' he', PkIndex.get_set, PkIndex.get_set]
    dsimp only
    rw [hkey]
    split
    · rfl
    · exact h.keys k

theorem Indexes.Alike.victimsOf (h : ix.Alike ix') (nv : Bytes × AnyValue) :
    ix.victimsOf nv = ix'.victimsOf nv := by
  rw [Indexes.victimsOf, Indexes.victimsOf, h.secs]

theorem Indexes.Alike.evicts (h : ix.Alike ix') {nvs nvs' : List (Bytes × AnyValue)}
    (hnvs : ∀ nv, nv ∈ nvs ↔ nv ∈ nvs') (key : Bytes) :
    ix.Evicts nvs key ↔ ix'.Evicts nvs' key := by
  simp only [Indexes.evicts_iff, hnvs, h.victimsOf]

/-- The items of a batch put into the indexes, at no place. -/
def Indexes.putAll (ix : Indexes) (cs : List CheckedItem) : Indexes :=
  cs.foldl (fun ix c => ix.put { key := c.item.key } c.ix) ix

theorem PutItems.alike {cs : List CheckedItem} {ix mid : Indexes} (h : PutItems cs ix mid) :
    ∀ {ix' : Indexes}, ix.Alike ix' → mid.Alike (ix'.putAll cs) := by
  induction h with
  | nil ix => exact fun halike => halike
  | cons _ ih =>
      intro ix' halike
      refine ih (halike.put ?_ ?_ ?_ _)
      · rfl
      · rfl
      · rfl

theorem PutItems.secInv {cs : List CheckedItem} {ix mid : Indexes} (h : PutItems cs ix mid)
    (henc : ∀ c ∈ cs, AnyMap.Encodable c.ix) : SecInv ix → SecInv mid := by
  induction h with
  | nil ix => exact fun hinv => hinv
  | cons _ ih =>
      obtain ⟨hc, hcs⟩ := List.forall_mem_cons.mp henc
      exact fun hinv => ih hcs (hinv.put rfl hc)

end Alike

/-! ## What a write does to the indexes -/

section Effects

variable {A : Answer → Prop} {w : World}

/-- A stored value leaves the indexes alone. -/
theorem storeValue_idx (key value : Bytes) (ix : AnyMap) (exp : Int64) (counter : Bool) :
    Spec A (fun v => v.db.idx = w.db.idx) (storeValue key value ix exp counter)
      (fun r v => v.db.idx = w.db.idx ∧ r.ix = ix) (fun _ _ => True) := by
  unfold storeValue
  refine Spec.bind_getWorld ?_
  intro u hu
  refine Spec.ite (fun _ => ?_) fun _ => ?_
  · unfold appendBlob
    refine Spec.bind (Q := fun _ v => v.db.idx = w.db.idx) ?_ fun ref => ?_
    · refine Spec.bind_getWorld ?_
      rintro u' rfl
      cases u'.db.blobStore u'.db.curGen with
      | none => exact Spec.fail fun _ _ => trivial
      | some bs =>
          refine Spec.bind ((BlobStore.append_cases A u' bs value).errors fun _ _ _ => trivial)
            fun r => ?_
          refine Spec.bind (Spec.updateDB (Q := fun _ v => v.db.idx = w.db.idx) ?_)
            fun _ => Spec.pure fun v hv => hv
          rintro v ⟨rfl, _, rfl⟩
          exact hu
    · refine Spec.of_world ?_
      intro u' hu'
      refine Spec.bind ((flushBlob_cases A u' u.db.curGen).errors fun _ _ _ => trivial)
        fun _ => Spec.pure ?_
      rintro v ⟨s, rfl⟩
      exact ⟨hu', rfl⟩
  · refine Spec.pure ?_
    rintro v rfl
    exact ⟨hu, rfl⟩

/-- A record that has been appended is put into the indexes. -/
theorem appendRecord_idx (key value : Bytes) (ix : AnyMap) (exp : Int64) (durable counter : Bool) :
    Spec A (fun v => v.db.idx = w.db.idx) (appendRecord key value ix exp durable counter)
      (fun _ v => AnyMap.Encodable ix ∧ ∃ off n, v.db.idx
        = w.db.idx.put { key := key, off := off, n := n, exp := exp } ix) (fun _ _ => True) := by
  unfold appendRecord
  refine Spec.bind (storeValue_idx key value ix exp counter) fun r =>
    Spec.of_world ?_
  rintro u ⟨hu, hr⟩
  refine Spec.bind ((appendSync_cases A u r _ durable).errors fun _ _ _ => trivial)
    fun loc => Spec.updateDB ?_
  rintro v ⟨line, s, hline, _, rfl, rfl⟩
  refine ⟨hr ▸ encodable_of_marshal hline, u.db.size, lineLen line, ?_⟩
  exact congrArg (fun idx => Indexes.put idx _ ix) hu

/-- `asBatchItem` changes errors only. -/
theorem asBatchItem_ok {α : Type} {P : World → Prop} {c : StoreM α} {Q : α → World → Prop} (i : Nat)
    (key : Bytes) (hc : Spec A P c Q fun _ _ => True) :
    Spec A P (asBatchItem i key c) Q fun _ _ => True := by
  unfold asBatchItem
  exact Spec.bind_attempt hc (fun _ => Spec.pure fun _ hv => hv)
    fun _ => Spec.fail fun _ _ => trivial

theorem appendItems_idx (cs : List CheckedItem) : ∀ (i : Nat) {w : World},
    Spec A (fun v => v.db.idx = w.db.idx) (appendItems i cs)
      (fun _ v => PutItems cs w.db.idx v.db.idx ∧ ∀ c ∈ cs, AnyMap.Encodable c.ix)
      (fun _ _ => True) := by
  induction cs with
  | nil =>
      intro i w
      refine Spec.pure fun v hv => ⟨?_, by simp⟩
      rw [hv]
      exact .nil _
  | cons c cs ih =>
      intro i w
      refine Spec.bind (asBatchItem_ok i c.item.key (appendRecord_idx c.item.key
        c.item.value c.ix c.exp false false)) fun _ => Spec.of_world ?_
      rintro u ⟨henc, off, n, hput⟩
      refine (ih (i + 1) (w := u)).conseq (fun v hv => congrArg (fun v : World => v.db.idx) hv)
        (fun _ v hv => ?_) fun _ _ _ => trivial
      exact ⟨.cons (hput ▸ hv.1), List.forall_mem_cons.mpr ⟨henc, hv.2⟩⟩

theorem enforceSeen_idx (w : World) (seen : List Bytes) (nv : Bytes × AnyValue) :
    Spec A (fun v => v = w) (enforceSeen seen nv)
      (fun seen' v => (v.db.idx, seen') = Indexes.enforceSeen (w.db.idx, seen) nv)
      (fun _ _ => True) := by
  unfold enforceSeen Indexes.enforceSeen
  refine Spec.ite (fun hseen => ?_) fun hseen => ?_
  · refine Spec.pure ?_
    rintro v rfl
    exact (if_pos hseen).symm
  · refine Spec.bind (enforceOne_exact w nv) fun _ => Spec.pure fun v hv => ?_
    rw [hv.2]
    exact (if_neg hseen).symm

theorem enforceItems_idx (ords : Nat → MapOrder) (cs : List CheckedItem) :
    ∀ (i : Nat) (seen : List Bytes) (w : World),
    Spec A (fun v => v = w) (enforceItems ords i cs seen)
      (fun _ v => v.db.idx = Indexes.enforceItems ords i cs (w.db.idx, seen))
      (fun _ _ => True) := by
  induction cs with
  | nil =>
      intro i seen w
      refine Spec.pure ?_
      rintro v rfl
      rfl
  | cons c cs ih =>
      intro i seen w
      -- the pairs of this item still to come, enforced from here, give its final state
      refine Spec.bind (Q := fun seen' v => (v.db.idx, seen')
        = ((ords i).items c.ix).foldl Indexes.enforceSeen (w.db.idx, seen)) ?_ fun seen' => ?_
      · refine (Spec.foldEach (I := fun rest seen' (v : World) =>
          rest.foldl Indexes.enforceSeen (v.db.idx, seen')
            = ((ords i).items c.ix).foldl Indexes.enforceSeen (w.db.idx, seen)) ?_
          ((ords i).items c.ix) seen).conseq ?_ (fun _ _ hv => hv) fun _ _ hv => hv
        · intro nv rest seen'
          refine Spec.of_world fun u hu => ?_
          refine (enforceSeen_idx u seen' nv).post (fun _ v hv => ?_) fun _ _ _ => trivial
          rw [hv]
          exact hu
        · rintro v rfl
          rfl
      · refine Spec.of_world fun u hu => ?_
        refine (ih (i + 1) seen' u).post (fun _ v hv => ?_) fun _ _ _ => trivial
        rw [hv, hu]
        rfl

/-- Counting writes and the snapshot for the hint leave the indexes alone. -/
theorem countAndHint_idx (w : World) (n : Nat) :
    Spec A (fun v => v.db.idx = w.db.idx) (do countWrites n; maybeWriteHint)
      (fun _ v => v.db.idx = w.db.idx) (fun _ _ => True) := by
  refine Spec.bind (Spec.updateDB (Q := fun _ v => v.db.idx = w.db.idx) fun v hv => hv)
    fun _ => Spec.updateDB fun v hv => ?_
  show v.db.maybeSnapshot.idx = _
  rw [DB.maybeSnapshot]
  split
  · exact hv
  · exact hv

/-- `PutIndexed` that returned without an error, seen from the indexes. -/
theorem putIndexed_idx (w : World) (ord : MapOrder) (key value : Bytes) (explicit : AnyMap)
    (ttl : List Int64) :
    Spec A (fun v => v = w) (putIndexed ord key value explicit ttl)
      (fun _ v => ∃ exp ix off n, resolveTTL w.now ttl = .ok exp ∧
        Checked w ord key value explicit ix ∧ AnyMap.Encodable ix ∧
        v.db.idx = (w.db.idx.put { key := key, off := off, n := n, exp := exp } ix).enforce
          (ord.items ix)) (fun _ _ => True) := by
  unfold putIndexed write
  refine Spec.bind_getWorld ?_
  rintro w rfl
  refine Spec.bind_ofExcept (fun _ _ _ _ => trivial) fun exp hexp => ?_
  refine Spec.bind_requireOpen (fun _ => trivial) fun _ => Spec.bind_getWorld ?_
  rintro w rfl
  refine Spec.bind_ofExcept (fun _ _ _ _ => trivial) fun ix hix => ?_
  refine Spec.bind_ofExcept (fun _ _ _ _ => trivial) fun _ hkept => ?_
  have hchecked : Checked w ord key value explicit ix := ⟨hix, hkept⟩
  refine Spec.bind ((appendRecord_idx (w := w) key value ix exp w.db.opts.syncEveryWrite
    false).conseq (fun v hv => congrArg (fun v : World => v.db.idx) hv) (fun _ _ hv => hv)
    fun _ _ _ => trivial) fun _ => Spec.of_world ?_
  rintro u ⟨henc, off, n, hput⟩
  refine Spec.bind (enforceMaxPerValue_exact u ord ix) fun _ => Spec.of_world ?_
  rintro v ⟨_, henforced⟩
  refine (countAndHint_idx v 1).conseq (fun z hz => congrArg (fun v : World => v.db.idx) hz)
    (fun _ z hz => ?_) fun _ _ _ => trivial
  exact ⟨exp, ix, off, n, hexp, hchecked, henc, by rw [hz, henforced, hput]⟩

/-- `PutBatch` that returned without an error, seen from the indexes. -/
theorem putBatch_idx (w : World) (ords : Nat → MapOrder) (items : List PutItem) :
    Spec A (fun v => v = w) (putBatch ords items)
      (fun _ v => ∃ cs mid, w.db.checkItems w.now ords 0 items = .ok cs ∧
        PutItems cs w.db.idx mid ∧ (∀ c ∈ cs, AnyMap.Encodable c.ix) ∧
        v.db.idx = Indexes.enforceItems ords 0 cs (mid, [])) (fun _ _ => True) := by
  unfold putBatch
  refine Spec.bind_requireOpen (fun _ => trivial) fun _ => Spec.ite (fun hnil => ?_) fun _ => ?_
  · refine Spec.pure ?_
    rintro v rfl
    rw [hnil]
    exact ⟨[], _, rfl, .nil _, by simp, rfl⟩
  refine Spec.bind_getWorld ?_
  rintro w rfl
  refine Spec.bind_ofExcept (fun _ _ _ _ => trivial) fun cs hcs => ?_
  refine Spec.bind ((appendItems_idx cs 0 (w := w)).conseq
    (fun v hv => congrArg (fun v : World => v.db.idx) hv) (fun _ _ hv => hv)
    fun _ _ _ => trivial) fun _ => Spec.of_world ?_
  rintro u ⟨hput, henc⟩
  refine Spec.bind (enforceItems_idx ords cs 0 [] u) fun _ => Spec.of_world ?_
  intro v hv
  refine Spec.bind (Q := fun _ z => z.db.idx = v.db.idx) (Spec.doWhen (fun _ => ?_) ?_)
    fun _ => (countAndHint_idx v items.length).post
      (fun _ z hz => ⟨cs, u.db.idx, hcs, hput, henc, hz.trans hv⟩) fun _ _ _ => trivial
  · refine Spec.bind ((flushBlob_cases A v w.db.curGen).errors fun _ _ _ => trivial)
      fun _ => Spec.of_world ?_
    rintro z ⟨s, rfl⟩
    refine (flushMain_cases A { v with durable := s }).post ?_ fun _ _ _ => trivial
    rintro _ z ⟨s', rfl⟩
    rfl
  · rintro z rfl _
    rfl

end Effects

/-! ## What is built depends on the declarations -/

section Declarations

variable {secs secs' : SecIndexes}

theorem SecIndexes.get_none_of_decls (h : secs'.decls = secs.decls) {name : Bytes}
    (hnone : secs.get name = none) : secs'.get name = none := by
  cases hget : secs'.get name with
  | none => rfl
  | some si' =>
      obtain ⟨si, hsi, _⟩ := SecIndexes.get_of_decls h.symm hget
      rw [hnone] at hsi
      cases hsi

theorem SecIndex.makeEntry_congr {si si' : SecIndex} (h : si'.decl = si.decl) (val : AnyValue)
    (pk : Bytes) : si'.makeEntry val pk = si.makeEntry val pk := by
  have hname : si'.name = si.name := congrArg Decl.name h
  have hkind : si'.kind = si.kind := congrArg Decl.kind h
  rw [SecIndex.makeEntry, SecIndex.makeEntry, hname, hkind]

theorem collect_congr {α : Type} (h : secs'.decls = secs.decls) (key : Bytes) (name : α → Bytes)
    (val : α → Option AnyValue → Option AnyValue) (missing : α → Err) (items : List α)
    (out : AnyMap) : collect secs' key name val missing items out
      = collect secs key name val missing items out := by
  induction items generalizing out with
  | nil => rfl
  | cons a rest ih =>
      rw [collect, collect]
      cases val a (out.get (name a)) with
      | none => exact ih out
      | some v =>
          dsimp only
          cases hget : secs.get (name a) with
          | none => rw [SecIndexes.get_none_of_decls h hget]
          | some si =>
              obtain ⟨si', hget', hdecl⟩ := SecIndexes.get_of_decls h hget
              rw [hget']
              dsimp only
              rw [SecIndex.makeEntry_congr hdecl]
              cases si.makeEntry v key with
              | error e => rfl
              | ok e => exact ih _

theorem buildIndexValues_congr {db db' : DB} (hopts : db'.opts = db.opts)
    (hdecls : db'.idx.secs.decls = db.idx.secs.decls) (ord : MapOrder) (key value : Bytes)
    (explicit : AnyMap) :
    db'.buildIndexValues ord key value explicit = db.buildIndexValues ord key value explicit := by
  have hnil : db'.idx.secs.items = [] ↔ db.idx.secs.items = [] := by
    rw [← List.map_eq_nil_iff (f := SecIndex.decl), ← SecIndexes.decls, hdecls, SecIndexes.decls,
      List.map_eq_nil_iff]
  have hextracted : addExtracted db'.idx.secs key value db'.opts.indexes
      = addExtracted db.idx.secs key value db.opts.indexes := by
    funext out
    rw [addExtracted_eq, addExtracted_eq, collect_congr hdecls, hopts]
  simp only [DB.buildIndexValues, hnil, addExplicit_eq, collect_congr hdecls, hextracted]

end Declarations

end NteeDb.Core
