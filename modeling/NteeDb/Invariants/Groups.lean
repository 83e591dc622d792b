import NteeDb.Core.Write
import NteeDb.Verified.Ranks

/-!
# The groups of an index

The entries with one value stand together in the tree of an index.  The binary searches
of the retention code find the ends of this group, so what it evicts are the group's
lowest keys, and what it refuses is a new key below all that would be left.

## Main results

* `SecIndex.victims_eq` — the evictions for a value.
* `SecIndex.wouldSelfEvict_eq` — the writes that are refused.
-/

namespace NteeDb.Core

open NteeDb.Verified
open OrderedTree Ranks JsonCodec

section Groups

variable {si : SecIndex} {probe : SecEntry}

/-- Nothing of the probe's value sorts below a probe without a key. -/
theorem secLess_probe {kind : ValueKind} {e probe : SecEntry} (hpk : probe.pk = []) :
    secLess kind e probe = true ↔ valueGreater kind probe e = true := by
  rw [secLess_iff, hpk]
  constructor
  · rintro (h | ⟨_, h⟩)
    · exact h
    · exact absurd h (List.not_lt_nil _)
  · exact Or.inl

/-- The group of a value is made of the entries with that value. -/
theorem SecIndex.group_eq (hnan : si.NaNFree) (hpk : probe.pk = [])
    (hprobe : probe.NaNFree si.kind) :
    si.group probe
      = (si.tree.items.filter fun e => valueEqual si.kind e probe).map SecEntry.pk := by
  have hwalk := si.tree.takeWhile_ascend probe (fun e => valueEqual si.kind e probe) (by
    intro a ha b _ habove hab hb
    have hnot : ¬ valueGreater si.kind probe a = true := fun h => by
      rw [(secLess_probe hpk).mpr h] at habove
      cases habove
    rcases value_trichotomy (hnan a ha) hprobe with h | h | h
    · exact absurd h hnot
    · exact h
    · -- then `b`, which equals the probe in value, would be below `a`
      have hgt : valueGreater si.kind a b = true := valueGreater_of_equal_left hb h
      rcases secLess_iff.mp hab with h' | ⟨h', _⟩
      · exact absurd h' fun h' => not_valueEqual_of_greater (valueGreater_trans hgt h')
          (valueEqual_refl fun hk => by
            have := hnan a ha hk
            exact hnan b ‹_› hk)
      · exact absurd (valueEqual_symm h') (not_valueEqual_of_greater hgt))
  rw [SecIndex.group, hwalk]
  congr 1
  apply List.filter_congr
  intro e _
  cases heq : valueEqual si.kind e probe with
  | false => simp
  | true =>
      have : secLess si.kind e probe = false := by
        rw [← Bool.not_eq_true, secLess_probe hpk]
        exact fun h => not_valueEqual_of_greater h heq
      simp [this]

/-- The keys of the entries with one value are in ascending order. -/
theorem SecIndex.keys_ascending (si : SecIndex) (probe : SecEntry) :
    ((si.tree.items.filter fun e => valueEqual si.kind e probe).map SecEntry.pk).Pairwise
    (· < ·) := by
  rw [List.pairwise_map]
  refine (si.tree.sorted.filter _).imp_of_mem fun {a b} ha hb hab => ?_
  have haeq := (List.mem_filter.mp ha).2
  have hbeq := (List.mem_filter.mp hb).2
  rcases secLess_iff.mp hab with h | ⟨_, h⟩
  · exact absurd (valueEqual_trans haeq (valueEqual_symm hbeq)) (not_valueEqual_of_greater h)
  · exact h

theorem SecIndex.group_sorted (hnan : si.NaNFree) (hpk : probe.pk = [])
    (hprobe : probe.NaNFree si.kind) : (si.group probe).Pairwise (· < ·) := by
  rw [si.group_eq hnan hpk hprobe]
  exact si.keys_ascending probe

/-! ## The searches -/

private theorem search_items (si : SecIndex) {p : SecEntry → Bool} {xs ys : List SecEntry}
    (hsplit : si.tree.items = xs ++ ys) (hxs : ∀ a ∈ xs, p a = false) (hys : ∀ a ∈ ys, p a = true) :
    search si.count (fun i => p (si.entryAt i)) = xs.length := by
  have hlen : si.count = (xs ++ ys).length := by rw [← hsplit]; rfl
  rw [hlen]
  refine search_append (fun i h => ?_) hxs hys
  rw [SecIndex.entryAt, hsplit, List.getD_eq_getElem?_getD, List.getElem?_eq_getElem h,
    Option.getD_some, List.get_eq_getElem]

theorem SecIndex.lowerBound_eq (si : SecIndex) (q : SecEntry) :
    si.lowerBound q = (si.tree.items.filter fun e => secLess si.kind e q).length := by
  have hsplit := si.tree.split_items (fun e => secLess si.kind e q)
    fun a b hab hb => StrictComparator.trans a b q hab hb
  refine search_items si (p := fun e => !secLess si.kind e q) hsplit (fun a ha => ?_) fun a ha => ?_
  · rw [(List.mem_filter.mp ha).2]
    rfl
  · exact (List.mem_filter.mp ha).2

theorem SecIndex.upperBoundValue_eq (si : SecIndex) (q : SecEntry) :
    si.upperBoundValue q = (si.tree.items.filter fun e => !valueGreater si.kind e q).length := by
  have hsplit := si.tree.split_items (fun e => !valueGreater si.kind e q) fun a b hab hb => by
    rw [Bool.not_eq_true', ← Bool.not_eq_true] at hb ⊢
    intro ha
    rcases secLess_iff.mp hab with h | ⟨h, _⟩
    · exact hb (valueGreater_trans ha h)
    · exact hb (valueGreater_of_equal_right ha h)
  refine search_items si (p := fun e => valueGreater si.kind e q) hsplit (fun a ha => ?_)
    fun a ha => ?_
  · simpa using (List.mem_filter.mp ha).2
  · simpa using (List.mem_filter.mp ha).2

/-- The entries below, in and above the group of a value. -/
theorem SecIndex.split_group (hnan : si.NaNFree) (hpk : probe.pk = [])
    (hprobe : probe.NaNFree si.kind) :
    si.tree.items = (si.tree.items.filter fun e => secLess si.kind e probe) ++
      ((si.tree.items.filter fun e => valueEqual si.kind e probe) ++
        si.tree.items.filter fun e => valueGreater si.kind e probe) ∧
    (si.tree.items.filter fun e => !valueGreater si.kind e probe)
      = (si.tree.items.filter fun e => secLess si.kind e probe) ++
        si.tree.items.filter fun e => valueEqual si.kind e probe := by
  have hless := si.tree.split_items (fun e => secLess si.kind e probe)
    fun a b hab hb => StrictComparator.trans a b probe hab hb
  have hupper := si.tree.split_items (fun e => !valueGreater si.kind e probe) fun a b hab hb => by
    rw [Bool.not_eq_true', ← Bool.not_eq_true] at hb ⊢
    intro ha
    rcases secLess_iff.mp hab with h | ⟨h, _⟩
    · exact hb (valueGreater_trans ha h)
    · exact hb (valueGreater_of_equal_right ha h)
  -- one of the three holds of every entry, and no two of them
  have hthree : ∀ e ∈ si.tree.items, (!valueGreater si.kind e probe) = (secLess si.kind e probe ||
      valueEqual si.kind e probe) ∧ (secLess si.kind e probe = true →
        valueEqual si.kind e probe = false) := by
    intro e he
    rw [Bool.eq_iff_iff.mpr (secLess_probe hpk : secLess si.kind e probe = true ↔ _)]
    rcases value_trichotomy (hnan e he) hprobe with h | h | h
    · have hne : valueEqual si.kind e probe = false :=
        Bool.eq_false_iff.mpr fun heq => not_valueEqual_of_greater h heq
      have hng : valueGreater si.kind e probe = false := Bool.eq_false_iff.mpr fun hg =>
        not_valueEqual_of_greater (valueGreater_trans h hg) (valueEqual_refl (hnan e he))
      rw [h, hne, hng]
      exact ⟨rfl, fun _ => rfl⟩
    · have hng : valueGreater si.kind e probe = false := Bool.eq_false_iff.mpr fun hg =>
        not_valueEqual_of_greater hg (valueEqual_symm h)
      have hnl : valueGreater si.kind probe e = false := Bool.eq_false_iff.mpr fun hg =>
        not_valueEqual_of_greater hg h
      rw [h, hng, hnl]
      exact ⟨rfl, fun h => absurd h Bool.false_ne_true⟩
    · have hne : valueEqual si.kind e probe = false :=
        Bool.eq_false_iff.mpr fun heq => not_valueEqual_of_greater h (valueEqual_symm heq)
      have hng : valueGreater si.kind probe e = false := Bool.eq_false_iff.mpr fun hg =>
        not_valueEqual_of_greater (valueGreater_trans hg h) (valueEqual_refl (hnan e he))
      rw [h, hne, hng]
      exact ⟨rfl, fun _ => rfl⟩
  have hnotAbove : (si.tree.items.filter fun e => !valueGreater si.kind e probe)
      = (si.tree.items.filter fun e => secLess si.kind e probe) ++
        si.tree.items.filter fun e => valueEqual si.kind e probe := by
    nth_rewrite 1 [hless]
    rw [List.filter_append, List.filter_filter, List.filter_filter]
    congr 1
    · refine List.filter_congr fun e he => ?_
      rw [(hthree e he).1]
      cases secLess si.kind e probe <;> simp
    · refine List.filter_congr fun e he => ?_
      rw [(hthree e he).1]
      cases hl : secLess si.kind e probe with
      | false => simp
      | true => simp [(hthree e he).2 hl]
  refine ⟨?_, hnotAbove⟩
  nth_rewrite 1 [hupper]
  rw [hnotAbove, List.append_assoc]
  simp only [Bool.not_not]

theorem SecIndex.length_group (hnan : si.NaNFree) (hpk : probe.pk = [])
    (hprobe : probe.NaNFree si.kind) :
    si.upperBoundValue probe = si.lowerBound probe + (si.group probe).length := by
  rw [si.upperBoundValue_eq, si.lowerBound_eq, (si.split_group hnan hpk hprobe).2,
    si.group_eq hnan hpk hprobe, List.length_append, List.length_map]

private theorem getD_middle {α : Type} {items below grp above : List α}
    (h : items = below ++ (grp ++ above)) {i : Nat} (hi : i < grp.length) (a : α) :
    items.getD (below.length + i) a = grp[i] := by
  rw [h, List.getD_eq_getElem?_getD, List.getElem?_append_right (Nat.le_add_right _ _),
    Nat.add_sub_cancel_left, List.getElem?_append_left hi, List.getElem?_eq_getElem hi,
    Option.getD_some]

/-- The group starts at the lower bound. -/
theorem SecIndex.entryAt_group (hnan : si.NaNFree) (hpk : probe.pk = [])
    (hprobe : probe.NaNFree si.kind) {i : Nat} (hi : i < (si.group probe).length) :
    (si.entryAt (si.lowerBound probe + i)).pk = (si.group probe)[i] := by
  have hsplit := (si.split_group hnan hpk hprobe).1
  have hgroup := si.group_eq hnan hpk hprobe
  have hi' : i < (si.tree.items.filter fun e => valueEqual si.kind e probe).length := by
    rw [hgroup, List.length_map] at hi
    exact hi
  have hentry : si.entryAt (si.lowerBound probe + i)
      = (si.tree.items.filter fun e => valueEqual si.kind e probe)[i] := by
    rw [SecIndex.entryAt, si.lowerBound_eq]
    exact getD_middle hsplit hi' _
  rw [hentry]
  simp only [hgroup, List.getElem_map]

/-! ## Retention -/

/-- How many entries a group may have. -/
def SecIndex.cap (si : SecIndex) : Nat := si.max.toInt.toNat

theorem SecIndex.cap_pos (h : 0 < si.max) : 0 < si.cap ∧ (si.cap : Int) = si.max.toInt := by
  have hpos : (0 : Int) < si.max.toInt := Int64.lt_iff_toInt_lt.mp h
  rw [SecIndex.cap]
  omega

/-- What is evicted for a value: the lowest keys of its group, as many as it holds above
the cap. -/
theorem SecIndex.victims_eq (hnan : si.NaNFree) (hmax : 0 < si.max) {val : AnyValue}
    (hentry : si.makeEntry val [] = .ok probe) (hprobe : probe.NaNFree si.kind) :
    si.victims val = (si.group probe).take ((si.group probe).length - si.cap) := by
  have hpk := SecIndex.makeEntry_pk hentry
  have hcap := SecIndex.cap_pos hmax
  have hexcess : ((si.upperBoundValue probe : Int) - si.lowerBound probe - si.max.toInt).toNat
      = (si.group probe).length - si.cap := by
    rw [si.length_group hnan hpk hprobe, ← hcap.2]
    omega
  rw [SecIndex.victims, if_neg (Int64.not_le.mpr hmax), hentry]
  show (List.range _).map (fun i => (si.entryAt (si.lowerBound probe + i)).pk) = _
  rw [hexcess]
  refine List.ext_getElem (by simp) fun i hi _ => ?_
  rw [List.length_map, List.length_range] at hi
  have hlt : i < (si.group probe).length := by omega
  rw [List.getElem_map, List.getElem_range, List.getElem_take, si.entryAt_group hnan hpk hprobe hlt]

/-- Only an index with a cap evicts, and only for a value it can read. -/
theorem SecIndex.of_mem_victims {val : AnyValue} {key : Bytes} (h : key ∈ si.victims val) :
    0 < si.max ∧ ∃ probe, si.makeEntry val [] = .ok probe := by
  unfold SecIndex.victims at h
  split at h
  · cases h
  · next hmax =>
      split at h
      · cases h
      · next probe hentry => exact ⟨Int64.not_le.mp hmax, probe, hentry⟩

theorem SecIndex.victims_of_unlimited (h : si.max ≤ 0) (val : AnyValue) : si.victims val = [] :=
  if_pos h

/-- A key's place in the tree is the one its rank in the group gives. -/
theorem SecIndex.lowerBound_self (hnan : si.NaNFree) (hpk : probe.pk = [])
    (hprobe : probe.NaNFree si.kind) (key : Bytes) :
    si.lowerBound { probe with pk := key } = si.lowerBound probe + rank (si.group probe) key := by
  have hsplit := (si.split_group hnan hpk hprobe).1
  have hvalue : ∀ e : SecEntry, (valueGreater si.kind { probe with pk := key } e
      = valueGreater si.kind probe e) ∧ valueEqual si.kind e { probe with pk := key }
      = valueEqual si.kind e probe := by
    intro e
    cases si.kind <;> exact ⟨rfl, rfl⟩
  have hself : ∀ e : SecEntry, secLess si.kind e { probe with pk := key } = true ↔
      valueGreater si.kind probe e = true ∨ valueEqual si.kind e probe = true ∧ e.pk < key := by
    intro e
    rw [secLess_iff, (hvalue e).1, (hvalue e).2]
  rw [si.lowerBound_eq, hsplit, List.filter_append, List.filter_append, List.length_append,
    List.length_append]
  have hbelow : ((si.tree.items.filter fun e => secLess si.kind e probe).filter
      fun e => secLess si.kind e { probe with pk := key })
      = si.tree.items.filter fun e => secLess si.kind e probe := by
    refine List.filter_eq_self.mpr fun e he => ?_
    exact (hself e).mpr (Or.inl ((secLess_probe hpk).mp (List.mem_filter.mp he).2))
  have habove : ((si.tree.items.filter fun e => valueGreater si.kind e probe).filter
      fun e => secLess si.kind e { probe with pk := key }) = [] := by
    refine List.filter_eq_nil_iff.mpr fun e he hless => ?_
    obtain ⟨hmem, hgt⟩ := List.mem_filter.mp he
    rcases (hself e).mp hless with h | ⟨h, _⟩
    · exact not_valueEqual_of_greater (valueGreater_trans h hgt) (valueEqual_refl (hnan e hmem))
    · exact not_valueEqual_of_greater hgt (valueEqual_symm h)
  have hin : ((si.tree.items.filter fun e => valueEqual si.kind e probe).filter
      fun e => secLess si.kind e { probe with pk := key }).length = rank (si.group probe) key := by
    rw [rank, si.group_eq hnan hpk hprobe, List.filter_map, List.length_map]
    congr 1
    refine List.filter_congr fun e he => ?_
    obtain ⟨_, heq⟩ := List.mem_filter.mp he
    rw [Bool.eq_iff_iff, hself, Function.comp_apply]
    constructor
    · rintro (h | ⟨_, h⟩)
      · exact absurd heq (not_valueEqual_of_greater h)
      · simpa using h
    · exact fun h => Or.inr ⟨heq, by simpa using h⟩
  rw [hbelow, habove, hin, si.lowerBound_eq, List.length_nil, Nat.add_zero]

/-- What is refused: a key that is new to the group, and would be among those above the
cap. -/
theorem SecIndex.wouldSelfEvict_eq (hnan : si.NaNFree) (hmax : 0 < si.max) {val : AnyValue}
    (hentry : si.makeEntry val [] = .ok probe) (hprobe : probe.NaNFree si.kind) (key : Bytes) :
    si.wouldSelfEvict val key = .ok (decide (key ∉ si.group probe ∧
      rank (si.group probe) key < (si.group probe).length + 1 - si.cap)) := by
  have hpk := SecIndex.makeEntry_pk hentry
  have hcap := SecIndex.cap_pos hmax
  have hsorted := si.group_sorted hnan hpk hprobe
  have hlen := si.length_group hnan hpk hprobe
  have hself := (SecIndex.makeEntry_ok hentry).2 key
  have hplace := si.lowerBound_self hnan hpk hprobe key
  have hexcess : (si.upperBoundValue probe : Int) - si.lowerBound probe + 1 - si.max.toInt
      = (si.group probe).length + 1 - si.cap := by
    rw [hlen, ← hcap.2]
    omega
  have hmember : (si.lowerBound { probe with pk := key } < si.upperBoundValue probe ∧
      (si.entryAt (si.lowerBound { probe with pk := key })).pk = key) ↔ key ∈ si.group probe := by
    rw [hplace, hlen]
    constructor
    · rintro ⟨hlt, hkey⟩
      have hrank : rank (si.group probe) key < (si.group probe).length := by omega
      rw [si.entryAt_group hnan hpk hprobe hrank] at hkey
      rw [← hkey]
      exact List.getElem_mem hrank
    · intro hmem
      obtain ⟨hlt, hget⟩ := getElem_rank hsorted hmem
      exact ⟨by omega, by rw [si.entryAt_group hnan hpk hprobe hlt, hget]⟩
  rw [SecIndex.wouldSelfEvict, if_neg (Int64.not_le.mpr hmax), hentry]
  simp only [bind, Except.bind, pure, Except.pure, hself, hexcess]
  by_cases hle : ((si.group probe).length : Int) + 1 - si.cap ≤ 0
  · have hzero : (si.group probe).length + 1 - si.cap = 0 := by omega
    rw [if_pos hle, hzero]
    simp
  · rw [if_neg hle]
    by_cases hmem : key ∈ si.group probe
    · rw [if_pos (hmember.mpr hmem)]
      simp [hmem]
    · rw [if_neg fun h => hmem (hmember.mp h)]
      have hidx : si.lowerBound probe + (((si.group probe).length : Int) + 1 - si.cap).toNat - 1
          = si.lowerBound probe + ((si.group probe).length - si.cap) := by omega
      have hlt : (si.group probe).length - si.cap < (si.group probe).length := by omega
      rw [hidx, si.entryAt_group hnan hpk hprobe hlt]
      simp only [hmem, not_false_eq_true, true_and, le_getElem_iff hsorted hlt]
      congr 1
      rw [decide_eq_decide]
      omega

end Groups

end NteeDb.Core
