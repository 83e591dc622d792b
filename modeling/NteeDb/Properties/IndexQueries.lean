import NteeDb.Invariants.Groups
import NteeDb.Invariants.Lookups
import NteeDb.Server.Wire

/-!
# Limited lookups in a secondary index

`exact` and `prefix` take a signed limit: the first ones ascending, the last ones descending, or
all.  Here both are compared with that reading of the limit, over any content of an index.  The
negative branch of `exact` negates the limit, and the most negative one is its own negation.
-/

namespace NteeDb.Properties.IndexQueries

open NteeDb.Core NteeDb.Verified NteeDb.Verified.OrderedTree NteeDb.Verified.JsonCodec

/-- What a limit selects of the ascending keys of a group. -/
def limited (limit : Int) (keys : List Bytes) : List Bytes :=
  if limit = 0 then keys
  else if 0 < limit then keys.take limit.toNat
  else keys.reverse.take limit.natAbs

/-! ## Groups of any content -/

section Groups

variable {si : SecIndex} {probe : SecEntry}

/-- A NaN equals no value. -/
theorem valueEqual_of_nan {kind : ValueKind} {a b : SecEntry}
    (h : ¬ (a.NaNFree kind ∧ b.NaNFree kind)) : valueEqual kind a b = false := by
  rw [not_and_or, SecEntry.NaNFree, SecEntry.NaNFree, Classical.not_imp, Classical.not_imp] at h
  rcases h with ⟨rfl, h⟩ | ⟨rfl, h⟩
  · simp [valueEqual, BinaryFloat.Float.equal, h]
  · simp [valueEqual, BinaryFloat.Float.equal, h]

/-- A NaN is not ordered with any entry, so an index that holds one holds nothing else. -/
theorem eq_of_nan {a b : SecEntry} (ha : a ∈ si.tree) (hb : b ∈ si.tree)
    (h : ¬ a.NaNFree si.kind) : a = b := by
  by_contra hne
  have hsymm : Std.Symm fun x y => secLess si.kind x y = true ∨ secLess si.kind y x = true :=
    ⟨fun _ _ => Or.symm⟩
  have hpairs : si.tree.items.Pairwise fun x y =>
      secLess si.kind x y = true ∨ secLess si.kind y x = true :=
      si.tree.sorted.imp fun hab => Or.inl hab
  have hord := hpairs.forall ha hb hne
  rw [SecEntry.NaNFree, Classical.not_imp] at h
  obtain ⟨hkind, hnan⟩ := h
  rw [hkind] at hord
  rcases hord with h | h
  · simp [secLess, BinaryFloat.Float.equal, BinaryFloat.Float.less, hnan] at h
  · simp [secLess, BinaryFloat.Float.equal, BinaryFloat.Float.less, hnan] at h

/-- The group of a probe is made of the entries with its value, whatever the index holds. -/
theorem group_eq_filter (si : SecIndex) (hpk : probe.pk = []) :
    si.group probe
      = (si.tree.items.filter fun e => valueEqual si.kind e probe).map SecEntry.pk := by
  by_cases hfree : si.NaNFree ∧ probe.NaNFree si.kind
  · exact si.group_eq hfree.1 hpk hfree.2
  have hnone : ∀ e ∈ si.tree.items, valueEqual si.kind e probe = false := by
    intro e he
    apply valueEqual_of_nan
    rintro ⟨hefree, hprobe⟩
    refine hfree ⟨fun a ha => ?_, hprobe⟩
    by_contra hnan
    rw [← eq_of_nan ha he hnan] at hefree
    exact hnan hefree
  have hfilter : (si.tree.items.filter fun e => valueEqual si.kind e probe) = [] :=
    List.filter_eq_nil_iff.mpr fun e he => by simp [hnone e he]
  have hgroup : ((si.tree.ascend probe).takeWhile fun e => valueEqual si.kind e probe) = [] := by
    cases hrest : si.tree.ascend probe with
    | nil => rfl
    | cons e rest =>
        have he : e ∈ si.tree.ascend probe := by rw [hrest]; exact List.mem_cons_self
        rw [List.takeWhile_cons, hnone e (List.mem_filter.mp he).1]
        rfl
  rw [SecIndex.group, hgroup, hfilter]

theorem group_ascending (si : SecIndex) (hpk : probe.pk = []) :
    (si.group probe).Pairwise (· < ·) := by
  rw [group_eq_filter si hpk]
  exact si.keys_ascending probe

theorem mem_group (si : SecIndex) (hpk : probe.pk = []) {key : Bytes} :
    key ∈ si.group probe ↔ ∃ e ∈ si.tree, valueEqual si.kind e probe = true ∧ e.pk = key := by
  rw [group_eq_filter si hpk, List.mem_map]
  constructor
  · rintro ⟨e, he, hkey⟩
    exact ⟨e, (List.mem_filter.mp he).1, (List.mem_filter.mp he).2, hkey⟩
  · rintro ⟨e, he, heq, hkey⟩
    exact ⟨e, List.mem_filter.mpr ⟨he, heq⟩, hkey⟩

theorem group_eq_nil_of_ascend (h : si.tree.ascend probe = []) : si.group probe = [] := by
  rw [SecIndex.group, h]
  rfl

end Groups

/-! ## Limits -/

section Limits

variable {limit : Int64}

theorem toInt_eq_zero : limit.toInt = 0 ↔ limit = 0 := by
  rw [← Int64.toInt_inj]
  rfl

theorem toInt_pos : 0 < limit.toInt ↔ 0 < limit := by
  rw [Int64.lt_iff_toInt_lt]
  rfl

/-- Every limit but the least can be negated. -/
theorem toInt_neg (h : limit ≠ Int64.minValue) : (-limit).toInt = -limit.toInt := by
  rw [Int64.toInt_neg]
  have hmin : limit.toInt ≠ -2 ^ 63 := fun heq => h (Int64.toInt_inj.mp heq)
  have hlow := limit.le_toInt
  have hhigh := limit.toInt_lt
  rw [Int.bmod_eq_of_le]
  · omega
  · omega

theorem limited_zero (keys : List Bytes) : limited (0 : Int64).toInt keys = keys := rfl

theorem limited_pos (h : 0 < limit) (keys : List Bytes) :
    limited limit.toInt keys = keys.take limit.toInt.toNat := by
  have hpos := toInt_pos.mpr h
  rw [limited, if_neg (by omega), if_pos hpos]

theorem limited_neg (h0 : limit ≠ 0) (h : ¬ 0 < limit) (keys : List Bytes) :
    limited limit.toInt keys = keys.reverse.take limit.toInt.natAbs := by
  have hzero : limit.toInt ≠ 0 := fun heq => h0 (toInt_eq_zero.mp heq)
  rw [limited, if_neg hzero, if_neg (fun hpos => h (toInt_pos.mp hpos))]

/-- The tail of a list, from its end. -/
theorem reverse_drop_sub (keys : List Bytes) (n : Nat) :
    (keys.drop (keys.length - min n keys.length)).reverse = keys.reverse.take n := by
  rw [List.take_reverse]
  congr 2
  omega

end Limits

/-! ## Exact lookups -/

section Exact

variable {si : SecIndex} {val : AnyValue} {probe : SecEntry} {limit : Int64}

theorem exact_negative (hprobe : si.makeEntry val [] = .ok probe) (h0 : limit ≠ 0)
    (hneg : ¬ 0 < limit) (hfound : si.tree.ascend probe ≠ []) :
    si.exact val limit = if min (-limit).toInt (si.group probe).length < 0 then .error .panic
      else .ok (((si.group probe).drop ((si.group probe).length
        - (min (-limit).toInt (si.group probe).length).toNat)).reverse) := by
  simp [SecIndex.exact, hprobe, h0, hneg, hfound, bind, Except.bind, pure, Except.pure, throw,
    throwThe, MonadExceptOf.throw]

/-- Every limit that can be negated selects what it says. -/
theorem exact_of_ne_min (hprobe : si.makeEntry val [] = .ok probe) (hmin : limit ≠ Int64.minValue) :
    si.exact val limit = .ok (limited limit.toInt (si.group probe)) := by
  by_cases h0 : limit = 0
  · subst h0
    rw [limited_zero]
    simp [SecIndex.exact, hprobe, bind, Except.bind, pure, Except.pure]
  by_cases hpos : 0 < limit
  · simp [SecIndex.exact, hprobe, h0, hpos, limited_pos hpos, bind, Except.bind, pure, Except.pure]
  by_cases hfound : si.tree.ascend probe = []
  · simp [SecIndex.exact, hprobe, h0, hpos, hfound, limited_neg h0 hpos,
      group_eq_nil_of_ascend hfound, bind, Except.bind, pure, Except.pure]
  have hneg : limit.toInt ≤ 0 := Int.not_lt.mp fun h => hpos (toInt_pos.mp h)
  have habs : (-limit).toInt = (limit.toInt.natAbs : Int) := by
    rw [toInt_neg hmin]
    omega
  rw [exact_negative hprobe h0 hpos hfound, habs, if_neg (by omega), limited_neg h0 hpos,
    ← reverse_drop_sub]
  congr 4
  omega

/-- The least limit stays negative, and the slice for its result cannot be allocated. -/
theorem exact_min (hprobe : si.makeEntry val [] = .ok probe) (hfound : si.tree.ascend probe ≠ []) :
    si.exact val Int64.minValue = .error .panic := by
  rw [exact_negative hprobe (by decide) (by decide) hfound, if_pos]
  have : (-Int64.minValue).toInt < 0 := by decide
  omega

/-- Nothing is at or after the probe when every entry sorts below it. -/
theorem ascend_eq_nil :
    si.tree.ascend probe = [] ↔ ∀ e ∈ si.tree, secLess si.kind e probe = true := by
  rw [Tree.ascend, List.filter_eq_nil_iff]
  simp [Tree.mem_def]

/-- `exact` returns what its limit says: all keys of the group ascending, the first ones
ascending or the last ones descending.  The one exception is the least machine integer, on an
index with an entry at or after the probe. -/
theorem exact_limited_iff (si : SecIndex) {val : AnyValue} {probe : SecEntry}
    (hprobe : si.makeEntry val [] = .ok probe) (limit : Int64) :
    ∃ keys : List Bytes, keys.Pairwise (· < ·) ∧
      (∀ key, key ∈ keys ↔ ∃ e ∈ si.tree, valueEqual si.kind e probe = true ∧ e.pk = key) ∧
      (si.exact val limit = .ok (limited limit.toInt keys) ↔
        (limit ≠ Int64.minValue ∨ ∀ e ∈ si.tree, secLess si.kind e probe = true)) := by
  have hpk : probe.pk = [] := SecIndex.makeEntry_pk hprobe
  refine ⟨si.group probe, group_ascending si hpk, fun _ => mem_group si hpk, ?_, ?_⟩
  · intro hexact
    by_contra hcond
    rw [not_or, not_not, ← ascend_eq_nil] at hcond
    obtain ⟨rfl, hfound⟩ := hcond
    rw [exact_min hprobe hfound] at hexact
    cases hexact
  · rintro (hmin | hnone)
    · exact exact_of_ne_min hprobe hmin
    by_cases hmin : limit = Int64.minValue
    · have hnil := ascend_eq_nil.mpr hnone
      subst hmin
      simp [SecIndex.exact, hprobe, hnil, group_eq_nil_of_ascend hnil, limited, bind, Except.bind,
        pure, Except.pure]
    · exact exact_of_ne_min hprobe hmin

/-- A string index with the value `v` under the keys `a` and `b`. -/
def twoKeys : SecIndex :=
  ((newSecIndex { name := [0x74], kind := .string }).insert { s := [0x76], pk := [0x61] }).insert
    { s := [0x76], pk := [0x62] }

/-- The last key of the group, by the limit -1. -/
theorem last_of_two_keys : ∃ keys : List Bytes, keys.Pairwise (· < ·) ∧
    (∀ key, key ∈ keys ↔ ∃ e ∈ twoKeys.tree,
      valueEqual twoKeys.kind e { s := [0x76], pk := [] } = true ∧ e.pk = key) ∧
    (twoKeys.exact (.str [0x76]) (-1) = .ok (limited (-1 : Int64).toInt keys) ↔
      ((-1 : Int64) ≠ Int64.minValue ∨
        ∀ e ∈ twoKeys.tree, secLess twoKeys.kind e { s := [0x76], pk := [] } = true)) :=
  @exact_limited_iff twoKeys (.str [0x76]) _ rfl (-1)

/-- The server parses the least limit, and `exact` panics on it. -/
theorem least_limit_panics :
    Net.parseInt64 (Net.ascii ['-', '9', '2', '2', '3', '3', '7', '2', '0', '3', '6', '8', '5', '4',
      '7', '7', '5', '8', '0', '8']) = some Int64.minValue.toInt ∧
      twoKeys.exact (.str [0x76]) Int64.minValue = .error .panic := by
  exact ⟨by decide +kernel, by decide⟩

end Exact

/-! ## Prefix queries -/

section Prefix

variable {si : SecIndex} {p : Bytes} {limit : Int64}

/-- The keys of a value of a string index, ascending. -/
def keysOf (si : SecIndex) (v : Bytes) : List Bytes :=
  (si.tree.items.filter fun e => e.s = v).map SecEntry.pk

/-- One round of the loop of `prefix`: the value it is at, what it emits, and where the iterator
is then. -/
def prefixRound (si : SecIndex) (p : Bytes) (limit : Int64) (i : Nat) :
    Option (Bytes × List Bytes × Nat) :=
  if si.count ≤ i then none
  else
    let v := (si.entryAt i).s
    if !p.isPrefixOf v then none
    else
      let next := si.lowerBound { s := v ++ [0], pk := [] }
      if limit = 0 then
        let grp := (si.tree.items.drop i).takeWhile fun e => e.s = v
        some (v, grp.map SecEntry.pk, i + grp.length)
      else if 0 < limit then
        let grp := ((si.tree.items.drop i).takeWhile fun e => e.s = v).take limit.toInt.toNat
        let j := i + grp.length
        some (v, grp.map SecEntry.pk, if j < si.count ∧ (si.entryAt j).s = v then next else j)
      else
        let grp := ((si.tree.items.take next).reverse.takeWhile fun e => e.s = v).take
          (-limit).toInt.toNat
        some (v, grp.map SecEntry.pk, next)

/-- The values at which the rounds of the loop are, in order. -/
def prefixVisits (si : SecIndex) (p : Bytes) (limit : Int64) : Nat → Nat → List Bytes
  | 0, _ => []
  | fuel + 1, i =>
      match prefixRound si p limit i with
      | none => []
      | some (v, _, j) => v :: prefixVisits si p limit fuel j

theorem prefixLoop_done {fuel i : Nat} (h : prefixRound si p limit i = none) :
    si.prefixLoop p limit (fuel + 1) i = [] ∧ prefixVisits si p limit (fuel + 1) i = [] := by
  refine ⟨?_, by rw [prefixVisits, h]⟩
  rw [prefixRound] at h
  rw [SecIndex.prefixLoop]
  grind

theorem prefixLoop_round (fuel : Nat) {i j : Nat} {v : Bytes} {out : List Bytes}
    (h : prefixRound si p limit i = some (v, out, j)) :
    si.prefixLoop p limit (fuel + 1) i = out ++ si.prefixLoop p limit fuel j ∧
      prefixVisits si p limit (fuel + 1) i = v :: prefixVisits si p limit fuel j := by
  refine ⟨?_, by rw [prefixVisits, h]⟩
  rw [prefixRound] at h
  rw [SecIndex.prefixLoop]
  grind

/-! ### The order of a string index -/

theorem secLess_string (hkind : si.kind = .string) {a b : SecEntry} :
    secLess si.kind a b = true ↔ a.s < b.s ∨ a.s = b.s ∧ a.pk < b.pk := by
  rw [secLess_iff, hkind]
  simp [valueGreater, valueEqual]

theorem secLess_string_probe (hkind : si.kind = .string) {a : SecEntry} {v : Bytes} :
    secLess si.kind a { s := v, pk := [] } = true ↔ a.s < v := by
  rw [secLess_string hkind]
  constructor
  · rintro (h | ⟨_, h⟩)
    · exact h
    · exact absurd h (List.not_lt_nil _)
  · exact Or.inl

/-- Appending a zero byte gives the next byte string. -/
theorem lt_snoc_zero {x v : Bytes} : x < v ++ [0] ↔ ¬ v < x := by
  induction v generalizing x with
  | nil =>
      cases x with
      | nil => exact iff_of_true (List.nil_lt_cons 0 []) (List.not_lt_nil _)
      | cons b x =>
          refine iff_of_false ?_ (not_not.mpr (List.nil_lt_cons b x))
          rw [List.nil_append, List.cons_lt_cons_iff]
          rintro (h | ⟨_, h⟩)
          · exact UInt8.not_lt_zero h
          · exact absurd h (List.not_lt_nil x)
  | cons c v ih =>
      cases x with
      | nil => exact iff_of_true (List.nil_lt_cons c _) (List.not_lt_nil _)
      | cons b x =>
          rw [List.cons_append, List.cons_lt_cons_iff, List.cons_lt_cons_iff, ih, not_or, not_and]
          rcases lt_trichotomy b c with hlt | rfl | hgt
          · exact iff_of_true (Or.inl hlt) ⟨hlt.asymm, fun heq => absurd heq hlt.ne'⟩
          · simp
          · refine iff_of_false ?_ fun h => h.1 hgt
            rintro (h | ⟨h, _⟩)
            · exact h.asymm hgt
            · exact hgt.ne' h

theorem keysOf_ascending (hkind : si.kind = .string) (v : Bytes) :
    (keysOf si v).Pairwise (· < ·) := by
  have hkeys := si.keys_ascending { s := v, pk := [] }
  simp only [hkind, valueEqual] at hkeys
  exact hkeys

/-! ### One round -/

/-- The entries in front of a group, the group, and the entries after it. -/
structure AtGroup (si : SecIndex) (v : Bytes) (before grp after : List SecEntry) : Prop where
  items : si.tree.items = before ++ (grp ++ after)
  nonempty : grp ≠ []
  below : ∀ e ∈ before, e.s < v
  equal : ∀ e ∈ grp, e.s = v
  above : ∀ e ∈ after, v < e.s

namespace AtGroup

variable {v : Bytes} {before grp after : List SecEntry}

theorem count_eq (h : AtGroup si v before grp after) :
    si.count = before.length + (grp.length + after.length) := by
  rw [SecIndex.count, Tree.len, h.items, List.length_append, List.length_append]

theorem drop_eq (h : AtGroup si v before grp after) :
    si.tree.items.drop before.length = grp ++ after := by
  rw [h.items, List.drop_left]

theorem keysOf_eq (h : AtGroup si v before grp after) : keysOf si v = grp.map SecEntry.pk := by
  have hbefore : before.filter (fun e => e.s = v) = [] :=
    List.filter_eq_nil_iff.mpr fun e he => by simpa using (h.below e he).ne
  have hgrp : grp.filter (fun e => e.s = v) = grp :=
    List.filter_eq_self.mpr fun e he => by simpa using h.equal e he
  have hafter : after.filter (fun e => e.s = v) = [] :=
    List.filter_eq_nil_iff.mpr fun e he => by simpa using (h.above e he).ne'
  rw [keysOf, h.items, List.filter_append, List.filter_append, hbefore, hgrp, hafter,
    List.nil_append, List.append_nil]

theorem takeWhile_group (h : AtGroup si v before grp after) :
    (grp ++ after).takeWhile (fun e => e.s = v) = grp := by
  have hstop : after.takeWhile (fun e => e.s = v) = [] := by
    cases after with
    | nil => rfl
    | cons e rest =>
        have hne : e.s ≠ v := (h.above e List.mem_cons_self).ne'
        rw [List.takeWhile_cons, decide_eq_false hne]
        rfl
  rw [List.takeWhile_append_of_pos fun e he => decide_eq_true (h.equal e he), hstop,
    List.append_nil]

/-- Backwards from the end of the group. -/
theorem takeWhile_reverse (h : AtGroup si v before grp after) :
    ((before ++ grp).reverse.takeWhile fun e => e.s = v) = grp.reverse := by
  have hstop : before.reverse.takeWhile (fun e => e.s = v) = [] := by
    cases hrev : before.reverse with
    | nil => rfl
    | cons e rest =>
        have he : e ∈ before := List.mem_reverse.mp (hrev ▸ List.mem_cons_self)
        rw [List.takeWhile_cons, decide_eq_false (h.below e he).ne]
        rfl
  rw [List.reverse_append, List.takeWhile_append_of_pos
    fun e he => decide_eq_true (h.equal e (List.mem_reverse.mp he)), hstop, List.append_nil]

theorem entryAt_eq (h : AtGroup si v before grp after) {j : Nat} (hj : j < (grp ++ after).length) :
    si.entryAt (before.length + j) = (grp ++ after)[j] := by
  rw [SecIndex.entryAt, h.items, List.getD_eq_getElem?_getD,
    List.getElem?_append_right (Nat.le_add_right _ _), Nat.add_sub_cancel_left,
    List.getElem?_eq_getElem hj, Option.getD_some]

/-- In the group the value is the group's, after it it is not. -/
theorem entryAt_value (h : AtGroup si v before grp after) {j : Nat}
    (hj : j < (grp ++ after).length) : (si.entryAt (before.length + j)).s = v ↔ j < grp.length := by
  rw [h.entryAt_eq hj]
  constructor
  · intro hv
    by_contra hge
    rw [List.getElem_append_right (Nat.le_of_not_lt hge)] at hv
    exact (h.above _ (List.getElem_mem _)).ne' hv
  · intro hlt
    rw [List.getElem_append_left hlt]
    exact h.equal _ (List.getElem_mem _)

/-- Seeking the value with a zero byte appended leads past the group. -/
theorem next_eq (hkind : si.kind = .string) (h : AtGroup si v before grp after) :
    si.lowerBound { s := v ++ [0], pk := [] } = before.length + grp.length := by
  have hpass : ∀ e : SecEntry, secLess si.kind e { s := v ++ [0], pk := [] } = true ↔ e.s ≤ v :=
    fun e => (secLess_string_probe hkind).trans (lt_snoc_zero.trans not_lt)
  have hbefore : before.filter (fun e => secLess si.kind e { s := v ++ [0], pk := [] }) = before :=
    List.filter_eq_self.mpr fun e he => (hpass e).mpr (h.below e he).le
  have hgrp : grp.filter (fun e => secLess si.kind e { s := v ++ [0], pk := [] }) = grp :=
    List.filter_eq_self.mpr fun e he => (hpass e).mpr (h.equal e he).le
  have hafter : after.filter (fun e => secLess si.kind e { s := v ++ [0], pk := [] }) = [] :=
    List.filter_eq_nil_iff.mpr fun e he hless =>
    absurd (h.above e he) (not_lt.mpr ((hpass e).mp hless))
  rw [SecIndex.lowerBound_eq, h.items, List.filter_append, List.filter_append, hbefore,
    hgrp, hafter, List.append_nil, List.length_append]

/-- A round at the start of a group emits what the limit asks for and ends after the group. -/
theorem round (hkind : si.kind = .string) (hmin : limit ≠ Int64.minValue)
    (h : AtGroup si v before grp after) (hp : p <+: v) :
    prefixRound si p limit before.length
      = some (v, limited limit.toInt (keysOf si v), before.length + grp.length) := by
  have hpos : 0 < grp.length := List.length_pos_iff.mpr h.nonempty
  have hcount := h.count_eq
  have hv : (si.entryAt before.length).s = v :=
    (h.entryAt_value (j := 0) (by rw [List.length_append]; omega)).mpr hpos
  have hstarts : (!p.isPrefixOf v) = false := by
    rw [Bool.not_eq_false', List.isPrefixOf_iff_prefix]
    exact hp
  rw [prefixRound, if_neg (by omega), hv]
  dsimp only
  rw [hstarts, if_neg Bool.false_ne_true, h.next_eq hkind, h.drop_eq, h.takeWhile_group,
    h.keysOf_eq]
  by_cases h0 : limit = 0
  · rw [if_pos h0, h0, limited_zero]
  by_cases hlim : 0 < limit
  · rw [if_neg h0, if_pos hlim, limited_pos hlim, List.map_take, List.length_take]
    congr 3
    by_cases hcut : limit.toInt.toNat < grp.length
    · have hj : limit.toInt.toNat < (grp ++ after).length := by rw [List.length_append]; omega
      rw [Nat.min_eq_left hcut.le, if_pos ⟨by omega, (h.entryAt_value hj).mpr hcut⟩]
    · rw [Nat.min_eq_right (Nat.le_of_not_lt hcut), if_neg]
      rintro ⟨hlt, heq⟩
      have hj : grp.length < (grp ++ after).length := by rw [List.length_append]; omega
      exact absurd ((h.entryAt_value hj).mp heq) (lt_irrefl _)
  · have habs : (-limit).toInt.toNat = limit.toInt.natAbs := by
      have hneg : limit.toInt ≤ 0 := Int.not_lt.mp fun h => hlim (toInt_pos.mp h)
      rw [toInt_neg hmin]
      omega
    have htake : si.tree.items.take (before.length + grp.length) = before ++ grp := by
      rw [h.items, ← List.append_assoc, ← List.length_append, List.take_left]
    rw [if_neg h0, if_neg hlim, htake, h.takeWhile_reverse, habs, limited_neg h0 hlim,
      List.map_take, List.map_reverse]

theorem round_stops (h : AtGroup si v before grp after) (hp : ¬ p <+: v) :
    prefixRound si p limit before.length = none := by
  have hpos : 0 < grp.length := List.length_pos_iff.mpr h.nonempty
  have hcount := h.count_eq
  have hv : (si.entryAt before.length).s = v :=
    (h.entryAt_value (j := 0) (by rw [List.length_append]; omega)).mpr hpos
  have hstarts : (!p.isPrefixOf v) = true := by
    rw [Bool.not_eq_true', ← Bool.not_eq_true, List.isPrefixOf_iff_prefix]
    exact hp
  rw [prefixRound, if_neg (by omega), hv]
  dsimp only
  rw [if_pos hstarts]

end AtGroup

/-- The first entry of what is left starts a group. -/
theorem exists_atGroup (hkind : si.kind = .string) {before tail : List SecEntry} {c : SecEntry}
    (hitems : si.tree.items = before ++ (c :: tail))
    (hbelow : ∀ a ∈ before, ∀ e ∈ c :: tail, a.s < e.s) :
    ∃ grp after, c :: tail = grp ++ after ∧ AtGroup si c.s before grp after := by
  have hsorted : (c :: tail).Pairwise fun a b => a.s ≤ b.s := by
    have hpairs := si.tree.sorted
    rw [hitems] at hpairs
    refine (List.pairwise_append.mp hpairs).2.1.imp fun {a b} hab => ?_
    rcases (secLess_string hkind).mp hab with h | ⟨h, _⟩
    · exact h.le
    · exact h.le
  have hsplit : c :: tail = (c :: tail).takeWhile (fun e => e.s = c.s)
      ++ (c :: tail).dropWhile (fun e => e.s = c.s) := List.takeWhile_append_dropWhile.symm
  refine ⟨_, _, hsplit, by rw [← hsplit]; exact hitems, ?_,
    fun a ha => hbelow a ha c List.mem_cons_self,
    fun e he => ?_, ?_⟩
  · simp
  · have hwhile := List.mem_takeWhile_imp he
    exact of_decide_eq_true hwhile
  · -- the first entry after the group has a larger value, and the others are not below it
    have hsuffix := (List.dropWhile_suffix (l := c :: tail) fun e => decide (e.s = c.s)).sublist
    cases hafter : (c :: tail).dropWhile (fun e => e.s = c.s) with
    | nil => simp
    | cons b bs =>
        rw [hafter] at hsuffix
        have hb : b.s ≠ c.s := by
          have := List.head_dropWhile_not (fun e : SecEntry => decide (e.s = c.s)) (l := c :: tail)
            (by rw [hafter]; exact List.cons_ne_nil b bs)
          simpa [hafter] using this
        have hcb : c.s ≤ b.s := by
          rcases List.mem_cons.mp (hsuffix.subset List.mem_cons_self) with h | h
          · rw [h]
          · exact (List.pairwise_cons.mp hsorted).1 b h
        have hlt : c.s < b.s := lt_of_le_of_ne hcb hb.symm
        intro e he
        rcases List.mem_cons.mp he with rfl | he
        · exact hlt
        · exact hlt.trans_le ((List.pairwise_cons.mp (hsorted.sublist hsuffix)).1 e he)

/-! ### All rounds -/

/-- The rounds from the start of a group on, over entries whose values are not below the prefix:
each value that has the prefix is visited once, in order. -/
theorem rounds (hkind : si.kind = .string) (hmin : limit ≠ Int64.minValue) (n : Nat) :
    ∀ before rest : List SecEntry, rest.length ≤ n → si.tree.items = before ++ rest →
    (∀ a ∈ before, ∀ c ∈ rest, a.s < c.s) → (∀ c ∈ rest, ¬ c.s < p) →
    ∃ vs : List Bytes, vs.Pairwise (· < ·) ∧ (∀ v, v ∈ vs ↔ p <+: v ∧ ∃ e ∈ rest, e.s = v) ∧
      ∀ fuel, rest.length < fuel →
        si.prefixLoop p limit fuel before.length
          = vs.flatMap (fun v => limited limit.toInt (keysOf si v)) ∧
        prefixVisits si p limit fuel before.length = vs := by
  induction n with
  | zero =>
      intro before rest hn hitems _ _
      have hrest : rest = [] := List.length_eq_zero_iff.mp (Nat.le_zero.mp hn)
      subst hrest
      refine ⟨[], List.Pairwise.nil, fun v => by simp, fun fuel hfuel => ?_⟩
      obtain ⟨k, rfl⟩ : ∃ k, fuel = k + 1 := ⟨fuel - 1, by omega⟩
      apply prefixLoop_done
      have hcount : si.count = before.length := by
        rw [SecIndex.count, Tree.len, hitems, List.append_nil]
      rw [prefixRound, if_pos hcount.le]
  | succ n ih =>
      intro before rest hn hitems hbelow hlow
      cases hrest : rest with
      | nil =>
          subst hrest
          exact ih before [] (Nat.zero_le n) hitems hbelow hlow
      | cons c tail =>
          subst hrest
          obtain ⟨grp, after, hsplit, hgroup⟩ := exists_atGroup hkind hitems hbelow
          have hlen := congrArg List.length hsplit
          rw [List.length_cons, List.length_append] at hlen
          rw [List.length_cons] at hn
          have hpos : 0 < grp.length := List.length_pos_iff.mpr hgroup.nonempty
          have hmem : ∀ e, e ∈ c :: tail ↔ e ∈ grp ∨ e ∈ after := fun e => by
            rw [hsplit, List.mem_append]
          by_cases hp : p <+: c.s
          · have hsep : ∀ a ∈ before ++ grp, ∀ e ∈ after, a.s < e.s := by
              intro a ha e he
              rcases List.mem_append.mp ha with ha | ha
              · exact hbelow a ha e ((hmem e).mpr (Or.inr he))
              · rw [hgroup.equal a ha]
                exact hgroup.above e he
            obtain ⟨vs, hvs, hmemvs, hrun⟩ := ih (before ++ grp) after (by omega)
              (by rw [List.append_assoc]; exact hgroup.items) hsep
              fun e he => hlow e ((hmem e).mpr (Or.inr he))
            refine ⟨c.s :: vs, List.pairwise_cons.mpr ⟨fun v hv => ?_, hvs⟩, fun v => ?_,
              fun fuel hfuel => ?_⟩
            · obtain ⟨_, e, he, rfl⟩ := (hmemvs v).mp hv
              exact hgroup.above e he
            · rw [List.mem_cons, hmemvs]
              constructor
              · rintro (rfl | ⟨hpv, e, he, rfl⟩)
                · exact ⟨hp, c, List.mem_cons_self, rfl⟩
                · exact ⟨hpv, e, (hmem e).mpr (Or.inr he), rfl⟩
              · rintro ⟨hpv, e, he, rfl⟩
                rcases (hmem e).mp he with he | he
                · exact Or.inl (hgroup.equal e he)
                · exact Or.inr ⟨hpv, e, he, rfl⟩
            · rw [List.length_cons] at hfuel
              obtain ⟨k, rfl⟩ : ∃ k, fuel = k + 1 := ⟨fuel - 1, by omega⟩
              obtain ⟨hloop, hvisits⟩ := prefixLoop_round k (hgroup.round hkind hmin hp)
              obtain ⟨hloop', hvisits'⟩ := hrun k (by omega)
              rw [List.length_append] at hloop' hvisits'
              rw [hloop, hvisits, hloop', hvisits']
              exact ⟨rfl, rfl⟩
          · -- the values with the prefix are next to each other, so none is left
            refine ⟨[], List.Pairwise.nil, fun v => ?_, fun fuel hfuel => ?_⟩
            · refine iff_of_false List.not_mem_nil ?_
              rintro ⟨hpv, e, he, rfl⟩
              rcases (hmem e).mp he with he | he
              · rw [hgroup.equal e he] at hpv
                exact hp hpv
              · exact hp (isPrefix_of_between (hlow c List.mem_cons_self) (hgroup.above e he) hpv)
            · rw [List.length_cons] at hfuel
              obtain ⟨k, rfl⟩ : ∃ k, fuel = k + 1 := ⟨fuel - 1, by omega⟩
              exact prefixLoop_done (hgroup.round_stops hp)

/-- A prefix query is the concatenation, over the distinct values with the prefix in ascending
order, of what the limit selects of each value's keys.  The loop ends within one round more than
there are entries, and its rounds are at these values, each once. -/
theorem prefix_grouped (si : SecIndex) (hkind : si.kind = .string) (p : Bytes) {limit : Int64}
    (hmin : limit ≠ Int64.minValue) :
    ∃ vs : List Bytes, vs.Pairwise (· < ·) ∧
      (∀ v, v ∈ vs ↔ p <+: v ∧ ∃ e ∈ si.tree, e.s = v) ∧
      (∀ v, (keysOf si v).Pairwise (· < ·)) ∧
      si.prefixQuery p limit = .ok (vs.flatMap fun v => limited limit.toInt (keysOf si v)) ∧
      ∀ fuel, si.count < fuel →
        si.prefixLoop p limit fuel (si.lowerBound { s := p, pk := [] })
          = vs.flatMap (fun v => limited limit.toInt (keysOf si v)) ∧
        prefixVisits si p limit fuel (si.lowerBound { s := p, pk := [] }) = vs := by
  have hsplit := si.tree.split_items (fun e => secLess si.kind e { s := p, pk := [] })
    fun a b hab hb => StrictComparator.trans a b _ hab hb
  have hbefore : ∀ a ∈ si.tree.items.filter (fun e => secLess si.kind e { s := p, pk := [] }),
      a.s < p := fun a ha => (secLess_string_probe hkind).mp (List.mem_filter.mp ha).2
  have hrest : ∀ c ∈ si.tree.items.filter (fun e => !secLess si.kind e { s := p, pk := [] }),
      ¬ c.s < p := by
    intro c hc hlt
    have hnot := (List.mem_filter.mp hc).2
    rw [(secLess_string_probe hkind).mpr hlt] at hnot
    cases hnot
  obtain ⟨vs, hvs, hmem, hrun⟩ := rounds (p := p) hkind hmin _ _ _ le_rfl hsplit
    (fun a ha c hc => (hbefore a ha).trans_le (not_lt.mp (hrest c hc))) hrest
  rw [← si.lowerBound_eq] at hrun
  have hall : ∀ fuel, si.count < fuel → _ := fun fuel hfuel =>
    hrun fuel (lt_of_le_of_lt (List.length_filter_le _ _) hfuel)
  refine ⟨vs, hvs, fun v => ?_, keysOf_ascending hkind, ?_, hall⟩
  · rw [hmem]
    refine and_congr_right fun hpv => ⟨?_, ?_⟩
    · rintro ⟨e, he, hev⟩
      exact ⟨e, (List.mem_filter.mp he).1, hev⟩
    · rintro ⟨e, he, rfl⟩
      refine ⟨e, List.mem_filter.mpr ⟨he, ?_⟩, rfl⟩
      rw [Bool.not_eq_true', ← Bool.not_eq_true, secLess_string_probe hkind]
      exact not_lt_of_isPrefix hpv
  · rw [SecIndex.prefixQuery, hkind]
    exact congrArg Except.ok (hall _ (Nat.lt_succ_self _)).1

/-- The last key of each value with the prefix `v`. -/
theorem last_of_each_value : ∃ vs : List Bytes, vs.Pairwise (· < ·) ∧
    (∀ v, v ∈ vs ↔ [0x76] <+: v ∧ ∃ e ∈ twoKeys.tree, e.s = v) ∧
    (∀ v, (keysOf twoKeys v).Pairwise (· < ·)) ∧
    twoKeys.prefixQuery [0x76] (-1)
      = .ok (vs.flatMap fun v => limited (-1 : Int64).toInt (keysOf twoKeys v)) ∧
    ∀ fuel, twoKeys.count < fuel →
      twoKeys.prefixLoop [0x76] (-1) fuel (twoKeys.lowerBound { s := [0x76], pk := [] })
        = vs.flatMap (fun v => limited (-1 : Int64).toInt (keysOf twoKeys v)) ∧
      prefixVisits twoKeys [0x76] (-1) fuel (twoKeys.lowerBound { s := [0x76], pk := [] }) = vs :=
  prefix_grouped twoKeys rfl [0x76] (by decide)

end Prefix

end NteeDb.Properties.IndexQueries
