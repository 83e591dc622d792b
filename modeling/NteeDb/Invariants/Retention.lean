import NteeDb.Invariants.Writes

/-!
# Retention

What the evictions of a write do to the groups of the indexes.  A key is evicted from a
group when as many others as the cap allows stand above it.  The evictions for one value
take the lowest keys first, so they do not change what stands above a key that they
spare: whether a key that is in every touched group survives is decided before the first
eviction.

## Main results

* `SecInv.mem_victims` — the evictions for a value.
* `Indexes.enforce_get` — the fate of a key that is in every touched group.
-/

namespace NteeDb.Core

open NteeDb.Verified
open Faults Lines OrderedTree JsonCodec Ranks

/-! ## Groups -/

/-- The keys with a value, as `ByIndex` returns them. -/
def SecIndex.members (si : SecIndex) (val : AnyValue) : List Bytes :=
  match si.makeEntry val [] with
  | .error _ => []
  | .ok probe => si.group probe

/-- The index value of `p` equals `val`. -/
def HasValue (si : SecIndex) (p : PkEntry) (val : AnyValue) : Prop :=
  ∃ probe e, si.makeEntry val [] = .ok probe ∧ Indexed si p e ∧ valueEqual si.kind e probe = true

/-- Only the declaration of the index matters. -/
theorem hasValue_congr {si si' : SecIndex} (h : si'.decl = si.decl) {p : PkEntry} {val : AnyValue} :
    HasValue si' p val ↔ HasValue si p val := by
  have hname : si'.name = si.name := congrArg Decl.name h
  have hkind : si'.kind = si.kind := congrArg Decl.kind h
  have hentry : ∀ probe, si'.makeEntry val [] = .ok probe ↔ si.makeEntry val [] = .ok probe := by
    intro probe
    rw [SecIndex.makeEntry, SecIndex.makeEntry, hkind]
    cases si.kind with
    | number => cases toFloat val <;> simp
    | string => cases toStr val <;> simp
  simp only [HasValue, indexed_congr hname hkind, hkind, hentry]

section Members

variable {ix : Indexes} {si : SecIndex} {val : AnyValue} {key : Bytes}

theorem SecInv.mem_members (h : SecInv ix) (hsi : si ∈ ix.secs.items) (henc : val.encode ≠ none) :
    key ∈ si.members val ↔ ∃ p, ix.pk.get key = some p ∧ HasValue si p val := by
  rw [SecIndex.members]
  cases hentry : si.makeEntry val [] with
  | error err =>
      refine ⟨fun hmem => (nomatch hmem), ?_⟩
      rintro ⟨p, _, probe, e, hprobe, _⟩
      rw [hentry] at hprobe
      cases hprobe
  | ok probe =>
      have hprobe := SecIndex.nanFree_makeEntry henc hentry
      dsimp only
      rw [si.group_eq (h.nanFree hsi) (SecIndex.makeEntry_pk hentry) hprobe, List.mem_map]
      constructor
      · rintro ⟨e, he, rfl⟩
        obtain ⟨he, hval⟩ := List.mem_filter.mp he
        obtain ⟨p, hp, hidx⟩ := (h.mem_iff si hsi e).mp he
        exact ⟨p, PkIndex.get_eq_some.mpr ⟨hp, hidx.pk.symm⟩, probe, e, hentry, hidx, hval⟩
      · rintro ⟨p, hget, probe', e, hentry', hidx, hval⟩
        rw [hentry] at hentry'
        cases hentry'
        obtain ⟨hp, rfl⟩ := PkIndex.get_eq_some.mp hget
        exact ⟨e, List.mem_filter.mpr ⟨(h.mem_iff si hsi e).mpr ⟨p, hp, hidx⟩, hval⟩, hidx.pk⟩

theorem SecInv.members_sorted (h : SecInv ix) (hsi : si ∈ ix.secs.items)
    (henc : val.encode ≠ none) : (si.members val).Pairwise (· < ·) := by
  rw [SecIndex.members]
  cases hentry : si.makeEntry val [] with
  | error err => exact List.Pairwise.nil
  | ok probe =>
      exact si.group_sorted (h.nanFree hsi) (SecIndex.makeEntry_pk hentry)
        (SecIndex.nanFree_makeEntry henc hentry)

/-- The evictions for a value, as a part of its group. -/
theorem SecInv.victims_eq (h : SecInv ix) (hsi : si ∈ ix.secs.items) (henc : val.encode ≠ none)
    (hmax : 0 < si.max) :
    si.victims val = (si.members val).take ((si.members val).length - si.cap) := by
  rw [SecIndex.members]
  cases hentry : si.makeEntry val [] with
  | error err =>
      rw [SecIndex.victims, if_neg (Int64.not_le.mpr hmax), hentry]
      exact List.take_nil.symm
  | ok probe =>
      exact si.victims_eq (h.nanFree hsi) hmax hentry (SecIndex.nanFree_makeEntry henc hentry)

/-- A key is evicted when as many as the cap allows are above it. -/
theorem SecInv.mem_victims (h : SecInv ix) (hsi : si ∈ ix.secs.items) (henc : val.encode ≠ none) :
    key ∈ si.victims val ↔ 0 < si.max ∧ key ∈ si.members val ∧
    si.cap ≤ above (si.members val) key := by
  constructor
  · intro hkey
    have hmax := (SecIndex.of_mem_victims hkey).1
    rw [h.victims_eq hsi henc hmax, mem_take_sub_iff (h.members_sorted hsi henc)] at hkey
    exact ⟨hmax, hkey⟩
  · rintro ⟨hmax, hkey⟩
    rwa [h.victims_eq hsi henc hmax, mem_take_sub_iff (h.members_sorted hsi henc)]

/-- What is evicted is below what is spared. -/
theorem SecInv.victims_lt (h : SecInv ix) (hsi : si ∈ ix.secs.items) (henc : val.encode ≠ none)
    (hkey : key ∈ si.members val) (hspared : key ∉ si.victims val) :
    ∀ k ∈ si.victims val, k < key := by
  intro k hk
  obtain ⟨hmax, hmem, hcap⟩ := (h.mem_victims hsi henc).mp hk
  by_contra hnlt
  refine hspared ((h.mem_victims hsi henc).mpr ⟨hmax, hkey, le_trans hcap ?_⟩)
  -- what is above `k` is above the lower `key`
  rw [above, above, ← List.countP_eq_length_filter, ← List.countP_eq_length_filter]
  refine List.countP_mono_left fun a _ ha => ?_
  simp only [decide_eq_true_eq] at ha ⊢
  exact lt_of_le_of_lt (not_lt.mp hnlt) ha

end Members

/-! ## Deletes -/

/-- An index is still there when the declarations are. -/
theorem SecIndexes.get_of_decls {secs secs' : SecIndexes} (h : secs'.decls = secs.decls)
    {name : Bytes} {si : SecIndex} (hsi : secs.get name = some si) :
    ∃ si', secs'.get name = some si' ∧ si'.decl = si.decl := by
  obtain ⟨hmem, hname⟩ := SecIndexes.get_eq_some.mp hsi
  have hdecl : si.decl ∈ secs'.decls := by
    rw [h]
    exact List.mem_map_of_mem hmem
  obtain ⟨si', hmem', hdecl'⟩ := List.mem_map.mp hdecl
  exact ⟨si', SecIndexes.get_eq_some.mpr ⟨hmem', (congrArg Decl.name hdecl').trans hname⟩, hdecl'⟩

section Deletes

variable {ix : Indexes}

theorem Indexes.deleteAll_decls (ix : Indexes) (keys : List Bytes) :
    (ix.deleteAll keys).secs.decls = ix.secs.decls := by
  induction keys generalizing ix with
  | nil => rfl
  | cons key keys ih => exact (ih (ix.delete key)).trans (Indexes.delete_decls ix key)

theorem SecInv.deleteAll (h : SecInv ix) (keys : List Bytes) : SecInv (ix.deleteAll keys) := by
  induction keys generalizing ix with
  | nil => exact h
  | cons key keys ih => exact ih (h.delete key)

theorem Indexes.deleteAll_get (ix : Indexes) (keys : List Bytes) (key : Bytes) :
    (ix.deleteAll keys).pk.get key = if key ∈ keys then none else ix.pk.get key := by
  induction keys generalizing ix with
  | nil => exact (if_neg List.not_mem_nil).symm
  | cons k keys ih =>
      show ((ix.delete k).deleteAll keys).pk.get key = _
      rw [ih, Indexes.delete_pk, PkIndex.get_remove]
      by_cases hk : key ∈ keys
      · simp [hk]
      · by_cases heq : key = k
        · simp [heq]
        · simp [hk, heq]

/-- A group once keys have been deleted. -/
theorem SecInv.members_deleteAll (h : SecInv ix) {keys : List Bytes} {si si' : SecIndex}
    (hsi : si ∈ ix.secs.items) (hsi' : si' ∈ (ix.deleteAll keys).secs.items)
    (hdecl : si'.decl = si.decl) {val : AnyValue} (henc : val.encode ≠ none) :
    si'.members val = (si.members val).filter fun k => decide (k ∉ keys) := by
  refine eq_of_mem_iff ((h.deleteAll keys).members_sorted hsi' henc)
    ((h.members_sorted hsi henc).filter _) fun k => ?_
  rw [(h.deleteAll keys).mem_members hsi' henc, List.mem_filter, h.mem_members hsi henc,
    Indexes.deleteAll_get, decide_eq_true_eq]
  simp only [hasValue_congr hdecl]
  by_cases hk : k ∈ keys
  · simp [hk]
  · simp [hk]

theorem Indexes.enforceOne_decls (ix : Indexes) (nv : Bytes × AnyValue) :
    (ix.enforceOne nv).secs.decls = ix.secs.decls := by
  rw [Indexes.enforceOne]
  split
  · rfl
  · exact Indexes.deleteAll_decls ix _

/-- The keys that go for one index value. -/
def Indexes.victimsOf (ix : Indexes) (nv : Bytes × AnyValue) : List Bytes :=
  match ix.secs.get nv.1 with
  | none => []
  | some si => si.victims nv.2

theorem Indexes.enforceOne_eq (ix : Indexes) (nv : Bytes × AnyValue) :
    ix.enforceOne nv = ix.deleteAll (ix.victimsOf nv) := by
  rw [Indexes.enforceOne, Indexes.victimsOf]
  cases ix.secs.get nv.1 <;> rfl

theorem Indexes.mem_victimsOf {ix : Indexes} {nv : Bytes × AnyValue} {key : Bytes} :
    key ∈ ix.victimsOf nv ↔ ∃ si, ix.secs.get nv.1 = some si ∧ key ∈ si.victims nv.2 := by
  rw [Indexes.victimsOf]
  cases ix.secs.get nv.1 <;> simp

/-- What is gone stays away. -/
theorem Indexes.enforce_get_none {nvs : List (Bytes × AnyValue)} {key : Bytes}
    (h : ix.pk.get key = none) : (ix.enforce nvs).pk.get key = none := by
  induction nvs generalizing ix with
  | nil => exact h
  | cons nv nvs ih =>
      have hone : (ix.enforceOne nv).pk.get key = none := by
        rw [Indexes.enforceOne_eq, Indexes.deleteAll_get, h, ite_self]
      exact ih hone

end Deletes

/-! ## The fate of one key -/

/-- The key is among those to be evicted for one of the values. -/
def Indexes.Evicts (ix : Indexes) (nvs : List (Bytes × AnyValue)) (key : Bytes) : Prop :=
  ∃ nv ∈ nvs, ∃ si, ix.secs.get nv.1 = some si ∧ key ∈ si.victims nv.2

/-- The key is in the group of every value that an index has a place for. -/
def Indexes.Touched (ix : Indexes) (nvs : List (Bytes × AnyValue)) (key : Bytes) : Prop :=
  ∀ nv ∈ nvs, nv.2.encode ≠ none ∧ ∀ si, ix.secs.get nv.1 = some si → key ∈ si.members nv.2

/-- Evictions that spare a key do not change who is to be evicted of those in its
groups. -/
theorem SecInv.spared {ix : Indexes} (h : SecInv ix) {keys : List Bytes} {key : Bytes}
    (hlow : ∀ k ∈ keys, k < key) {nvs : List (Bytes × AnyValue)} (htouched : ix.Touched nvs key) :
    (ix.deleteAll keys).Touched nvs key ∧
      ((ix.deleteAll keys).Evicts nvs key ↔ ix.Evicts nvs key) := by
  have hkey : key ∉ keys := fun hk => lt_irrefl key (hlow key hk)
  have hmembers : ∀ nv ∈ nvs, ∀ si si', ix.secs.get nv.1 = some si →
      (ix.deleteAll keys).secs.get nv.1 = some si' → si'.decl = si.decl →
      si'.members nv.2 = (si.members nv.2).filter fun k => decide (k ∉ keys) :=
    fun nv hnv si si' hsi hsi' hdecl => h.members_deleteAll (SecIndexes.get_eq_some.mp hsi).1
      (SecIndexes.get_eq_some.mp hsi').1 hdecl (htouched nv hnv).1
  have hvictim : ∀ nv ∈ nvs, ∀ si si', ix.secs.get nv.1 = some si →
      (ix.deleteAll keys).secs.get nv.1 = some si' → si'.decl = si.decl →
      (key ∈ si'.victims nv.2 ↔ key ∈ si.victims nv.2) := by
    intro nv hnv si si' hsi hsi' hdecl
    have henc := (htouched nv hnv).1
    have hmax : si'.max = si.max := congrArg Decl.max hdecl
    have hmem : key ∈ (si.members nv.2).filter fun k => decide (k ∉ keys) :=
      List.mem_filter.mpr ⟨(htouched nv hnv).2 si hsi, decide_eq_true hkey⟩
    rw [h.mem_victims (SecIndexes.get_eq_some.mp hsi).1 henc,
      (h.deleteAll keys).mem_victims (SecIndexes.get_eq_some.mp hsi').1 henc,
      hmembers nv hnv si si' hsi hsi' hdecl, above_filter, SecIndex.cap, SecIndex.cap, hmax]
    · simp only [hmem, (htouched nv hnv).2 si hsi]
    · intro a _ ha
      rw [decide_eq_true_eq]
      exact fun hk => lt_asymm ha (hlow a hk)
  refine ⟨fun nv hnv => ⟨(htouched nv hnv).1, fun si' hsi' => ?_⟩, ?_, ?_⟩
  · obtain ⟨si, hsi, hdecl⟩ := SecIndexes.get_of_decls (Indexes.deleteAll_decls ix keys).symm hsi'
    rw [hmembers nv hnv si si' hsi hsi' hdecl.symm]
    exact List.mem_filter.mpr ⟨(htouched nv hnv).2 si hsi, decide_eq_true hkey⟩
  · rintro ⟨nv, hnv, si', hsi', hvic⟩
    obtain ⟨si, hsi, hdecl⟩ := SecIndexes.get_of_decls (Indexes.deleteAll_decls ix keys).symm hsi'
    exact ⟨nv, hnv, si, hsi, (hvictim nv hnv si si' hsi hsi' hdecl.symm).mp hvic⟩
  · rintro ⟨nv, hnv, si, hsi, hvic⟩
    obtain ⟨si', hsi', hdecl⟩ := SecIndexes.get_of_decls (Indexes.deleteAll_decls ix keys) hsi
    exact ⟨nv, hnv, si', hsi', (hvictim nv hnv si si' hsi hsi' hdecl).mpr hvic⟩

/-- A key of every touched group is evicted when it is to be at the start, and else keeps
its entry. -/
theorem Indexes.enforce_get {ix : Indexes} (h : SecInv ix) {nvs : List (Bytes × AnyValue)}
    {key : Bytes} (htouched : ix.Touched nvs key) :
    (ix.Evicts nvs key → (ix.enforce nvs).pk.get key = none) ∧
      (¬ ix.Evicts nvs key → (ix.enforce nvs).pk.get key = ix.pk.get key) := by
  induction nvs generalizing ix with
  | nil => exact ⟨by rintro ⟨_, ⟨⟩, _⟩, fun _ => rfl⟩
  | cons nv nvs ih =>
      obtain ⟨hfirst, hrest⟩ := List.forall_mem_cons.mp htouched
      have hsplit : ix.Evicts (nv :: nvs) key ↔ key ∈ ix.victimsOf nv ∨ ix.Evicts nvs key := by
        simp only [Indexes.Evicts, Indexes.mem_victimsOf, List.mem_cons, exists_eq_or_imp]
      have hget := ix.deleteAll_get (ix.victimsOf nv) key
      show (_ → ((ix.enforceOne nv).enforce nvs).pk.get key = none) ∧
        (_ → ((ix.enforceOne nv).enforce nvs).pk.get key = _)
      rw [ix.enforceOne_eq nv]
      by_cases hnow : key ∈ ix.victimsOf nv
      · rw [if_pos hnow] at hget
        exact ⟨fun _ => Indexes.enforce_get_none hget,
          fun hnot => absurd (hsplit.mpr (Or.inl hnow)) hnot⟩
      · have hlow : ∀ k ∈ ix.victimsOf nv, k < key := by
          intro k hk
          obtain ⟨si, hsi, hk⟩ := Indexes.mem_victimsOf.mp hk
          exact h.victims_lt (SecIndexes.get_eq_some.mp hsi).1 hfirst.1 (hfirst.2 si hsi)
            (fun hkey => hnow (Indexes.mem_victimsOf.mpr ⟨si, hsi, hkey⟩)) k hk
        obtain ⟨htouched', hevicts⟩ := h.spared hlow hrest
        rw [if_neg hnow] at hget
        rw [hsplit, or_iff_right hnow, ← hevicts, ← hget]
        exact ih (h.deleteAll _) htouched'

/-! ## The fate of a written key -/

section Put

variable {ix : Indexes} {e : PkEntry} {ixv : AnyMap}

theorem AnyMap.get_of_mem {m : AnyMap} {nv : Bytes × AnyValue} (h : nv ∈ m) :
    m.get nv.1 = some nv.2 := by
  rw [AnyMap.get, Option.map_eq_some_iff]
  exact ⟨nv, Tree.get?_eq_some.mpr ⟨h, rfl⟩, rfl⟩

/-- An accepted value puts its key into its own group. -/
theorem hasValue_self {si : SecIndex} {nv : Bytes × AnyValue} (hname : si.name = nv.1)
    {p : PkEntry} (hget : p.ix.get nv.1 = some nv.2) (henc : nv.2.encode ≠ none) {probe : SecEntry}
    (hentry : si.makeEntry nv.2 [] = .ok probe) : HasValue si p nv.2 := by
  have hself := (SecIndex.makeEntry_ok hentry).2 p.key
  refine ⟨probe, _, hentry, ⟨nv.2, hname ▸ hget, hself⟩, ?_⟩
  have hrefl := valueEqual_refl (SecIndex.nanFree_makeEntry henc hentry)
  cases hk : si.kind <;> rw [hk] at hrefl <;> exact hrefl

/-- The group of a value that a key is written with. -/
theorem SecInv.mem_members_put (h : SecInv ix) (he : e.ix = Tree.empty)
    (henc : AnyMap.Encodable ixv) {si si' : SecIndex} (hsi : si ∈ ix.secs.items)
    (hsi' : si' ∈ (ix.put e ixv).secs.items) (hdecl : si'.decl = si.decl) {nv : Bytes × AnyValue}
    (hnv : nv ∈ ixv) (hname : si.name = nv.1) {probe : SecEntry}
    (hentry : si.makeEntry nv.2 [] = .ok probe) (k : Bytes) :
    k ∈ si'.members nv.2 ↔ k = e.key ∨ k ∈ si.members nv.2 := by
  rw [(h.put he henc).mem_members hsi' (henc nv hnv), h.mem_members hsi (henc nv hnv),
    Indexes.put_pk ix he, PkIndex.get_set]
  simp only [hasValue_congr hdecl]
  by_cases hk : k = e.key
  · subst hk
    simp only [if_true, Option.some.injEq, exists_eq_left', true_or, iff_true]
    exact hasValue_self hname (AnyMap.get_of_mem hnv) (henc nv hnv) hentry
  · simp [hk]

theorem Accepted.probe {secs : SecIndexes} {nv : Bytes × AnyValue} (h : Accepted secs nv)
    {si : SecIndex} (hsi : secs.get nv.1 = some si) :
    ∃ probe, si.makeEntry nv.2 [] = .ok probe := by
  obtain ⟨si', hsi', hentry⟩ := h
  rw [hsi] at hsi'
  cases hsi'
  exact hentry []

/-- A key that is written is in the groups of its values. -/
theorem SecInv.touched_put (h : SecInv ix) (he : e.ix = Tree.empty) (henc : AnyMap.Encodable ixv)
    (hacc : AcceptedMap ix.secs ixv) {nvs : List (Bytes × AnyValue)} (hnvs : ∀ nv ∈ nvs, nv ∈ ixv) :
    (ix.put e ixv).Touched nvs e.key := by
  refine fun nv hnv => ⟨henc nv (hnvs nv hnv), fun si' hsi' => ?_⟩
  obtain ⟨si, hsi, hdecl⟩ := SecIndexes.get_of_decls (Indexes.put_decls ix he ixv).symm hsi'
  obtain ⟨hmem, hname⟩ := SecIndexes.get_eq_some.mp hsi
  obtain ⟨probe, hprobe⟩ := (hacc nv (hnvs nv hnv)).probe hsi
  rw [h.mem_members_put he henc hmem (SecIndexes.get_eq_some.mp hsi').1 hdecl.symm
    (hnvs nv hnv) hname hprobe]
  exact Or.inl rfl

theorem checkSelfEvictionOf_ok {secs : SecIndexes} {key : Bytes} {items : List (Bytes × AnyValue)}
    (h : checkSelfEvictionOf secs key items = .ok ()) :
    ∀ nv ∈ items, ∀ si, secs.get nv.1 = some si → si.wouldSelfEvict nv.2 key ≠ .ok true := by
  induction items with
  | nil => exact fun _ hnv => (nomatch hnv)
  | cons item rest ih =>
      obtain ⟨name, val⟩ := item
      unfold checkSelfEvictionOf at h
      refine List.forall_mem_cons.mpr ⟨fun si hsi htrue => ?_, ?_⟩
      · rw [show secs.get name = some si from hsi] at h
        dsimp only at h
        rw [show si.wouldSelfEvict val key = .ok true from htrue] at h
        cases h
      · split at h
        · exact ih h
        · split at h
          · cases h
          · exact ih h

theorem checkSelfEvictionOf_of {secs : SecIndexes} {key : Bytes} {items : List (Bytes × AnyValue)}
    (h : ∀ nv ∈ items, ∀ si, secs.get nv.1 = some si → si.wouldSelfEvict nv.2 key ≠ .ok true) :
    checkSelfEvictionOf secs key items = .ok () := by
  induction items with
  | nil => rfl
  | cons item rest ih =>
      obtain ⟨hitem, hrest⟩ := List.forall_mem_cons.mp h
      unfold checkSelfEvictionOf
      split
      · exact ih hrest
      · next si hsi =>
          split
          · next htrue => exact absurd htrue (hitem si hsi)
          · exact ih hrest

/-- The key that is written is to be evicted for a value when the cap is reached above it. -/
theorem SecInv.self_victim_iff (h : SecInv ix) (he : e.ix = Tree.empty)
    (henc : AnyMap.Encodable ixv) (hacc : AcceptedMap ix.secs ixv) {nv : Bytes × AnyValue}
    (hnv : nv ∈ ixv) {si : SecIndex} (hsi : ix.secs.get nv.1 = some si) :
    e.key ∈ (ix.put e ixv).victimsOf nv ↔
      0 < si.max ∧ si.cap ≤ above (si.members nv.2) e.key := by
  obtain ⟨si', hsi', hdecl⟩ := SecIndexes.get_of_decls (Indexes.put_decls ix he ixv) hsi
  obtain ⟨hmem, hname⟩ := SecIndexes.get_eq_some.mp hsi
  obtain ⟨hmem', _⟩ := SecIndexes.get_eq_some.mp hsi'
  have hval := henc nv hnv
  have hmax : si'.max = si.max := congrArg Decl.max hdecl
  obtain ⟨probe, hprobe⟩ := (hacc nv hnv).probe hsi
  have hmembers := h.mem_members_put he henc hmem hmem' hdecl hnv hname hprobe
  have habove : above (si'.members nv.2) e.key = above (si.members nv.2) e.key :=
    above_congr ((h.put he henc).members_sorted hmem' hval) (h.members_sorted hmem hval)
      fun k hlt => by rw [hmembers, or_iff_right (ne_of_gt hlt)]
  rw [Indexes.victimsOf, hsi']
  dsimp only
  rw [(h.put he henc).mem_victims hmem' hval, habove, SecIndex.cap, hmax, ← SecIndex.cap, hmembers]
  simp only [true_or, true_and]

/-- The check refuses a key that is new to a group and would be evicted from it. -/
theorem SecInv.wouldSelfEvict_iff (h : SecInv ix) (he : e.ix = Tree.empty)
    (henc : AnyMap.Encodable ixv) (hacc : AcceptedMap ix.secs ixv) {nv : Bytes × AnyValue}
    (hnv : nv ∈ ixv) {si : SecIndex} (hsi : ix.secs.get nv.1 = some si) :
    si.wouldSelfEvict nv.2 e.key = .ok true ↔
      e.key ∉ si.members nv.2 ∧ e.key ∈ (ix.put e ixv).victimsOf nv := by
  rw [h.self_victim_iff he henc hacc hnv hsi]
  have hmem := (SecIndexes.get_eq_some.mp hsi).1
  by_cases hpos : 0 < si.max
  · obtain ⟨probe, hprobe⟩ := (hacc nv hnv).probe hsi
    have hgroup : si.members nv.2 = si.group probe := by rw [SecIndex.members, hprobe]
    rw [si.wouldSelfEvict_eq (h.nanFree hmem) hpos hprobe
      (SecIndex.nanFree_makeEntry (henc nv hnv) hprobe), ← hgroup, Except.ok.injEq,
      decide_eq_true_eq]
    refine and_congr_right fun hnew => ?_
    have hlen := length_eq_of_not_mem hnew
    rw [and_iff_right hpos]
    omega
  · rw [SecIndex.wouldSelfEvict, if_pos (Int64.not_lt.mp hpos)]
    exact iff_of_false (by rintro ⟨⟩) fun hvic => hpos hvic.2.1

/-- A write that passed its check evicts its own key when the key was to be evicted
before. -/
theorem SecInv.evicts_put (h : SecInv ix) (he : e.ix = Tree.empty) (henc : AnyMap.Encodable ixv)
    (hacc : AcceptedMap ix.secs ixv) {nvs : List (Bytes × AnyValue)} (hnvs : ∀ nv ∈ nvs, nv ∈ ixv)
    (hcheck : checkSelfEvictionOf ix.secs e.key nvs = .ok ()) :
    (ix.put e ixv).Evicts nvs e.key ↔ ix.Evicts nvs e.key := by
  have hdecls := Indexes.put_decls ix he ixv
  have hvictim : ∀ nv ∈ nvs, ∀ si, ix.secs.get nv.1 = some si →
      (e.key ∈ (ix.put e ixv).victimsOf nv ↔ e.key ∈ si.victims nv.2) := by
    intro nv hnv si hsi
    have hself := h.self_victim_iff he henc hacc (hnvs nv hnv) hsi
    rw [h.mem_victims (SecIndexes.get_eq_some.mp hsi).1 (henc nv (hnvs nv hnv))]
    constructor
    · intro hvic
      obtain ⟨hpos, hcap⟩ := hself.mp hvic
      refine ⟨hpos, ?_, hcap⟩
      -- a new key with so many above it would have been refused
      by_contra hnew
      exact checkSelfEvictionOf_ok hcheck nv hnv si hsi
        ((h.wouldSelfEvict_iff he henc hacc (hnvs nv hnv) hsi).mpr ⟨hnew, hvic⟩)
    · rintro ⟨hpos, _, hcap⟩
      exact hself.mpr ⟨hpos, hcap⟩
  constructor
  · rintro ⟨nv, hnv, si', hsi', hvic⟩
    obtain ⟨si, hsi, _⟩ := SecIndexes.get_of_decls hdecls.symm hsi'
    have hof := Indexes.mem_victimsOf.mpr ⟨si', hsi', hvic⟩
    exact ⟨nv, hnv, si, hsi, (hvictim nv hnv si hsi).mp hof⟩
  · rintro ⟨nv, hnv, si, hsi, hvic⟩
    exact ⟨nv, hnv, Indexes.mem_victimsOf.mp ((hvictim nv hnv si hsi).mpr hvic)⟩

end Put

end NteeDb.Core
