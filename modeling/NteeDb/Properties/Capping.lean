import NteeDb.Invariants.Evictions
import NteeDb.Invariants.Sessions

/-!
# One capped index

A store with one capped index whose groups are within the cap.  The check before a write refuses
exactly the keys that the evictions after it would delete at once; a write that passes leaves the
highest keys of the group, and changes nothing else.
-/

namespace NteeDb.Properties.Capping

open NteeDb.Verified
open Faults OrderedTree JsonCodec Ranks
open NteeDb.Core

/-- `si` is the one capped index, and its groups are within the cap. -/
structure OneCapped (db : DB) (name : Bytes) (si : SecIndex) : Prop where
  get : db.idx.secs.get name = some si
  capped : 0 < si.max
  only : ∀ t ∈ db.idx.secs.items, t.name ≠ name → t.max ≤ 0
  within : ∀ val, (si.members val).length ≤ si.cap

/-- The key is new to the group of the value, which is full and has only higher keys. -/
def BelowFullGroup (si : SecIndex) (val : AnyValue) (key : Bytes) : Prop :=
  key ∉ si.members val ∧ (si.members val).length = si.cap ∧ ∀ k ∈ si.members val, key < k

/-- The value is not a NaN, for an index on numbers. -/
def NotNaN (si : SecIndex) (val : AnyValue) : Prop :=
  ∀ probe, si.makeEntry val [] = .ok probe → probe.NaNFree si.kind

/-! ## The check -/

theorem wouldSelfEvict_iff {si : SecIndex} (hnan : si.NaNFree) (hmax : 0 < si.max)
    {val : AnyValue} (hval : NotNaN si val) (hwithin : (si.members val).length ≤ si.cap)
    (key : Bytes) : si.wouldSelfEvict val key = .ok true ↔ BelowFullGroup si val key := by
  have hcap := (SecIndex.cap_pos hmax).1
  cases hentry : si.makeEntry val [] with
  | error err =>
      have hmembers : si.members val = [] := by rw [SecIndex.members, hentry]
      rw [SecIndex.wouldSelfEvict, if_neg (Int64.not_le.mpr hmax), hentry, BelowFullGroup, hmembers]
      constructor
      · rintro ⟨⟩
      · rintro ⟨_, hlen, _⟩
        exact absurd hlen (Nat.ne_of_lt hcap)
  | ok probe =>
      have hmembers : si.members val = si.group probe := by rw [SecIndex.members, hentry]
      rw [si.wouldSelfEvict_eq hnan hmax hentry (hval probe hentry), Except.ok.injEq,
        decide_eq_true_eq, ← hmembers, BelowFullGroup]
      refine and_congr_right fun hnew => ?_
      constructor
      · intro hrank
        have hlen : (si.members val).length = si.cap := by omega
        have hzero : rank (si.members val) key = 0 := by omega
        refine ⟨hlen, fun k hk => ?_⟩
        have hnot := rank_eq_zero_iff.mp hzero k hk
        exact lt_of_le_of_ne (not_lt.mp hnot) fun heq => hnew (heq ▸ hk)
      · rintro ⟨hlen, hall⟩
        have hzero : rank (si.members val) key = 0 :=
          rank_eq_zero fun k hk => not_lt_of_gt (hall k hk)
        omega

section Check

variable {db : DB} {name : Bytes} {si : SecIndex} {val : AnyValue} {ix : AnyMap}

/-- Of the index values of a write only the one in the capped index is looked at. -/
theorem OneCapped.unlimited (h : OneCapped db name si) (hval : (name, val) ∈ ix)
    {nv : Bytes × AnyValue} (hnv : nv ∈ ix) {t : SecIndex} (ht : db.idx.secs.get nv.1 = some t) :
    t.max ≤ 0 ∨ nv = (name, val) ∧ t = si := by
  obtain ⟨hmem, htname⟩ := SecIndexes.get_eq_some.mp ht
  by_cases hname : nv.1 = name
  · right
    refine ⟨Tree.eq_of_key_eq hnv hval hname, ?_⟩
    rw [hname, h.get] at ht
    exact (Option.some.inj ht).symm
  · exact .inl (h.only t hmem (htname ▸ hname))

theorem OneCapped.check_iff (h : OneCapped db name si) (hinv : SecInv db.idx)
    (hnan : NotNaN si val) (hval : (name, val) ∈ ix) (ord : MapOrder) (key : Bytes) :
    (db.checkSelfEviction ord key ix = .error (.selfEviction key name si.max) ↔
      BelowFullGroup si val key) ∧
    (db.checkSelfEviction ord key ix = .ok () ↔ ¬ BelowFullGroup si val key) := by
  have hitems : ∀ nv, nv ∈ ord.items ix ↔ nv ∈ ix := fun nv => (ord.perm ix).mem_iff
  have hself := wouldSelfEvict_iff (hinv.nanFree (SecIndexes.get_eq_some.mp h.get).1) h.capped hnan
    (h.within val) key
  have hunlimited : ∀ (t : SecIndex) (v : AnyValue), t.max ≤ 0 → t.wouldSelfEvict v key
      ≠ .ok true := by
    intro t v ht
    rw [SecIndex.wouldSelfEvict, if_pos ht]
    rintro ⟨⟩
  by_cases hbelow : BelowFullGroup si val key
  · have herr : db.checkSelfEviction ord key ix = .error (.selfEviction key name si.max) := by
      cases hcheck : db.checkSelfEviction ord key ix with
      | ok _ =>
          exact absurd (hself.mpr hbelow) (checkSelfEvictionOf_ok hcheck (name, val)
            ((hitems _).mpr hval) si h.get)
      | error e =>
          obtain ⟨nv, hnv, t, ht, htrue, rfl⟩ := checkSelfEvictionOf_error hcheck
          rcases h.unlimited hval ((hitems nv).mp hnv) ht with hmax | ⟨rfl, rfl⟩
          · exact absurd htrue (hunlimited t nv.2 hmax)
          · rfl
    rw [herr]
    exact ⟨iff_of_true rfl hbelow, iff_of_false (by rintro ⟨⟩) (not_not.mpr hbelow)⟩
  · have hok : db.checkSelfEviction ord key ix = .ok () := by
      refine checkSelfEvictionOf_of fun nv hnv t ht htrue => ?_
      rcases h.unlimited hval ((hitems nv).mp hnv) ht with hmax | ⟨rfl, rfl⟩
      · exact hunlimited t nv.2 hmax htrue
      · exact hbelow (hself.mp htrue)
    rw [hok]
    exact ⟨iff_of_false (by rintro ⟨⟩) hbelow, iff_of_true rfl hbelow⟩

end Check

/-- A write that does not pass its check changes nothing. -/
theorem putIndexed_refused {A : Answer → Prop} {w : World} {ord : MapOrder} {key value : Bytes}
    {explicit ix : AnyMap} {ttl : List Int64} {exp : Int64} {e : Err}
    (hopen : w.db.closed = false) (hexp : resolveTTL w.now ttl = .ok exp)
    (hix : w.db.buildIndexValues ord key value explicit = .ok ix)
    (hcheck : w.db.checkSelfEviction ord key ix = .error e) :
    Spec A (fun v => v = w) (putIndexed ord key value explicit ttl) (fun _ _ => False)
      (fun e' v => e' = e ∧ v = w) := by
  unfold putIndexed write
  refine Spec.bind_getWorld ?_
  rintro w rfl
  refine Spec.bind_ofExcept (fun e' v he' _ => ?_) fun _ _ => ?_
  · rw [hexp] at he'
    cases he'
  refine Spec.bind_requireOpen (fun hclosed => ?_) fun _ => Spec.bind_getWorld ?_
  · rw [hopen] at hclosed
    cases hclosed
  rintro w rfl
  rw [hix]
  refine Spec.bind_ofExcept ?_ ?_
  · rintro _ _ ⟨⟩
  rintro ix ⟨⟩
  rw [hcheck]
  refine Spec.bind_ofExcept ?_ ?_
  · rintro _ v ⟨⟩ rfl
    exact ⟨rfl, rfl⟩
  · rintro _ ⟨⟩

/-! ## The evictions -/

/-- What a write that passed leaves.  `all` is the group with the key; its highest keys, as many
as the cap allows, are kept. -/
structure Retained (w v : World) (name key : Bytes) (val : AnyValue) (si si' : SecIndex)
    (all : List Bytes) : Prop where
  get : v.db.idx.secs.get name = some si'
  sorted : all.Pairwise (· < ·)
  mem : ∀ k, k ∈ all ↔ k = key ∨ k ∈ si.members val
  group : si'.members val = all.drop (all.length - si.cap)
  self : key ∈ si'.members val
  /-- The key has no entry of another value. -/
  moved : ∀ probe, si.makeEntry val [] = .ok probe → ∀ e ∈ si'.tree, e.pk = key →
    valueEqual si.kind e probe = true
  evicted : ∀ k ∈ all.take (all.length - si.cap), v.db.idx.pk.get k = none ∧
    v.dir.cells k = none ∧ ∀ t ∈ v.db.idx.secs.items, ∀ e ∈ t.tree, e.pk ≠ k
  others : ∀ k, k ≠ key → k ∉ all.take (all.length - si.cap) →
    v.db.idx.pk.get k = w.db.idx.pk.get k ∧ v.dir.cells k = w.dir.cells k ∧
    ∀ t t' name', w.db.idx.secs.get name' = some t → v.db.idx.secs.get name' = some t' →
      ∀ e, e.pk = k → (e ∈ t'.tree ↔ e ∈ t.tree)

/-- What is not among the first items of a sorted list is among the others. -/
theorem mem_drop_iff {xs : List Bytes} (hs : xs.Pairwise (· < ·)) {n : Nat} {k : Bytes} :
    k ∈ xs.drop n ↔ k ∈ xs ∧ k ∉ xs.take n := by
  have hnodup : xs.Nodup := hs.imp fun hlt => ne_of_lt hlt
  constructor
  · exact fun hk => ⟨List.mem_of_mem_drop hk, fun hk' =>
      List.disjoint_take_drop hnodup (le_refl n) hk' hk⟩
  · rintro ⟨hk, hnot⟩
    rw [← List.take_append_drop n xs, List.mem_append] at hk
    exact hk.resolve_left hnot

/-- The entries of a key in an index, told by its primary entry. -/
theorem mem_tree_iff {ix : Indexes} (h : SecInv ix) {t : SecIndex} (ht : t ∈ ix.secs.items)
    {e : SecEntry} : e ∈ t.tree ↔ ∃ p, ix.pk.get e.pk = some p ∧ Indexed t p e := by
  rw [h.mem_iff t ht]
  constructor
  · rintro ⟨p, hp, hidx⟩
    exact ⟨p, PkIndex.get_eq_some.mpr ⟨hp, hidx.pk.symm⟩, hidx⟩
  · rintro ⟨p, hget, hidx⟩
    exact ⟨p, (PkIndex.get_eq_some.mp hget).1, hidx⟩

/-- A key without a primary entry is in no index. -/
theorem not_mem_of_absent {ix : Indexes} (h : SecInv ix) {k : Bytes} (hnone : ix.pk.get k = none) :
    ∀ t ∈ ix.secs.items, ∀ e ∈ t.tree, e.pk ≠ k := by
  rintro t ht e he rfl
  obtain ⟨p, hp, _⟩ := (mem_tree_iff h ht).mp he
  rw [hnone] at hp
  cases hp

/-- A key that keeps its primary entry keeps its entries in every index. -/
theorem mem_tree_congr {ix ix' : Indexes} (h : SecInv ix) (h' : SecInv ix')
    (hdecls : ix'.secs.decls = ix.secs.decls) {t t' : SecIndex} {name : Bytes}
    (ht : ix.secs.get name = some t) (ht' : ix'.secs.get name = some t') {e : SecEntry}
    (hsame : ix'.pk.get e.pk = ix.pk.get e.pk) : e ∈ t'.tree ↔ e ∈ t.tree := by
  obtain ⟨t'', ht'', hdecl⟩ := SecIndexes.get_of_decls hdecls ht
  rw [ht'] at ht''
  cases ht''
  rw [mem_tree_iff h' (SecIndexes.get_eq_some.mp ht').1,
    mem_tree_iff h (SecIndexes.get_eq_some.mp ht).1, hsame]
  simp only [indexed_congr (congrArg Decl.name hdecl) (congrArg Decl.kind hdecl)]

/-- The entry of a primary entry that has the value holds the value. -/
theorem valueEqual_of_indexed {t t' : SecIndex} {val : AnyValue} (hdecl : t'.decl = t.decl)
    {p : PkEntry} {e probe : SecEntry} (he : Indexed t' p e)
    (hprobe : t.makeEntry val [] = .ok probe)
    (hval : HasValue t p val) : valueEqual t.kind e probe = true := by
  obtain ⟨probe', e', hprobe', he', hequal⟩ := hval
  rw [hprobe] at hprobe'
  cases hprobe'
  have he := (indexed_congr (congrArg Decl.name hdecl) (congrArg Decl.kind hdecl)).mp he
  rw [he.unique he']
  exact hequal

section Accepted

variable {m : Mode} {w v : World} {name : Bytes} {si : SecIndex} {ord : MapOrder}
    {key value : Bytes}
  {val : AnyValue} {ix : AnyMap} {exp : Int64}

/-- With one capped index the groups of a write agree on what goes. -/
theorem OneCapped.harmonious (h : OneCapped w.db name si) {e : PkEntry} (he : e.ix = Tree.empty)
    (hval : (name, val) ∈ ix) : (w.db.idx.put e ix).secs.Harmonious ix.items := by
  intro nv hnv nv' hnv' t t' ht ht' k hk hmem
  have hdecls := (Indexes.put_decls w.db.idx he ix).symm
  obtain ⟨u, hu, hdecl⟩ := SecIndexes.get_of_decls hdecls ht
  obtain ⟨u', hu', hdecl'⟩ := SecIndexes.get_of_decls hdecls ht'
  have hmax : t.max = u.max := congrArg Decl.max hdecl.symm
  have hmax' : t'.max = u'.max := congrArg Decl.max hdecl'.symm
  rcases h.unlimited hval hnv' hu' with hle | ⟨rfl, rfl⟩
  · exact .inl (SecIndex.victims_of_unlimited (hmax' ▸ hle) _)
  · rcases h.unlimited hval hnv hu with hle | ⟨rfl, rfl⟩
    · rw [SecIndex.victims_of_unlimited (hmax ▸ hle)] at hk
      exact absurd hk List.not_mem_nil
    · rw [ht] at ht'
      cases ht'
      exact .inr hk

/-- Only the group of the value in the capped index evicts. -/
theorem OneCapped.evicts_iff (h : OneCapped w.db name si) {e : PkEntry} (he : e.ix = Tree.empty)
    (hval : (name, val) ∈ ix) {mid : SecIndex} (hmid : (w.db.idx.put e ix).secs.get name = some mid)
    {nvs : List (Bytes × AnyValue)} (hnvs : ∀ nv, nv ∈ nvs ↔ nv ∈ ix) (k : Bytes) :
    (w.db.idx.put e ix).Evicts nvs k ↔ k ∈ mid.victims val := by
  constructor
  · rintro ⟨nv, hnv, t, ht, hvic⟩
    obtain ⟨u, hu, hdecl⟩ := SecIndexes.get_of_decls (Indexes.put_decls w.db.idx he ix).symm ht
    have hmax : t.max = u.max := congrArg Decl.max hdecl.symm
    rcases h.unlimited hval ((hnvs nv).mp hnv) hu with hle | ⟨rfl, rfl⟩
    · rw [SecIndex.victims_of_unlimited (hmax ▸ hle)] at hvic
      exact absurd hvic List.not_mem_nil
    · rw [hmid] at ht
      cases ht
      exact hvic
  · exact fun hvic => ⟨(name, val), (hnvs _).mpr hval, mid, hmid, hvic⟩

/-- Within the cap nothing is to be evicted. -/
theorem OneCapped.spared (h : OneCapped w.db name si) (hinv : SecInv w.db.idx)
    (hval : (name, val) ∈ ix) (henc : val.encode ≠ none) {nvs : List (Bytes × AnyValue)}
    (hnvs : ∀ nv ∈ nvs, nv ∈ ix) (k : Bytes) : ¬ w.db.idx.Evicts nvs k := by
  rintro ⟨nv, hnv, t, ht, hvic⟩
  rcases h.unlimited hval (hnvs nv hnv) ht with hle | ⟨rfl, rfl⟩
  · rw [SecIndex.victims_of_unlimited hle] at hvic
    exact absurd hvic List.not_mem_nil
  · have hzero : (t.members val).length - t.cap = 0 := Nat.sub_eq_zero_of_le (h.within val)
    rw [hinv.victims_eq (SecIndexes.get_eq_some.mp ht).1 henc h.capped, hzero] at hvic
    exact absurd hvic List.not_mem_nil

/-- The primary entries after a write: those of the keys above the cap are gone. -/
theorem OneCapped.get_done (h : OneCapped w.db name si) (hinv : SecInv w.db.idx) {e : PkEntry}
    (he : e.ix = Tree.empty) (hval : (name, val) ∈ ix) (henc : AnyMap.Encodable ix) {mid : SecIndex}
    (hmid : (w.db.idx.put e ix).secs.get name = some mid) (ord : MapOrder) (k : Bytes) :
    ((w.db.idx.put e ix).enforce (ord.items ix)).pk.get k
      = if k ∈ mid.victims val then none else (w.db.idx.put e ix).pk.get k := by
  have hitems : ∀ nv, nv ∈ ord.items ix ↔ nv ∈ ix := fun nv => (ord.perm ix).mem_iff
  have hfate := (hinv.put he henc).enforce_survivors (h.harmonious he hval) henc
    (fun nv hnv => (hitems nv).mp hnv) k
  rw [h.evicts_iff he hval hmid hitems] at hfate
  split
  · next hvic => exact hfate.1 hvic
  · next hvic => exact hfate.2 hvic

/-- The written key is not evicted. -/
theorem OneCapped.key_spared (h : OneCapped w.db name si) (hinv : SecInv w.db.idx) {e : PkEntry}
    (he : e.ix = Tree.empty) (hval : (name, val) ∈ ix) (henc : AnyMap.Encodable ix)
    (hacc : AcceptedMap w.db.idx.secs ix) {mid : SecIndex}
    (hmid : (w.db.idx.put e ix).secs.get name = some mid)
    (hkept : w.db.checkSelfEviction ord e.key ix = .ok ()) : e.key ∉ mid.victims val := by
  have hitems : ∀ nv ∈ ord.items ix, nv ∈ ix := fun nv hnv => (ord.perm ix).mem_iff.mp hnv
  rw [← h.evicts_iff he hval hmid fun nv => (ord.perm ix).mem_iff,
    hinv.evicts_put he henc hacc hitems hkept]
  exact h.spared hinv hval (henc _ hval) hitems e.key

/-- A key that keeps its primary entry keeps its record. -/
theorem cells_of_same (hw : Sound m w) (hopen : w.db.closed = false) (hv : Sound m v)
    (hopen' : v.db.closed = false) (hdone : PutDone w v ord key value ix exp) {k : Bytes}
    (hk : k ≠ key) (hsame : v.db.idx.pk.get k = w.db.idx.pk.get k) :
    v.dir.cells k = w.dir.cells k := by
  have hcells := (hw.2.2 hopen).mirrors.isSome_cells k
  have hcells' := (hv.2.2 hopen').mirrors.isSome_cells k
  rw [hsame, ← hcells] at hcells'
  rcases hdone.cells k with hkept | hnone
  · rw [hkept, Function.update_of_ne hk]
  · rw [hnone, Option.isSome_none] at hcells'
    rw [hnone]
    exact (Option.isNone_iff_eq_none.mp (Option.isSome_eq_false_iff.mp hcells'.symm)).symm

theorem OneCapped.retained (h : OneCapped w.db name si) (hw : Sound m w)
    (hopen : w.db.closed = false) (hv : Sound m v) (hframe : Frame w v) {explicit : AnyMap}
    (hchecked : Checked w ord key value explicit ix) (hval : (name, val) ∈ ix)
    (hdone : PutDone w v ord key value ix exp) :
    ∃ si' all, Retained w v name key val si si' all := by
  obtain ⟨off, n, hidx⟩ := hdone.idx
  have hopen' : v.db.closed = false := hframe.closed.trans hopen
  have hstore := hw.2.2 hopen
  have hstore' := hv.2.2 hopen'
  have hinv := hstore.inStep.inv
  have hinv' := hstore'.inStep.inv
  have henc := hdone.storable.encodable
  have hacc : AcceptedMap w.db.idx.secs ix := fun nv hnv =>
    (buildIndexValues_mem hchecked.built nv hnv).2
  obtain ⟨hsi, hname⟩ := SecIndexes.get_eq_some.mp h.get
  obtain ⟨probe, hprobe⟩ := (hacc _ hval).probe h.get
  -- the state between the write and the evictions
  obtain ⟨e, he, hkey, hput⟩ : ∃ e : PkEntry, e.ix = Tree.empty ∧ e.key = key ∧
      v.db.idx = (w.db.idx.put e ix).enforce (ord.items ix) := ⟨_, rfl, rfl, hidx⟩
  have hmidInv := hinv.put he henc
  obtain ⟨mid, hmid, hmidDecl⟩ := SecIndexes.get_of_decls (Indexes.put_decls w.db.idx he ix) h.get
  have hmidMem := (SecIndexes.get_eq_some.mp hmid).1
  have hmidMax : mid.max = si.max := congrArg Decl.max hmidDecl
  have hdecls : v.db.idx.secs.decls = w.db.idx.secs.decls := by
    rw [hstore'.inStep.declared, hstore.inStep.declared, hframe.opts]
  obtain ⟨si', hsi', hdecl⟩ := SecIndexes.get_of_decls hdecls h.get
  have hsiMem' := (SecIndexes.get_eq_some.mp hsi').1
  have hmem := hinv.mem_members_put he henc hsi hmidMem hmidDecl hval hname hprobe
  have hsorted := hmidInv.members_sorted hmidMem (henc _ hval)
  have hvictims : mid.victims val
      = (mid.members val).take ((mid.members val).length - si.cap) := by
    rw [hmidInv.victims_eq hmidMem (henc _ hval) (hmidMax ▸ h.capped), SecIndex.cap, hmidMax,
      ← SecIndex.cap]
  have hget := fun k => (congrArg (fun idx : Indexes => idx.pk.get k) hput).trans
    (h.get_done hinv he hval henc hmid ord k)
  rw [hvictims] at hget
  have hgone : ∀ k ∈ (mid.members val).take ((mid.members val).length - si.cap),
      v.db.idx.pk.get k = none := fun k hk => (hget k).trans (if_pos hk)
  have hleft : ∀ k, k ∉ (mid.members val).take ((mid.members val).length - si.cap) →
      v.db.idx.pk.get k = (w.db.idx.put e ix).pk.get k := fun k hk => (hget k).trans (if_neg hk)
  have hmembers : ∀ k, k ∈ si'.members val ↔ k ∈ mid.members val ∧
      k ∉ (mid.members val).take ((mid.members val).length - si.cap) := by
    intro k
    rw [hinv'.mem_members hsiMem' (henc _ hval)]
    by_cases hk : k ∈ (mid.members val).take ((mid.members val).length - si.cap)
    · simp [hgone k hk, hk]
    · rw [hleft k hk, and_iff_left hk, hmidInv.mem_members hmidMem (henc _ hval)]
      simp only [hasValue_congr hdecl, hasValue_congr hmidDecl]
  have hspared : key ∉ (mid.members val).take ((mid.members val).length - si.cap) := by
    rw [← hvictims, ← hkey]
    exact h.key_spared hinv he hval henc hacc hmid (hkey ▸ hchecked.kept)
  refine ⟨si', mid.members val, hsi', hsorted, fun k => hkey ▸ hmem k, ?_, ?_, ?_, ?_, ?_⟩
  · refine eq_of_mem_iff (hinv'.members_sorted hsiMem' (henc _ hval)) (hsorted.drop) fun k => ?_
    rw [hmembers, mem_drop_iff hsorted]
  · exact (hmembers key).mpr ⟨(hmem key).mpr (.inl hkey.symm), hspared⟩
  · intro probe' hprobe' e' he' hpk
    obtain ⟨p, hp, hindexed⟩ := (mem_tree_iff hinv' hsiMem').mp he'
    rw [hpk, hleft key hspared, Indexes.put_pk _ he, PkIndex.get_set, if_pos hkey.symm] at hp
    cases hp
    exact valueEqual_of_indexed hdecl hindexed hprobe'
      (hasValue_self hname (AnyMap.get_of_mem hval) (henc _ hval) hprobe')
  · intro k hk
    have hnone := hgone k hk
    exact ⟨hnone, hstore'.mirrors.cells_of_none hnone, not_mem_of_absent hinv' hnone⟩
  · intro k hk hnot
    have hsame : v.db.idx.pk.get k = w.db.idx.pk.get k := by
      rw [hleft k hnot, Indexes.put_pk _ he, PkIndex.get_set, if_neg (hkey ▸ hk)]
    refine ⟨hsame, cells_of_same hw hopen hv hopen' hdone hk hsame, ?_⟩
    rintro t t' name' ht ht' e' rfl
    exact mem_tree_congr hinv hinv' hdecls ht ht' hsame

end Accepted

/-- **The check and the evictions agree.**  In every world reached by events whose texts survive
JSON, with no file step refused and no length wrapped, and with one capped index whose groups are
within the cap: the check before a write of a value that is no NaN refuses exactly the keys that
are new to a full group and below all of it; a refused write changes nothing; and a write that
returns without an error leaves the highest keys of the group and no trace of the others, with
everything else as it was. -/
theorem check_agrees_with_evictions {m : Mode} {now : Millis} {w : World}
    (hrun : Reaches (Allowed m) { now := now } w) (hwrap : w.wrapped = false)
    (hopen : w.db.closed = false) {name : Bytes} {si : SecIndex} (hcapped : OneCapped w.db name si)
    {ord : MapOrder} {key value : Bytes} {val : AnyValue} {ix : AnyMap} {ttl : List Int64}
    {exp : Int64} (hkey : Utf8.valid key = true)
    (hcarried : CarriedMap (Tree.empty.set (name, val)))
    (hnan : NotNaN si val) (hexp : resolveTTL w.now ttl = .ok exp)
    (hix : w.db.buildIndexValues ord key value (Tree.empty.set (name, val)) = .ok ix)
    {plan : List Answer} (hplan : Answered plan) :
    (w.db.checkSelfEviction ord key ix = .error (.selfEviction key name si.max) ↔
      BelowFullGroup si val key) ∧
    (w.db.checkSelfEviction ord key ix = .ok () ↔ ¬ BelowFullGroup si val key) ∧
    (BelowFullGroup si val key →
      ∃ rest, putIndexed ord key value (Tree.empty.set (name, val)) ttl ⟨w, plan⟩
        = (.error (.selfEviction key name si.max), ⟨w, rest⟩)) ∧
    ∀ v rest, putIndexed ord key value (Tree.empty.set (name, val)) ttl ⟨w, plan⟩
        = (.ok (), ⟨v, rest⟩) → v.wrapped = false →
      ∃ si' all, Retained w v name key val si si' all := by
  have hw : Sound m w := sound_run hrun hwrap
  have hinv := (hw.2.2 hopen).inStep.inv
  have hval : (name, val) ∈ ix := explicit_mem hix (Tree.mem_set_key.mpr (.inl rfl))
  obtain ⟨hrefused, hpassed⟩ := hcapped.check_iff hinv hnan hval ord key
  refine ⟨hrefused, hpassed, fun hbelow => ?_, fun v rest hput hwrap' => ?_⟩
  · have hspec := putIndexed_refused (A := fun _ => True) hopen hexp hix (hrefused.mpr hbelow)
    cases hres : putIndexed ord key value (Tree.empty.set (name, val)) ttl ⟨w, plan⟩ with
    | mk r s =>
        obtain ⟨v, rest⟩ := s
        cases r with
        | ok a => exact (hspec.ok rfl (fun _ _ => trivial) hres).elim
        | error e =>
            obtain ⟨rfl, rfl⟩ := hspec.error rfl (fun _ _ => trivial) hres
            exact ⟨rest, rfl⟩
  · have hspec := putIndexed_spec (A := fun a => ∀ k, a ≠ .fail k) (fun k h => h k rfl) hw ord hkey
      value hcarried ttl
    obtain ⟨hv, hframe, _, exp', ix', _, hchecked, hdone⟩ := hspec.ok rfl hplan.answers hput hwrap'
    cases buildIndexValues_order hix hchecked.built
    exact hcapped.retained hw hopen hv hframe hchecked hval hdone

/-! ## Room for one record -/

/-- A string index `t` with room for one record of a value. -/
def roomForOne : Options := { indexes := [{ name := [0x74], kind := .string, maxPerValue := 1 }] }

/-- The tag `x`. -/
def tagX : AnyMap := Tree.empty.set ([0x74], .str [0x78])

/-- The record `b` has the tag. -/
def oneTagged : World := runEvents { now := ⟨0, Millis.zero_bounded⟩ }
  [.openStore roomForOne [], .op (.putIndexed .sorted [0x62] [0x7B, 0x7D] tagX []) []]

/-- Write another record with the tag. -/
def tagKey (w : World) (key : Bytes) : Except Err Unit × Env World :=
  putIndexed .sorted key [0x7B, 0x7D] tagX [] ⟨w, []⟩

/-- The index on tags. -/
def tagsOf (w : World) : SecIndex :=
  (w.db.idx.secs.get [0x74]).getD (newSecIndex { name := [0x74], kind := .string })

theorem members_length_le (si : SecIndex) (val : AnyValue) :
    (si.members val).length ≤ si.tree.items.length := by
  rw [SecIndex.members]
  split
  · exact Nat.zero_le _
  · rw [SecIndex.group, List.length_map]
    exact le_trans (List.takeWhile_prefix _).length_le (List.length_filter_le _ _)

theorem oneTagged_capped : OneCapped oneTagged.db [0x74] (tagsOf oneTagged) where
  get := by decide
  capped := by decide
  only := by decide
  within val := le_trans (members_length_le _ val) (by decide)

theorem carried_tagX : CarriedMap tagX := by
  intro nv hnv
  rcases Tree.mem_set.mp hnv with rfl | ⟨hnv, _⟩
  · exact ⟨by decide, show Utf8.valid [0x78] = true by decide⟩
  · exact absurd hnv (Tree.not_mem_empty nv)

theorem reaches_oneTagged :
    Reaches (Allowed ⟨false, true⟩) { now := ⟨0, by decide⟩ } oneTagged := by
  refine reaches_runEvents .start ⟨.open_of_ok ?_ answered_nil (by decide) (by rintro ⟨⟩),
    .op_of_ok ⟨by decide, carried_tagX⟩ answered_nil (by decide), trivial⟩
  intro d hd
  cases List.mem_singleton.mp hd
  exact ⟨show Utf8.valid [0x74] = true by decide, by rintro _ _ _ _ ⟨⟩⟩

/-- The lower key `a` is refused, the higher key `c` takes the place of `b`. -/
theorem oneTagged_agrees :
    (∃ rest, tagKey oneTagged [0x61]
      = (.error (.selfEviction [0x61] [0x74] (tagsOf oneTagged).max), ⟨oneTagged, rest⟩)) ∧
    ∃ si' all, Retained oneTagged (tagKey oneTagged [0x63]).2.world [0x74] [0x63] (.str [0x78])
      (tagsOf oneTagged) si' all := by
  have hnan : NotNaN (tagsOf oneTagged) (.str [0x78]) := fun probe hprobe =>
    SecIndex.nanFree_makeEntry (by rintro ⟨⟩) hprobe
  have hwrap : oneTagged.wrapped = false := by decide
  have hopen : oneTagged.db.closed = false := by decide
  have hagrees := fun (key : Bytes) (hkey : Utf8.valid key = true)
      (hix : oneTagged.db.buildIndexValues .sorted key [0x7B, 0x7D] tagX = .ok tagX) =>
    check_agrees_with_evictions reaches_oneTagged hwrap hopen oneTagged_capped hkey
    carried_tagX hnan
      (show resolveTTL oneTagged.now [] = .ok 0 from rfl) hix answered_nil
  obtain ⟨_, _, hrefused, _⟩ := hagrees [0x61] (by decide) (by decide)
  obtain ⟨_, _, _, hretained⟩ := hagrees [0x63] (by decide) (by decide)
  have hbelow : BelowFullGroup (tagsOf oneTagged) (.str [0x78]) [0x61] := by
    unfold BelowFullGroup
    decide
  have hput : (tagKey oneTagged [0x63]).1 = .ok () := by decide
  have hfits : (tagKey oneTagged [0x63]).2.world.wrapped = false := by decide
  have hrun : putIndexed .sorted [0x63] [0x7B, 0x7D] tagX [] ⟨oneTagged, []⟩
      = (.ok (), ⟨(tagKey oneTagged [0x63]).2.world, (tagKey oneTagged [0x63]).2.plan⟩) := by
    rw [← tagKey]
    exact run_of_ok hput
  exact ⟨hrefused hbelow, hretained _ _ hrun hfits⟩

/-! ## Where they do not -/

/-- The record `FF` has the tag; the record of the replacement character has none. -/
def lookalikes : World := runEvents { now := ⟨0, Millis.zero_bounded⟩ }
  [.openStore roomForOne [],
   .op (.putIndexed .sorted [0xFF] [0x7B, 0x7D] tagX []) [],
   .op (.put .sorted [0xEF, 0xBF, 0xBD] [0x7B, 0x7D] []) []]

/-- A number index `n` with room for one record of a value, and the record `b` with the value 1. -/
def oneNumber : World := runEvents { now := ⟨0, Millis.zero_bounded⟩ }
  [.openStore { indexes := [{ name := [0x6E], kind := .number, maxPerValue := 1 }] } [],
   .op (.putIndexed .sorted [0x62] [0x7B, 0x7D] (Tree.empty.set ([0x6E], .int 1)) []) []]

/-- A NaN. -/
def nan : AnyValue := .f64 ⟨false, 2047 * 2 ^ 52 + 1, by decide⟩

/-- When `FF` is evicted, its tombstone names the replacement character: that key, which is in no
group, is gone from the log.  And a NaN is refused for a group that has no member. -/
theorem other_record_lost_and_nan_refused :
    ((tagKey lookalikes [0xFF, 0xFF]).1 = .ok () ∧
      (lookalikes.dir.cells [0xEF, 0xBF, 0xBD]).isSome = true ∧
      ((tagKey lookalikes [0xFF, 0xFF]).2.world.dir.cells [0xEF, 0xBF, 0xBD]).isSome = false ∧
      (tagsOf lookalikes).members (.str [0x78]) = [[0xFF]]) ∧
    oneNumber.db.checkSelfEviction .sorted [0x61] (Tree.empty.set ([0x6E], nan))
      = .error (.selfEviction [0x61] [0x6E] 1) ∧
    ∀ si ∈ oneNumber.db.idx.secs.items, si.members nan = [] := by
  decide +kernel

end NteeDb.Properties.Capping
