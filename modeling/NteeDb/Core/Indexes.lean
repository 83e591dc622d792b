import NteeDb.Core.SecIndex

/-!
# The primary and the secondary indexes together

The part of `secindex.go` that keeps the secondary trees in step with the
primary entries: `insertSec`, `retractSec`, `refreshSec`, `rebuildSec`, and the
sweep a range delete uses.

Entries are retracted by the value recomputed from the index values cached on
the primary entry.  `SecInv` says what makes that sound: every tree is exactly
the set of entries the primary entries give rise to.

## Main results

`SecInv` is kept by the steps every operation is made of: `SecInv.put`,
`SecInv.delete`, `SecInv.removeAll`, `SecInv.rebuild` and `SecInv.loadEntry`.
-/

namespace NteeDb.Core

open NteeDb.Verified
open OrderedTree JsonCodec

/-- `db.secIndexes`: the declared indexes, by name. -/
structure SecIndexes where
  items : List SecIndex
  nodup : (items.map SecIndex.name).Nodup

namespace SecIndexes

/-- The index of a name. -/
def get (secs : SecIndexes) (name : Bytes) : Option SecIndex :=
  secs.items.find? fun si => si.name = name

/-- Replace every index by one of the same name. -/
def mapAll (secs : SecIndexes) (f : SecIndex → SecIndex) (hf : ∀ si, (f si).name = si.name) :
    SecIndexes where
  items := secs.items.map f
  nodup := by
    rw [List.map_map, show SecIndex.name ∘ f = SecIndex.name from funext hf]
    exact secs.nodup

/-- Replace the index of one name. -/
def modify (secs : SecIndexes) (name : Bytes) (f : SecIndex → SecIndex)
    (hf : ∀ si, (f si).name = si.name) : SecIndexes :=
  secs.mapAll (fun si => if si.name = name then f si else si) fun si => by
    split
    · exact hf si
    · rfl

/-- The loop body that `insertSec` and `retractSec` share: turn one index value
into an entry of its index, if it is declared and the value fits, and insert it
or remove it. -/
def applyOne (op : SecIndex → SecEntry → SecIndex) (hop : ∀ si e, (op si e).name = si.name)
    (key : Bytes) (secs : SecIndexes) (nv : Bytes × AnyValue) : SecIndexes :=
  match secs.get nv.1 with
  | none => secs
  | some si =>
      match si.makeEntry nv.2 key with
      | .ok e => secs.modify nv.1 (op · e) fun si => hop si e
      | .error _ => secs

/-- `insertSec` -/
def insertSec (secs : SecIndexes) (key : Bytes) (ix : AnyMap) : SecIndexes :=
  ix.items.foldl (applyOne SecIndex.insert SecIndex.insert_name key) secs

/-- The loop of `retractSec`. -/
def removeSec (secs : SecIndexes) (key : Bytes) (ix : AnyMap) : SecIndexes :=
  ix.items.foldl (applyOne SecIndex.remove SecIndex.remove_name key) secs

/-- Empty every tree. -/
def clear (secs : SecIndexes) : SecIndexes :=
  secs.mapAll (fun si => { si with tree := Tree.empty }) fun _ => rfl

/-- Sweep the keys out of every tree. -/
def removePKs (secs : SecIndexes) (pks : List Bytes) : SecIndexes :=
  secs.mapAll (SecIndex.removePKs · pks) (SecIndex.removePKs_name pks)

end SecIndexes

/-- `db.pk` and `db.secIndexes`. -/
structure Indexes where
  pk : PkIndex
  secs : SecIndexes

namespace Indexes

/-- `retractSec` -/
def retractSec (ix : Indexes) (key : Bytes) : Indexes :=
  match ix.pk.get key with
  | none => ix
  | some e =>
      if e.ix.items = [] then ix
      else { pk := ix.pk.setIX key Tree.empty
             secs := ix.secs.removeSec key e.ix }

/-- `refreshSec` -/
def refreshSec (ix : Indexes) (key : Bytes) (ixv : AnyMap) : Indexes :=
  let ix := ix.retractSec key
  if ixv.items = [] then ix
  else { pk := ix.pk.setIX key ixv, secs := ix.secs.insertSec key ixv }

/-- `rebuildSec` -/
def rebuildSec (ix : Indexes) : Indexes :=
  { ix with
    secs := ix.pk.items.foldl (fun secs e => secs.insertSec e.key e.ix) ix.secs.clear }

/-- An appended record enters the indexes: `pk.upsert`, then `refreshSec`. -/
def put (ix : Indexes) (e : PkEntry) (ixv : AnyMap) : Indexes :=
  { ix with pk := ix.pk.upsert e }.refreshSec e.key ixv

/-- A tombstone leaves the indexes: `retractSec`, then `pk.remove`. -/
def delete (ix : Indexes) (key : Bytes) : Indexes :=
  { ix.retractSec key with pk := (ix.retractSec key).pk.remove key }

/-- The in-memory half of a range delete. -/
def removeAll (ix : Indexes) (doomed : List PkEntry) : Indexes where
  pk := doomed.foldl (fun pk e => pk.remove e.key) ix.pk
  secs := ix.secs.removePKs (doomed.map PkEntry.key)

/-- One hint entry enters the indexes: `pk.load`, then `insertSec`. -/
def loadEntry (ix : Indexes) (e : PkEntry) : Indexes where
  pk := ix.pk.load e
  secs := if e.ix.items = [] then ix.secs else ix.secs.insertSec e.key e.ix

end Indexes

/-! ## What the loops do to one index -/

namespace SecIndexes

theorem ext_items {s t : SecIndexes} (h : s.items = t.items) : s = t := by
  cases s
  cases t
  cases h
  rfl

theorem get_eq_some {secs : SecIndexes} {name : Bytes} {si : SecIndex} :
    secs.get name = some si ↔ si ∈ secs.items ∧ si.name = name := by
  constructor
  · intro h
    exact ⟨List.mem_of_find?_eq_some h, by simpa using List.find?_some h⟩
  · rintro ⟨hmem, rfl⟩
    have hsome : (secs.get si.name).isSome = true :=
      List.find?_isSome.mpr ⟨si, hmem, decide_eq_true rfl⟩
    obtain ⟨si', hsi'⟩ := Option.isSome_iff_exists.mp hsome
    have hmem' := List.mem_of_find?_eq_some hsi'
    have hname : si'.name = si.name := by simpa using List.find?_some hsi'
    rw [hsi', List.inj_on_of_nodup_map secs.nodup hmem' hmem hname]

theorem get_eq_none {secs : SecIndexes} {name : Bytes} :
    secs.get name = none ↔ ∀ si ∈ secs.items, si.name ≠ name := by
  simp [get]

/-- One index value, seen from one index. -/
def stepOn (op : SecIndex → SecEntry → SecIndex) (key : Bytes) (si : SecIndex)
    (nv : Bytes × AnyValue) : SecIndex :=
  if si.name = nv.1 then
    match si.makeEntry nv.2 key with
    | .ok e => op si e
    | .error _ => si
  else si

variable {op : SecIndex → SecEntry → SecIndex}

private theorem stepOn_name (hop : ∀ si e, (op si e).name = si.name) (key : Bytes) (si : SecIndex)
    (nv : Bytes × AnyValue) : (stepOn op key si nv).name = si.name := by
  rw [stepOn]
  split
  · split
    · exact hop _ _
    · rfl
  · rfl

private theorem applyOne_items (hop : ∀ si e, (op si e).name = si.name) (key : Bytes)
    (secs : SecIndexes) (nv : Bytes × AnyValue) :
    (applyOne op hop key secs nv).items = secs.items.map (stepOn op key · nv) := by
  have hself {f : SecIndex → SecIndex} (h : ∀ si ∈ secs.items, f si = si) :
      secs.items = secs.items.map f :=
    ((List.map_congr_left h).trans (List.map_id _)).symm
  cases hget : secs.get nv.1 with
  | none =>
      simp only [applyOne, hget]
      apply hself
      intro si hsi
      rw [stepOn, if_neg (get_eq_none.mp hget si hsi)]
  | some si =>
      obtain ⟨hmem, hname⟩ := get_eq_some.mp hget
      -- the index of that name is the only one the loop body can touch
      have huniq : ∀ si' ∈ secs.items, si'.name = nv.1 → si' = si := fun si' hsi' h =>
        List.inj_on_of_nodup_map secs.nodup hsi' hmem (h.trans hname.symm)
      cases hentry : si.makeEntry nv.2 key with
      | error err =>
          simp only [applyOne, hget, hentry]
          apply hself
          intro si' hsi'
          rw [stepOn]
          split
          · next h => rw [huniq si' hsi' h, hentry]
          · rfl
      | ok e =>
          simp only [applyOne, hget, hentry]
          apply List.map_congr_left
          intro si' hsi'
          rw [stepOn]
          split
          · next h => rw [huniq si' hsi' h, hentry]
          · rfl

private theorem foldl_applyOne_items (hop : ∀ si e, (op si e).name = si.name) (key : Bytes)
    (l : List (Bytes × AnyValue)) (secs : SecIndexes) :
    (l.foldl (applyOne op hop key) secs).items
      = secs.items.map fun si => l.foldl (stepOn op key) si := by
  induction l generalizing secs with
  | nil => simp
  | cons nv l ih =>
      rw [List.foldl_cons, ih, applyOne_items, List.map_map]
      rfl

/-- All index values of a key, seen from one index. -/
def applyTo (op : SecIndex → SecEntry → SecIndex) (key : Bytes) (ix : AnyMap) (si : SecIndex) :
    SecIndex :=
  match ix.get si.name with
  | none => si
  | some v =>
      match si.makeEntry v key with
      | .ok e => op si e
      | .error _ => si

private theorem foldl_stepOn_of_ne (key : Bytes) {l : List (Bytes × AnyValue)} {si : SecIndex}
    (h : ∀ nv ∈ l, si.name ≠ nv.1) : l.foldl (stepOn op key) si = si := by
  induction l with
  | nil => rfl
  | cons nv l ih =>
      rw [List.forall_mem_cons] at h
      rw [List.foldl_cons, stepOn, if_neg h.1, ih h.2]

private theorem foldl_stepOn (hop : ∀ si e, (op si e).name = si.name) (key : Bytes)
    {l : List (Bytes × AnyValue)} (hl : l.Pairwise fun a b => a.1 ≠ b.1) {si : SecIndex}
    {v : AnyValue} (hv : (si.name, v) ∈ l) :
    l.foldl (stepOn op key) si = stepOn op key si (si.name, v) := by
  induction l with
  | nil => cases hv
  | cons nv l ih =>
      obtain ⟨hnv, hl⟩ := List.pairwise_cons.mp hl
      rw [List.foldl_cons]
      rcases List.mem_cons.mp hv with rfl | hv
      · apply foldl_stepOn_of_ne
        intro nv' hnv'
        rw [stepOn_name hop]
        exact hnv nv' hnv'
      · have hne : si.name ≠ nv.1 := fun h => hnv _ hv h.symm
        rw [stepOn, if_neg hne, ih hl hv]

private theorem foldl_items_eq_applyTo (hop : ∀ si e, (op si e).name = si.name) (key : Bytes)
    (ix : AnyMap) (si : SecIndex) :
    ix.items.foldl (stepOn op key) si = applyTo op key ix si := by
  rw [applyTo]
  cases hget : ix.get si.name with
  | none =>
      apply foldl_stepOn_of_ne
      intro nv hnv hname
      simp only [AnyMap.get, Option.map_eq_none_iff] at hget
      exact Tree.get?_eq_none.mp hget nv hnv hname.symm
  | some v =>
      simp only [AnyMap.get, Option.map_eq_some_iff] at hget
      obtain ⟨⟨name, v'⟩, hnv, rfl⟩ := hget
      obtain ⟨hmem, hname⟩ := Tree.get?_eq_some.mp hnv
      cases (show name = si.name from hname)
      rw [foldl_stepOn hop key ix.keys_ne hmem, stepOn, if_pos rfl]

theorem insertSec_items (secs : SecIndexes) (key : Bytes) (ix : AnyMap) :
    (secs.insertSec key ix).items = secs.items.map (applyTo SecIndex.insert key ix) := by
  rw [insertSec, foldl_applyOne_items]
  exact List.map_congr_left fun si _ => foldl_items_eq_applyTo SecIndex.insert_name key ix si

theorem removeSec_items (secs : SecIndexes) (key : Bytes) (ix : AnyMap) :
    (secs.removeSec key ix).items = secs.items.map (applyTo SecIndex.remove key ix) := by
  rw [removeSec, foldl_applyOne_items]
  exact List.map_congr_left fun si _ => foldl_items_eq_applyTo SecIndex.remove_name key ix si

end SecIndexes

/-! ## What the loops do to one tree -/

theorem encodable_get {m : AnyMap} (h : AnyMap.Encodable m) {name : Bytes} {v : AnyValue}
    (hv : m.get name = some v) : v.encode ≠ none := by
  simp only [AnyMap.get, Option.map_eq_some_iff] at hv
  obtain ⟨nv, hnv, rfl⟩ := hv
  exact h nv (Tree.get?_eq_some.mp hnv).1

/-- `e` is the entry of the primary entry `p` in the index `si`: `p` has a value
under the index's name and `makeEntry` accepts it. -/
def Indexed (si : SecIndex) (p : PkEntry) (e : SecEntry) : Prop :=
  ∃ v, p.ix.get si.name = some v ∧ si.makeEntry v p.key = .ok e

/-- Only the index's name and kind matter. -/
theorem indexed_congr {si si' : SecIndex} (hname : si'.name = si.name) (hkind : si'.kind = si.kind)
    {p : PkEntry} {e : SecEntry} : Indexed si' p e ↔ Indexed si p e := by
  simp only [Indexed, SecIndex.makeEntry, hname, hkind]

theorem Indexed.pk {si : SecIndex} {p : PkEntry} {e : SecEntry} (h : Indexed si p e) :
    e.pk = p.key := by
  obtain ⟨v, _, hv⟩ := h
  exact SecIndex.makeEntry_pk hv

theorem Indexed.unique {si : SecIndex} {p : PkEntry} {e e' : SecEntry} (h : Indexed si p e)
    (h' : Indexed si p e') : e = e' := by
  obtain ⟨v, hget, hv⟩ := h
  obtain ⟨v', hget', hv'⟩ := h'
  rw [hget] at hget'
  cases hget'
  rw [hv] at hv'
  cases hv'
  rfl

theorem Indexed.nanFree {si : SecIndex} {p : PkEntry} {e : SecEntry} (h : Indexed si p e)
    (henc : AnyMap.Encodable p.ix) : e.NaNFree si.kind := by
  obtain ⟨v, hget, hv⟩ := h
  exact SecIndex.nanFree_makeEntry (encodable_get henc hget) hv

/-- No entry of the index has a NaN. -/
def SecIndex.NaNFree (si : SecIndex) : Prop := ∀ e ∈ si.tree, e.NaNFree si.kind

section OneTree

variable {si : SecIndex} {p : PkEntry}

/-- The values of a key either give no entry of the index, or exactly one. -/
private theorem applyTo_cases (op : SecIndex → SecEntry → SecIndex) (si : SecIndex) (p : PkEntry) :
    (SecIndexes.applyTo op p.key p.ix si = si ∧ ∀ x, ¬ Indexed si p x) ∨
      ∃ x, SecIndexes.applyTo op p.key p.ix si = op si x ∧ Indexed si p x := by
  cases hget : p.ix.get si.name with
  | none =>
      refine Or.inl ⟨by simp only [SecIndexes.applyTo, hget], ?_⟩
      rintro x ⟨v, hv, _⟩
      rw [hget] at hv
      cases hv
  | some v =>
      cases hentry : si.makeEntry v p.key with
      | error err =>
          refine Or.inl ⟨by simp only [SecIndexes.applyTo, hget, hentry], ?_⟩
          rintro x ⟨v', hv', hx⟩
          rw [hget] at hv'
          cases hv'
          rw [hentry] at hx
          cases hx
      | ok x => exact Or.inr ⟨x, by simp only [SecIndexes.applyTo, hget, hentry], v, hget, hentry⟩

private theorem applyTo_kind {op : SecIndex → SecEntry → SecIndex}
    (hname : ∀ si e, (op si e).name = si.name) (hkind : ∀ si e, (op si e).kind = si.kind)
    (key : Bytes) (ix : AnyMap) (si : SecIndex) :
    (SecIndexes.applyTo op key ix si).name = si.name ∧
      (SecIndexes.applyTo op key ix si).kind = si.kind := by
  unfold SecIndexes.applyTo
  split
  · exact ⟨rfl, rfl⟩
  · split
    · exact ⟨hname _ _, hkind _ _⟩
    · exact ⟨rfl, rfl⟩

theorem applyTo_insert_kind (key : Bytes) (ix : AnyMap) (si : SecIndex) :
    (SecIndexes.applyTo SecIndex.insert key ix si).name = si.name ∧
      (SecIndexes.applyTo SecIndex.insert key ix si).kind = si.kind :=
  applyTo_kind SecIndex.insert_name (fun _ _ => rfl) key ix si

theorem applyTo_remove_kind (key : Bytes) (ix : AnyMap) (si : SecIndex) :
    (SecIndexes.applyTo SecIndex.remove key ix si).name = si.name ∧
      (SecIndexes.applyTo SecIndex.remove key ix si).kind = si.kind :=
  applyTo_kind SecIndex.remove_name (fun _ _ => rfl) key ix si

/-- Inserting the values of a key the index does not mention adds its entry. -/
theorem mem_applyTo_insert (hnan : si.NaNFree) (henc : AnyMap.Encodable p.ix)
    (hfresh : ∀ e ∈ si.tree, e.pk ≠ p.key) {e : SecEntry} :
    e ∈ (SecIndexes.applyTo SecIndex.insert p.key p.ix si).tree
      ↔ e ∈ si.tree ∨ Indexed si p e := by
  rcases applyTo_cases SecIndex.insert si p with ⟨happ, hnone⟩ | ⟨new, happ, hnew⟩
  · rw [happ]
    exact ⟨Or.inl, fun he => he.resolve_right (hnone e)⟩
  · rw [happ]
    refine Iff.trans (show e ∈ (si.insert new).tree ↔ _ from Tree.mem_set) ?_
    constructor
    · rintro (rfl | ⟨he, _⟩)
      · exact Or.inr hnew
      · exact Or.inl he
    · rintro (he | he)
      · refine Or.inr ⟨he, ?_⟩
        rw [secLess_or_iff (hnan e he) (hnew.nanFree henc)]
        rintro ⟨_, hpk⟩
        exact hfresh e he (hpk.trans hnew.pk)
      · exact Or.inl (he.unique hnew)

/-- Removing the values of a key takes out the entries of that key, when the only
one there is the one those values give. -/
theorem mem_applyTo_remove (hnan : si.NaNFree) (henc : AnyMap.Encodable p.ix)
    (honly : ∀ e ∈ si.tree, e.pk = p.key → Indexed si p e) {e : SecEntry} :
    e ∈ (SecIndexes.applyTo SecIndex.remove p.key p.ix si).tree
      ↔ e ∈ si.tree ∧ e.pk ≠ p.key := by
  rcases applyTo_cases SecIndex.remove si p with ⟨happ, hnone⟩ | ⟨old, happ, hold⟩
  · rw [happ]
    exact ⟨fun he => ⟨he, fun hpk => hnone e (honly e he hpk)⟩, And.left⟩
  · rw [happ]
    refine Iff.trans (show e ∈ (si.remove old).tree ↔ _ from Tree.mem_delete) ?_
    constructor
    · rintro ⟨he, hne⟩
      refine ⟨he, fun hpk => ?_⟩
      cases (honly e he hpk).unique hold
      simp [StrictComparator.irrefl] at hne
    · rintro ⟨he, hpk⟩
      refine ⟨he, ?_⟩
      rw [secLess_or_iff (hnan e he) (hold.nanFree henc)]
      rintro ⟨_, hpk'⟩
      exact hpk (hpk'.trans hold.pk)

private theorem mem_foldl_delete (ds : List SecEntry) (t : Tree (secLess si.kind)) {e : SecEntry} :
    e ∈ ds.foldl Tree.delete t
      ↔ e ∈ t ∧ ∀ d ∈ ds, secLess si.kind e d = true ∨ secLess si.kind d e = true := by
  induction ds generalizing t with
  | nil => simp
  | cons d ds ih =>
      rw [List.foldl_cons, ih, Tree.mem_delete, List.forall_mem_cons, and_assoc]

/-- The sweep of a range delete takes out the entries of the given keys. -/
theorem mem_removePKs (hnan : si.NaNFree) {pks : List Bytes} {e : SecEntry} :
    e ∈ (si.removePKs pks).tree ↔ e ∈ si.tree ∧ e.pk ∉ pks := by
  refine Iff.trans (mem_foldl_delete _ si.tree) ?_
  constructor
  · rintro ⟨he, hall⟩
    refine ⟨he, fun hpk => ?_⟩
    have := hall e (List.mem_filter.mpr ⟨he, by simpa using hpk⟩)
    simp [StrictComparator.irrefl] at this
  · rintro ⟨he, hpk⟩
    refine ⟨he, fun d hd => ?_⟩
    obtain ⟨hd, hdpk⟩ := List.mem_filter.mp hd
    rw [secLess_or_iff (hnan e he) (hnan d hd)]
    rintro ⟨_, heq⟩
    rw [heq] at hpk
    exact hpk (by simpa using hdpk)

end OneTree

/-! ## The updates as equations -/

private theorem eq_empty_of_items {m : AnyMap} (h : m.items = []) : m = Tree.empty :=
  Tree.ext_items h

private theorem applyTo_empty (op : SecIndex → SecEntry → SecIndex) (key : Bytes) :
    SecIndexes.applyTo op key Tree.empty = id := rfl

namespace Indexes

theorem retractSec_pk (ix : Indexes) (key : Bytes) :
    (ix.retractSec key).pk = ix.pk.setIX key Tree.empty := by
  rw [retractSec, PkIndex.setIX]
  cases hget : ix.pk.get key with
  | none => rfl
  | some e =>
      simp only
      split
      · next h =>
          -- the entry has no index values to clear
          have he : { e with ix := Tree.empty } = e := by rw [← eq_empty_of_items h]
          rw [he]
          apply PkIndex.ext_get
          intro k
          rw [PkIndex.get_set, PkIndex.key_of_get hget]
          split
          · next hk => rw [hk, hget]
          · rfl
      · rfl

theorem retractSec_secs (ix : Indexes) (key : Bytes) :
    (ix.retractSec key).secs.items
      = ix.secs.items.map (SecIndexes.applyTo SecIndex.remove key (ix.pk.ixOf key)) := by
  rw [retractSec, PkIndex.ixOf]
  cases hget : ix.pk.get key with
  | none => simp [applyTo_empty]
  | some e =>
      simp only [Option.map_some, Option.getD_some]
      split
      · next h => simp [eq_empty_of_items h, applyTo_empty]
      · exact SecIndexes.removeSec_items _ _ _

theorem refreshSec_pk (ix : Indexes) (key : Bytes) (ixv : AnyMap) :
    (ix.refreshSec key ixv).pk = ix.pk.setIX key ixv := by
  rw [refreshSec]
  split
  · next h => rw [retractSec_pk, eq_empty_of_items h]
  · simp only [retractSec_pk]
    apply PkIndex.ext_get
    intro k
    simp only [PkIndex.get_setIX, if_true, Option.map_map]
    split
    · rfl
    · rfl

theorem refreshSec_secs (ix : Indexes) (key : Bytes) (ixv : AnyMap) :
    (ix.refreshSec key ixv).secs.items
      = ix.secs.items.map fun si => SecIndexes.applyTo SecIndex.insert key ixv
          (SecIndexes.applyTo SecIndex.remove key (ix.pk.ixOf key) si) := by
  rw [refreshSec]
  split
  · next h => simp [retractSec_secs, eq_empty_of_items h, applyTo_empty]
  · rw [SecIndexes.insertSec_items, retractSec_secs, List.map_map]
    rfl

/-- After an appended record, the key's entry is the new one. -/
theorem put_pk (ix : Indexes) {e : PkEntry} (he : e.ix = Tree.empty) (ixv : AnyMap) :
    (ix.put e ixv).pk = ix.pk.set { e with ix := ixv } := by
  rw [put, refreshSec_pk]
  apply PkIndex.ext_get
  intro k
  simp only [PkIndex.get_setIX, PkIndex.get_upsert _ _ he, PkIndex.get_set, if_true,
    Option.map_some]
  split
  · rfl
  · rfl

theorem put_secs (ix : Indexes) {e : PkEntry} (he : e.ix = Tree.empty) (ixv : AnyMap) :
    (ix.put e ixv).secs.items
      = ix.secs.items.map fun si => SecIndexes.applyTo SecIndex.insert e.key ixv
          (SecIndexes.applyTo SecIndex.remove e.key (ix.pk.ixOf e.key) si) := by
  have hix : (ix.pk.upsert e).ixOf e.key = ix.pk.ixOf e.key := by
    rw [PkIndex.ixOf, PkIndex.get_upsert _ _ he, if_pos rfl]
    rfl
  rw [put, refreshSec_secs, hix]

/-- After a tombstone, the key is gone. -/
theorem delete_pk (ix : Indexes) (key : Bytes) : (ix.delete key).pk = ix.pk.remove key := by
  rw [delete, retractSec_pk]
  apply PkIndex.ext_get
  intro k
  simp only [PkIndex.get_remove, PkIndex.get_setIX]
  split
  · rfl
  · rfl

theorem delete_secs (ix : Indexes) (key : Bytes) :
    (ix.delete key).secs.items
      = ix.secs.items.map (SecIndexes.applyTo SecIndex.remove key (ix.pk.ixOf key)) :=
  retractSec_secs ix key

end Indexes

/-! ## The declared indexes stay the same -/

/-- What an index was declared as. -/
structure Decl where
  name : Bytes
  kind : ValueKind
  max : Int64
  deriving DecidableEq

/-- The declaration of an index. -/
def SecIndex.decl (si : SecIndex) : Decl := ⟨si.name, si.kind, si.max⟩

/-- The declarations of the indexes, in order. -/
def SecIndexes.decls (secs : SecIndexes) : List Decl := secs.items.map SecIndex.decl

private theorem map_decl {items : List SecIndex} {f : SecIndex → SecIndex}
    (h : ∀ si, (f si).decl = si.decl) :
    (items.map f).map SecIndex.decl = items.map SecIndex.decl := by
  rw [List.map_map]
  exact List.map_congr_left fun si _ => h si

private theorem applyTo_decl {op : SecIndex → SecEntry → SecIndex}
    (hop : ∀ si e, (op si e).decl = si.decl) (key : Bytes) (ix : AnyMap) (si : SecIndex) :
    (SecIndexes.applyTo op key ix si).decl = si.decl := by
  unfold SecIndexes.applyTo
  split
  · rfl
  · split
    · exact hop _ _
    · rfl

private theorem insert_decl (si : SecIndex) (e : SecEntry) : (si.insert e).decl = si.decl := rfl

private theorem remove_decl (si : SecIndex) (e : SecEntry) : (si.remove e).decl = si.decl := rfl

namespace Indexes

theorem put_decls (ix : Indexes) {e : PkEntry} (he : e.ix = Tree.empty) (ixv : AnyMap) :
    (ix.put e ixv).secs.decls = ix.secs.decls := by
  rw [SecIndexes.decls, put_secs ix he]
  apply map_decl
  intro si
  rw [applyTo_decl insert_decl, applyTo_decl remove_decl]

theorem delete_decls (ix : Indexes) (key : Bytes) : (ix.delete key).secs.decls = ix.secs.decls := by
  rw [SecIndexes.decls, delete_secs]
  exact map_decl fun si => applyTo_decl remove_decl key _ si

theorem removeAll_decls (ix : Indexes) (doomed : List PkEntry) :
    (ix.removeAll doomed).secs.decls = ix.secs.decls := map_decl fun _ => rfl

theorem insertSec_decls (secs : SecIndexes) (key : Bytes) (ix : AnyMap) :
    (secs.insertSec key ix).decls = secs.decls := by
  rw [SecIndexes.decls, SecIndexes.insertSec_items]
  exact map_decl fun si => applyTo_decl insert_decl key ix si

theorem loadEntry_decls (ix : Indexes) (e : PkEntry) :
    (ix.loadEntry e).secs.decls = ix.secs.decls := by
  rw [loadEntry]
  split
  · rfl
  · exact insertSec_decls _ _ _

theorem foldl_loadEntry_decls (es : List PkEntry) (ix : Indexes) :
    (es.foldl loadEntry ix).secs.decls = ix.secs.decls := by
  induction es generalizing ix with
  | nil => rfl
  | cons e es ih => rw [List.foldl_cons, ih, loadEntry_decls]

end Indexes

/-! ## The invariant -/

/-- Every secondary tree is exactly the set of entries the primary entries give
rise to, and the index values they carry can be written as JSON. -/
structure SecInv (ix : Indexes) : Prop where
  encodable : ∀ p ∈ ix.pk, AnyMap.Encodable p.ix
  mem_iff : ∀ si ∈ ix.secs.items, ∀ e, e ∈ si.tree ↔ ∃ p ∈ ix.pk, Indexed si p e

namespace SecInv

variable {ix : Indexes}

theorem nanFree (h : SecInv ix) {si : SecIndex} (hsi : si ∈ ix.secs.items) : si.NaNFree := by
  intro e he
  obtain ⟨p, hp, hidx⟩ := (h.mem_iff si hsi e).mp he
  exact hidx.nanFree (h.encodable p hp)

/-- The entries of a key are those its own values give. -/
theorem of_pk (h : SecInv ix) {si : SecIndex} (hsi : si ∈ ix.secs.items) {p : PkEntry}
    (hp : p ∈ ix.pk) {e : SecEntry} (he : e ∈ si.tree) (hpk : e.pk = p.key) : Indexed si p e := by
  obtain ⟨q, hq, hidx⟩ := (h.mem_iff si hsi e).mp he
  rwa [← Tree.eq_of_key_eq hq hp (hidx.pk.symm.trans hpk)]

/-- Retracting a key takes its entries out of every tree. -/
private theorem mem_retract (h : SecInv ix) {si : SecIndex} (hsi : si ∈ ix.secs.items)
    (key : Bytes) {e : SecEntry} :
    e ∈ (SecIndexes.applyTo SecIndex.remove key (ix.pk.ixOf key) si).tree
      ↔ ∃ p ∈ ix.pk, p.key ≠ key ∧ Indexed si p e := by
  have hsplit : (e ∈ si.tree ∧ e.pk ≠ key) ↔ ∃ p ∈ ix.pk, p.key ≠ key ∧ Indexed si p e := by
    rw [h.mem_iff si hsi e]
    constructor
    · rintro ⟨⟨p, hp, hidx⟩, hne⟩
      exact ⟨p, hp, hidx.pk ▸ hne, hidx⟩
    · rintro ⟨p, hp, hne, hidx⟩
      exact ⟨⟨p, hp, hidx⟩, hidx.pk ▸ hne⟩
  rw [← hsplit]
  cases hget : ix.pk.get key with
  | none =>
      have hix : ix.pk.ixOf key = Tree.empty := by
        rw [PkIndex.ixOf, hget]
        rfl
      rw [hix, applyTo_empty, id]
      refine ⟨fun he => ⟨he, fun hpk => ?_⟩, And.left⟩
      obtain ⟨q, hq, hidx⟩ := (h.mem_iff si hsi e).mp he
      exact PkIndex.get_eq_none.mp hget q hq (hidx.pk.symm.trans hpk)
  | some p =>
      obtain ⟨hp, rfl⟩ := PkIndex.get_eq_some.mp hget
      have hix : ix.pk.ixOf p.key = p.ix := by
        rw [PkIndex.ixOf, hget]
        rfl
      rw [hix]
      exact mem_applyTo_remove (h.nanFree hsi) (h.encodable p hp) fun e he hpk =>
        h.of_pk hsi hp he hpk

/-- An appended record keeps the indexes in step. -/
theorem put (h : SecInv ix) {e : PkEntry} (he : e.ix = Tree.empty) {ixv : AnyMap}
    (hixv : AnyMap.Encodable ixv) : SecInv (ix.put e ixv) := by
  constructor
  · rw [Indexes.put_pk ix he]
    intro p hp
    rcases Tree.mem_set_key.mp hp with rfl | ⟨hp, _⟩
    · exact hixv
    · exact h.encodable p hp
  · rw [Indexes.put_pk ix he, Indexes.put_secs ix he]
    intro si' hsi' x
    obtain ⟨si, hsi, rfl⟩ := List.mem_map.mp hsi'
    -- the tree in between: the key retracted, the new values not yet in
    obtain ⟨hname, hkind⟩ := applyTo_remove_kind e.key (ix.pk.ixOf e.key) si
    have hmid : ∀ y, y ∈ (SecIndexes.applyTo SecIndex.remove e.key (ix.pk.ixOf e.key) si).tree
        ↔ ∃ p ∈ ix.pk, p.key ≠ e.key ∧ Indexed si p y := fun y => h.mem_retract hsi e.key
    generalize SecIndexes.applyTo SecIndex.remove e.key (ix.pk.ixOf e.key) si = mid at *
    obtain ⟨hname', hkind'⟩ := applyTo_insert_kind e.key ixv mid
    have hnan : mid.NaNFree := by
      intro y hy
      obtain ⟨p, hp, _, hidx⟩ := (hmid y).mp hy
      rw [hkind]
      exact hidx.nanFree (h.encodable p hp)
    have hfresh : ∀ y ∈ mid.tree, y.pk ≠ e.key := by
      intro y hy
      obtain ⟨p, _, hne, hidx⟩ := (hmid y).mp hy
      rwa [hidx.pk]
    have hins := @mem_applyTo_insert mid { e with ix := ixv } hnan hixv hfresh x
    rw [hins, hmid, indexed_congr hname hkind]
    simp only [indexed_congr (hname'.trans hname) (hkind'.trans hkind), Tree.mem_set_key]
    constructor
    · rintro (⟨p, hp, hne, hidx⟩ | hidx)
      · exact ⟨p, Or.inr ⟨hp, hne⟩, hidx⟩
      · exact ⟨_, Or.inl rfl, hidx⟩
    · rintro ⟨p, rfl | ⟨hp, hne⟩, hidx⟩
      · exact Or.inr hidx
      · exact Or.inl ⟨p, hp, hne, hidx⟩

/-- A tombstone keeps the indexes in step. -/
theorem delete (h : SecInv ix) (key : Bytes) : SecInv (ix.delete key) := by
  constructor
  · rw [Indexes.delete_pk]
    intro p hp
    exact h.encodable p (Tree.mem_delete_key.mp hp).1
  · rw [Indexes.delete_pk, Indexes.delete_secs]
    intro si' hsi' x
    obtain ⟨si, hsi, rfl⟩ := List.mem_map.mp hsi'
    obtain ⟨hname, hkind⟩ := applyTo_remove_kind key (ix.pk.ixOf key) si
    rw [h.mem_retract hsi]
    simp only [indexed_congr hname hkind, PkIndex.remove, Tree.mem_delete_key, and_assoc]

theorem mem_foldl_remove {doomed : List PkEntry} {pk : PkIndex} {p : PkEntry} :
    p ∈ doomed.foldl (fun pk e => pk.remove e.key) pk
      ↔ p ∈ pk ∧ p.key ∉ doomed.map PkEntry.key := by
  induction doomed generalizing pk with
  | nil => simp
  | cons d ds ih =>
      rw [List.foldl_cons, ih, PkIndex.remove, Tree.mem_delete_key]
      simp only [List.map_cons, List.mem_cons, not_or, and_assoc, ne_eq]

/-- The in-memory half of a range delete keeps the indexes in step. -/
theorem removeAll (h : SecInv ix) (doomed : List PkEntry) : SecInv (ix.removeAll doomed) := by
  constructor
  · intro p hp
    exact h.encodable p (mem_foldl_remove.mp hp).1
  · intro si' hsi' x
    obtain ⟨si, hsi, rfl⟩ := List.mem_map.mp hsi'
    have hcongr {p : PkEntry} :
        Indexed (si.removePKs (doomed.map PkEntry.key)) p x ↔ Indexed si p x :=
      indexed_congr rfl rfl
    rw [mem_removePKs (h.nanFree hsi), h.mem_iff si hsi x]
    simp only [hcongr, Indexes.removeAll, mem_foldl_remove]
    constructor
    · rintro ⟨⟨p, hp, hidx⟩, hpk⟩
      exact ⟨p, ⟨hp, hidx.pk ▸ hpk⟩, hidx⟩
    · rintro ⟨p, ⟨hp, hpk⟩, hidx⟩
      exact ⟨⟨p, hp, hidx⟩, hidx.pk ▸ hpk⟩

/-- Loading an entry of a key that is not there yet keeps the indexes in step. -/
theorem loadEntry (h : SecInv ix) {e : PkEntry} (henc : AnyMap.Encodable e.ix)
    (hfresh : ix.pk.get e.key = none) : SecInv (ix.loadEntry e) := by
  have hpk : ∀ p, p ∈ (ix.loadEntry e).pk ↔ p = e ∨ p ∈ ix.pk := by
    intro p
    refine Iff.trans (show p ∈ ix.pk.set e ↔ _ from Tree.mem_set_key) ⟨?_, ?_⟩
    · rintro (rfl | ⟨hp, _⟩)
      · exact Or.inl rfl
      · exact Or.inr hp
    · rintro (rfl | hp)
      · exact Or.inl rfl
      · exact Or.inr ⟨hp, PkIndex.get_eq_none.mp hfresh p hp⟩
  have hsecs : (ix.loadEntry e).secs.items
      = ix.secs.items.map (SecIndexes.applyTo SecIndex.insert e.key e.ix) := by
    rw [Indexes.loadEntry]
    split
    · next hnil => simp [eq_empty_of_items hnil, applyTo_empty]
    · exact SecIndexes.insertSec_items _ _ _
  constructor
  · intro p hp
    rcases (hpk p).mp hp with rfl | hp
    · exact henc
    · exact h.encodable p hp
  · rw [hsecs]
    intro si' hsi' x
    obtain ⟨si, hsi, rfl⟩ := List.mem_map.mp hsi'
    obtain ⟨hname, hkind⟩ := applyTo_insert_kind e.key e.ix si
    have habsent : ∀ y ∈ si.tree, y.pk ≠ e.key := by
      intro y hy
      obtain ⟨p, hp, hidx⟩ := (h.mem_iff si hsi y).mp hy
      rw [hidx.pk]
      exact PkIndex.get_eq_none.mp hfresh p hp
    rw [mem_applyTo_insert (h.nanFree hsi) henc habsent, h.mem_iff si hsi x]
    simp only [indexed_congr hname hkind, hpk, exists_eq_or_imp]
    exact Or.comm

/-- An index without primary entries and without secondary ones. -/
theorem of_empty {secs : SecIndexes} (h : ∀ si ∈ secs.items, si.tree = Tree.empty) :
    SecInv { pk := Tree.empty, secs := secs } where
  encodable p hp := absurd hp (Tree.not_mem_empty p)
  mem_iff si hsi e := by
    rw [h si hsi]
    constructor
    · intro he
      exact absurd he (Tree.not_mem_empty e)
    · rintro ⟨p, hp, _⟩
      exact absurd hp (Tree.not_mem_empty p)

/-- Loading sorted entries one after the other keeps the indexes in step. -/
theorem foldl_loadEntry (h : SecInv ix) {es : List PkEntry}
    (hkeys : es.Pairwise fun a b => a.key ≠ b.key) (henc : ∀ e ∈ es, AnyMap.Encodable e.ix)
    (hfresh : ∀ e ∈ es, ix.pk.get e.key = none) : SecInv (es.foldl Indexes.loadEntry ix) := by
  induction es generalizing ix with
  | nil => exact h
  | cons e es ih =>
      obtain ⟨he, hes⟩ := List.pairwise_cons.mp hkeys
      rw [List.forall_mem_cons] at henc hfresh
      refine ih (h.loadEntry henc.1 hfresh.1) hes henc.2 ?_
      intro x hx
      have hget : (ix.loadEntry e).pk.get x.key
          = if x.key = e.key then some e else ix.pk.get x.key :=
        PkIndex.get_load ix.pk e x.key
      rw [hget, if_neg (Ne.symm (he x hx)), hfresh.2 x hx]

end SecInv

/-! ## Rebuilding -/

private theorem insertSec_empty (secs : SecIndexes) (key : Bytes) {m : AnyMap} (h : m.items = []) :
    secs.insertSec key m = secs := by
  rw [SecIndexes.insertSec, h]
  rfl

/-- Rebuilding the trees is loading the primary entries into empty indexes. -/
theorem Indexes.rebuildSec_eq (ix : Indexes) :
    ix.rebuildSec
      = ix.pk.items.foldl Indexes.loadEntry { pk := Tree.empty, secs := ix.secs.clear } := by
  have hfold : ∀ (es : List PkEntry) (pk : PkIndex) (secs : SecIndexes),
      es.foldl Indexes.loadEntry { pk := pk, secs := secs }
        = { pk := pk.setAll es
            secs := es.foldl (fun secs e => secs.insertSec e.key e.ix) secs } := by
    intro es
    induction es with
    | nil => intro pk secs; rfl
    | cons e es ih =>
        intro pk secs
        have hstep : Indexes.loadEntry { pk := pk, secs := secs } e
            = { pk := pk.set e, secs := secs.insertSec e.key e.ix } := by
          rw [Indexes.loadEntry]
          split
          · next h => rw [insertSec_empty _ _ h]; rfl
          · rfl
        rw [List.foldl_cons, hstep, ih]
        rfl
  rw [hfold, Tree.setAll_items]
  rfl

/-- Rebuilding gives trees in step with the primary entries. -/
theorem SecInv.rebuild {ix : Indexes} (henc : ∀ p ∈ ix.pk, AnyMap.Encodable p.ix) :
    SecInv ix.rebuildSec := by
  rw [Indexes.rebuildSec_eq]
  refine SecInv.foldl_loadEntry (SecInv.of_empty ?_) ix.pk.keys_ne henc fun e _ => rfl
  intro si hsi
  obtain ⟨si, _, rfl⟩ := List.mem_map.mp hsi
  rfl

theorem Indexes.rebuildSec_decls (ix : Indexes) : ix.rebuildSec.secs.decls = ix.secs.decls := by
  rw [Indexes.rebuildSec_eq, Indexes.foldl_loadEntry_decls]
  exact map_decl fun _ => rfl

end NteeDb.Core
