import NteeDb.Invariants.Evictions
import NteeDb.Properties.SecondaryIndexes

/-!
# Caps and expired records

Secondary indexes know nothing of lifetimes: an expired record takes up room in its groups until
the reaper deletes it, so that a write may evict a live record in its place.  It makes no
difference where the evictions take reaped records first: when what is over the cap has been
reaped, when the reaped records are the lowest of their group, or when all of them are over the
cap.
-/

namespace NteeDb.Properties.ReaperTiming

open NteeDb.Verified
open Faults OrderedTree JsonCodec Ranks
open NteeDb.Core
open NteeDb.Properties.SecondaryIndexes

/-! ## Indexes without some of the keys -/

/-- The keys of `gone` are not in the second indexes; all others have the same entries. -/
structure Without (gone : List Bytes) (ix ix' : Indexes) : Prop where
  inv : SecInv ix
  inv' : SecInv ix'
  decls : ix'.secs.decls = ix.secs.decls
  absent : ∀ k ∈ gone, ix'.pk.get k = none
  kept : ∀ k, k ∉ gone → (ix'.pk.get k).map (fun e => (e.exp, e.ix))
    = (ix.pk.get k).map fun e => (e.exp, e.ix)

/-- In the group of each of the values, what is over the cap is among the keys; or those of the
keys that it holds are below all its other members; or these are all over the cap, and so is
whatever goes from it for another of the values. -/
def Harmless (ix : Indexes) (gone : List Bytes) (nvs : List (Bytes × AnyValue)) : Prop :=
  ∀ nv ∈ nvs, ∀ si, ix.secs.get nv.1 = some si →
    (∀ k ∈ si.victims nv.2, k ∈ gone) ∨
    (∀ k ∈ gone, k ∈ si.members nv.2 → ∀ k' ∈ si.members nv.2, k' ∉ gone → k < k') ∨
    ((∀ k ∈ gone, k ∈ si.members nv.2 → k ∈ si.victims nv.2) ∧
      ∀ nv' ∈ nvs, ∀ k ∈ ix.victimsOf nv', k ∈ si.members nv.2 → k ∈ si.victims nv.2)

theorem hasValue_of_ix {si : SecIndex} {p p' : PkEntry} (hkey : p'.key = p.key) (hix : p'.ix = p.ix)
    {val : AnyValue} : HasValue si p' val ↔ HasValue si p val := by
  simp only [HasValue, Indexed, hkey, hix]

section Indexes

variable {gone : List Bytes} {ix ix' : Indexes} {nvs : List (Bytes × AnyValue)}

theorem Without.mem_members (h : Without gone ix ix') {si si' : SecIndex} (hsi : si ∈ ix.secs.items)
    (hsi' : si' ∈ ix'.secs.items) (hdecl : si'.decl = si.decl) {val : AnyValue}
    (henc : val.encode ≠ none) (k : Bytes) :
    k ∈ si'.members val ↔ k ∈ si.members val ∧ k ∉ gone := by
  rw [h.inv'.mem_members hsi' henc, h.inv.mem_members hsi henc]
  by_cases hk : k ∈ gone
  · simp [h.absent k hk, hk]
  · have hkept := h.kept k hk
    cases hget : ix.pk.get k with
    | none =>
        rw [hget, Option.map_none, Option.map_eq_none_iff] at hkept
        simp [hkept]
    | some p =>
        rw [hget, Option.map_some] at hkept
        obtain ⟨p', hp', heq⟩ := Option.map_eq_some_iff.mp hkept
        have hkey : p'.key = p.key := (PkIndex.key_of_get hp').trans (PkIndex.key_of_get hget).symm
        simp [hp', hk, hasValue_congr hdecl, hasValue_of_ix hkey (congrArg Prod.snd heq)]

/-- The groups without the keys. -/
theorem Without.members_eq (h : Without gone ix ix') {si si' : SecIndex} (hsi : si ∈ ix.secs.items)
    (hsi' : si' ∈ ix'.secs.items) (hdecl : si'.decl = si.decl) {val : AnyValue}
    (henc : val.encode ≠ none) :
    si'.members val = (si.members val).filter fun k => decide (k ∉ gone) := by
  refine eq_of_mem_iff (h.inv'.members_sorted hsi' henc)
    ((h.inv.members_sorted hsi henc).filter _) fun k => ?_
  rw [h.mem_members hsi hsi' hdecl henc, List.mem_filter, decide_eq_true_eq]

/-- The same of the other keys are to be evicted. -/
theorem Without.mem_victimsOf (h : Without gone ix ix') (hharmless : Harmless ix gone nvs)
    {nv : Bytes × AnyValue} (hnv : nv ∈ nvs) (henc : nv.2.encode ≠ none) (k : Bytes) :
    k ∈ ix'.victimsOf nv ↔ k ∈ ix.victimsOf nv ∧ k ∉ gone := by
  rw [Indexes.victimsOf, Indexes.victimsOf]
  cases hget : ix.secs.get nv.1 with
  | none => simp [SecIndexes.get_none_of_decls h.decls hget]
  | some si =>
      obtain ⟨si', hget', hdecl⟩ := SecIndexes.get_of_decls h.decls hget
      have hsi := (SecIndexes.get_eq_some.mp hget).1
      have hsi' := (SecIndexes.get_eq_some.mp hget').1
      rw [hget']
      refine h.inv.mem_victims_filter h.inv' hsi hsi' hdecl henc
        (h.members_eq hsi hsi' hdecl henc) ?_ k
      simp only [not_not]
      rcases hharmless nv hnv si hget with hover | hlowest | ⟨hall, _⟩
      · exact .inl hover
      · exact .inr (.inl fun k hmem hk => hlowest k hk hmem)
      · exact .inr (.inr fun k hmem hk => hall k hk hmem)

theorem Without.enforceOne (h : Without gone ix ix') (hharmless : Harmless ix gone nvs)
    {nv : Bytes × AnyValue} (hnv : nv ∈ nvs) (henc : nv.2.encode ≠ none) :
    Without gone (ix.enforceOne nv) (ix'.enforceOne nv) := by
  refine ⟨h.inv.enforceOne nv, h.inv'.enforceOne nv, ?_, fun k hk => ?_, fun k hk => ?_⟩
  · rw [Indexes.enforceOne_decls, Indexes.enforceOne_decls, h.decls]
  · rw [Indexes.enforceOne_get, h.absent k hk, ite_self]
  · have hvictim := h.mem_victimsOf hharmless hnv henc k
    rw [and_iff_left hk] at hvictim
    simp only [Indexes.enforceOne_get, hvictim]
    split
    · rfl
    · exact h.kept k hk

/-- Deleting what goes for one of the values does no harm in the groups of the others. -/
theorem Harmless.enforceOne (h : Harmless ix gone nvs) (hinv : SecInv ix)
    (henc : ∀ nv ∈ nvs, nv.2.encode ≠ none) {nv : Bytes × AnyValue} (hnv : nv ∈ nvs) :
    Harmless (ix.enforceOne nv) gone nvs := by
  rw [Indexes.enforceOne_eq]
  intro nv' hnv' si' hsi'
  obtain ⟨si, hsi, hdecl⟩ := SecIndexes.get_of_decls (ix.deleteAll_decls _).symm hsi'
  have hmem := (SecIndexes.get_eq_some.mp hsi).1
  have hmem' := (SecIndexes.get_eq_some.mp hsi').1
  have hleft : ∀ k ∈ si'.members nv'.2, k ∈ si.members nv'.2 ∧ k ∉ ix.victimsOf nv := by
    intro k hk
    rw [hinv.members_deleteAll hmem hmem' hdecl.symm (henc nv' hnv'), List.mem_filter,
      decide_eq_true_eq] at hk
    exact hk
  rcases h nv' hnv' si hsi with hover | hlowest | ⟨hall, hothers⟩
  · exact .inl fun k hk =>
      hover k (hinv.of_mem_victims_deleteAll hmem hmem' hdecl.symm (henc nv' hnv') hk)
  · exact .inr (.inl fun k hk hin k' hin' =>
      hlowest k hk (hleft k hin).1 k' (hleft k' hin').1)
  · have hvictim := hinv.mem_victims_deleteAll hmem hmem' hdecl.symm (henc nv' hnv')
      (.inr fun k hk hin => hothers nv hnv k hk hin)
    refine .inr (.inr ⟨fun k hk hin => ?_, fun nv₁ hnv₁ k hk hin => ?_⟩)
    · exact (hvictim k).mpr ⟨hall k hk (hleft k hin).1, (hleft k hin).2⟩
    · have hbefore := hinv.of_mem_victimsOf_deleteAll (henc nv₁ hnv₁) hk
      exact (hvictim k).mpr ⟨hothers nv₁ hnv₁ k hbefore (hleft k hin).1, (hleft k hin).2⟩

/-- The evictions delete the same of the other keys.  The condition is on all the values while
those still to do get fewer. -/
theorem Without.enforce (h : Without gone ix ix') {all : List (Bytes × AnyValue)}
    (hharmless : Harmless ix gone all) (henc : ∀ nv ∈ all, nv.2.encode ≠ none)
    (hsub : ∀ nv ∈ nvs, nv ∈ all) : Without gone (ix.enforce nvs) (ix'.enforce nvs) := by
  induction nvs generalizing ix ix' with
  | nil => exact h
  | cons nv nvs ih =>
      obtain ⟨hnv, hrest⟩ := List.forall_mem_cons.mp hsub
      exact ih (h.enforceOne hharmless hnv (henc nv hnv)) (hharmless.enforceOne h.inv henc hnv)
        hrest

/-- Where the records lie makes no difference. -/
theorem Harmless.alike {ix₂ : Indexes} (h : Harmless ix gone nvs) (halike : ix.Alike ix₂) :
    Harmless ix₂ gone nvs := by
  intro nv hnv si hsi
  rw [← halike.secs] at hsi
  simp only [← halike.victimsOf]
  exact h nv hnv si hsi

theorem Harmless.of_subset {nvs' : List (Bytes × AnyValue)} (h : Harmless ix gone nvs)
    (hsub : ∀ nv ∈ nvs', nv ∈ nvs) : Harmless ix gone nvs' := by
  intro nv hnv si hsi
  refine (h nv (hsub nv hnv) si hsi).imp_right (Or.imp_right fun hall => ⟨hall.1, ?_⟩)
  exact fun nv' hnv' => hall.2 nv' (hsub nv' hnv')

end Indexes

/-! ## One write -/

section Write

variable {gone : List Bytes} {ix : Indexes} {ixv : AnyMap} {e : PkEntry}
  {nvs : List (Bytes × AnyValue)}

/-- A write to the indexes and to the indexes without the keys. -/
theorem without_put (h : SecInv ix) (henc : AnyMap.Encodable ixv) {e' : PkEntry} {key : Bytes}
    (he : e.ix = Tree.empty) (he' : e'.ix = Tree.empty) (hkey : e.key = key) (hkey' : e'.key = key)
    (hexp : e'.exp = e.exp) :
    Without (gone.filter fun k => decide (k ≠ key)) (ix.put e ixv)
      ((ix.deleteAll gone).put e' ixv) := by
  refine ⟨h.put he henc, (h.deleteAll gone).put he' henc, ?_, fun k hk => ?_, fun k hk => ?_⟩
  · rw [Indexes.put_decls _ he', Indexes.deleteAll_decls, Indexes.put_decls _ he]
  · obtain ⟨hgone, hne⟩ := List.mem_filter.mp hk
    rw [Indexes.put_pk _ he', PkIndex.get_set, if_neg (hkey' ▸ of_decide_eq_true hne),
      Indexes.deleteAll_get, if_pos hgone]
  · rw [Indexes.put_pk _ he', PkIndex.get_set, Indexes.put_pk _ he, PkIndex.get_set]
    dsimp only
    rw [hkey, hkey']
    by_cases hself : k = key
    · rw [if_pos hself, if_pos hself, Option.map_some, Option.map_some, hexp]
    · have hlive : k ∉ gone := fun hgone =>
        hk (List.mem_filter.mpr ⟨hgone, decide_eq_true hself⟩)
      rw [if_neg hself, if_neg hself, Indexes.deleteAll_get, if_neg hlive]

/-- The check gives the same answer without the keys: what it refuses is new to a group and over
its cap once it is put in, and a key that goes is new to its groups only then. -/
theorem check_deleteAll (h : SecInv ix) (he : e.ix = Tree.empty) (henc : AnyMap.Encodable ixv)
    (hacc : AcceptedMap ix.secs ixv) (hnvs : ∀ nv ∈ nvs, nv ∈ ixv)
    (hharmless : Harmless (ix.put e ixv) (gone.filter fun k => decide (k ≠ e.key)) nvs)
    (hself : e.key ∈ gone → ∀ nv ∈ nvs, ∀ si, ix.secs.get nv.1 = some si →
      e.key ∈ si.members nv.2 → e.key ∉ (ix.put e ixv).victimsOf nv) :
    checkSelfEvictionOf (ix.deleteAll gone).secs e.key nvs = .ok () ↔
      checkSelfEvictionOf ix.secs e.key nvs = .ok () := by
  have hdecls := ix.deleteAll_decls gone
  have hacc' : AcceptedMap (ix.deleteAll gone).secs ixv := by
    intro nv hnv
    obtain ⟨si, hsi, hentry⟩ := hacc nv hnv
    obtain ⟨si', hsi', hdecl⟩ := SecIndexes.get_of_decls hdecls hsi
    exact ⟨si', hsi', fun pk => by rw [SecIndex.makeEntry_congr hdecl]; exact hentry pk⟩
  have hwithout : Without (gone.filter fun k => decide (k ≠ e.key)) (ix.put e ixv)
      ((ix.deleteAll gone).put e ixv) := without_put h henc he he rfl rfl rfl
  have hone : ∀ nv ∈ nvs, ∀ si si', ix.secs.get nv.1 = some si →
      (ix.deleteAll gone).secs.get nv.1 = some si' → si'.decl = si.decl →
      (si'.wouldSelfEvict nv.2 e.key = .ok true ↔ si.wouldSelfEvict nv.2 e.key = .ok true) := by
    intro nv hnv si si' hsi hsi' hdecl
    rw [h.wouldSelfEvict_iff he henc hacc (hnvs nv hnv) hsi,
      (h.deleteAll gone).wouldSelfEvict_iff he henc hacc' (hnvs nv hnv) hsi',
      hwithout.mem_victimsOf hharmless hnv (henc nv (hnvs nv hnv)),
      h.members_deleteAll (SecIndexes.get_eq_some.mp hsi).1 (SecIndexes.get_eq_some.mp hsi').1
        hdecl (henc nv (hnvs nv hnv)), List.mem_filter, List.mem_filter, decide_eq_true_eq,
      decide_eq_true_eq]
    constructor
    · rintro ⟨hnew, hvic, -⟩
      refine ⟨fun hin => ?_, hvic⟩
      by_cases hgone : e.key ∈ gone
      · exact hself hgone nv hnv si hsi hin hvic
      · exact hnew ⟨hin, hgone⟩
    · rintro ⟨hnew, hvic⟩
      exact ⟨fun hin => hnew hin.1, hvic, fun hother => hother.2 rfl⟩
  constructor
  · refine fun hok => checkSelfEvictionOf_of fun nv hnv si hsi => ?_
    obtain ⟨si', hsi', hdecl⟩ := SecIndexes.get_of_decls hdecls hsi
    rw [Ne, ← hone nv hnv si si' hsi hsi' hdecl]
    exact checkSelfEvictionOf_ok hok nv hnv si' hsi'
  · refine fun hok => checkSelfEvictionOf_of fun nv hnv si' hsi' => ?_
    obtain ⟨si, hsi, hdecl⟩ := SecIndexes.get_of_decls hdecls.symm hsi'
    rw [Ne, hone nv hnv si si' hsi hsi' hdecl.symm]
    exact checkSelfEvictionOf_ok hok nv hnv si hsi

end Write

/-! ## Reaped early or late -/

/-- The second state is the first after some expired keys have been reaped. -/
structure Reaped (w w' : World) (gone : List Bytes) : Prop where
  opts : w'.db.opts = w.db.opts
  closed : w'.db.closed = w.db.closed
  now : w'.now = w.now
  idx : w'.db.idx = w.db.idx.deleteAll gone
  expired : ∀ k ∈ gone, ∀ e, w.db.idx.pk.get k = some e → e.expiredAt w.now.ms = true

/-- A write passes every check that is made before something is written. -/
def Accepts (w : World) (ord : MapOrder) (key value : Bytes) (explicit : AnyMap)
    (ttl : List Int64) : Prop :=
  w.db.closed = false ∧ (∃ exp, resolveTTL w.now ttl = .ok exp) ∧
    ∃ ix, Checked w ord key value explicit ix ∧ AnyMap.Encodable ix

/-- A key that a read at the given time finds. -/
def Unexpired (ix : Indexes) (now : Int64) (k : Bytes) : Prop :=
  ∃ e, ix.pk.get k = some e ∧ e.expiredAt now = false

/-- With the record put in, the keys that are reaped do no harm in the groups the write touches;
and if its own key is among them, it is not over the cap of a group that it was in before. -/
structure ClearOf (w : World) (gone : List Bytes) (ord : MapOrder) (key value : Bytes)
    (explicit : AnyMap) : Prop where
  harmless : ∀ ix, w.db.buildIndexValues ord key value explicit = .ok ix →
    Harmless (w.db.idx.put { key := key } ix) (gone.filter fun k => decide (k ≠ key)) ix.items
  self : key ∈ gone → ∀ ix, w.db.buildIndexValues ord key value explicit = .ok ix →
    ∀ nv ∈ ix.items, ∀ si, w.db.idx.secs.get nv.1 = some si → key ∈ si.members nv.2 →
      key ∉ (w.db.idx.put { key := key } ix).victimsOf nv

section Reaped

variable {w w' : World} {gone : List Bytes} {ord : MapOrder} {key value : Bytes}
  {explicit : AnyMap} {ttl : List Int64}

theorem Reaped.built (h : Reaped w w' gone) : w'.db.buildIndexValues ord key value explicit
    = w.db.buildIndexValues ord key value explicit :=
  buildIndexValues_congr h.opts (by rw [h.idx, Indexes.deleteAll_decls]) ord key value explicit

/-- The checks give the same answer. -/
theorem Reaped.checked (h : Reaped w w' gone) (hstep : InStep w)
    (hclear : ClearOf w gone ord key value explicit) {ix : AnyMap} (henc : AnyMap.Encodable ix) :
    Checked w' ord key value explicit ix ↔ Checked w ord key value explicit ix := by
  have hsame : w.db.buildIndexValues ord key value explicit = .ok ix →
      (w'.db.checkSelfEviction ord key ix = .ok () ↔ w.db.checkSelfEviction ord key ix
        = .ok ()) := by
    intro hbuilt
    have hin : ∀ nv ∈ ord.items ix, nv ∈ ix := fun nv hnv => (ord.perm ix).mem_iff.mp hnv
    rw [DB.checkSelfEviction, DB.checkSelfEviction, h.idx]
    exact check_deleteAll (e := { key := key }) hstep.inv rfl henc
      (fun nv hnv => (buildIndexValues_mem hbuilt nv hnv).2) hin
      ((hclear.harmless ix hbuilt).of_subset hin)
      fun hgone nv hnv => hclear.self hgone ix hbuilt nv (hin nv hnv)
  constructor
  · rintro ⟨hbuilt, hkept⟩
    rw [h.built] at hbuilt
    exact ⟨hbuilt, (hsame hbuilt).mp hkept⟩
  · rintro ⟨hbuilt, hkept⟩
    exact ⟨h.built.trans hbuilt, (hsame hbuilt).mpr hkept⟩

/-- Where the deleted keys have expired, the unexpired keys are the same. -/
theorem Without.unexpired {ix ix' : Indexes} (h : Without gone ix ix') {now : Int64}
    (hexpired : ∀ k ∈ gone, ∀ e, ix.pk.get k = some e → e.expiredAt now = true) (k : Bytes) :
    Unexpired ix' now k ↔ Unexpired ix now k := by
  by_cases hk : k ∈ gone
  · refine iff_of_false ?_ ?_
    · rintro ⟨e, he, _⟩
      rw [h.absent k hk] at he
      cases he
    · rintro ⟨e, he, hlive⟩
      rw [hexpired k hk e he] at hlive
      cases hlive
  · have hlive : ∀ jx : Indexes, Unexpired jx now k ↔ ∃ r, (jx.pk.get k).map
        (fun e => (e.exp, e.ix)) = some r ∧ (r.1 ≠ 0 && r.1 ≤ now) = false := by
      intro jx
      cases hget : jx.pk.get k with
      | none => simp [Unexpired, hget]
      | some e => simp [Unexpired, hget, PkEntry.expiredAt]
    rw [hlive, hlive, h.kept k hk]

end Reaped

/-- One string index, `t`, with room for two records of a value. -/
def twoPerValue : Options := { indexes := [{ name := [0x74], kind := .string, maxPerValue := 2 }] }

/-- The index value `x`. -/
def tagX : AnyMap := Tree.empty.set ([0x74], .str [0x78])

/-- The group of `x` is `a`, which stays, and `z`, which has expired. -/
def lapsed : World := runEvents { now := ⟨0, Millis.zero_bounded⟩ }
  [.openStore twoPerValue [],
   .op (.putIndexed .sorted [0x61] [0x7B, 0x7D] tagX []) [],
   .op (.putIndexed .sorted [0x7A] [0x7B, 0x7D] tagX [1000000]) [],
   .tick ⟨10, by decide⟩]

/-- A read of `z` has the reaper delete it. -/
def swept : World := runEvents lapsed [.op (.get [0x7A]) [], .op (.reapCycle 1) []]

end NteeDb.Properties.ReaperTiming
