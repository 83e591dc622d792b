import NteeDb.Invariants.Evictions
import NteeDb.Properties.SecondaryIndexes

/-!
# The order of evictions

`PutIndexed` and `PutBatch` enforce the caps in the order in which Go visits a map.  An eviction
for one value deletes the record from every index and so makes room in other groups: which
records survive depends on that order.  It does not where the groups agree on what goes.
-/

namespace NteeDb.Properties.EvictionOrder

open NteeDb.Verified
open Faults OrderedTree JsonCodec
open NteeDb.Core
open NteeDb.Properties.SecondaryIndexes

/-! ## Writes on which the groups agree -/

/-- With the record in, the groups it is written to agree on what goes. -/
def PutAgrees (db : DB) (key value : Bytes) (explicit : AnyMap) : Prop :=
  ∀ ord ix, db.buildIndexValues ord key value explicit = .ok ix →
    (db.idx.put { key := key } ix).secs.Harmonious ix.items

/-- All pairs of index and value that a batch touches. -/
def pairs (cs : List CheckedItem) : List (Bytes × AnyValue) := cs.flatMap fun c => c.ix.items

/-- With all records in, the groups agree on what goes, and pairs that are remembered under the
same text evict the same keys. -/
def BatchAgrees (db : DB) (now : Millis) (items : List PutItem) : Prop :=
  ∀ ords cs, db.checkItems now ords 0 items = .ok cs →
    (db.idx.putAll cs).secs.Harmonious (pairs cs) ∧ (db.idx.putAll cs).Discerned (pairs cs)

theorem mem_pairs {cs : List CheckedItem} {nv : Bytes × AnyValue} :
    nv ∈ pairs cs ↔ ∃ c ∈ cs, nv ∈ c.ix := List.mem_flatMap

/-- The survivors of a write, told without the order. -/
theorem putIndexed_survivors {w v : World} (hstep : InStep w) {ord : MapOrder}
    {key value : Bytes} {explicit : AnyMap} {ttl : List Int64} {plan rest : List Answer}
    (hagrees : PutAgrees w.db key value explicit)
    (hput : putIndexed ord key value explicit ttl ⟨w, plan⟩ = (.ok (), ⟨v, rest⟩)) :
    ∃ ix, w.db.buildIndexValues ord key value explicit = .ok ix ∧ ∀ k,
      (v.db.idx.pk.get k).isSome = true ↔
      ((w.db.idx.put { key := key } ix).pk.get k).isSome = true ∧
        ¬ (w.db.idx.put { key := key } ix).Evicts ix.items k := by
  obtain ⟨exp, ix, off, n, _, hchecked, henc, hidx⟩ :=
    (putIndexed_idx (A := fun _ => True) w ord key value explicit ttl).ok rfl
    (fun _ _ => trivial) hput
  refine ⟨ix, hchecked.built, fun k => ?_⟩
  have halike : (w.db.idx.put { key := key, off := off, n := n, exp := exp } ix).Alike
      (w.db.idx.put { key := key } ix) := by
    refine (Indexes.Alike.refl _).put ?_ ?_ ?_ ix
    · rfl
    · rfl
    · rfl
  have hitems : ∀ nv, nv ∈ ord.items ix ↔ nv ∈ ix.items := fun nv => (ord.perm ix).mem_iff
  have hfate := (hstep.inv.put (e := { key := key, off := off, n := n, exp := exp }) rfl
    henc).enforce_survivors (halike.secs ▸ hagrees ord ix hchecked.built) henc
    (fun nv hnv => (hitems nv).mp hnv) k
  rw [hidx, ← halike.isSome, ← halike.evicts hitems]
  by_cases hev : (w.db.idx.put { key := key, off := off, n := n, exp := exp } ix).Evicts
      (ord.items ix) k
  · simp [hfate.1 hev, hev]
  · simp [hfate.2 hev, hev]

/-- The survivors of a batch, told without the orders. -/
theorem putBatch_survivors {w v : World} (hstep : InStep w) {ords : Nat → MapOrder}
    {items : List PutItem} {plan rest : List Answer} (hagrees : BatchAgrees w.db w.now items)
    (hput : putBatch ords items ⟨w, plan⟩ = (.ok (), ⟨v, rest⟩)) :
    ∃ cs, w.db.checkItems w.now ords 0 items = .ok cs ∧ ∀ k,
      (v.db.idx.pk.get k).isSome = true ↔ ((w.db.idx.putAll cs).pk.get k).isSome = true ∧
        ¬ (w.db.idx.putAll cs).Evicts (pairs cs) k := by
  obtain ⟨cs, mid, hcs, hmid, henc, hidx⟩ :=
    (putBatch_idx (A := fun _ => True) w ords items).ok rfl (fun _ _ => trivial) hput
  refine ⟨cs, hcs, fun k => ?_⟩
  have halike : mid.Alike (w.db.idx.putAll cs) := hmid.alike (Indexes.Alike.refl _)
  have htouched : ∀ nv, nv ∈ touchedPairs ords 0 cs ↔ nv ∈ pairs cs := fun nv =>
    mem_touchedPairs.trans mem_pairs.symm
  have hencPairs : ∀ nv ∈ pairs cs, nv.2.encode ≠ none := by
    intro nv hnv
    obtain ⟨c, hc, hmem⟩ := mem_pairs.mp hnv
    exact henc c hc nv hmem
  obtain ⟨hharmony, hdiscerned⟩ := hagrees ords cs hcs
  have hdiscerned' : mid.Discerned (pairs cs) := by
    intro nv hnv nv' hnv' hkeys key
    rw [halike.victimsOf, halike.victimsOf]
    exact hdiscerned nv hnv nv' hnv' hkeys key
  have hfate := (hmid.secInv henc hstep.inv).enforceSeen_survivors (halike.secs ▸ hharmony)
    hencPairs hdiscerned' (fun nv hnv => (htouched nv).mp hnv)
    (fun _ _ hnil => absurd hnil List.not_mem_nil) k
  rw [hidx, Indexes.enforceItems_eq, ← halike.isSome, ← halike.evicts htouched]
  by_cases hev : mid.Evicts (touchedPairs ords 0 cs) k
  · simp [hfate.1 hev, hev]
  · simp [hfate.2 hev, hev]

/-- The check before a write gives the same answer in every order. -/
theorem checkSelfEviction_order {db : DB} {key : Bytes} {ix : AnyMap} (ord ord' : MapOrder)
    (h : db.checkSelfEviction ord key ix = .ok ()) : db.checkSelfEviction ord' key ix = .ok () := by
  refine checkSelfEvictionOf_of fun nv hnv si hsi => ?_
  have hmem : nv ∈ ord.items ix := (ord.perm ix).mem_iff.mpr ((ord'.perm ix).mem_iff.mp hnv)
  exact checkSelfEvictionOf_ok h nv hmem si hsi

/-- **Evictions are well defined where the groups agree.**  In every world reached from an empty
process: the check before a write does not depend on the order in which maps are visited; and two
runs of a `PutIndexed` or a `PutBatch` in different orders that both return without an error
leave the same keys, if the groups that are written to agree on what goes. -/
theorem survivors_same_in_every_order {w₀ w : World} (hstart : w₀.db = {})
    (hrun : Reaches DistinctHints w₀ w) :
    (∀ (ord ord' : MapOrder) (key : Bytes) (ix : AnyMap),
      w.db.checkSelfEviction ord key ix = .ok () ↔ w.db.checkSelfEviction ord' key ix = .ok ()) ∧
    (∀ (ord ord' : MapOrder) (key value : Bytes) (explicit : AnyMap) (ttl : List Int64)
      (plan plan' rest rest' : List Answer) (v v' : World), PutAgrees w.db key value explicit →
      putIndexed ord key value explicit ttl ⟨w, plan⟩ = (.ok (), ⟨v, rest⟩) →
      putIndexed ord' key value explicit ttl ⟨w, plan'⟩ = (.ok (), ⟨v', rest'⟩) →
      ∀ k, (v.db.idx.pk.get k).isSome = (v'.db.idx.pk.get k).isSome) ∧
    (∀ (ords ords' : Nat → MapOrder) (items : List PutItem) (plan plan' rest rest' : List Answer)
      (v v' : World), BatchAgrees w.db w.now items →
      putBatch ords items ⟨w, plan⟩ = (.ok (), ⟨v, rest⟩) →
      putBatch ords' items ⟨w, plan'⟩ = (.ok (), ⟨v', rest'⟩) →
      ∀ k, (v.db.idx.pk.get k).isSome = (v'.db.idx.pk.get k).isSome) := by
  have hstep : InStep w := hrun.invariant (I := InStep) (inStep_of_no_store hstart)
    fun _ _ hev => event_inStep hev
  refine ⟨fun ord ord' key ix => ⟨checkSelfEviction_order ord ord',
    checkSelfEviction_order ord' ord⟩, ?_, ?_⟩
  · intro ord ord' key value explicit ttl plan plan' rest rest' v v' hagrees hput hput' k
    obtain ⟨ix, hix, hk⟩ := putIndexed_survivors hstep hagrees hput
    obtain ⟨ix', hix', hk'⟩ := putIndexed_survivors hstep hagrees hput'
    cases buildIndexValues_order hix hix'
    exact Bool.eq_iff_iff.mpr ((hk k).trans (hk' k).symm)
  · intro ords ords' items plan plan' rest rest' v v' hagrees hput hput' k
    obtain ⟨cs, hcs, hk⟩ := putBatch_survivors hstep hagrees hput
    obtain ⟨cs', hcs', hk'⟩ := putBatch_survivors hstep hagrees hput'
    cases checkItems_order hcs hcs'
    exact Bool.eq_iff_iff.mpr ((hk k).trans (hk' k).symm)

/-- Agreement, told by the declared indexes one after the other. -/
theorem harmonious_of_items {secs : SecIndexes} {nvs : List (Bytes × AnyValue)}
    (h : ∀ nv ∈ nvs, ∀ nv' ∈ nvs, ∀ si ∈ secs.items, si.name = nv.1 → ∀ si' ∈ secs.items,
      si'.name = nv'.1 → ∀ k ∈ si.victims nv.2, k ∈ si'.members nv'.2 →
        si'.victims nv'.2 = [] ∨ k ∈ si'.victims nv'.2) : secs.Harmonious nvs := by
  intro nv hnv nv' hnv' si si' hsi hsi'
  obtain ⟨hmem, hname⟩ := SecIndexes.get_eq_some.mp hsi
  obtain ⟨hmem', hname'⟩ := SecIndexes.get_eq_some.mp hsi'
  exact h nv hnv nv' hnv' si hmem hname si' hmem' hname'

/-! ## Two capped indexes -/

/-- Visit in the reverse order of the names. -/
def reversed : MapOrder := ⟨fun m => m.items.reverse, fun m => m.items.reverse_perm⟩

/-- Two string indexes, `A` and `B`, each with room for two records of a value. -/
def twoCapped : Options :=
  { indexes := [{ name := [0x41], kind := .string, maxPerValue := 2 },
      { name := [0x42], kind := .string, maxPerValue := 2 }] }

/-- The index value `x` in `A`. -/
def inA : AnyMap := Tree.empty.set ([0x41], .str [0x78])

/-- The index value `y` in `B`. -/
def inB : AnyMap := Tree.empty.set ([0x42], .str [0x79])

/-- Both. -/
def inBoth : AnyMap := inA.set ([0x42], .str [0x79])

/-- The group of `A` is `a`, `b`, that of `B` is `0`, `a`. -/
def overlapping : World := runEvents { now := ⟨0, Millis.zero_bounded⟩ }
  [.openStore twoCapped [],
   .op (.putIndexed .sorted [0x30] [0x7B, 0x7D] inB []) [],
   .op (.putIndexed .sorted [0x61] [0x7B, 0x7D] inBoth []) [],
   .op (.putIndexed .sorted [0x62] [0x7B, 0x7D] inA []) []]

/-- Write the key `k` to both groups. -/
def putBoth (ord : MapOrder) : Except Err Unit × Env World :=
  putIndexed ord [0x6B] [0x7B, 0x7D] inBoth [] ⟨overlapping, []⟩

/-- From `A` to `B` the record `0` stays, from `B` to `A` it is deleted. -/
theorem order_decides_survivor :
    (putBoth .sorted).1 = .ok () ∧ (putBoth reversed).1 = .ok () ∧
      ((putBoth .sorted).2.world.db.idx.pk.get [0x30]).isSome = true ∧
      ((putBoth reversed).2.world.db.idx.pk.get [0x30]).isSome = false := by
  decide +kernel

theorem reaches_overlapping : Reaches DistinctHints { now := ⟨0, by decide⟩ } overlapping :=
  reaches_runEvents .start ⟨(show Dir.HintKeysDistinct _ by decide), trivial, trivial, trivial,
    trivial⟩

/-- Index values `x` in `A` and `z` in `B`. -/
def apart : AnyMap := inA.set ([0x42], .str [0x7A])

/-- The record `k` in groups that have no other record in common. -/
def putApart (ord : MapOrder) : Except Err Unit × Env World :=
  putIndexed ord [0x6B] [0x7B, 0x7D] apart [] ⟨overlapping, []⟩

/-- The same as a batch. -/
def batchApart (ords : Nat → MapOrder) : Except Err Unit × Env World :=
  putBatch ords [{ key := [0x6B], value := [0x7B, 0x7D], ix := apart }] ⟨overlapping, []⟩

theorem putApart_agrees : PutAgrees overlapping.db [0x6B] [0x7B, 0x7D] apart := by
  intro ord ix hix
  have hsorted : overlapping.db.buildIndexValues .sorted [0x6B] [0x7B, 0x7D] apart = .ok apart := by
    decide
  cases buildIndexValues_order hix hsorted
  refine harmonious_of_items ?_
  decide

theorem batchApart_agrees : BatchAgrees overlapping.db overlapping.now
    [{ key := [0x6B], value := [0x7B, 0x7D], ix := apart }] := by
  intro ords cs hcs
  have hsorted : overlapping.db.checkItems overlapping.now (fun _ => .sorted) 0
      [{ key := [0x6B], value := [0x7B, 0x7D], ix := apart }]
        = .ok [⟨{ key := [0x6B], value := [0x7B, 0x7D], ix := apart }, apart, 0⟩] := by
    have hbuilt : overlapping.db.buildIndexValues .sorted [0x6B] [0x7B, 0x7D] apart
        = .ok apart := by
      decide
    have hkept : overlapping.db.checkSelfEviction .sorted [0x6B] apart = .ok () := by decide
    rw [checkItems_cons, DB.checkItem, hbuilt]
    dsimp only
    rw [hkept]
    rfl
  cases checkItems_order hcs hsorted
  refine ⟨harmonious_of_items ?_, ?_⟩
  · decide
  · intro nv hnv nv' hnv' hkeys
    have hsame : ∀ nv ∈ apart.items, ∀ nv' ∈ apart.items, seenKey nv = seenKey nv' → nv = nv' := by
      decide
    simp only [pairs, List.flatMap_cons, List.flatMap_nil, List.append_nil] at hnv hnv'
    rw [hsame nv hnv nv' hnv' hkeys]
    exact fun _ => Iff.rfl

/-- Written to those groups, the record leaves the same keys in both orders. -/
theorem putApart_same_survivors :
    (∀ k, ((putApart .sorted).2.world.db.idx.pk.get k).isSome
      = ((putApart reversed).2.world.db.idx.pk.get k).isSome) ∧
    (∀ k, ((batchApart fun _ => .sorted).2.world.db.idx.pk.get k).isSome
      = ((batchApart fun _ => reversed).2.world.db.idx.pk.get k).isSome) := by
  obtain ⟨_, hput, hbatch⟩ := survivors_same_in_every_order rfl reaches_overlapping
  have hputs : (putApart .sorted).1 = .ok () ∧ (putApart reversed).1 = .ok () := by decide +kernel
  have hbatches : (batchApart fun _ => .sorted).1 = .ok () ∧
      (batchApart fun _ => reversed).1 = .ok () := by decide +kernel
  have hrun : ∀ ord, (putApart ord).1 = .ok () → putIndexed ord [0x6B] [0x7B, 0x7D] apart []
      ⟨overlapping, []⟩ = (.ok (), ⟨(putApart ord).2.world, (putApart ord).2.plan⟩) := by
    intro ord hok
    rw [← putApart]
    exact run_of_ok hok
  have hrun' : ∀ ords, (batchApart ords).1 = .ok () → putBatch ords
      [{ key := [0x6B], value := [0x7B, 0x7D], ix := apart }] ⟨overlapping, []⟩
        = (.ok (), ⟨(batchApart ords).2.world, (batchApart ords).2.plan⟩) := by
    intro ords hok
    rw [← batchApart]
    exact run_of_ok hok
  exact ⟨hput .sorted reversed [0x6B] [0x7B, 0x7D] apart [] [] [] _ _ _ _ putApart_agrees
      (hrun .sorted hputs.1) (hrun reversed hputs.2),
    hbatch (fun _ => .sorted) (fun _ => reversed) _ [] [] _ _ _ _ batchApart_agrees
      (hrun' _ hbatches.1) (hrun' _ hbatches.2)⟩

end NteeDb.Properties.EvictionOrder
