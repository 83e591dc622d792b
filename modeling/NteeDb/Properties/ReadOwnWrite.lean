import NteeDb.Invariants.Exact
import NteeDb.Invariants.Sessions
import NteeDb.Properties.SecondaryIndexes

/-!
# Reading one's own write

A `Put` or `PutIndexed` that returns without an error is read back by `Get`, unless its
key was over the cap of one of the groups it is written to already before the write: the
check before a write exempts a key that is in the group, the evictions after it do not.
-/

namespace NteeDb.Properties.ReadOwnWrite

open NteeDb.Verified
open Faults OrderedTree JsonCodec
open NteeDb.Core
open NteeDb.Properties.SecondaryIndexes

/-- A lifetime of a millisecond or more has not passed when it begins. -/
theorem unexpired_at_once {now : Millis} {ttl : List Int64} {exp : Int64}
    (hexp : resolveTTL now ttl = .ok exp) (httl : ∀ d ∈ ttl, 1000000 ≤ d) :
    expired exp now.ms = false := by
  cases ttl with
  | nil =>
      cases hexp
      rfl
  | cons d rest =>
      cases rest with
      | cons _ _ => cases hexp
      | nil =>
          have hd := httl d (List.mem_singleton_self d)
          rw [resolveTTL] at hexp
          split at hexp
          · cases hexp
          · cases hexp
            have hms := now.bounded
            have hlow := now.ms.le_toInt
            have hd' : (1000000 : Int) ≤ d.toInt := Int64.le_iff_toInt_le.mp hd
            have hhigh := d.toInt_lt
            have hdiv : (d / 1000000).toInt = d.toInt / 1000000 := by
              rw [Int64.toInt_div_of_ne_right _ _ (by decide)]
              exact Int.tdiv_eq_ediv_of_nonneg (by omega)
            have hsum : (now.ms + d / 1000000).toInt = now.ms.toInt + d.toInt / 1000000 := by
              rw [Int64.toInt_add, hdiv, Int.bmod_eq_of_le (by omega) (by omega)]
            have hlate : ¬ now.ms + d / 1000000 ≤ now.ms := by
              rw [Int64.le_iff_toInt_le, hsum]
              omega
            rw [expired, decide_eq_false hlate, Bool.and_false]

/-- **Read your own write.**  In every world reached from an empty process in which the
store knows the sizes of its files, a write that returns without an error and wraps no
length is read back exactly when its key was not over the cap of a group before. -/
theorem read_own_write_iff {w₀ w v : World} (hstart : w₀.db = {})
    (hrun : Reaches DistinctHints w₀ w) (htracked : Tracked w) {ord : MapOrder} {key value : Bytes}
    {explicit : AnyMap} {ttl : List Int64} (httl : ∀ d ∈ ttl, 1000000 ≤ d) {plan rest : List Answer}
    (hput : putIndexed ord key value explicit ttl ⟨w, plan⟩ = (.ok (), ⟨v, rest⟩))
    (hfits : v.wrapped = false) :
    (get key ⟨v, []⟩).1 = .ok (some value) ↔
      ∃ ix, w.db.buildIndexValues ord key value explicit = .ok ix ∧
        ∀ nv ∈ ix, ∀ si, w.db.idx.secs.get nv.1 = some si → key ∉ si.victims nv.2 := by
  have hstep : InStep w := hrun.invariant (I := InStep) (inStep_of_no_store hstart)
    fun _ _ hev => event_inStep hev
  obtain ⟨exp, ix, r, line, hexp, hopen, hchecked, hrecorded, hidx⟩ :=
    (putIndexed_exact (A := fun _ => True) htracked ord key value explicit ttl).ok rfl
      (fun _ _ => trivial) hput
  have hacc : AcceptedMap w.db.idx.secs ix := fun nv hnv =>
    (buildIndexValues_mem hchecked.built nv hnv).2
  have hscalar : ix.Scalar := by
    have hscalar := scalar_of_marshal (hrecorded.record.ix ▸ hacc) hrecorded.marshal
    rwa [hrecorded.record.ix] at hscalar
  have henc : AnyMap.Encodable ix := by
    have henc := encodable_of_marshal hrecorded.marshal
    rwa [hrecorded.record.ix] at henc
  have hitems : ∀ nv ∈ ord.items ix, nv ∈ ix := fun nv hnv => (ord.perm ix).mem_iff.mp hnv
  -- the fate of the key, told by the state before
  have hevicts :=
    hstep.inv.evicts_put (e := w.entryFor key line exp) rfl henc hacc hitems hchecked.kept
  have hfate := Indexes.enforce_get (hstep.inv.put rfl henc)
    (hstep.inv.touched_put (e := w.entryFor key line exp) rfl henc hacc hitems)
  have hgone : w.db.idx.Evicts (ord.items ix) key → v.db.idx.pk.get key = none := by
    intro hev
    rw [hidx]
    exact hfate.1 (hevicts.mpr hev)
  have hkept : ¬ w.db.idx.Evicts (ord.items ix) key →
      v.db.idx.pk.get key = some { w.entryFor key line exp with ix := ix } := by
    intro hnot
    rw [hidx]
    refine (hfate.2 fun hev => hnot (hevicts.mp hev)).trans ?_
    rw [Indexes.put_pk _ rfl, PkIndex.get_set]
    exact if_pos rfl
  have hspared : (∃ ix', w.db.buildIndexValues ord key value explicit = .ok ix' ∧
      ∀ nv ∈ ix', ∀ si, w.db.idx.secs.get nv.1 = some si → key ∉ si.victims nv.2) ↔
      ¬ w.db.idx.Evicts (ord.items ix) key := by
    rw [hchecked.built]
    constructor
    · rintro ⟨_, ⟨⟩, hnone⟩ ⟨nv, hnv, si, hsi, hvic⟩
      exact hnone nv (hitems nv hnv) si hsi hvic
    · exact fun hnot => ⟨ix, rfl, fun nv hnv si hsi hvic =>
        hnot ⟨nv, (ord.perm ix).mem_iff.mpr hnv, si, hsi, hvic⟩⟩
  rw [hspared, get_run]
  constructor
  · intro hget hev
    rw [World.fetch, hrecorded.closed, hopen, hgone hev] at hget
    cases hget
  · intro hnot
    have hget := hkept hnot
    have hlive : { w.entryFor key line exp with ix := ix : PkEntry }.expiredAt v.now.ms
        = false := by
      rw [hrecorded.now]
      exact unexpired_at_once hexp httl
    have hread := hrecorded.recordAt htracked hscalar hfits
      (e := { w.entryFor key line exp with ix := ix }) rfl rfl
    have hn : ¬ (lineLen line : Int32) < 0 := by
      rw [lineLen, Int32.lt_iff_toInt_lt, toInt_of_fits (hrecorded.fits hfits), Int32.toInt_zero]
      exact not_lt.mpr (Int.natCast_nonneg _)
    rw [World.fetch, hrecorded.closed, hopen, hget]
    dsimp only
    rw [hlive, hread]
    show (if lineLen line < 0 then _ else (v.valueAt r.readBack).map some) = _
    rw [if_neg hn, show v.valueAt r.readBack = v.valueAt r from rfl, hrecorded.value hfits]
    rfl

/-! ## A cap that was lowered -/

/-- A string index with a cap. -/
def tagged (cap : Int64) : Options :=
  { indexes := [{ name := [0x74], kind := .string, maxPerValue := cap }] }

/-- A record with the tag `x`. -/
def putTagged (key : Bytes) : StoreM Unit :=
  putIndexed .sorted key [0x7B, 0x7D] (Tree.empty.set ([0x74], .str [0x78])) []

/-- Two records with the same tag are written, then the store is opened again with room
for one of them. -/
def loweredCap : List Event :=
  [.openStore (tagged 0) [],
   .op (.putIndexed .sorted [0x61] [0x7B, 0x7D] (Tree.empty.set ([0x74], .str [0x78])) []) [],
   .op (.putIndexed .sorted [0x62] [0x7B, 0x7D] (Tree.empty.set ([0x74], .str [0x78])) []) [],
   .op .close [],
   .openStore (tagged 1) []]

/-- The world then. -/
def lowered : World := runEvents { now := ⟨0, Millis.zero_bounded⟩ } loweredCap

/-- Writing `a` again is accepted, and evicts `a`. -/
theorem overwrite_evicts_itself :
    (putTagged [0x61] ⟨lowered, []⟩).1 = .ok () ∧
      (get [0x61] ⟨(putTagged [0x61] ⟨lowered, []⟩).2.world, []⟩).1 = .ok none := by
  decide +kernel

theorem carried_tagged (cap : Int64) : CarriedDefs (tagged cap).indexes := by
  intro d hd
  cases List.mem_singleton.mp hd
  exact ⟨show Utf8.valid [0x74] = true by decide, by rintro _ _ _ _ ⟨⟩⟩

theorem carried_tag : CarriedMap (Tree.empty.set ([0x74], .str [0x78])) := by
  intro nv hnv
  rcases Tree.mem_set.mp hnv with rfl | ⟨hnv, _⟩
  · exact ⟨by decide, show Utf8.valid [0x78] = true by decide⟩
  · exact absurd hnv (Tree.not_mem_empty nv)

theorem sound_lowered : Sound ⟨false, true⟩ lowered := by
  refine sound_run (reaches_runEvents .start ?_) (by decide +kernel)
  refine ⟨.open_of_ok (carried_tagged 0) answered_nil (by decide +kernel) (by rintro ⟨⟩),
    .op_of_ok ⟨by decide, carried_tag⟩ answered_nil (by decide +kernel),
    .op_of_ok ⟨by decide, carried_tag⟩ answered_nil (by decide +kernel),
    .op_of_ok trivial answered_nil (by decide +kernel),
    .open_of_ok (carried_tagged 1) answered_nil (by decide +kernel) (by rintro ⟨⟩), trivial⟩

theorem reaches_lowered : Reaches DistinctHints { now := ⟨0, by decide⟩ } lowered :=
  reaches_runEvents .start ⟨(show Dir.HintKeysDistinct _ by decide), trivial, trivial, trivial,
    (show Dir.HintKeysDistinct _ by decide), trivial⟩

/-- The higher key `b` is written again, and stays. -/
theorem overwrite_reads_back :
    (get [0x62] ⟨(putTagged [0x62] ⟨lowered, []⟩).2.world, []⟩).1 = .ok (some [0x7B, 0x7D]) := by
  have hput : (putTagged [0x62] ⟨lowered, []⟩).1 = .ok () := by decide +kernel
  have hspared : ∃ ix, lowered.db.buildIndexValues .sorted [0x62] [0x7B, 0x7D]
      (Tree.empty.set ([0x74], .str [0x78])) = .ok ix ∧ ∀ nv ∈ ix, ∀ si,
        lowered.db.idx.secs.get nv.1 = some si → [0x62] ∉ si.victims nv.2 := by
    have hall : ∀ si ∈ lowered.db.idx.secs.items, [0x62] ∉ si.victims (.str [0x78]) := by
      decide +kernel
    refine ⟨Tree.empty.set ([0x74], .str [0x78]), by decide +kernel, fun nv hnv si hsi => ?_⟩
    rcases Tree.mem_set.mp hnv with rfl | ⟨hnv, _⟩
    · exact hall si (SecIndexes.get_eq_some.mp hsi).1
    · exact absurd hnv (Tree.not_mem_empty nv)
  have hrun : putIndexed .sorted [0x62] [0x7B, 0x7D] (Tree.empty.set ([0x74], .str [0x78])) []
      ⟨lowered, []⟩ = (.ok (), ⟨(putTagged [0x62] ⟨lowered, []⟩).2.world,
        (putTagged [0x62] ⟨lowered, []⟩).2.plan⟩) := by
    rw [← putTagged]
    exact run_of_ok hput
  have hfits : (putTagged [0x62] ⟨lowered, []⟩).2.world.wrapped = false := by decide +kernel
  have htracked : Tracked lowered := sound_lowered.tracked (by decide +kernel)
  have hiff := @read_own_write_iff { now := ⟨0, by decide⟩ } lowered
    (putTagged [0x62] ⟨lowered, []⟩).2.world rfl reaches_lowered htracked .sorted [0x62]
    [0x7B, 0x7D] (Tree.empty.set ([0x74], .str [0x78])) [] (List.forall_mem_nil _) []
    (putTagged [0x62] ⟨lowered, []⟩).2.plan hrun hfits
  exact hiff.mpr hspared

end NteeDb.Properties.ReadOwnWrite
