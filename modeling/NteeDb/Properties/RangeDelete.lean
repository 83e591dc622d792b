import NteeDb.Invariants.Retention
import NteeDb.Properties.IndexDrift
import NteeDb.Properties.ReadOwnWrite

/-!
# Range deletes and single deletes

`RemoveByPkLess` and `RemoveByPkGreater` append all tombstones first, sweep the keys out of
the indexes in one go, and write the hint.  On a sound store that comes to the same as a
`Delete` of each key, for the indexes in memory and for what the log replays to; the other
keys keep what they have, and the next `Open` gives the store back.

The latter fails for a key that is not UTF-8, which the hint and the log hold under another
name.

## Main results

* `range_delete_is_deletes` — a range delete against the deletes of its keys.
* `other_key_renamed` — a key outside of the range that the next `Open` does not find.
-/

namespace NteeDb.Properties.RangeDelete

open NteeDb.Verified
open Faults OrderedTree
open NteeDb.Core
open NteeDb.Properties.IndexDrift
open NteeDb.Properties.ReadOwnWrite (tagged carried_tagged carried_tag)

/-! ## The two operations -/

/-- Which of the two. -/
inductive Side where
  | less
  | greater

/-- The keys it removes: those strictly below the cutoff, or strictly above. -/
def Side.beyond : Side → Bytes → Bytes → Bool
  | .less, cutoff, key => key < cutoff
  | .greater, cutoff, key => cutoff < key

/-- The operation. -/
def Side.remove : Side → Bytes → StoreM Nat
  | .less => removeByPkLess
  | .greater => removeByPkGreater

/-- The entries it collects. -/
def Side.doomed : Side → Bytes → DB → List PkEntry
  | .less, cutoff, db => db.pkLess cutoff
  | .greater, cutoff, db => db.pkGreater cutoff

/-- The keys of the store that it removes, in order. -/
def Side.keys (side : Side) (cutoff : Bytes) (w : World) : List Bytes :=
  (w.db.idx.pk.items.filter fun e => side.beyond cutoff e.key).map PkEntry.key

theorem pkLess_eq (db : DB) (cutoff : Bytes) :
    db.pkLess cutoff = db.idx.pk.items.filter fun e => e.key < cutoff := by
  -- walking up from the empty key is walking all items
  have hleast : ∀ e : PkEntry, keyLess PkEntry.key e { key := [] } = false := by
    intro e
    rw [keyLess, decide_eq_false_iff_not]
    exact List.not_lt_nil _
  have hall : db.idx.pk.ascend { key := [] } = db.idx.pk.items := by
    rw [Tree.ascend, List.filter_eq_self]
    intro e _
    rw [hleast]
    rfl
  have hwalk := db.idx.pk.takeWhile_ascend { key := [] } (fun e => e.key < cutoff) (by
    intro a _ b _ _ hab hb
    exact decide_eq_true (lt_trans (Tree.keyLess_iff.mp hab) (of_decide_eq_true hb)))
  rw [hall] at hwalk
  rw [DB.pkLess, hwalk]
  refine List.filter_congr fun e _ => ?_
  rw [hleast]
  rfl

theorem pkGreater_eq (db : DB) (cutoff : Bytes) :
    db.pkGreater cutoff = db.idx.pk.items.filter fun e => cutoff < e.key := by
  rw [DB.pkGreater, PkIndex.ascendFrom, Tree.ascend, List.filter_filter]
  refine List.filter_congr fun e _ => ?_
  cases hlt : decide (cutoff < e.key) with
  | false => rfl
  | true =>
      have hnot : keyLess PkEntry.key e { key := cutoff } = false :=
        Bool.eq_false_iff.mpr fun h => lt_asymm (Tree.keyLess_iff.mp h) (of_decide_eq_true hlt)
      rw [hnot]
      rfl

section Sides

variable {A : Answer → Prop} {m : Mode} {w v : World} (side : Side) (cutoff : Bytes)

theorem Side.doomed_eq (db : DB) :
    side.doomed cutoff db = db.idx.pk.items.filter fun e => side.beyond cutoff e.key := by
  cases side with
  | less => exact pkLess_eq db cutoff
  | greater => exact pkGreater_eq db cutoff

theorem Side.remove_eq : side.remove cutoff
    = (do requireOpen; let w ← getWorld; removePkEntries (side.doomed cutoff w.db)) := by
  cases side with
  | less => rfl
  | greater => rfl

theorem Side.mem_of_doomed (db : DB) : ∀ e ∈ side.doomed cutoff db, e ∈ db.idx.pk := by
  intro e he
  rw [Side.doomed_eq] at he
  exact (List.mem_filter.mp he).1

theorem Side.keys_eq (w : World) :
    side.keys cutoff w = (side.doomed cutoff w.db).map PkEntry.key := by
  rw [Side.doomed_eq]
  rfl

theorem Side.mem_keys {key : Bytes} : key ∈ side.keys cutoff w ↔
    (w.db.idx.pk.get key).isSome = true ∧ side.beyond cutoff key = true := by
  rw [Side.keys, List.mem_map, Option.isSome_iff_exists]
  constructor
  · rintro ⟨e, he, rfl⟩
    obtain ⟨he, hbeyond⟩ := List.mem_filter.mp he
    exact ⟨⟨e, PkIndex.get_mem he⟩, hbeyond⟩
  · rintro ⟨⟨e, hget⟩, hbeyond⟩
    obtain ⟨he, rfl⟩ := PkIndex.get_eq_some.mp hget
    exact ⟨e, List.mem_filter.mpr ⟨he, hbeyond⟩, rfl⟩

theorem Side.remove_keeps {k : Watch} : Keeps A (Watched k) (side.remove cutoff) := by
  cases side with
  | less => exact removeByPkLess_keeps cutoff
  | greater => exact removeByPkGreater_keeps cutoff

theorem Side.remove_spec (hA : ∀ k, ¬ A (.fail k)) (h : Sound m w) :
    Spec A (fun v => v = w) (side.remove cutoff)
      (fun n => Unless fun v => Sound m v ∧ Frame w v ∧ w.db.closed = false ∧
        n = (side.keys cutoff w).length ∧ v.db.idx = w.db.idx.deleteAll (side.keys cutoff w) ∧
        Shrinks w v)
      (fun e => Unless (Failed m e)) := by
  rw [Side.remove_eq, Side.keys_eq, List.length_map]
  exact removeRange_spec hA h (side.mem_of_doomed cutoff)

/-! ## The hint -/

/-- Unless there was nothing to remove, the hint is of this log. -/
theorem Side.remove_hint (hA : ∀ k, ¬ A (.fail k)) (h : Sound m w) :
    Spec A (fun v => v = w) (side.remove cutoff)
      (fun n => Unless fun v => n ≠ 0 ∨ FreshHint w → FreshHint v)
      (fun _ => Unless fun _ => True) := by
  rw [Side.remove_eq]
  refine Spec.bind_requireOpen (fun _ _ => trivial) fun hopen => Spec.bind_getWorld ?_
  rintro w rfl
  unfold removePkEntries
  refine Spec.ite (fun _ => Spec.pure ?_) fun _ => ?_
  · rintro v rfl _ (hzero | hfresh)
    · exact absurd rfl hzero
    · exact hfresh
  refine Spec.bind ((removePkBody_spec hA h hopen (side.mem_of_doomed cutoff w.db)).errors
    fun _ _ _ _ => trivial) fun _ => ?_
  refine Spec.bind (Q := fun _ => Unless FreshHint) ?_
    fun _ => Spec.pure fun v hv hwrap _ => hv hwrap
  refine Spec.unless writeHint_keeps ?_
  rintro u _ ⟨hu, hframe, _⟩
  exact (writeHint_spec (hu.live (hframe.closed.trans hopen))).post
    (fun _ _ hv _ => hv.2.2) fun _ _ _ _ => trivial

end Sides

/-! ## Single deletes -/

section Deletes

variable {A : Answer → Prop} {m : Mode} {w v : World}

theorem delete_missing {ix : Indexes} {key : Bytes} (h : ix.pk.get key = none) :
    ix.delete key = ix := by
  have hretract : ix.retractSec key = ix := by rw [Indexes.retractSec, h]
  have hpk : ix.pk.remove key = ix.pk := by
    apply PkIndex.ext_get
    intro k
    rw [PkIndex.get_remove]
    split
    · next heq => rw [heq, h]
    · rfl
  rw [Indexes.delete, hretract, hpk]

/-- `Delete` of any key, present or not. -/
theorem delete_idx (hv : Sound m v) (hopen : v.db.closed = false) {key : Bytes}
    (hidx : v.db.idx = w.db.idx ∨ v.db.idx = w.db.idx.delete key)
    (hcells : v.dir.cells = Function.update w.dir.cells key none) :
    v.db.idx = w.db.idx.delete key := by
  rcases hidx with hsame | hdeleted
  · have hnone : (v.dir.cells key).isSome = false := by
      rw [hcells, Function.update_self]
      rfl
    rw [(hv.2.2 hopen).mirrors.isSome_cells, hsame, Option.isSome_eq_false_iff,
      Option.isNone_iff_eq_none] at hnone
    rw [delete_missing hnone, hsame]
  · exact hdeleted

theorem deletes_spec (hA : ∀ k, ¬ A (.fail k)) (h : Sound m w) (hopen : w.db.closed = false)
    (keys : List Bytes) :
    Spec A (fun v => v = w) (Prog.forEach keys delete)
      (fun _ => Unless fun v => Sound m v ∧ Frame w v ∧ v.db.idx = w.db.idx.deleteAll keys ∧
        Shrinks w v)
      (fun e => Unless (Failed m e)) := by
  refine (Spec.forEach (I := fun rest => Unless fun v => Sound m v ∧ Frame w v ∧
    v.db.idx.deleteAll rest = w.db.idx.deleteAll keys ∧ Shrinks w v) ?_ keys).conseq ?_
    (fun _ _ hv => hv) fun _ _ hv => hv
  · intro key rest
    refine Spec.unless (delete_keeps key) ?_
    rintro u _ ⟨hu, hframe, hidx, hshrinks⟩
    refine (delete_spec hA hu key).post (fun _ v hv hwrap => ?_) fun _ _ hv => hv
    obtain ⟨hv, hframe', hopen', hdel, hcells⟩ := hv hwrap
    refine ⟨hv, hframe.trans hframe', ?_, hshrinks.trans (Shrinks.of_update hcells)⟩
    rw [delete_idx hv (hframe'.closed.trans hopen') hdel hcells]
    exact hidx
  · rintro v rfl _
    exact ⟨h, Frame.refl v, rfl, Shrinks.refl v⟩

/-- What the log holds once keys are gone. -/
theorem cells_of_deleteAll (hw : Sound m w) (hv : Sound m v) (hopen : w.db.closed = false)
    (hopen' : v.db.closed = false) {keys : List Bytes} (hidx : v.db.idx = w.db.idx.deleteAll keys)
    (hshrinks : Shrinks w v) (key : Bytes) :
    v.dir.cells key = if key ∈ keys then none else w.dir.cells key := by
  have hsome := (hv.2.2 hopen').mirrors.isSome_cells key
  rw [hidx, Indexes.deleteAll_get] at hsome
  split
  · next hmem =>
      rwa [if_pos hmem, Option.isSome_none, Option.isSome_eq_false_iff,
        Option.isNone_iff_eq_none] at hsome
  · next hmem =>
      rw [if_neg hmem, ← (hw.2.2 hopen).mirrors.isSome_cells key] at hsome
      rcases hshrinks key with hsame | hnone
      · exact hsame
      · rw [hnone, Option.isSome_none, eq_comm, Option.isSome_eq_false_iff,
          Option.isNone_iff_eq_none] at hsome
        rw [hnone, hsome]

end Deletes

/-! ## Equal indexes -/

section Replays

variable {m : Mode} {w v : World}

/-- Logs whose stores have the same indexes replay to the same. -/
theorem same_replay (hw : Sound m w) (hv : Sound m v) (hopen : w.db.closed = false)
    (hopen' : v.db.closed = false) (hopts : v.db.opts = w.db.opts) (hidx : v.db.idx = w.db.idx) :
    ∃ idx,
      scanMainLog v.dir.main 0 v.dir.replayRecord ⟨Tree.empty, v.db.idx.secs.clear⟩
        = .ok (idx, fileSize v.dir.mainBytes) ∧
      scanMainLog w.dir.main 0 w.dir.replayRecord ⟨Tree.empty, w.db.idx.secs.clear⟩
        = .ok (idx, fileSize w.dir.mainBytes) := by
  have hstore := hw.2.2 hopen
  have hstore' := hv.2.2 hopen'
  obtain ⟨idx, hscan, hpk, hstep⟩ := hw.1.1.log.scan_hint hstore.main (hintOf_zero w.dir.log)
    (clear_trees w.db.idx.secs) ((clear_decls _).trans hstore.inStep.declared)
  obtain ⟨idx', hscan', hpk', hstep'⟩ := hv.1.1.log.scan_hint hstore'.main (hintOf_zero v.dir.log)
    (clear_trees v.db.idx.secs) ((clear_decls _).trans hstore'.inStep.declared)
  have hitems : idx'.pk = idx.pk := by
    apply Tree.ext_items
    rw [hpk, hpk', hstore.mirrors.items, hstore'.mirrors.items, hidx]
  rw [hopts] at hstep'
  cases hstep'.ext hstep hitems
  exact ⟨idx, hscan', hscan⟩

/-- The store that `Open` makes of the files is the one that died. -/
structure Reopened (v x : World) : Prop where
  entries : List.Forall₂ SameEntry v.db.idx.pk.items x.db.idx.pk.items
  secs : x.db.idx.secs = v.db.idx.secs
  value : ∀ key, (get key ⟨x, []⟩).1 = (get key ⟨v, []⟩).1

theorem reopened_of_sound (h : Sound ⟨false, true⟩ v) (hopen : v.db.closed = false)
    {plan : List Answer} (hplan : Answered plan)
    (hok : Succeeds (openStore v.db.opts) plan v.kill = true) :
    Reopened v (exec (openStore v.db.opts) plan v.kill) := by
  have hstore := h.2.2 hopen
  have hfresh : v.kill.dir.usableHint.isSome = true → v.kill.hintInode = v.kill.inode :=
    fun husable =>
    (h.1.2.2 rfl).resolve_left (Dir.hint_of_usable husable)
  have hspec := openStore_sound (A := fun a => ∀ k, a ≠ .fail k) (fun k hk => hk k rfl)
    (w := v.kill) h.1 hfresh hstore.carried
  have hidx : List.Forall₂ SameEntry v.db.idx.pk.items
      (exec (openStore v.db.opts) plan v.kill).db.idx.pk.items ∧
      (exec (openStore v.db.opts) plan v.kill).db.idx.secs = v.db.idx.secs := by
    refine exec_spec hspec rfl hplan.answers (R := fun x =>
      List.Forall₂ SameEntry v.db.idx.pk.items x.db.idx.pk.items ∧ x.db.idx.secs = v.db.idx.secs) ?_
      fun e x hfails _ => absurd hfails (Succeeds.not_fails hok e)
    rintro _ x ⟨_, _, _, idx, hpk, hstep, _, hopened⟩
    have hmirrors : Mirrors idx.pk v.db.idx.pk := hpk ▸ hstore.mirrors
    rw [hopened.store.idx]
    exact ⟨sameEntries hmirrors, hstep.secs_eq hstore.inStep (indexed_iff_mirrored hmirrors)⟩
  exact ⟨hidx.1, hidx.2, get_after_kill h hopen hstore.carried hplan hok⟩

end Replays

/-! ## What is kept -/

section Kept

variable {m : Mode} {w v : World} {side : Side} {cutoff : Bytes}

/-- The primary entries left. -/
theorem get_kept (hidx : v.db.idx = w.db.idx.deleteAll (side.keys cutoff w)) (key : Bytes) :
    v.db.idx.pk.get key = if side.beyond cutoff key then none else w.db.idx.pk.get key := by
  rw [hidx, Indexes.deleteAll_get]
  cases hbeyond : side.beyond cutoff key with
  | false =>
      exact if_neg fun hmem => absurd ((side.mem_keys cutoff).mp hmem).2 (by rw [hbeyond]; decide)
  | true =>
      rw [if_pos rfl]
      split
      · rfl
      · next hmem =>
          rw [side.mem_keys, hbeyond, and_iff_left rfl, Bool.not_eq_true,
            Option.isSome_eq_false_iff, Option.isNone_iff_eq_none] at hmem
          exact hmem

theorem items_kept (hidx : v.db.idx = w.db.idx.deleteAll (side.keys cutoff w)) :
    v.db.idx.pk.items = w.db.idx.pk.items.filter fun e => !side.beyond cutoff e.key := by
  have htree : v.db.idx.pk = w.db.idx.pk.filter fun e => !side.beyond cutoff e.key := by
    apply Tree.ext_mem
    intro e
    rw [Tree.mem_filter]
    have hget := get_kept hidx e.key
    constructor
    · intro he
      rw [PkIndex.get_mem he] at hget
      cases hbeyond : side.beyond cutoff e.key with
      | false =>
          rw [hbeyond] at hget
          exact ⟨(PkIndex.get_eq_some.mp hget.symm).1, rfl⟩
      | true =>
          rw [hbeyond] at hget
          cases hget
    · rintro ⟨he, hbeyond⟩
      rw [Bool.not_eq_true'] at hbeyond
      rw [hbeyond, PkIndex.get_mem he] at hget
      exact (PkIndex.get_eq_some.mp hget).1
  rw [htree]
  rfl

/-- The entries left in the trees. -/
theorem tree_kept (hw : Sound m w) (hv : Sound m v) (hopen : w.db.closed = false)
    (hopen' : v.db.closed = false) (hidx : v.db.idx = w.db.idx.deleteAll (side.keys cutoff w))
    {si si' : SecIndex} (hsi : si ∈ w.db.idx.secs.items) (hsi' : si' ∈ v.db.idx.secs.items)
    (hdecl : si'.decl = si.decl) (x : SecEntry) :
    x ∈ si'.tree ↔ x ∈ si.tree ∧ side.beyond cutoff x.pk = false := by
  have hmem : ∀ p, p ∈ v.db.idx.pk ↔ p ∈ w.db.idx.pk ∧ side.beyond cutoff p.key = false := by
    intro p
    rw [Tree.mem_def, items_kept hidx, List.mem_filter, Bool.not_eq_true']
    rfl
  rw [(hv.2.2 hopen').inStep.inv.mem_iff si' hsi', (hw.2.2 hopen).inStep.inv.mem_iff si hsi]
  simp only [indexed_congr (congrArg Decl.name hdecl) (congrArg Decl.kind hdecl)]
  constructor
  · rintro ⟨p, hp, hx⟩
    obtain ⟨hp, hbeyond⟩ := (hmem p).mp hp
    exact ⟨⟨p, hp, hx⟩, hx.pk ▸ hbeyond⟩
  · rintro ⟨⟨p, hp, hx⟩, hbeyond⟩
    exact ⟨p, (hmem p).mpr ⟨hp, hx.pk ▸ hbeyond⟩, hx⟩

end Kept

/-! ## The property -/

/-- A range delete of the store of `w` has returned `n` in `v`, and the deletes of the same
keys have ended in `u`. -/
structure RangeDeleted (side : Side) (cutoff : Bytes) (w v u : World) (n : Nat) : Prop where
  /-- The count is that of the entries removed. -/
  count : n = (side.keys cutoff w).length ∧
    n + v.db.idx.pk.items.length = w.db.idx.pk.items.length
  /-- The primary index and the trees are those the deletes leave. -/
  index : v.db.idx = u.db.idx
  /-- So is what the log replays to, and the records it holds. -/
  replay : ∃ idx,
    scanMainLog v.dir.main 0 v.dir.replayRecord ⟨Tree.empty, v.db.idx.secs.clear⟩
      = .ok (idx, fileSize v.dir.mainBytes) ∧
    scanMainLog u.dir.main 0 u.dir.replayRecord ⟨Tree.empty, u.db.idx.secs.clear⟩
      = .ok (idx, fileSize u.dir.mainBytes)
  records : v.dir.cells = u.dir.cells
  /-- The cutoff and every other key keep their entry, their record and their value. -/
  kept : ∀ key, side.beyond cutoff key = false →
    v.db.idx.pk.get key = w.db.idx.pk.get key ∧ v.dir.cells key = w.dir.cells key ∧
      (get key ⟨v, []⟩).1 = (get key ⟨w, []⟩).1
  /-- The trees lose the entries of the keys removed and no others. -/
  trees : v.db.idx.secs.decls = w.db.idx.secs.decls ∧
    ∀ si ∈ w.db.idx.secs.items, ∀ si' ∈ v.db.idx.secs.items, si'.decl = si.decl →
      ∀ x, x ∈ si'.tree ↔ x ∈ si.tree ∧ side.beyond cutoff x.pk = false
  /-- `Open` on the files gives the same store back.  Where nothing was removed no hint is
  written: that of `w` must be of its log. -/
  reopened : n ≠ 0 ∨ FreshHint w → ∀ plan, Answered plan →
    Succeeds (openStore v.db.opts) plan v.kill = true →
    Reopened v (exec (openStore v.db.opts) plan v.kill)

/-- **A range delete equals the individual deletes.**  In a store that a run has reached
in which no file step was refused, a range delete that returns does what the deletes of
its keys do, unless a length has wrapped. -/
theorem range_delete_is_deletes {now : Millis} {w v u : World}
    (hrun : Reaches (Allowed ⟨false, false⟩) { now := now } w) {side : Side} {cutoff : Bytes}
    {plan plan' rest rest' : List Answer} {n : Nat} (hplan : Answered plan)
    (hplan' : Answered plan') (hrange : side.remove cutoff ⟨w, plan⟩ = (.ok n, ⟨v, rest⟩))
    (hdeletes : Prog.forEach (side.keys cutoff w) delete ⟨w, plan'⟩ = (.ok (), ⟨u, rest'⟩))
    (hfits : v.wrapped = false) (hfits' : u.wrapped = false) :
    RangeDeleted side cutoff w v u n := by
  have hA : ∀ k, ¬ (∀ j, Answer.fail k ≠ .fail j) := fun k hk => hk k rfl
  have hfits₀ : w.wrapped = false := by
    cases hwrap : w.wrapped with
    | false => rfl
    | true =>
        have hkept := Spec.ok (side.remove_keeps cutoff (k := { wrapped := true }))
          (watched_wrapped.mpr hwrap) hplan.answers hrange
        rw [watched_wrapped, hfits] at hkept
        cases hkept
  have hw := sound_run hrun hfits₀
  obtain ⟨hv, hframe, hopen, hn, hidx, hshrinks⟩ :=
    Spec.ok (side.remove_spec cutoff hA hw) rfl hplan.answers hrange hfits
  have hfresh := Spec.ok (side.remove_hint cutoff hA hw) rfl hplan.answers hrange hfits
  obtain ⟨hu, hframe', hidx', hshrinks'⟩ :=
    Spec.ok (deletes_spec hA hw hopen _) rfl hplan'.answers hdeletes hfits'
  have hopen₁ := hframe.closed.trans hopen
  have hopen₂ := hframe'.closed.trans hopen
  have hsame : v.db.idx = u.db.idx := hidx.trans hidx'.symm
  have hcells := cells_of_deleteAll hw hv hopen hopen₁ hidx hshrinks
  have hcells' := cells_of_deleteAll hw hu hopen hopen₂ hidx' hshrinks'
  refine ⟨⟨hn, ?_⟩, hsame,
    same_replay hu hv hopen₂ hopen₁ (hframe.opts.trans hframe'.opts.symm) hsame,
    funext fun key => (hcells key).trans (hcells' key).symm, fun key hbeyond => ?_,
    ⟨?_, fun si hsi si' hsi' => tree_kept hw hv hopen hopen₁ hidx hsi hsi'⟩,
    fun hhint plan hplan hok => ?_⟩
  · rw [hn, Side.keys, List.length_map, items_kept hidx, ← List.length_eq_length_filter_add]
  · have hcell : v.dir.cells key = w.dir.cells key := by
      rw [hcells, if_neg fun hmem => absurd ((side.mem_keys cutoff).mp hmem).2
        (by rw [hbeyond]; decide)]
    have hlive : v.live key = w.live key := by rw [World.live, World.live, hcell, hframe.now]
    refine ⟨by rw [get_kept hidx, hbeyond]; rfl, hcell, ?_⟩
    rw [get_run, get_run, hv.fetch hopen₁, hw.fetch hopen, hlive]
  · rw [hidx, Indexes.deleteAll_decls]
  · exact reopened_of_sound ⟨⟨hv.1.1, fun hm => absurd hm Bool.false_ne_true,
      fun _ => hfresh hhint⟩, hv.2⟩ hopen₁ hplan hok

/-- Two records with the same tag and a counter. -/
def fewRecords : World := runEvents { now := ⟨0, Millis.zero_bounded⟩ }
  [.openStore (tagged 0) [],
    .op (.putIndexed .sorted [0x61] [0x7B, 0x7D] (Tree.empty.set ([0x74], .str [0x78])) []) [],
    .op (.putIndexed .sorted [0x62] [0x7B, 0x7D] (Tree.empty.set ([0x74], .str [0x78])) []) [],
    .op (.incr [0x63] 1 []) []]

theorem reaches_fewRecords :
    Reaches (Allowed ⟨false, false⟩) { now := ⟨0, Millis.zero_bounded⟩ } fewRecords := by
  refine reaches_runEvents .start
    ⟨.open_of_ok (carried_tagged 0) answered_nil (by decide +kernel) fun _ husable => ?_,
      .op_of_ok ⟨by decide, carried_tag⟩ answered_nil (by decide +kernel),
      .op_of_ok ⟨by decide, carried_tag⟩ answered_nil (by decide +kernel),
      .op_of_ok (show Utf8.valid [0x63] = true by decide) answered_nil (by decide +kernel), trivial⟩
  cases husable

/-- `RemoveByPkLess` of `c` removes the two records. -/
theorem few_records_range_deleted :
    Side.keys .less [0x63] fewRecords = [[0x61], [0x62]] ∧
      RangeDeleted .less [0x63] fewRecords (Side.remove .less [0x63] ⟨fewRecords, []⟩).2.world
        (Prog.forEach (Side.keys .less [0x63] fewRecords) delete ⟨fewRecords, []⟩).2.world 2 := by
  have hrange : (Side.remove .less [0x63] ⟨fewRecords, []⟩).1 = .ok 2 := by decide +kernel
  have hdeletes : (Prog.forEach (Side.keys .less [0x63] fewRecords) delete ⟨fewRecords, []⟩).1
      = .ok () := by
    decide +kernel
  have hfits : (Side.remove .less [0x63] ⟨fewRecords, []⟩).2.world.wrapped
      = false := by decide +kernel
  have hfits' : (Prog.forEach (Side.keys .less [0x63] fewRecords) delete
      ⟨fewRecords, []⟩).2.world.wrapped = false := by decide +kernel
  have hkeys : Side.keys .less [0x63] fewRecords = [[0x61], [0x62]] := by decide +kernel
  have hrun := reaches_fewRecords
  generalize fewRecords = w at hrange hdeletes hfits hfits' hkeys hrun ⊢
  exact ⟨hkeys, range_delete_is_deletes hrun answered_nil answered_nil (run_of_ok hrange)
    (run_of_ok hdeletes) hfits hfits'⟩

/-! ## A key that is renamed -/

/-- The records of `a` and of a key that is not UTF-8. -/
def oddKey : World := runEvents { now := ⟨0, Millis.zero_bounded⟩ }
  [.openStore {} [], .op (.put .sorted [0x61] [0x31] []) [], .op (.put .sorted [0xFF] [0x32] []) []]

/-- `RemoveByPkLess` of `b` removes `a` and writes the hint.  The other key is still found,
and no longer after the next `Open`. -/
theorem other_key_renamed :
    (removeByPkLess [0x62] ⟨oddKey, []⟩).1 = .ok 1 ∧
      (get [0xFF] ⟨exec (removeByPkLess [0x62]) [] oddKey, []⟩).1 = .ok (some [0x32]) ∧
      Succeeds (openStore {}) [] (exec (removeByPkLess [0x62]) [] oddKey).kill = true ∧
      (get [0xFF] ⟨exec (openStore {}) [] (exec (removeByPkLess [0x62]) [] oddKey).kill, []⟩).1
        = .ok none := by
  decide +kernel

end NteeDb.Properties.RangeDelete
