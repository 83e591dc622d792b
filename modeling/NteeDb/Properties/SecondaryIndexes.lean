import NteeDb.Core.Runs
import NteeDb.Invariants.Groups
import NteeDb.Invariants.SecIndexes

/-!
# Secondary indexes are exactly what the primary entries say

From any directory, through any events and any faults of the system, the tree of
every declared index is the set of entries that the primary entries give rise to,
and the queries answer from exactly these; what this rests on is that no `Open`
starts from a hint in which two lines have the same key.

Two keys that JSON cannot tell apart give such a hint: the entry of the first one
then stays in its index for ever.
-/

namespace NteeDb.Properties.SecondaryIndexes

open NteeDb.Verified
open Faults OrderedTree JsonCodec
open NteeDb.Core

/-! ## What the queries return -/

section Queries

variable {si : SecIndex} {probe : SecEntry}

theorem exact_zero {val : AnyValue} (hentry : si.makeEntry val [] = .ok probe) :
    si.exact val 0 = .ok (si.group probe) := by
  simp [SecIndex.exact, hentry, bind, Except.bind, pure, Except.pure]

theorem hasValue_eq {val : AnyValue} (hentry : si.makeEntry val [] = .ok probe) :
    si.hasValue val = .ok (!(si.group probe).isEmpty) := by
  simp only [SecIndex.hasValue, hentry, bind, Except.bind, pure, Except.pure, SecIndex.group]
  cases si.tree.ascend probe with
  | nil => rfl
  | cons e es =>
      cases heq : valueEqual si.kind e probe with
      | true => simp [heq]
      | false => simp [heq]

/-- The entries with a value in a range. -/
def entriesIn (si : SecIndex) (lo hi : SecEntry) : List SecEntry :=
  si.tree.items.filter fun e => !valueGreater si.kind lo e && !valueGreater si.kind e hi

theorem rangeQuery_eq {lo hi : AnyValue} {loE hiE : SecEntry}
    (hlo : si.makeEntry lo [] = .ok loE) (hhi : si.makeEntry hi [] = .ok hiE) :
    si.rangeQuery lo hi = .ok ((entriesIn si loE hiE).map SecEntry.pk) := by
  have hpk : loE.pk = [] := SecIndex.makeEntry_pk hlo
  have hwalk := si.tree.takeWhile_ascend loE (fun e => !valueGreater si.kind e hiE) (by
    intro a _ b _ _ hab hb
    rw [Bool.not_eq_true', ← Bool.not_eq_true] at hb ⊢
    intro ha
    rcases secLess_iff.mp hab with h | ⟨h, _⟩
    · exact hb (valueGreater_trans ha h)
    · exact hb (valueGreater_of_equal_right ha h))
  simp only [SecIndex.rangeQuery, hlo, hhi, bind, Except.bind, pure, Except.pure, hwalk, entriesIn]
  congr 2
  apply List.filter_congr
  intro e _
  have : secLess si.kind e loE = valueGreater si.kind loE e := by
    rw [Bool.eq_iff_iff]
    exact secLess_probe hpk
  rw [this]

end Queries

/-! ## The property -/

/-- The declared indexes hold exactly what the primary entries say, and the queries
return exactly the keys with a matching value. -/
structure ExactIndexes (db : DB) : Prop where
  /-- The trees are those of the declared indexes. -/
  declared : db.idx.secs.decls = db.opts.indexes.map fun d => (newSecIndex d).decl
  /-- A tree is the set of entries of the primary entries that have a value under
  the index's name which `makeEntry` accepts. -/
  tree : ∀ si ∈ db.idx.secs.items, ∀ e, e ∈ si.tree ↔ ∃ p ∈ db.idx.pk, Indexed si p e
  /-- A key occurs at most once in an index. -/
  once : ∀ si ∈ db.idx.secs.items, ∀ e ∈ si.tree, ∀ e' ∈ si.tree, e.pk = e'.pk → e = e'
  /-- No entry refers to an absent key. -/
  present : ∀ si ∈ db.idx.secs.items, ∀ e ∈ si.tree, ∃ p, db.idx.pk.get e.pk = some p
  /-- `ByIndex` with limit 0. -/
  byIndex : ∀ si ∈ db.idx.secs.items, ∀ val probe, si.makeEntry val [] = .ok probe →
    probe.NaNFree si.kind → ∃ keys, db.byIndex si.name val 0 = .ok keys ∧
      keys.Pairwise (· < ·) ∧ ∀ key, key ∈ keys ↔
        ∃ p e, db.idx.pk.get key = some p ∧ Indexed si p e ∧ valueEqual si.kind e probe = true
  /-- `ByIndexHas`. -/
  byIndexHas : ∀ si ∈ db.idx.secs.items, ∀ val probe, si.makeEntry val [] = .ok probe →
    probe.NaNFree si.kind → ∃ b, db.byIndexHas si.name val = .ok b ∧ (b = true ↔
      ∃ p ∈ db.idx.pk, ∃ e, Indexed si p e ∧ valueEqual si.kind e probe = true)
  /-- `ByIndexRange`, in (value, key) order. -/
  byIndexRange : ∀ si ∈ db.idx.secs.items, ∀ lo hi loE hiE, si.makeEntry lo [] = .ok loE →
    si.makeEntry hi [] = .ok hiE → ∃ es : List SecEntry,
      db.byIndexRange si.name lo hi = .ok (es.map SecEntry.pk) ∧
      es.Pairwise (fun a b => secLess si.kind a b = true) ∧ ∀ e, e ∈ es ↔
        ∃ p ∈ db.idx.pk, Indexed si p e ∧ valueGreater si.kind loE e = false ∧
          valueGreater si.kind e hiE = false

theorem query_eq {α : Type} {db : DB} (hopen : db.closed = false) {si : SecIndex}
    (hsi : si ∈ db.idx.secs.items) (q : SecIndex → Except Err α) : db.query si.name q = q si := by
  rw [DB.query, hopen, SecIndexes.get_eq_some.mpr ⟨hsi, rfl⟩]
  rfl

/-- An open store that is in step has exact indexes. -/
theorem exactIndexes_of_inStep {db : DB} (h : db.idx.InStep db.opts.indexes)
    (hopen : db.closed = false) : ExactIndexes db where
  declared := h.declared
  tree := h.inv.mem_iff
  once si hsi e he e' he' hpk := by
    obtain ⟨p, hp, hidx⟩ := (h.inv.mem_iff si hsi e').mp he'
    exact (h.inv.of_pk hsi hp he (hpk.trans hidx.pk)).unique hidx
  present si hsi e he := by
    obtain ⟨p, hp, hidx⟩ := (h.inv.mem_iff si hsi e).mp he
    exact ⟨p, PkIndex.get_eq_some.mpr ⟨hp, hidx.pk.symm⟩⟩
  byIndex si hsi val probe hentry hprobe := by
    have hpk := SecIndex.makeEntry_pk hentry
    refine ⟨si.group probe, ?_, si.group_sorted (h.inv.nanFree hsi) hpk hprobe, fun key => ?_⟩
    · rw [DB.byIndex, query_eq hopen hsi, exact_zero hentry]
    · rw [si.group_eq (h.inv.nanFree hsi) hpk hprobe, List.mem_map]
      constructor
      · rintro ⟨e, he, rfl⟩
        obtain ⟨he, hval⟩ := List.mem_filter.mp he
        obtain ⟨p, hp, hidx⟩ := (h.inv.mem_iff si hsi e).mp he
        exact ⟨p, e, PkIndex.get_eq_some.mpr ⟨hp, hidx.pk.symm⟩, hidx, hval⟩
      · rintro ⟨p, e, hget, hidx, hval⟩
        obtain ⟨hp, hkey⟩ := PkIndex.get_eq_some.mp hget
        exact ⟨e, List.mem_filter.mpr ⟨(h.inv.mem_iff si hsi e).mpr ⟨p, hp, hidx⟩, hval⟩,
          hidx.pk.trans hkey⟩
  byIndexHas si hsi val probe hentry hprobe := by
    have hpk := SecIndex.makeEntry_pk hentry
    refine ⟨_, by rw [DB.byIndexHas, query_eq hopen hsi, hasValue_eq hentry], ?_⟩
    rw [si.group_eq (h.inv.nanFree hsi) hpk hprobe]
    simp only [Bool.not_eq_true', List.isEmpty_eq_false_iff, ne_eq, List.map_eq_nil_iff,
      List.filter_eq_nil_iff, not_forall, not_not]
    constructor
    · rintro ⟨e, he, hval⟩
      obtain ⟨p, hp, hidx⟩ := (h.inv.mem_iff si hsi e).mp he
      exact ⟨p, hp, e, hidx, hval⟩
    · rintro ⟨p, hp, e, hidx, hval⟩
      exact ⟨e, (h.inv.mem_iff si hsi e).mpr ⟨p, hp, hidx⟩, hval⟩
  byIndexRange si hsi lo hi loE hiE hlo hhi := by
    refine ⟨entriesIn si loE hiE, ?_, si.tree.sorted.filter _, fun e => ?_⟩
    · rw [DB.byIndexRange, query_eq hopen hsi, rangeQuery_eq hlo hhi]
    · rw [entriesIn, List.mem_filter, Bool.and_eq_true, Bool.not_eq_true', Bool.not_eq_true']
      constructor
      · rintro ⟨he, hval⟩
        obtain ⟨p, hp, hidx⟩ := (h.inv.mem_iff si hsi e).mp he
        exact ⟨p, hp, hidx, hval⟩
      · rintro ⟨p, hp, hidx, hval⟩
        exact ⟨(h.inv.mem_iff si hsi e).mpr ⟨p, hp, hidx⟩, hval⟩

/-! ## Runs -/

/-- No `Open` starts from a hint in which two lines have the same key. -/
def DistinctHints (w : World) : Event → Prop
  | .openStore _ _ => w.dir.HintKeysDistinct
  | _ => True

/-- Without an open store there is nothing to be out of step. -/
theorem inStep_of_no_store {w : World} (h : w.db = {}) : InStep w := by
  rw [InStep, h]
  exact ⟨SecInv.of_empty (by simp), rfl⟩

/-- If the world is in step after a program, it is so after the process settles. -/
theorem inStep_settle {α : Type} {r : Except Err α × Env World} (h : InStep r.2.world) :
    InStep (settle r) := by
  rw [settle]
  split
  · exact h
  · split
    · exact inStep_of_no_store rfl
    · exact h

theorem event_inStep {w : World} {ev : Event} (hev : DistinctHints w ev) (h : InStep w) :
    InStep (ev.apply w) := by
  cases ev with
  | openStore opts plan =>
      apply inStep_settle
      have hspec := openStore_keeps opts ⟨w, plan⟩
        ⟨⟨(watched_inStep.mpr h), fun _ => hev⟩, fun _ _ => trivial⟩
      revert hspec
      cases openStore opts ⟨w, plan⟩ with
      | mk r s =>
          cases r with
          | ok _ => exact fun hspec => watched_inStep.mp hspec.1
          | error _ => exact fun hspec => watched_inStep.mp hspec.1
  | op o plan =>
      have hkept : Keeps (fun _ => True) (Watched { inStep := true }) o.run := op_keeps o
      exact inStep_settle (watched_inStep.mp
        (hkept.run (s := ⟨w, plan⟩) (watched_inStep.mpr h) fun _ _ => trivial))
  | tick now => exact h
  | kill => exact inStep_of_no_store rfl

/-- **Exact secondary indexes.**  From any directory, in every world reached by
events with any faults in which no `Open` starts from a hint with a repeated key,
an open store has exact indexes. -/
theorem exact_in_every_run {w₀ w : World} (hstart : w₀.db = {})
    (h : Reaches DistinctHints w₀ w) (hopen : w.db.closed = false) : ExactIndexes w.db :=
  exactIndexes_of_inStep
    (h.invariant (I := InStep) (inStep_of_no_store hstart) fun _ _ hev => event_inStep hev) hopen

/-- A string index. -/
def tagIndex : IndexDef := { name := [0x74], kind := .string }

/-- Two indexed records, then the store is closed and opened again. -/
def reopenAfter (key key' : Bytes) : List Event :=
  [.openStore { indexes := [tagIndex] } [],
   .op (.putIndexed .sorted key [0x7B, 0x7D] (Tree.empty.set ([0x74], .str [0x61])) []) [],
   .op (.putIndexed .sorted key' [0x7B, 0x7D] (Tree.empty.set ([0x74], .str [0x62])) []) [],
   .op .close [],
   .openStore { indexes := [tagIndex] } []]

/-- No files and no store. -/
def noFiles : World := { now := ⟨0, Millis.zero_bounded⟩ }

/-- The keys `a` and `b` are told apart by the hint. -/
theorem exact_after_reopen :
    (runEvents noFiles (reopenAfter [0x61] [0x62])).db.closed = false ∧
      ExactIndexes (runEvents noFiles (reopenAfter [0x61] [0x62])).db := by
  have hopen : (runEvents noFiles (reopenAfter [0x61] [0x62])).db.closed = false := by
    decide +kernel
  refine ⟨hopen, @exact_in_every_run noFiles _ rfl (reaches_runEvents .start ?_) hopen⟩
  exact ⟨(show Dir.HintKeysDistinct _ by decide +kernel), trivial, trivial, trivial,
    (show Dir.HintKeysDistinct _ by decide +kernel), trivial⟩

/-- The keys `FE` and `FF` are both written to the hint as U+FFFD: after the store is
opened again, its index holds two entries for the one key that is left. -/
theorem ghost_entry_after_reopen :
    (runEvents noFiles (reopenAfter [0xFE] [0xFF])).db.closed = false ∧
      ¬ ExactIndexes (runEvents noFiles (reopenAfter [0xFE] [0xFF])).db := by
  refine ⟨by decide +kernel, fun h => ?_⟩
  have hghost : ∃ si ∈ (runEvents noFiles (reopenAfter [0xFE] [0xFF])).db.idx.secs.items,
      ∃ e ∈ si.tree.items, ∃ e' ∈ si.tree.items, e.pk = e'.pk ∧ e ≠ e' := by
    decide +kernel
  obtain ⟨si, hsi, e, he, e', he', hpk, hne⟩ := hghost
  exact hne (h.once si hsi e he e' he' hpk)

end NteeDb.Properties.SecondaryIndexes
