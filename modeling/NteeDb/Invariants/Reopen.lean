import NteeDb.Invariants.Counters

/-!
# Opening a sound directory

A hint taken of the log it lies beside leads `Open` to the same indexes as a scan of the
whole log.  So `Open` on sound files loads the index of the log, cuts nothing off, and
leaves a sound store.

## Main results

* `LogSound.scan_hint` — the hint and the tail of the log give what the log gives.
* `openStore_sound` — `Open` on sound files.
-/

namespace NteeDb.Core

open NteeDb.Verified
open Faults Lines OrderedTree

/-! ## The hint and the log -/

theorem foldl_loadEntry_pk (es : List PkEntry) (ix : Indexes) :
    (es.foldl Indexes.loadEntry ix).pk = es.foldl PkIndex.load ix.pk := by
  induction es generalizing ix with
  | nil => rfl
  | cons e es ih => rw [List.foldl_cons, List.foldl_cons, ih, Indexes.loadEntry]

/-- The entries of an index, loaded in order, are that index again. -/
theorem loadEntries_pk (t : PkIndex) (secs : SecIndexes) :
    (t.items.foldl Indexes.loadEntry ⟨Tree.empty, secs⟩).pk = t := by
  rw [foldl_loadEntry_pk]
  exact t.setAll_items

section Scan

variable {d : Dir} {ls : List Bytes}

theorem LogSound.splitLines_drop (h : LogSound d ls) (k : Nat) :
    (Lines.splitLines (d.mainBytes.drop (joinLines (ls.take k)).length)).1 = ls.drop k := by
  have hsplit : joinLines ls = joinLines (ls.take k) ++ joinLines (ls.drop k) := by
    rw [← joinLines_append, List.take_append_drop]
  have hls : ∀ l ∈ ls.drop k, newline ∉ l := fun l hl => by
    obtain ⟨r, hr⟩ := h.lines l (List.mem_of_mem_drop hl)
    exact hr.newline_not_mem
  have hlines := splitLines_joinLines hls (List.not_mem_nil : newline ∉ [])
  rw [List.append_nil] at hlines
  rw [h.main, hsplit, List.drop_left, hlines]

/-- An entry of the log's index is that of one of its records. -/
theorem exists_record (h : ∀ l ∈ ls, ∃ r, d.SoundLine l r) {e : PkEntry}
    (he : e ∈ pkOf (placed 0 ls)) : ∃ r, d.SoundRecord r ∧ e.key = r.key ∧ e.ix = r.ix := by
  have hget := PkIndex.get_mem he
  rw [pkOf_placed_get] at hget
  obtain ⟨p, hp, hpe⟩ := Option.bind_eq_some_iff.mp hget
  obtain ⟨_, pre, line, post, hsplit, hline, _⟩ := lastRecord_some hp
  obtain ⟨r, hr⟩ := h line (by rw [hsplit]; simp)
  cases hr.unmarshal.symm.trans hline
  rw [Placed.entry?] at hpe
  split at hpe
  · cases hpe
  · cases hpe
    exact ⟨p.record, hr.record, rfl, rfl⟩

/-- The tail of the log, replayed on the entries of the part before it. -/
theorem LogSound.scan_hint (h : LogSound d ls) (hmain : d.main.isSome = true)
    {es : List PkEntry} {covers : Int64} (hint : HintOf ls es covers) {secs : SecIndexes}
    {defs : List IndexDef} (hsecs : ∀ si ∈ secs.items, si.tree = Tree.empty)
    (hdecls : secs.decls = defs.map fun d => (newSecIndex d).decl) :
    ∃ idx, scanMainLog d.main covers d.replayRecord
        (es.foldl Indexes.loadEntry ⟨Tree.empty, secs⟩) = .ok (idx, fileSize d.mainBytes) ∧
      idx.pk = pkOf (placed 0 ls) ∧ idx.InStep defs := by
  obtain ⟨k, hk, hcovers, hes⟩ := hint
  obtain ⟨bytes, hbytes⟩ := Option.isSome_iff_exists.mp hmain
  have hdec := h.decodes
  have hlt : (joinLines (ls.take k)).length < 2 ^ 63 := by
    refine Nat.lt_of_le_of_lt ?_ h.length_lt
    nth_rewrite 2 [← List.take_append_drop k ls]
    rw [joinLines_append, List.length_append]
    exact Nat.le_add_right _ _
  have hto : covers.toInt = (joinLines (ls.take k)).length := by
    rw [hcovers]
    exact Int64.toInt_ofNat_of_lt hlt
  have hstart : ¬ covers < 0 := by
    rw [Int64.lt_iff_toInt_lt, hto]
    exact Int.not_lt.mpr (Int.natCast_nonneg _)
  have hdrop : ∀ l ∈ ls.drop k, ∃ r, d.SoundLine l r :=
    fun l hl => h.lines l (List.mem_of_mem_drop hl)
  have hgood : (ls.drop k).takeWhile d.goodLine = ls.drop k :=
    List.takeWhile_eq_self_iff.mpr fun l hl => h.good l (List.mem_of_mem_drop hl)
  -- what the scan of the tail gives
  have hscan : scanMainLog d.main covers d.replayRecord
      (es.foldl Indexes.loadEntry ⟨Tree.empty, secs⟩)
      = .ok ((es.foldl Indexes.loadEntry ⟨Tree.empty, secs⟩).replay
          (placed (joinLines (ls.take k)).length (ls.drop k)), fileSize d.mainBytes) := by
    have hmainBytes : d.mainBytes = bytes := by rw [Dir.mainBytes, hbytes]; rfl
    rw [hbytes]
    unfold scanMainLog
    dsimp only
    rw [if_neg hstart, hto, Int.toNat_natCast, ← hmainBytes, h.splitLines_drop k, hcovers,
      scanLines_replay h.sized (linesFit_of_sound h.sized hdrop), hgood]
    have hend : (joinLines (ls.take k)).length + (joinLines (ls.drop k)).length
        = d.mainBytes.length := by
      rw [h.main, ← List.length_append, ← joinLines_append, List.take_append_drop]
    rw [hend]
    rfl
  -- the entries of the part before it, loaded
  have hdecls' : (es.foldl Indexes.loadEntry ⟨Tree.empty, secs⟩).secs.decls
      = defs.map fun d => (newSecIndex d).decl := (Indexes.foldl_loadEntry_decls _ _).trans hdecls
  have hloaded : (es.foldl Indexes.loadEntry ⟨Tree.empty, secs⟩).InStep defs := by
    refine ⟨SecInv.foldl_loadEntry (SecInv.of_empty hsecs) ?_ ?_ fun e _ => rfl, hdecls'⟩
    · rw [hes]
      exact Tree.keys_ne _
    · intro e he
      rw [hes] at he
      obtain ⟨r, hr, _, hix⟩ := exists_record (fun l hl => h.lines l (List.mem_of_mem_take hl)) he
      rw [hix]
      exact hr.ix.storable.encodable
  refine ⟨_, hscan, ?_, hloaded.replay hscan⟩
  have htake : ∀ l ∈ ls.take k, unmarshalRecord l ≠ none :=
    fun l hl => hdec l (List.mem_of_mem_take hl)
  rw [Indexes.replay_pk, hes, loadEntries_pk, pkOf, pkOf, ← List.foldl_append]
  have happend : placed 0 _ = _ := placed_append htake (ls.drop k)
  rw [Nat.zero_add, List.take_append_drop] at happend
  rw [← happend]

/-- The index of the log mirrors it. -/
theorem LogSound.mirrors_self (h : LogSound d ls) :
    Mirrors (pkOf (placed 0 ls)) (pkOf (placed 0 ls)) := by
  refine ⟨fun key => ?_, fun e he => ?_, fun e he => ?_⟩
  · cases hget : (pkOf (placed 0 ls)).get key with
    | none => rfl
    | some e =>
        obtain ⟨r, hr, hkey, hix⟩ := exists_record h.lines (PkIndex.get_eq_some.mp hget).1
        rw [Option.map_some, PkEntry.readBack, hkey, Utf8.sanitize_eq_self hr.key, hix,
          hr.ix.readBack_eq, ← hkey, ← hix]
  · obtain ⟨r, hr, hkey, _⟩ := exists_record h.lines he
    rw [hkey]
    exact hr.key
  · obtain ⟨r, hr, _, hix⟩ := exists_record h.lines he
    rw [hix]
    exact hr.ix.storable

/-- The whole log is the tail past an empty hint. -/
theorem hintOf_zero (ls : List Bytes) : HintOf ls [] 0 := ⟨0, Nat.zero_le _, rfl, rfl⟩

/-- What `Open` loads from sound files, with or without the hint. -/
theorem DiskSound.loaded {inode hintInode : Nat} (h : DiskSound d inode hintInode)
    (hfresh : d.usableHint.isSome = true → hintInode = inode) {secs : SecIndexes}
    {defs : List IndexDef} (hsecs : ∀ si ∈ secs.items, si.tree = Tree.empty)
    (hdecls : secs.decls = defs.map fun d => (newSecIndex d).decl) :
    ∃ idx, d.loaded secs = .ok (idx, fileSize d.mainBytes) ∧ idx.pk = pkOf (placed 0 d.log) ∧
      idx.InStep defs := by
  unfold Dir.loaded
  cases hu : d.usableHint with
  | none =>
      cases hmain : d.main with
      | none =>
          have hbytes : d.mainBytes = [] := by rw [Dir.mainBytes, hmain]; rfl
          have hlog : d.log = [] := by rw [Dir.log, hbytes]; rfl
          exact ⟨_, by rw [hbytes]; rfl, by rw [hlog]; rfl, SecInv.of_empty hsecs, hdecls⟩
      | some bytes =>
          obtain ⟨idx, hscan, hpk, hstep⟩ :=
            h.log.scan_hint (by rw [hmain]; rfl) (hintOf_zero d.log) hsecs hdecls
          rw [hmain] at hscan
          exact ⟨idx, hscan, hpk, hstep⟩
  | some hint =>
      obtain ⟨es, covers⟩ := hint
      have hinode := hfresh (by rw [hu]; rfl)
      rw [Dir.usableHint] at hu
      obtain ⟨⟨es', covers'⟩, hload, hu⟩ := Option.bind_eq_some_iff.mp hu
      obtain ⟨bytes, hbytes, hu⟩ := Option.bind_eq_some_iff.mp hu
      split at hu
      · cases hu
        exact h.log.scan_hint (by rw [hbytes]; rfl) (h.hint hinode es covers hload) hsecs hdecls
      · cases hu

end Scan

/-! ## `Open` -/

variable {A : Answer → Prop} {m : Mode} {w v : World}

/-- What `Open` leaves alone is enough for the files to stay sound. -/
theorem OnDisk.untouched (h : OnDisk m w) (hu : Untouched w v)
    (hmain : v.dir.mainBytes = w.dir.mainBytes) : OnDisk m v ∧ v.dir.cells = w.dir.cells := by
  have hext : w.dir.Extends v.dir w.dir.log := by
    intro l hl r b hr hb
    obtain ⟨r', hr'⟩ := h.1.log.lines l hl
    cases hr'.unmarshal.symm.trans hr
    exact ⟨hu.present _ (hr'.record.blob b hb).present, [], by rw [hu.blob, List.append_nil]⟩
  have hsized : v.dir.WellSized := by
    refine ⟨by rw [hmain]; exact h.1.log.sized.1, fun gen => ?_⟩
    rw [hu.blob]
    exact h.1.log.sized.2 gen
  have hcells := h.1.log.cells_extend hmain hext
  refine ⟨⟨?_, fun hm => ?_, fun hf => ?_⟩, hcells⟩
  · rw [hu.inode, hu.hintInode]
    exact h.1.extend hmain hu.hint hext hsized
  · rw [hu.now, hu.acked]
    exact (h.2.1 hm).of_cells hcells
  · rw [FreshHint, hu.hint, hu.hintInode, hu.inode]
    exact h.2.2 hf

theorem cutOff_all (bytes : Bytes) : cutOff bytes (fileSize bytes) = bytes :=
  if_neg (Int64.lt_irrefl)

/-- `Open` refused to open, and did nothing. -/
def OpenRefused (opts : Options) (w : World) (e : Err) : Prop :=
  e = .locked ∧ w.db.closed = false ∨ w.db.closed = true ∧ declareAll opts.indexes noIndexes
    = .error e

theorem declareAll_error {defs : List IndexDef} {secs : SecIndexes} {e : Err}
    (h : declareAll defs secs = .error e) :
    e = .indexNameRequired ∨ ∃ name, e = .duplicateIndex name := by
  induction defs generalizing secs with
  | nil => cases h
  | cons d defs ih =>
      rw [declareAll] at h
      cases hd : secs.declare d with
      | ok secs' =>
          rw [hd] at h
          exact ih h
      | error e' =>
          rw [hd] at h
          cases h
          rw [SecIndexes.declare] at hd
          split at hd
          · cases hd
            exact Or.inl rfl
          · split at hd
            · cases hd
              exact Or.inr ⟨_, rfl⟩
            · cases hd

theorem OpenRefused.harmless {opts : Options} {e : Err} (h : OpenRefused opts w e) :
    e.fatal = false ∧ e.isIO = false := by
  rcases h with ⟨rfl, _⟩ | ⟨_, hdecl⟩
  · exact ⟨rfl, rfl⟩
  · rcases declareAll_error hdecl with rfl | ⟨name, rfl⟩
    · exact ⟨rfl, rfl⟩
    · exact ⟨rfl, rfl⟩

/-- `Open` on sound files: the store it opens is sound and holds what the log holds. -/
theorem openStore_sound (hA : ∀ k, ¬ A (.fail k)) (h : OnDisk m w)
    (hfresh : w.dir.usableHint.isSome = true → w.hintInode = w.inode) {opts : Options}
    (hcarried : CarriedDefs opts.indexes) :
    Spec A (fun v => v = w) (openStore opts)
      (fun _ v => Sound m v ∧ v.dir.cells = w.dir.cells ∧ w.db.closed = true ∧
        ∃ idx, idx.pk = pkOf (placed 0 w.dir.log) ∧ idx.InStep opts.indexes ∧
          v.dir.main = some w.dir.mainBytes ∧ Opened opts idx (fileSize w.dir.mainBytes) w v)
      (fun e v => e = .crash ∧ OnDisk m v ∧ Untouched w v ∧ v.dir.cells = w.dir.cells ∨
        v = w ∧ OpenRefused opts w e) := by
  cases hclosed : w.db.closed with
  | false =>
      unfold openStore
      refine Spec.bind_getWorld ?_
      rintro w rfl
      refine Spec.bind_require ?_ fun hopen => ?_
      · rintro v rfl _
        exact Or.inr ⟨rfl, Or.inl ⟨rfl, hclosed⟩⟩
      · rw [hclosed] at hopen
        cases hopen
  | true =>
      cases hdecl : declareAll opts.indexes noIndexes with
      | error e =>
          unfold openStore
          refine Spec.bind_getWorld ?_
          rintro w rfl
          refine Spec.bind_require (fun v _ hopen => ?_) fun _ => ?_
          · rw [hclosed] at hopen
            cases hopen
          rw [hdecl]
          refine Spec.bind_ofExcept ?_ (by rintro _ ⟨⟩)
          rintro e v ⟨⟩ rfl
          exact Or.inr ⟨rfl, Or.inr ⟨hclosed, hdecl⟩⟩
      | ok secs =>
          obtain ⟨idx, hload, hpk, hstep⟩ := h.1.loaded hfresh
            (declareAll_empty hdecl (by simp [noIndexes])) (declareAll_decls hdecl)
          have hend : (0 : Int64) ≤ fileSize w.dir.mainBytes := by
            rw [Int64.le_iff_toInt_le, fileSize, Int64.toInt_ofNat_of_lt h.1.log.sized.1]
            exact Int.natCast_nonneg _
          refine (openStore_spec hA hclosed hdecl hload hend).post ?_ ?_
          · intro _ v hv
            have hmain : v.dir.main = some w.dir.mainBytes := by rw [hv.main, cutOff_all]
            have hbytes : v.dir.mainBytes = w.dir.mainBytes := by rw [Dir.mainBytes, hmain]; rfl
            obtain ⟨hdisk, hcells⟩ := h.untouched hv.untouched hbytes
            have hs := hv.store
            refine ⟨⟨hdisk, fun j hj => ?_, fun _ => ?_⟩, hcells, rfl, idx, hpk, hstep, hmain, hv⟩
            · rw [hs.job] at hj
              cases hj
            · have hdefs : v.db.opts.indexes = opts.indexes := by
                rw [hs.opts, Options.withDefaults]
                split <;> rfl
              have hlog : v.dir.log = w.dir.log := by rw [Dir.log, Dir.log, hbytes]
              refine ⟨hdefs ▸ hcarried, by rw [hmain]; rfl, hs.size, hs.handles, hs.mainOpen,
                hs.curGen, hs.cur, hs.fresh, hs.stores, hs.relieve, ?_, ?_⟩
              · rw [hdefs, hs.idx]
                exact hstep
              · rw [hs.idx, hpk, hlog]
                exact h.1.log.mirrors_self
          · rintro e v ⟨rfl, _, hcut⟩
            have hbytes : v.dir.mainBytes = w.dir.mainBytes := by
              rcases hcut.main with hmain | hmain
              · exact hmain
              · rw [hmain, cutOff_all]
            obtain ⟨hdisk, hcells⟩ := h.untouched hcut.untouched hbytes
            exact Or.inl ⟨rfl, hdisk, hcut.untouched, hcells⟩

end NteeDb.Core
