import NteeDb.Invariants.Log
import NteeDb.Invariants.IndexValues
import NteeDb.Invariants.SecIndexes

/-!
# Sound stores

What holds of a store between its operations while no length has wrapped and no file
step has been refused: the log is a journal of sound lines, the hint and a snapshot in
flight are those of a prefix of it, the open store tracks the sizes of its files, and
its primary index mirrors the log (`Sound`).  A store cut off within an operation
leaves the part about the files (`DiskSound`).

## Main results

* `Mirrors.put`, `Mirrors.delete` — an appended line and the change of the index that
  goes with it keep the mirror.
* `DiskSound.append`, `DiskSound.appendBlob` — what is on disk stays sound.
-/

namespace NteeDb.Core

open NteeDb.Verified
open Journal Lines OrderedTree JsonCodec

/-! ## Expiry -/

/-- The expiry has passed; 0 is no expiry. -/
def expired (exp now : Int64) : Bool := exp ≠ 0 && exp ≤ now

theorem expiredAt_eq (e : PkEntry) (now : Int64) : e.expiredAt now = expired e.exp now := rfl

/-- What was known to last, once the clock stands at `now`. -/
def unexpired {α : Type} (exp : α → Int64) (now : Int64) (x : Option α) : Option α :=
  x.filter fun a => !expired (exp a) now

@[simp] theorem unexpired_none {α : Type} (exp : α → Int64) (now : Int64) :
    unexpired exp now none = none := rfl

theorem unexpired_some {α : Type} (exp : α → Int64) (now : Int64) (a : α) :
    unexpired exp now (some a) = if expired (exp a) now = true then none else some a := by
  rw [unexpired, Option.filter_some]
  cases expired (exp a) now <;> rfl

theorem expired_later {exp now now' : Int64} (h : expired exp now = true) (hle : now ≤ now') :
    expired exp now' = true := by
  rw [expired, Bool.and_eq_true, decide_eq_true_iff, decide_eq_true_iff] at h ⊢
  exact ⟨h.1, Int64.le_trans h.2 hle⟩

/-! ## The index in memory -/

/-- The index in memory is the one of the log, up to what JSON does to index values. -/
structure Mirrors (disk mem : PkIndex) : Prop where
  entry : ∀ key, disk.get key = (mem.get key).map PkEntry.readBack
  key : ∀ e ∈ mem, Utf8.valid e.key = true
  ix : ∀ e ∈ mem, Storable e.ix

theorem mirrors_empty : Mirrors Tree.empty Tree.empty :=
  ⟨fun _ => rfl, fun e he => absurd he (Tree.not_mem_empty e),
    fun e he => absurd he (Tree.not_mem_empty e)⟩

section Mirror

variable {disk mem : PkIndex} {ls : List Bytes}

theorem Mirrors.readBack_key (h : Mirrors disk mem) {e : PkEntry} (he : e ∈ mem) :
    e.readBack.key = e.key := Utf8.sanitize_eq_self (h.key e he)

/-- The entries of the log are those in memory, read back. -/
theorem Mirrors.items (h : Mirrors disk mem) : disk.items = mem.items.map PkEntry.readBack :=
  Tree.items_eq_map (fun _ he => h.readBack_key he) fun a => h.entry a.key

theorem Mirrors.scalar (h : Mirrors disk mem) : ∀ e ∈ mem, e.ix.Scalar :=
  fun e he => (h.ix e he).scalar

/-- A record is appended, and its key gets the entry of its place. -/
theorem Mirrors.put (h : Mirrors (pkOf (placed 0 ls)) mem)
    (hls : ∀ l ∈ ls, unmarshalRecord l ≠ none) {line key : Bytes} {ix : AnyMap} {exp : Int64}
    {r : Record} (hr : unmarshalRecord line = some r) (hkey : Utf8.valid key = true)
    (hix : Storable ix) (hrkey : r.key = key) (hrix : r.ix = ix.readBack) (hrexp : r.exp = exp)
    (hdel : r.deleted = false) :
    Mirrors (pkOf (placed 0 (ls ++ [line])))
      (mem.set { key := key, off := Int64.ofNat (joinLines ls).length, n := lineLen line, ix := ix,
                 exp := exp }) := by
  refine ⟨fun k => ?_, fun e he => ?_, fun e he => ?_⟩
  · rw [pkOf_placed_get, lastRecord_append hls hr, PkIndex.get_set, hrkey]
    by_cases heq : key = k
    · rw [if_pos heq, if_pos heq.symm, Option.bind_some, Placed.entry?, Option.map_some,
        PkEntry.readBack, Placed.entry]
      dsimp only
      rw [hdel, hrkey, hrix, hrexp, Utf8.sanitize_eq_self hkey]
      rfl
    · rw [if_neg heq, if_neg (Ne.symm heq), ← pkOf_placed_get, h.entry]
  · rcases Tree.mem_set_key.mp he with rfl | ⟨he, _⟩
    · exact hkey
    · exact h.key e he
  · rcases Tree.mem_set_key.mp he with rfl | ⟨he, _⟩
    · exact hix
    · exact h.ix e he

/-- A tombstone is appended, and its key leaves the index. -/
theorem Mirrors.delete (h : Mirrors (pkOf (placed 0 ls)) mem)
    (hls : ∀ l ∈ ls, unmarshalRecord l ≠ none) {line key : Bytes} {r : Record}
    (hr : unmarshalRecord line = some r) (hrkey : r.key = key) (hdel : r.deleted = true) :
    Mirrors (pkOf (placed 0 (ls ++ [line]))) (mem.remove key) := by
  refine ⟨fun k => ?_, fun e he => h.key e (Tree.mem_delete_key.mp he).1,
    fun e he => h.ix e (Tree.mem_delete_key.mp he).1⟩
  rw [pkOf_placed_get, lastRecord_append hls hr, PkIndex.get_remove, hrkey]
  by_cases heq : key = k
  · rw [if_pos heq, if_pos heq.symm, Option.bind_some, Placed.entry?]
    dsimp only
    rw [hdel]
    rfl
  · rw [if_neg heq, if_neg (Ne.symm heq), ← pkOf_placed_get, h.entry]

end Mirror

/-- The index knows of every cell of the log, its expiry and its index values. -/
theorem Mirrors.cells {d : Dir} {mem : PkIndex} (h : Mirrors (pkOf (placed 0 d.log)) mem)
    (key : Bytes) :
    (d.cells key).map (fun c => (c.exp, c.ix))
      = (mem.get key).map fun e => (e.exp, e.ix.readBack) := by
  have hentry := h.entry key
  have hmem : (mem.get key).map (fun e => (e.exp, e.ix.readBack))
      = ((mem.get key).map PkEntry.readBack).map fun e => (e.exp, e.ix) := by
    rw [Option.map_map]
    rfl
  rw [hmem, ← hentry, pkOf_placed_get, Dir.cells]
  cases lastRecord d.log key with
  | none => rfl
  | some p =>
      rw [Option.bind_some, Option.bind_some, Dir.cell?, Placed.entry?]
      cases p.record.deleted <;> rfl

theorem Mirrors.isSome_cells {d : Dir} {mem : PkIndex} (h : Mirrors (pkOf (placed 0 d.log)) mem)
    (key : Bytes) : (d.cells key).isSome = (mem.get key).isSome := by
  have hcells := congrArg Option.isSome (h.cells key)
  rwa [Option.isSome_map, Option.isSome_map] at hcells

/-- A key without an entry has no record. -/
theorem Mirrors.cells_of_none {d : Dir} {mem : PkIndex} (h : Mirrors (pkOf (placed 0 d.log)) mem)
    {key : Bytes} (hnone : mem.get key = none) : d.cells key = none := by
  have hcells := h.isSome_cells key
  rwa [hnone, Option.isSome_none, Option.isSome_eq_false_iff, Option.isNone_iff_eq_none] at hcells

/-! ## Hints -/

/-- The entries and the covered offset are those of a prefix of the log. -/
def HintOf (ls : List Bytes) (es : List PkEntry) (covers : Int64) : Prop :=
  ∃ k, k ≤ ls.length ∧ covers = Int64.ofNat (joinLines (ls.take k)).length ∧
    es = (pkOf (placed 0 (ls.take k))).items

theorem HintOf.append {ls : List Bytes} {es : List PkEntry} {covers : Int64}
    (h : HintOf ls es covers) (more : List Bytes) : HintOf (ls ++ more) es covers := by
  obtain ⟨k, hk, hcovers, hes⟩ := h
  refine ⟨k, ?_, ?_⟩
  · rw [List.length_append]
    exact le_trans hk (Nat.le_add_right _ _)
  · rw [List.take_append_of_le_length hk]
    exact ⟨hcovers, hes⟩

/-- Lines rewritten in the same shape. -/
theorem HintOf.sameShape {ls ls' : List Bytes} {es : List PkEntry} {covers : Int64}
    (h : HintOf ls es covers) (hshape : List.Forall₂ SameShape ls ls') : HintOf ls' es covers := by
  obtain ⟨k, hk, hcovers, hes⟩ := h
  have htake : List.Forall₂ SameShape (ls.take k) (ls'.take k) := List.forall₂_take k hshape
  exact ⟨k, hshape.length_eq ▸ hk, by rw [hcovers, length_joinLines_sameShape htake],
    by rw [hes, pkOf_sameShape htake]⟩

/-- The hint of the whole index. -/
theorem HintOf.all {ls : List Bytes} {mem : PkIndex} (h : Mirrors (pkOf (placed 0 ls)) mem) :
    HintOf ls (mem.items.map PkEntry.readBack) (Int64.ofNat (joinLines ls).length) := by
  refine ⟨ls.length, le_refl _, ?_⟩
  rw [List.take_length, h.items]
  exact ⟨rfl, rfl⟩

/-! ## What is on disk -/

/-- The files of a sound store.  A hint that was not taken of this `main.jsonl` may say
anything. -/
structure DiskSound (d : Dir) (inode hintInode : Nat) : Prop where
  log : LogSound d d.log
  hint : hintInode = inode → ∀ es covers, loadIndexHint d.hint = some (es, covers) →
    HintOf d.log es covers
  order : hintInode ≤ inode

/-- The snapshot of a background writer.  One that a checkpoint has not overtaken was
taken of this `main.jsonl`. -/
structure JobSound (d : Dir) (inode hintGen : Nat) (j : HintSnapshot) : Prop where
  gen : j.gen ≤ hintGen
  handles : j.handles ≤ inode
  current : j.gen = hintGen → j.handles = inode
  scalar : ∀ e ∈ j.pk, e.ix.Scalar
  hint : j.handles = inode → HintOf d.log (j.pk.items.map PkEntry.readBack) j.covers

/-- What a cell makes known of its key. -/
def Cell.ack (key : Bytes) (c : Cell) : Ack := ⟨key, c.value, c.exp⟩

/-- The log holds, of what has not expired, what the mutations said last. -/
def Agrees (now : Int64) (acked : Contents) (d : Dir) : Prop :=
  ∀ key, unexpired Ack.exp now ((d.cells key).map (Cell.ack key))
    = unexpired Ack.exp now (acked.get key)

section Disk

variable {d : Dir} {inode hintInode hintGen : Nat}

/-- The log and the hint stay, the blob files grow. -/
theorem DiskSound.extend (h : DiskSound d inode hintInode) {d' : Dir}
    (hmain : d'.mainBytes = d.mainBytes) (hhint : d'.hint = d.hint) (hext : d.Extends d' d.log)
    (hsized : d'.WellSized) : DiskSound d' inode hintInode := by
  have hlog : d'.log = d.log := by rw [Dir.log, Dir.log, hmain]
  refine ⟨?_, fun heq es covers hload => ?_, h.order⟩
  · rw [hlog]
    exact h.log.extend hmain hext hsized
  · rw [hlog]
    exact h.hint heq es covers (hhint ▸ hload)

theorem wellSized_appendBlob (hd : d.WellSized) {gen : Int64} {value : Bytes}
    (hroom : (d.blobBytes gen).length + value.length < maxFileSize) :
    (d.appendBlob gen value).WellSized := by
  refine ⟨hd.1, fun g => ?_⟩
  rw [Dir.blobBytes_appendBlob]
  split
  · rw [List.length_append]
    exact hroom
  · exact hd.2 g

theorem DiskSound.appendBlob (h : DiskSound d inode hintInode) {gen : Int64} {value : Bytes}
    (hroom : (d.blobBytes gen).length + value.length < maxFileSize) :
    DiskSound (d.appendBlob gen value) inode hintInode :=
  h.extend rfl rfl (Dir.extends_appendBlob h.log.lines gen value)
    (wellSized_appendBlob h.log.sized hroom)

theorem DiskSound.cells_appendBlob (h : DiskSound d inode hintInode) (gen : Int64) (value : Bytes) :
    (d.appendBlob gen value).cells = d.cells :=
  h.log.cells_extend rfl (Dir.extends_appendBlob h.log.lines gen value)

/-- The log after a sound line has been appended. -/
theorem DiskSound.log_append (h : DiskSound d inode hintInode) {line : Bytes} {r : Record}
    (hline : d.SoundLine line r)
    (hroom : d.mainBytes.length + (line.length + 1) < maxFileSize) :
    (d.appendMain (line ++ [newline])).log = d.log ++ [line] := (h.log.append hline hroom).log

theorem DiskSound.append (h : DiskSound d inode hintInode) {line : Bytes} {r : Record}
    (hline : d.SoundLine line r)
    (hroom : d.mainBytes.length + (line.length + 1) < maxFileSize) :
    DiskSound (d.appendMain (line ++ [newline])) inode hintInode := by
  have hlog := h.log_append hline hroom
  refine ⟨?_, fun heq es covers hload => ?_, h.order⟩
  · rw [hlog]
    exact h.log.append hline hroom
  · rw [hlog]
    exact (h.hint heq es covers hload).append [line]

theorem JobSound.of_log {j : HintSnapshot} (h : JobSound d inode hintGen j) {d' : Dir}
    {more : List Bytes} (hlog : d'.log = d.log ++ more) : JobSound d' inode hintGen j :=
  ⟨h.gen, h.handles, h.current, h.scalar, fun heq => hlog ▸ (h.hint heq).append more⟩

theorem JobSound.newHint {j : HintSnapshot} (h : JobSound d inode hintGen j) (hint : Option Bytes) :
    JobSound { d with hint := hint } inode hintGen j :=
  ⟨h.gen, h.handles, h.current, h.scalar, h.hint⟩

/-- A hint written of the current log. -/
theorem DiskSound.newHint (h : DiskSound d inode hintInode) {pk : PkIndex} {covers : Int64}
    {bytes : Bytes} (hscalar : ∀ e ∈ pk, e.ix.Scalar)
    (hof : HintOf d.log (pk.items.map PkEntry.readBack) covers)
    (hbytes : hintBytes pk covers = some bytes) :
    DiskSound { d with hint := some bytes } inode inode := by
  refine ⟨?_, fun _ es c hload => ?_, le_refl _⟩
  · have hext : d.Extends { d with hint := some bytes } d.log :=
      Dir.extends_of_blobs h.log.lines rfl
    exact h.log.extend rfl hext h.log.sized
  · obtain ⟨bytes', hbytes', hread⟩ := loadIndexHint_hintBytes hscalar covers
    rw [hbytes] at hbytes'
    cases hbytes'
    cases hread _ hload
    exact hof

end Disk

/-! ## The history -/

section History

variable {now : Int64} {acked : Contents} {d : Dir}

theorem Agrees.of_cells (h : Agrees now acked d) {d' : Dir} (hcells : d'.cells = d.cells) :
    Agrees now acked d' := fun key => by rw [hcells]; exact h key

theorem Contents.get_apply (c : Contents) (m : Mutation) (key : Bytes) :
    (c.apply m).get key = match m with
      | .put a => if key = a.key then some a else c.get key
      | .del k => if key = k then none else c.get key := by
  cases m with
  | put a => exact Tree.get?_set c a ⟨key, [], 0⟩
  | del k => exact Tree.get?_delete c ⟨k, [], 0⟩ ⟨key, [], 0⟩

/-- The mutation that a change of one cell stands for. -/
def mutationOf (key : Bytes) : Option Cell → Mutation
  | none => .del key
  | some c => .put (c.ack key)

/-- A mutation that changes the log changes the history with it. -/
theorem Agrees.update (h : Agrees now acked d) {d' : Dir} {key : Bytes} {c : Option Cell}
    (hcells : d'.cells = Function.update d.cells key c) :
    Agrees now (acked.apply (mutationOf key c)) d' := by
  intro k
  rw [hcells, Contents.get_apply, Function.update_apply]
  cases c with
  | none =>
      by_cases hk : k = key
      · simp [mutationOf, hk]
      · simpa [mutationOf, hk] using h k
  | some c =>
      by_cases hk : k = key
      · simp [mutationOf, hk, Cell.ack]
      · simpa [mutationOf, hk, Cell.ack] using h k

/-- What agrees stays in agreement while the clock goes on. -/
theorem Agrees.later (h : Agrees now acked d) {now' : Int64} (hle : now ≤ now') :
    Agrees now' acked d := by
  have htwice : ∀ x : Option Ack, unexpired Ack.exp now' x
      = unexpired Ack.exp now' (unexpired Ack.exp now x) := by
    intro x
    cases x with
    | none => rfl
    | some a =>
        rw [unexpired_some _ now]
        split
        · next hexp => rw [unexpired_some, if_pos (expired_later hexp hle), unexpired_none]
        · rfl
  intro key
  rw [htwice, htwice (acked.get key), h key]

end History

/-! ## The open store -/

/-- The open store knows the sizes of its files, and its index mirrors the log. -/
structure StoreSound (d : Dir) (inode : Nat) (defs : List IndexDef) (size : Int64) (handles : Nat)
    (mainOpen : Bool) (stores : BlobStores) (cur : Int64) (relieve : Option BlobStore)
    (idx : Indexes) : Prop where
  carried : CarriedDefs defs
  main : d.main.isSome = true
  size_eq : size = fileSize d.mainBytes
  handles_eq : handles = inode
  isOpen : mainOpen = true
  cur_nonneg : 0 ≤ cur
  cur_present : (d.blob cur).isSome = true
  highest : ∀ gen, cur < gen → d.blob gen = none
  store : ∀ gen, stores.get? { gen := gen } = if 0 ≤ gen ∧ (d.blob gen).isSome = true then
    some { gen := gen, size := fileSize (d.blobBytes gen) } else none
  noRelieve : relieve = none
  inStep : idx.InStep defs
  mirrors : Mirrors (pkOf (placed 0 d.log)) idx.pk

theorem fileSize_append (xs ys : Bytes) :
    fileSize (xs ++ ys) = fileSize xs + Int64.ofNat ys.length := by
  rw [fileSize, List.length_append, Int64.ofNat_add]
  rfl

section Store

variable {d : Dir} {inode : Nat} {defs : List IndexDef} {size : Int64} {handles : Nat}
  {mainOpen : Bool} {stores : BlobStores} {cur : Int64} {relieve : Option BlobStore}
  {idx : Indexes}

theorem StoreSound.current
    (h : StoreSound d inode defs size handles mainOpen stores cur relieve idx) :
    stores.get? { gen := cur } = some { gen := cur, size := fileSize (d.blobBytes cur) } := by
  rw [h.store, if_pos ⟨h.cur_nonneg, h.cur_present⟩]

/-- The hint is no concern of the open store. -/
theorem StoreSound.newHint
    (h : StoreSound d inode defs size handles mainOpen stores cur relieve idx)
    (hint : Option Bytes) :
    StoreSound { d with hint := hint } inode defs size handles mainOpen stores
      cur relieve idx :=
  ⟨h.carried, h.main, h.size_eq, h.handles_eq, h.isOpen, h.cur_nonneg, h.cur_present, h.highest,
    h.store, h.noRelieve, h.inStep, h.mirrors⟩

/-- A blob is appended to the current generation, and its store told so. -/
theorem StoreSound.appendBlob
    (h : StoreSound d inode defs size handles mainOpen stores cur relieve idx) (value : Bytes) :
    StoreSound (d.appendBlob cur value) inode defs size handles mainOpen
      (stores.set { gen := cur, size := fileSize (d.blobBytes cur) + Int64.ofNat value.length })
      cur relieve idx := by
  have hsome : ∀ gen, ((d.appendBlob cur value).blob gen).isSome = (d.blob gen).isSome := by
    intro gen
    rw [Dir.blob_appendBlob]
    split
    · next heq => rw [heq, h.cur_present]; rfl
    · rfl
  refine ⟨h.carried, h.main, h.size_eq, h.handles_eq, h.isOpen, h.cur_nonneg, ?_, fun gen hlt => ?_,
    fun gen => ?_, h.noRelieve, h.inStep, h.mirrors⟩
  · rw [hsome]
    exact h.cur_present
  · have hnone := hsome gen
    rw [h.highest gen hlt] at hnone
    exact Option.not_isSome_iff_eq_none.mp (by rw [hnone]; decide)
  · rw [blobStores_get_set, hsome, Dir.blobBytes_appendBlob]
    by_cases heq : gen = cur
    · rw [if_pos heq, if_pos heq, heq, if_pos ⟨h.cur_nonneg, h.cur_present⟩, fileSize_append]
    · rw [if_neg heq, if_neg heq, h.store]

/-- A line is appended, its length added to the size, and the index changed to match. -/
theorem StoreSound.append
    (h : StoreSound d inode defs size handles mainOpen stores cur relieve idx) {line : Bytes}
    (hfits : lengthWraps (line.length + 1) = false) {idx' : Indexes} (hstep : idx'.InStep defs)
    (hpk : Mirrors (pkOf (placed 0 (d.appendMain (line ++ [newline])).log)) idx'.pk) :
    StoreSound (d.appendMain (line ++ [newline])) inode defs (size + (lineLen line).toInt64) handles
      mainOpen stores cur relieve idx' := by
  refine ⟨h.carried, rfl, ?_, h.handles_eq, h.isOpen, h.cur_nonneg, h.cur_present,
    h.highest, h.store, h.noRelieve, hstep, hpk⟩
  rw [h.size_eq, lineLen_toInt64 hfits]
  show _ = fileSize (d.mainBytes ++ (line ++ [newline]))
  rw [fileSize_append, List.length_append, List.length_singleton]

end Store

/-! ## Sound worlds -/

/-- What is followed beyond the soundness of the files: the history of the mutations
while the clock does not go back, and that the hint is of the current log. -/
structure Mode where
  history : Bool
  freshHint : Bool

/-- The hint, if there is one, was taken of the current log. -/
def FreshHint (w : World) : Prop := w.dir.hint = none ∨ w.hintInode = w.inode

/-- What is on disk is sound. -/
def OnDisk (m : Mode) (w : World) : Prop :=
  DiskSound w.dir w.inode w.hintInode ∧ (m.history = true → Agrees w.now.ms w.acked w.dir) ∧
    (m.freshHint = true → FreshHint w)

/-- The open store is sound. -/
def InStore (w : World) : Prop :=
  StoreSound w.dir w.inode w.db.opts.indexes w.db.size w.db.handles w.db.mainOpen w.db.blobs
    w.db.curGen w.db.relieve w.db.idx

/-- The background writer in flight, if any, is sound. -/
def InFlight (w : World) : Prop := ∀ j ∈ w.db.job, JobSound w.dir w.inode w.db.hintGen j

/-- The world of a sound store, between operations. -/
def Sound (m : Mode) (w : World) : Prop :=
  OnDisk m w ∧ InFlight w ∧ (w.db.closed = false → InStore w)

/-- What a mutation of the open store leaves alone. -/
structure Frame (w v : World) : Prop where
  opts : v.db.opts = w.db.opts
  closed : v.db.closed = w.db.closed
  now : v.now = w.now
  inode : v.inode = w.inode
  curGen : v.db.curGen = w.db.curGen
  schema : v.dir.schema = w.dir.schema
  prospective : v.db.prospective = w.db.prospective
  dropped : v.db.dropped = w.db.dropped

theorem Frame.refl (w : World) : Frame w w := ⟨rfl, rfl, rfl, rfl, rfl, rfl, rfl, rfl⟩

theorem Frame.trans {u v w : World} (h : Frame u v) (h' : Frame v w) : Frame u w :=
  ⟨h'.opts.trans h.opts, h'.closed.trans h.closed, h'.now.trans h.now, h'.inode.trans h.inode,
    h'.curGen.trans h.curGen, h'.schema.trans h.schema, h'.prospective.trans h.prospective,
    h'.dropped.trans h.dropped⟩

/-- The record holds a value for a key. -/
structure Dir.Stores (d : Dir) (r : Record) (key value : Bytes) (ix : AnyMap) (exp : Int64)
    (counter : Bool) : Prop where
  key : r.key = key
  value : d.valueOf r = value
  ix : r.ix = ix
  exp : r.exp = exp
  counter : r.counter = counter
  text : r.text = []
  deleted : r.deleted = false
  blob : ∀ b, r.blob = some b → d.Holds b

theorem Dir.Stores.cell {d : Dir} {r : Record} {key value : Bytes} {ix : AnyMap} {exp : Int64}
    {counter : Bool} (h : d.Stores r key value ix exp counter) :
    d.cell? r.readBack = some ⟨value, exp, counter, ix.readBack, r.blob.isSome⟩ := by
  have hvalue : d.valueOf r.readBack = value := h.value
  rw [Dir.cell?, Dir.cellOf, hvalue, ← h.exp, ← h.counter, ← h.ix]
  exact if_neg (by rw [show r.readBack.deleted = r.deleted from rfl, h.deleted]; decide)

/-- The world once a line has been written to the log. -/
def World.appended (w : World) (line : Bytes) (μ : Mutation) : World :=
  { w with
    dir := w.dir.appendMain (line ++ [newline])
    wrapped := w.wrapped || lengthWraps (line.length + 1)
    acked := w.acked.apply μ }

section Worlds

variable {m : Mode} {w : World}

/-- A line is on disk, and the history knows of it. -/
theorem OnDisk.append (h : OnDisk m w) {line : Bytes} {r : Record} (hline : w.dir.SoundLine line r)
    (hroom : w.dir.mainBytes.length + (line.length + 1) < maxFileSize) {μ : Mutation}
    (hμ : μ = mutationOf r.key (w.dir.cell? r)) : OnDisk m (w.appended line μ) := by
  refine ⟨h.1.append hline hroom, fun hm => ?_, h.2.2⟩
  rw [hμ]
  exact (h.2.1 hm).update (h.1.log.cells_append hline hroom)

theorem InFlight.append (h : InFlight w) (hd : OnDisk m w) {line : Bytes} {r : Record}
    (hline : w.dir.SoundLine line r)
    (hroom : w.dir.mainBytes.length + (line.length + 1) < maxFileSize) (μ : Mutation) :
    InFlight (w.appended line μ) :=
  fun j hj => (h j hj).of_log (hd.1.log_append hline hroom)

/-- A line is written and the index changed with it. -/
theorem Sound.append (h : Sound m w) {line : Bytes} {r : Record} (hline : w.dir.SoundLine line r)
    (hroom : w.dir.mainBytes.length + (line.length + 1) < maxFileSize) {μ : Mutation}
    (hμ : μ = mutationOf r.key (w.dir.cell? r)) {idx : Indexes}
    (hstep : idx.InStep w.db.opts.indexes)
    (hpk : Mirrors (pkOf (placed 0 (w.dir.log ++ [line]))) idx.pk) (s : Durable) :
    Sound m { w.appended line μ with
      durable := s
      db := { w.db with size := w.db.size + (lineLen line).toInt64, idx := idx } } := by
  refine ⟨h.1.append hline hroom hμ, h.2.1.append h.1 hline hroom μ, fun hopen => ?_⟩
  refine (h.2.2 hopen).append hline.fits hstep ?_
  rw [h.1.1.log_append hline hroom]
  exact hpk

/-- A value is written. -/
theorem Sound.put (h : Sound m w) (hopen : w.db.closed = false) {r : Record}
    {line key value : Bytes} {ix : AnyMap} {exp : Int64} {counter : Bool}
    (hr : w.dir.Stores r key value ix exp counter)
    (hkey : Utf8.valid key = true) (hix : Storable ix) (hline : marshalRecord r = some line)
    (hfits : lengthWraps (line.length + 1) = false)
    (hroom : w.dir.mainBytes.length + (line.length + 1) < maxFileSize) (s : Durable) :
    w.dir.SoundLine line r.readBack ∧
    Sound m { w.appended line (.put ⟨key, value, exp⟩) with
      durable := s
      db := { w.db with
        size := w.db.size + (lineLen line).toInt64
        idx := w.db.idx.put { key := key, off := w.db.size, n := lineLen line, exp := exp } ix } } ∧
    (w.dir.appendMain (line ++ [newline])).cells
      = Function.update w.dir.cells key
          (some ⟨value, exp, counter, ix.readBack, r.blob.isSome⟩) := by
  have hwritten : Written r line := ⟨hr.text, by rw [hr.ix]; exact hix.scalar, hline⟩
  have hrkey : r.readBack.key = key := by
    rw [Record.readBack_key (by rw [hr.key]; exact hkey), hr.key]
  have hsound : w.dir.SoundLine line r.readBack :=
    hwritten.soundLine (by rw [hr.key]; exact hkey) (by rw [hr.ix]; exact hix) hr.blob hfits
  have hstore := h.2.2 hopen
  have hsize : w.db.size = Int64.ofNat (joinLines w.dir.log).length := by
    rw [hstore.size_eq, fileSize, ← h.1.1.log.main]
  refine ⟨hsound, h.append hsound hroom ?_ (hstore.inStep.put rfl ?_) ?_ s, ?_⟩
  · rw [hr.cell, hrkey]
    rfl
  · have henc := encodable_of_marshal hline
    rwa [hr.ix] at henc
  · rw [Indexes.put_pk _ rfl, hsize]
    refine hstore.mirrors.put h.1.1.log.decodes hwritten.unmarshal hkey hix hrkey ?_ hr.exp
      hr.deleted
    rw [← hr.ix]
    rfl
  · rw [h.1.1.log.cells_append hsound hroom, hr.cell, hrkey]

/-- A tombstone is written. -/
theorem Sound.delete (h : Sound m w) (hopen : w.db.closed = false) {line key : Bytes}
    (hkey : Utf8.valid key = true) (hline : marshalRecord (tombstone key) = some line)
    (hfits : lengthWraps (line.length + 1) = false)
    (hroom : w.dir.mainBytes.length + (line.length + 1) < maxFileSize) (s : Durable) (n : Int64) :
    w.dir.SoundLine line (tombstone key).readBack ∧
    Sound m { w.appended line (.del key) with
      durable := s
      db := { w.db with
        size := w.db.size + (lineLen line).toInt64, idx := w.db.idx.delete key, writes := n } } ∧
    (w.dir.appendMain (line ++ [newline])).cells = Function.update w.dir.cells key none := by
  have hwritten : Written (tombstone key) line := ⟨rfl, storable_empty.scalar, hline⟩
  have hrkey : (tombstone key).readBack.key = key := Record.readBack_key hkey
  have hcell : w.dir.cell? (tombstone key).readBack = none := rfl
  have hsound : w.dir.SoundLine line (tombstone key).readBack :=
    hwritten.soundLine hkey storable_empty (by rintro b ⟨⟩) hfits
  have hstore := h.2.2 hopen
  refine ⟨hsound, ?_, ?_⟩
  · refine h.append hsound hroom ?_ (hstore.inStep.delete key) ?_ s
    · rw [hcell, hrkey]
      rfl
    · rw [Indexes.delete_pk]
      exact hstore.mirrors.delete h.1.1.log.decodes hwritten.unmarshal hrkey rfl
  · rw [h.1.1.log.cells_append hsound hroom, hcell, hrkey]

/-- A reference to the end of a blob file. -/
theorem Dir.holds_last {d : Dir} {gen : Int64} (hgen : 0 ≤ gen)
    (hpresent : (d.blob gen).isSome = true) {before value : Bytes}
    (hbytes : d.blobBytes gen = before ++ value) (hsized : before.length < maxFileSize)
    (hfits : lengthWraps value.length = false) {b : BlobRef}
    (hb : b = ⟨fileSize before, Int32.ofNat value.length, gen⟩) :
    d.Holds b ∧
      ((d.blobBytes b.gen).drop b.off.toInt.toNat).take b.size.toInt.toNat = value := by
  subst hb
  have hoff : (fileSize before).toInt = before.length := Int64.toInt_ofNat_of_lt hsized
  have hsize : (Int32.ofNat value.length).toInt = value.length := by
    rw [lengthWraps, decide_eq_false_iff_not, not_le] at hfits
    exact Int32.toInt_ofNat_of_lt hfits
  refine ⟨⟨hgen, hpresent, ?_, ?_, ?_⟩, ?_⟩
  · rw [Int64.le_iff_toInt_le, hoff]
    exact Int.natCast_nonneg _
  · rw [Int32.le_iff_toInt_le, hsize]
    exact Int.natCast_nonneg _
  · dsimp only
    rw [hoff, hsize, hbytes, List.length_append]
    omega
  · dsimp only
    rw [hoff, hsize, hbytes, Int.toNat_natCast, Int.toNat_natCast, List.drop_left, List.take_length]

/-- A reference to the end of a blob file, where a value has been appended. -/
theorem Dir.holds_appendBlob {d : Dir} (hd : d.WellSized) {gen : Int64} (hgen : 0 ≤ gen)
    {value : Bytes} (hfits : lengthWraps value.length = false) {b : BlobRef}
    (hb : b = ⟨fileSize (d.blobBytes gen), Int32.ofNat value.length, gen⟩) :
    (d.appendBlob gen value).Holds b ∧
      (((d.appendBlob gen value).blobBytes b.gen).drop b.off.toInt.toNat).take b.size.toInt.toNat
        = value := by
  refine Dir.holds_last hgen ?_ ?_ (hd.2 gen) hfits hb
  · rw [Dir.blob_appendBlob, if_pos rfl]
    rfl
  · rw [Dir.blobBytes_appendBlob, if_pos rfl]

/-- A blob is written to the current generation. -/
theorem Sound.appendBlob (h : Sound m w) (hopen : w.db.closed = false) {value : Bytes}
    (hroom : (w.dir.blobBytes w.db.curGen).length + value.length < maxFileSize) (b : Bool)
    (s : Durable) :
    OnDisk m { w with dir := w.dir.appendBlob w.db.curGen value, wrapped := b, durable := s } ∧
    Sound m { w with
      dir := w.dir.appendBlob w.db.curGen value
      wrapped := b
      durable := s
      db := { w.db with
        blobs := w.db.blobs.set {
          gen := w.db.curGen
          size := fileSize (w.dir.blobBytes w.db.curGen) + Int64.ofNat value.length } } } := by
  have hcells := h.1.1.cells_appendBlob w.db.curGen value
  have hdisk : OnDisk m { w with
      dir := w.dir.appendBlob w.db.curGen value, wrapped := b, durable := s } :=
    ⟨h.1.1.appendBlob hroom, fun hm => (h.1.2.1 hm).of_cells hcells, h.1.2.2⟩
  refine ⟨hdisk, hdisk, fun j hj => ?_, fun _ => (h.2.2 hopen).appendBlob value⟩
  exact (h.2.1 j hj).of_log (show _ = w.dir.log ++ [] from (List.append_nil _).symm)

end Worlds

end NteeDb.Core
