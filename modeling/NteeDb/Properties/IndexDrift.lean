import NteeDb.Invariants.Exact
import NteeDb.Invariants.Sessions

/-!
# The index in memory and the log

Between the operations of a run, a scan of the whole log gives the index in memory: the
same keys, places, expiries and index values, the same secondary trees, and the end of the
file as its good end.  The line of every entry is that of a record with its key, its expiry
and the value that `Get` returns.  So a process that is killed there loses nothing.

All of it rests on the lengths: a value of 2^31 bytes is written without an error, and can
never be read again.

## Main results

* `no_drift` — index and log in every world of a run.
* `long_value_panics` — the value that is lost.
-/

namespace NteeDb.Properties.IndexDrift

open NteeDb.Verified
open Faults Lines OrderedTree JsonCodec
open NteeDb.Core

/-! ## Entries -/

/-- The entry scanned is the one in memory, with its index values as every index reads
them. -/
structure SameEntry (mem scanned : PkEntry) : Prop where
  key : scanned.key = mem.key
  off : scanned.off = mem.off
  n : scanned.n = mem.n
  exp : scanned.exp = mem.exp
  ix : ∀ si pk, entryOf si scanned.ix pk = entryOf si mem.ix pk

/-- The line of the entry holds the record of its key, with its expiry and with the value
that `Get` returns. -/
structure LineOf (w : World) (e : PkEntry) (r : Record) : Prop where
  read : w.dir.recordAt e = .ok r
  alive : r.deleted = false
  key : r.key = e.key
  exp : r.exp = e.exp
  value : e.expiredAt w.now.ms = false → (get e.key ⟨w, []⟩).1 = .ok (some (w.dir.valueOf r))

/-- Index and log agree. -/
structure NoDrift (w : World) : Prop where
  /-- A full scan, with the trees empty at first, gives the indexes in memory. -/
  scan : ∃ idx, scanMainLog w.dir.main 0 w.dir.replayRecord ⟨Tree.empty, w.db.idx.secs.clear⟩
      = .ok (idx, fileSize w.dir.mainBytes) ∧
    List.Forall₂ SameEntry w.db.idx.pk.items idx.pk.items ∧ idx.secs = w.db.idx.secs
  /-- The store knows where the log ends. -/
  size : w.db.size = fileSize w.dir.mainBytes
  line : ∀ e ∈ w.db.idx.pk, ∃ r, LineOf w e r
  /-- A store opened on the files of the dead process returns what this one did. -/
  killed : ∀ opts plan, CarriedDefs opts.indexes → Answered plan →
    Succeeds (openStore opts) plan w.kill = true →
    ∀ key, (get key ⟨exec (openStore opts) plan w.kill, []⟩).1 = (get key ⟨w, []⟩).1

section Sound

variable {m : Mode} {w : World}

theorem sameEntry_readBack {disk mem : PkIndex} (h : Mirrors disk mem) {e : PkEntry}
    (he : e ∈ mem) : SameEntry e e.readBack :=
  ⟨h.readBack_key he, rfl, rfl, rfl,
    entryOf_readBack (h.ix e he).scalar (h.ix e he).carried⟩

/-- The scan gives the entries in memory. -/
theorem sameEntries {disk mem : PkIndex} (h : Mirrors disk mem) :
    List.Forall₂ SameEntry mem.items disk.items := by
  rw [h.items, List.forall₂_map_right_iff, List.forall₂_same]
  exact fun e he => sameEntry_readBack h he

/-- The entries of the log and those in memory give rise to the same trees. -/
theorem indexed_iff_mirrored {disk mem : PkIndex} (h : Mirrors disk mem) (si : SecIndex)
    (x : SecEntry) : (∃ p ∈ disk, Indexed si p x) ↔ ∃ p ∈ mem, Indexed si p x := by
  have hsame : ∀ p ∈ mem, Indexed si p.readBack x ↔ Indexed si p x := by
    intro p hp
    have hentry := sameEntry_readBack h hp
    rw [indexed_iff, indexed_iff, hentry.ix, hentry.key]
  constructor
  · rintro ⟨p, hp, hx⟩
    rw [Tree.mem_def, h.items] at hp
    obtain ⟨q, hq, rfl⟩ := List.mem_map.mp hp
    exact ⟨q, hq, (hsame q hq).mp hx⟩
  · rintro ⟨p, hp, hx⟩
    refine ⟨p.readBack, ?_, (hsame p hp).mpr hx⟩
    rw [Tree.mem_def, h.items]
    exact List.mem_map_of_mem hp

theorem clear_trees (secs : SecIndexes) : ∀ si ∈ secs.clear.items, si.tree = Tree.empty := by
  intro si hsi
  obtain ⟨si, _, rfl⟩ := List.mem_map.mp hsi
  rfl

theorem clear_decls (secs : SecIndexes) : secs.clear.decls = secs.decls := by
  rw [SecIndexes.decls, SecIndexes.decls, SecIndexes.clear]
  exact (List.map_map ..).trans rfl

/-- A scan of the whole log of a sound store. -/
theorem scan_of_sound (h : Sound m w) (hopen : w.db.closed = false) :
    ∃ idx, scanMainLog w.dir.main 0 w.dir.replayRecord ⟨Tree.empty, w.db.idx.secs.clear⟩
        = .ok (idx, fileSize w.dir.mainBytes) ∧
      List.Forall₂ SameEntry w.db.idx.pk.items idx.pk.items ∧ idx.secs = w.db.idx.secs := by
  have hstore := h.2.2 hopen
  obtain ⟨idx, hscan, hpk, hstep⟩ := h.1.1.log.scan_hint hstore.main (hintOf_zero w.dir.log)
    (clear_trees w.db.idx.secs) ((clear_decls _).trans hstore.inStep.declared)
  refine ⟨idx, hscan, hpk ▸ sameEntries hstore.mirrors, hstep.secs_eq hstore.inStep fun si x => ?_⟩
  rw [hpk]
  exact indexed_iff_mirrored hstore.mirrors si x

theorem line_of_sound (h : Sound m w) (hopen : w.db.closed = false) {e : PkEntry}
    (he : e ∈ w.db.idx.pk) : ∃ r, LineOf w e r := by
  have hget := PkIndex.get_mem he
  obtain ⟨p, hp⟩ := h.located hopen hget
  refine ⟨p.record, hp.read, hp.live, hp.key, hp.exp, fun hlive => ?_⟩
  rw [get_run, h.fetch hopen, (h.live_some hopen hget).2 hlive, hp.cell]
  rfl

/-- The next `Open` finds everything the store held. -/
theorem get_after_kill (h : Sound ⟨false, true⟩ w) (hopen : w.db.closed = false) {opts : Options}
    {plan : List Answer} (hopts : CarriedDefs opts.indexes) (hplan : Answered plan)
    (hok : Succeeds (openStore opts) plan w.kill = true) (key : Bytes) :
    (get key ⟨exec (openStore opts) plan w.kill, []⟩).1 = (get key ⟨w, []⟩).1 := by
  have hfresh : w.kill.dir.usableHint.isSome = true → w.kill.hintInode = w.kill.inode :=
    fun husable =>
    (h.1.2.2 rfl).resolve_left (Dir.hint_of_usable husable)
  have hspec := openStore_sound (A := fun a => ∀ k, a ≠ .fail k) (fun k hk => hk k rfl)
    (w := w.kill) h.1 hfresh hopts
  refine exec_spec hspec rfl hplan.answers
    (R := fun v => (get key ⟨v, []⟩).1 = (get key ⟨w, []⟩).1) ?_ fun e v hfails _ =>
      absurd hfails (Succeeds.not_fails hok e)
  rintro _ v ⟨hv, hcells, _, idx, _, _, _, hopened⟩
  have hlive : v.live key = w.live key := by
    rw [World.live, World.live, hcells, hopened.untouched.now]
    rfl
  rw [get_run, get_run, hv.fetch hopened.store.closed, h.fetch hopen, hlive]

end Sound

/-! ## The property -/

/-- **The index never drifts from the log.**  In every world of a run from an empty
directory in which nothing was refused and the process died between operations only, the
open store and its log agree, unless a length has wrapped. -/
theorem no_drift {now : Millis} {w : World}
    (hrun : Reaches (Allowed ⟨false, true⟩) { now := now } w)
    (hopen : w.db.closed = false) (hfits : w.wrapped = false) : NoDrift w := by
  have hsound := sound_run hrun hfits
  refine ⟨scan_of_sound hsound hopen, (hsound.2.2 hopen).size_eq,
    fun e he => line_of_sound hsound hopen he,
      fun opts plan hopts hplan hok => get_after_kill hsound hopen hopts hplan hok⟩

/-- A blob, a counter patched in place, a record overwritten and one deleted. -/
def fewWrites : List Event :=
  [.openStore { blobThreshold := 2 } [], .op (.put .sorted [0x61] [0x78, 0x79] []) [],
    .op (.incr [0x63] 1 []) [], .op (.incr [0x63] 1 []) [], .op (.put .sorted [0x61] [0x31] []) [],
    .op (.put .sorted [0x62] [0x32] []) [], .op (.delete [0x62]) []]

theorem few_writes_no_drift :
    NoDrift (runEvents { now := ⟨0, Millis.zero_bounded⟩ } fewWrites) := by
  refine no_drift (reaches_runEvents .start ?_) (by decide +kernel) (by decide +kernel)
  refine ⟨.open_of_ok (List.forall_mem_nil _) answered_nil (by decide +kernel) (by rintro ⟨⟩),
    .op_of_ok (show Utf8.valid [0x61] = true by decide) answered_nil (by decide +kernel),
    .op_of_ok (show Utf8.valid [0x63] = true by decide) answered_nil (by decide +kernel),
    .op_of_ok (show Utf8.valid [0x63] = true by decide) answered_nil (by decide +kernel),
    .op_of_ok (show Utf8.valid [0x61] = true by decide) answered_nil (by decide +kernel),
    .op_of_ok (show Utf8.valid [0x62] = true by decide) answered_nil (by decide +kernel),
    .op_of_ok trivial answered_nil (by decide +kernel), trivial⟩

/-! ## A value of 2^31 bytes -/

/-- The store after a value went to the blob file of its generation. -/
def stored (w : World) (bs : BlobStore) (value : Bytes) : World :=
  { w with
    dir := w.dir.appendBlob bs.gen value
    wrapped := w.wrapped || lengthWraps value.length
    db := { w.db with
      blobs := w.db.blobs.set { bs with size := bs.size + Int64.ofNat value.length } }
    durable := w.durable.setBlob w.db.curGen
      ((w.dir.appendBlob bs.gen value).blobBytes w.db.curGen).length }

/-- The store after the line of its record was appended. -/
def listed (u : World) (key value line : Bytes) : World :=
  { u.appended line (.put ⟨key, value, 0⟩) with
    db := { u.db with
      size := u.db.size + (lineLen line).toInt64
      idx := u.db.idx.put (u.entryFor key line 0) Tree.empty
      writes := u.db.writes + Int64.ofNat 1 }.maybeSnapshot }

/-- The record of such a value. -/
def blobRecord (w : World) (bs : BlobStore) (key value : Bytes) : Record :=
  { key := key, blob := some ⟨bs.size, Int32.ofNat value.length, w.db.curGen⟩ }

section Run

variable {w : World} {bs : BlobStore} {value : Bytes}

theorem append_run (hisOpen : bs.isOpen = true)
    (hroom : (w.dir.blobBytes bs.gen).length + value.length < maxFileSize) :
    bs.append value ⟨w, []⟩
      = (.ok (⟨bs.size, Int32.ofNat value.length, 0⟩,
          { bs with size := bs.size + Int64.ofNat value.length }),
        ⟨{ w with dir := w.dir.appendBlob bs.gen value
                  wrapped := w.wrapped || lengthWraps value.length }, []⟩) := by
  unfold BlobStore.append
  rw [hisOpen, Prog.run_bind_ok (show require true _ _ = (.ok (), _) from rfl),
    Prog.run_bind_ok (show getWorld _ = (.ok w, _) from rfl), decide_eq_true hroom]
  rfl

theorem appendBlob_run (hbs : w.db.blobStore w.db.curGen = some bs) (hisOpen : bs.isOpen = true)
    (hroom : (w.dir.blobBytes bs.gen).length + value.length < maxFileSize) :
    appendBlob w.db.curGen value ⟨w, []⟩
      = (.ok ⟨bs.size, Int32.ofNat value.length, 0⟩,
        ⟨{ stored w bs value with durable := w.durable }, []⟩) := by
  unfold appendBlob
  rw [Prog.run_bind_ok (show getWorld _ = (.ok w, _) from rfl), hbs]
  dsimp only
  rw [Prog.run_bind_ok (append_run hisOpen hroom)]
  rfl

theorem stored_blobStore (hbs : w.db.blobStore w.db.curGen = some bs) :
    (stored w bs value).db.blobStore w.db.curGen
      = some { bs with size := bs.size + Int64.ofNat value.length } := by
  have hgen := gen_of_blobStore hbs
  rw [DB.blobStore, stored, blobStores_get_set, if_pos hgen.symm]

theorem storeValue_run (hbs : w.db.blobStore w.db.curGen = some bs) (hisOpen : bs.isOpen = true)
    (huse : w.db.useBlobFor value.length = true)
    (hroom : (w.dir.blobBytes bs.gen).length + value.length < maxFileSize) (key : Bytes) :
    storeValue key value Tree.empty 0 false ⟨w, []⟩
      = (.ok (blobRecord w bs key value), ⟨stored w bs value, []⟩) := by
  have hflush : flushBlob w.db.curGen ⟨{ stored w bs value with durable := w.durable }, []⟩
      = (.ok (), ⟨stored w bs value, []⟩) := by
    unfold flushBlob
    rw [Prog.run_bind_ok (show getWorld _ = (.ok _, _) from rfl), stored_blobStore hbs]
    dsimp only
    rw [hisOpen]
    rfl
  unfold storeValue
  rw [Prog.run_bind_ok (show getWorld _ = (.ok w, _) from rfl), huse]
  show (appendBlob w.db.curGen value >>= fun _ => _) ⟨w, []⟩ = _
  rw [Prog.run_bind_ok (appendBlob_run hbs hisOpen hroom), Prog.run_bind_ok hflush]
  rfl

theorem appendSync_run {r : Record} {line : Bytes} (hline : marshalRecord r = some line)
    (hroom : w.dir.mainBytes.length + (line.length + 1) < maxFileSize) (μ : Mutation) :
    appendSync r μ false ⟨w, []⟩ = (.ok (w.db.size, lineLen line),
      ⟨{ w.appended line μ with db := { w.db with size := w.db.size + (lineLen line).toInt64 } },
        []⟩) := by
  unfold appendSync
  rw [hline]
  dsimp only
  rw [Prog.run_bind_ok (show getWorld _ = (.ok w, _) from rfl), decide_eq_true hroom]
  rfl

/-- `Put` of a value that goes to the blob file, where no index is declared. -/
theorem put_run {key line : Bytes} (hopen : w.db.closed = false) (hsecs : w.db.idx.secs.items = [])
    (hsync : w.db.opts.syncEveryWrite = false) (hbs : w.db.blobStore w.db.curGen = some bs)
    (hisOpen : bs.isOpen = true) (huse : w.db.useBlobFor value.length = true)
    (hroom : (w.dir.blobBytes bs.gen).length + value.length < maxFileSize)
    (hline : marshalRecord (blobRecord w bs key value) = some line)
    (hmain : w.dir.mainBytes.length + (line.length + 1) < maxFileSize) :
    put .sorted key value [] ⟨w, []⟩
      = (.ok (), ⟨listed (stored w bs value) key value line, []⟩) := by
  have hbuild : w.db.buildIndexValues .sorted key value Tree.empty = .ok Tree.empty := by
    rw [DB.buildIndexValues, if_pos ⟨hsecs, rfl⟩]
  have hrequire : requireOpen ⟨w, []⟩ = (.ok (), ⟨w, []⟩) := by
    unfold requireOpen
    rw [Prog.run_bind_ok (show getWorld _ = (.ok w, _) from rfl), hopen]
    rfl
  have happend : appendRecord key value Tree.empty 0 false false ⟨w, []⟩ = (.ok (),
      ⟨{ (stored w bs value).appended line (.put ⟨key, value, 0⟩) with
          db := { (stored w bs value).db with
            size := w.db.size + (lineLen line).toInt64
            idx := w.db.idx.put (w.entryFor key line 0) Tree.empty } }, []⟩) := by
    unfold appendRecord
    rw [Prog.run_bind_ok (storeValue_run hbs hisOpen huse hroom key),
      Prog.run_bind_ok (appendSync_run (w := stored w bs value) hline hmain _)]
    rfl
  unfold put putIndexed
  rw [Prog.run_bind_ok (show getWorld _ = (.ok w, _) from rfl),
    Prog.run_bind_ok (show Prog.ofExcept (resolveTTL w.now []) _ = (.ok 0, _) from rfl),
    Prog.run_bind_ok hrequire]
  unfold write
  rw [Prog.run_bind_ok (show getWorld _ = (.ok w, _) from rfl), hbuild, hsync,
    Prog.run_bind_ok (show Prog.ofExcept _ _ = (.ok Tree.empty, _) from rfl),
    Prog.run_bind_ok (show Prog.ofExcept _ _ = (.ok (), _) from rfl), Prog.run_bind_ok happend]
  rfl

end Run

/-- A store just opened in an empty directory; every value goes to the blob file. -/
def smallBlobs : World :=
  (Event.openStore { blobThreshold := 1 } []).apply { now := ⟨0, Millis.zero_bounded⟩ }

/-- The record of a value of 2^31 bytes. -/
def longRecord : Record := { key := [0x61], blob := some ⟨0, Int32.ofNat 2147483648, 0⟩ }

def longLine : Bytes := (marshalRecord longRecord).getD []

/-- The world after such a value was put. -/
def longWorld (value : Bytes) : World :=
  listed (stored smallBlobs { gen := 0 } value) [0x61] value longLine

/-- The value is put without an error. -/
theorem put_long {value : Bytes} (hlen : value.length = 2147483648) :
    put .sorted [0x61] value [] ⟨smallBlobs, []⟩ = (.ok (), ⟨longWorld value, []⟩) := by
  have hcur : smallBlobs.db.curGen = 0 := by decide +kernel
  have hline : marshalRecord (blobRecord smallBlobs { gen := 0 } [0x61] value) = some longLine := by
    rw [blobRecord, hlen, hcur]
    decide +kernel
  refine put_run (by decide +kernel) (by decide +kernel) (by decide +kernel) ?_ rfl ?_ ?_ hline
    (by decide +kernel)
  · rw [hcur]
    decide +kernel
  · rw [hlen]
    decide +kernel
  · rw [hlen]
    decide +kernel

theorem snapshot_frame (db : DB) : db.maybeSnapshot.idx = db.idx ∧
    db.maybeSnapshot.closed = db.closed ∧ db.maybeSnapshot.blobs = db.blobs := by
  rw [DB.maybeSnapshot]
  split <;> exact ⟨rfl, rfl, rfl⟩

theorem entry_long (value : Bytes) : (longWorld value).db.idx.pk.get [0x61]
    = some (smallBlobs.entryFor [0x61] longLine 0) := by
  rw [longWorld, listed, (snapshot_frame _).1]
  dsimp only
  rw [Indexes.put_pk _ rfl, PkIndex.get_set]
  exact if_pos rfl

/-- Its size is negative in its record: reading it panics. -/
theorem fetch_long (value : Bytes) : (longWorld value).fetch [0x61] = .error .panic := by
  have hcur : smallBlobs.db.curGen = 0 := by decide +kernel
  have hclosed : (longWorld value).db.closed = false := by
    rw [longWorld, listed, (snapshot_frame _).2.1]
    exact (by decide +kernel : smallBlobs.db.closed = false)
  have hstore : (longWorld value).db.blobStore 0
      = some { gen := 0, size := 0 + Int64.ofNat value.length } := by
    rw [longWorld, listed, DB.blobStore, (snapshot_frame _).2.2, ← DB.blobStore, ← hcur]
    exact stored_blobStore (by decide +kernel)
  have hmain : (longWorld value).dir.mainBytes = longLine ++ [newline] := by
    have hempty : smallBlobs.dir.mainBytes = [] := by decide +kernel
    show smallBlobs.dir.mainBytes ++ (longLine ++ [newline]) = _
    rw [hempty]
    rfl
  have hread : (longWorld value).dir.recordAt (smallBlobs.entryFor [0x61] longLine 0)
      = .ok longRecord := by
    rw [Dir.recordAt, hmain]
    decide +kernel
  have hvalue : (longWorld value).valueAt longRecord = .error .panic := by
    rw [World.valueAt, longRecord]
    dsimp only
    rw [hstore]
    rfl
  have hn : ¬ (smallBlobs.entryFor [0x61] longLine 0).n < 0 := by decide +kernel
  rw [World.fetch, hclosed, entry_long]
  dsimp only
  rw [hread, if_neg hn]
  show (((longWorld value).valueAt longRecord).map some) = _
  rw [hvalue]
  rfl

theorem reaches_smallBlobs :
    Reaches (Allowed ⟨false, true⟩) { now := ⟨0, Millis.zero_bounded⟩ } smallBlobs :=
  .step .start (.open_of_ok (List.forall_mem_nil _) answered_nil (by decide +kernel) (by rintro ⟨⟩))

/-- `Put` of a value of 2^31 bytes succeeds; index and log have parted, and a `Get` ends
the process. -/
theorem long_value_panics :
    ∃ v, Reaches (Allowed ⟨false, true⟩) { now := ⟨0, Millis.zero_bounded⟩ } v ∧
      put .sorted [0x61] (List.replicate 2147483648 0) [] ⟨smallBlobs, []⟩ = (.ok (), ⟨v, []⟩) ∧
      (get [0x61] ⟨v, []⟩).1 = .error .panic ∧ ¬ NoDrift v := by
  have hput := @put_long (List.replicate 2147483648 0) List.length_replicate
  have hget : (get [0x61] ⟨longWorld (List.replicate 2147483648 0), []⟩).1 = .error .panic := by
    rw [get_run, fetch_long]
  refine ⟨_, ?_, hput, hget, fun hdrift => ?_⟩
  · have happly : (Event.op (.put .sorted [0x61] (List.replicate 2147483648 0) []) []).apply
        smallBlobs = longWorld (List.replicate 2147483648 0) := by
      rw [Event.apply, Op.run, exec, hput]
      rfl
    rw [← happly]
    refine .step reaches_smallBlobs
      (.op_of_ok (show Utf8.valid [0x61] = true by decide) answered_nil ?_)
    rw [Succeeds, Op.run, hput]
    rfl
  · obtain ⟨r, hr⟩ := hdrift.line _ (PkIndex.get_eq_some.mp (entry_long _)).1
    have hvalue := hr.value rfl
    rw [show (smallBlobs.entryFor [0x61] longLine 0).key = [0x61] from rfl, hget] at hvalue
    cases hvalue

end NteeDb.Properties.IndexDrift
