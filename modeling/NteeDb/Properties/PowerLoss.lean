import NteeDb.Invariants.Durability

/-!
# Durability ordering

A blob is synced before the record that refers to it is appended, and the log before
the hint that covers it.  So in every state of a run without rewrites, between
operations and within them, a power loss leaves no record without its blob and no
hint ahead of the log.
-/

namespace NteeDb.Properties.PowerLoss

open NteeDb.Core
open NteeDb.Verified
open Faults Lines OrderedTree

/-! ## Runs -/

/-- An operation that appends to the log, checkpoints the hint or reads: no rewrite, and
of the counter operations only the creation of a counter. -/
def appends (w : World) : Op → Bool
  | .compact => false
  | .reindex => false
  | .blobsRelieve => false
  | .incr key _ _ => w.db.creates w.now key
  | .topup key _ _ _ => w.db.creates w.now key
  | .take key _ _ _ => w.db.creates w.now key
  | _ => true

/-- The events of a run: such operations, carried out or cut off at any file step. -/
def AppendRun (w : World) : Event → Prop
  | .openStore _ _ => False
  | .op o plan => appends w o = true ∧ ∀ a ∈ plan, a = .ok ∨ a = .crash
  | .tick _ => True
  | .kill => True

instance (w : World) : DecidablePred (AppendRun w)
  | .openStore _ _ => .isFalse not_false
  | .op o plan =>
      inferInstanceAs (Decidable (appends w o = true ∧ ∀ a ∈ plan, a = .ok ∨ a = .crash))
  | .tick _ => .isTrue trivial
  | .kill => .isTrue trivial

/-- The store opened on an empty directory is in order. -/
theorem syncOrdered_start (opts : Options) (now : Millis) :
    SyncOrdered (exec (openStore opts) [] { now := now }) := by
  cases hdecl : declareAll opts.indexes noIndexes with
  | error e =>
      have hrun : openStore opts ⟨{ now := now }, []⟩ = (.error e, ⟨{ now := now }, []⟩) := by
        rw [openStore, Prog.run_bind_ok (show getWorld _ = (.ok _, _) from rfl),
          Prog.run_bind_ok (show require _ _ _ = (.ok (), _) from rfl), hdecl]
        rfl
      rw [exec, hrun]
      exact SyncOrdered.settle (r := (.error e, ⟨{ now := now }, []⟩))
        (syncOrdered_of_empty rfl rfl rfl (fun _ => rfl) rfl
          (fun bs hbs => absurd hbs (Tree.not_mem_empty bs)) rfl rfl)
  | ok secs =>
      have hspec : Spec (fun a => a = .ok) (fun w => w = { now := now }) (openStore opts)
          (fun _ => Opened opts ⟨Tree.empty, secs⟩ 0 { now := now })
          (OpenCrash (fun a => a = .ok) 0 { now := now }) :=
        openStore_spec (fun k hk => by cases hk) rfl hdecl rfl (by decide)
      obtain ⟨_, w, plan, hrun, hopen⟩ := (hspec.errors
        fun _ _ h => absurd h.2.1 (by decide)).run_ok rfl
      rw [exec, hrun]
      have hmain : w.dir.mainBytes = [] := by
        rw [Dir.mainBytes, hopen.main]
        rfl
      refine SyncOrdered.settle (r := (.ok (), ⟨w, plan⟩)) (syncOrdered_of_empty hmain
        hopen.untouched.hint (Nat.le_zero.mp hopen.untouched.mainSynced)
        (fun gen => congrFun hopen.untouched.blobsSynced gen) ?_ (fun bs hbs => ?_) ?_
        hopen.store.job)
      · rw [hopen.store.size, hmain]
        rfl
      · have hget := (hopen.store.stores bs.gen).symm.trans
          (show w.db.blobStore bs.gen = some bs from Tree.get?_eq_some.mpr ⟨hbs, rfl⟩)
        split at hget
        · rw [← Option.some.inj hget]
          show fileSize (w.dir.blobBytes bs.gen) = 0
          rw [hopen.untouched.blob]
          rfl
        · cases hget
      · rw [hopen.store.idx]

theorem op_ordered {o : Op} {w : World} {plan : List Answer} (ho : appends w o = true)
    (hplan : ∀ a ∈ plan, a = .ok ∨ a = .crash) (h : SyncOrdered w) :
    SyncOrdered (o.run ⟨w, plan⟩).2.world := by
  have hA : ∀ k, ¬ (Answer.fail k = .ok ∨ Answer.fail k = .crash) := fun k => by simp
  have hkept : ∀ {α : Type} {c : StoreM α}, Keeps (fun a => a = .ok ∨ a = .crash) SyncOrdered c →
      SyncOrdered (c ⟨w, plan⟩).2.world := fun hc => hc.run h hplan
  have hdrop : ∀ {α : Type} {c : StoreM α}, Keeps (fun a => a = .ok ∨ a = .crash) SyncOrdered c →
      SyncOrdered (dropValue c ⟨w, plan⟩).2.world :=
    fun hc => hkept (Keeps.bind hc fun _ => Keeps.pure ())
  have hcounter : ∀ {β : Type} {c : StoreM β} (key : Bytes), w.db.creates w.now key = true →
      Spec (fun a => a = .ok ∨ a = .crash)
        (fun w => SyncOrdered w ∧ w.db.creates w.now key = true) c (fun _ => SyncOrdered)
        (fun _ => SyncOrdered) → SyncOrdered (dropValue c ⟨w, plan⟩).2.world := by
    intro β c key hkey hc
    have hspec : Spec _ _ (dropValue c) (fun _ => SyncOrdered) fun _ => SyncOrdered :=
      Spec.bind hc fun _ => Spec.pure fun _ h => h
    exact hspec.world ⟨h, hkey⟩ hplan
  cases o with
  | put ord key value ttl => exact hkept (putIndexed_ordered hA ord key value Tree.empty ttl)
  | putIndexed ord key value ix ttl => exact hkept (putIndexed_ordered hA ord key value ix ttl)
  | putBatch ords items => exact hkept (putBatch_ordered hA ords items)
  | delete key => exact hkept (delete_ordered hA key)
  | removeByPkLess cutoff =>
      exact hdrop (Keeps.bind requireOpen_keeps fun _ =>
        Keeps.bind Keeps.getWorld fun _ => removePkEntries_ordered hA _)
  | removeByPkGreater cutoff =>
      exact hdrop (Keeps.bind requireOpen_keeps fun _ =>
        Keeps.bind Keeps.getWorld fun _ => removePkEntries_ordered hA _)
  | incr key delta ttl => exact hcounter key ho (counterOp_ordered hA key ttl _)
  | topup key amount max ttl =>
      exact hcounter key ho (Spec.bind (Spec.require (fun _ h _ => h) fun _ h _ => h.1)
        fun _ => counterOp_ordered hA key ttl _)
  | take key amount left ttl =>
      exact hcounter key ho (Spec.bind (Spec.require (fun _ h _ => h) fun _ h _ => h.1)
        fun _ => counterOp_ordered hA key ttl _)
  | get key => exact hdrop (get_keeps (fun _ _ h => h) key)
  | getMany keys => exact hdrop (getMany_keeps (fun _ _ h => h) keys)
  | has key => exact hdrop (has_keeps (fun _ _ h => h) key)
  | prefixScan p => exact hdrop (prefixScan_keeps (fun _ _ h => h) p)
  | compact => cases ho
  | reindex => cases ho
  | blobsRelieve => cases ho
  | close => exact hkept close_ordered
  | reapCycle n => exact hkept (reapCycle_ordered hA n)
  | hintAsyncFlush => exact hkept hintAsyncFlush_ordered
  | hintAsyncWrite => exact hkept hintAsyncWrite_ordered

theorem syncOrdered_run {opts : Options} {now : Millis} {w : World}
    (h : Reaches AppendRun (exec (openStore opts) [] { now := now }) w) : SyncOrdered w := by
  refine h.invariant (syncOrdered_start opts now) fun w ev hev hw => ?_
  cases ev with
  | openStore opts plan => exact hev.elim
  | op o plan => exact SyncOrdered.settle (op_ordered hev.1 hev.2 hw)
  | tick now => exact hw
  | kill => exact hw.kill

/-! ## Power loss -/

/-- What a power loss may leave: of every file a prefix that holds the synced one; a hint
is renamed into place as a whole. -/
structure AfterPowerLoss (w : World) (d : Dir) : Prop where
  main : ∃ n, w.durable.main ≤ n ∧ d.mainBytes = w.dir.mainBytes.take n
  blobs : ∀ gen, ∃ n, w.durable.blobs gen ≤ n ∧ d.blobBytes gen = (w.dir.blobBytes gen).take n
  hint : d.hint = w.dir.hint

/-- A complete line of a prefix of the log is a line of the log. -/
theorem mem_splitLines_take {bytes line : Bytes} {n : Nat}
    (h : line ∈ (splitLines (bytes.take n)).1) : line ∈ (splitLines bytes).1 := by
  have hprefix := splitLines_prefix (bytes.take n) (bytes.drop n)
  rw [List.take_append_drop] at hprefix
  exact hprefix.subset h

/-- **Durability ordering.**  In every state that a run without rewrites passes through,
every blob that a record of the log refers to lies in the synced part of its file, and the
hint covers only what is synced of the log.  So a power loss leaves no record without its
blob, and no hint ahead of the log. -/
theorem synced_in_order (opts : Options) (now : Millis) {w : World}
    (h : Reaches AppendRun (exec (openStore opts) [] { now := now }) w) :
    (∀ l ∈ (splitLines w.dir.mainBytes).1, ∀ r b, unmarshalRecord l = some r → r.blob = some b →
      w.durable.Within b) ∧
    (∀ es covers, loadIndexHint w.dir.hint = some (es, covers) → covers.toInt ≤ w.durable.main) ∧
    ∀ d, AfterPowerLoss w d →
      (∀ l ∈ (splitLines d.mainBytes).1, ∀ r, unmarshalRecord l = some r → d.goodRecord r = true) ∧
      ∀ es covers, loadIndexHint d.hint = some (es, covers) →
        covers.toInt ≤ d.mainBytes.length := by
  have hw := syncOrdered_run h
  have hlines := fun l hl r b hr hb => hw.within (l := l) hl (r := r) (b := b) hr hb
  refine ⟨hlines, hw.hint, fun d hd => ⟨fun l hl r hr => ?_, fun es covers hload => ?_⟩⟩
  · obtain ⟨n, _, hmain⟩ := hd.main
    rw [hmain] at hl
    rw [Dir.goodRecord]
    cases hb : r.blob with
    | none => rfl
    | some b =>
        have hwithin := hlines l (mem_splitLines_take hl) r b hr hb
        obtain ⟨k, hk, hblob⟩ := hd.blobs b.gen
        have hfinish := hwithin.finish
        have hlen := hw.blobs b.gen
        refine decide_eq_true ?_
        rw [hblob, List.length_take]
        omega
  · obtain ⟨n, hn, hmain⟩ := hd.main
    rw [hd.hint] at hload
    have hcovers := hw.hint es covers hload
    have hlen := hw.main
    rw [hmain, List.length_take]
    omega

/-- A store that keeps every value in a blob file and checkpoints after every write. -/
def checkpointing : World :=
  exec (openStore { blobThreshold := 1, hintEveryN := 1 }) [] { now := ⟨0, Millis.zero_bounded⟩ }

/-- A value is put, and the background writer takes its two steps. -/
def checkpointedPut : List Event :=
  [.op (.put MapOrder.sorted [0x61] [0x78, 0x79] []) [], .op .hintAsyncFlush [],
    .op .hintAsyncWrite []]

/-- After these steps the log is synced, and the ordering holds of it. -/
theorem checkpointedPut_in_order :
    (0 < (runEvents checkpointing checkpointedPut).durable.main ∧
      (runEvents checkpointing checkpointedPut).durable.blobs 0 = 2) ∧
    ∀ l ∈ (splitLines (runEvents checkpointing checkpointedPut).dir.mainBytes).1, ∀ r b,
      unmarshalRecord l = some r → r.blob = some b →
        (runEvents checkpointing checkpointedPut).durable.Within b :=
  have hrun : AllowedRun AppendRun checkpointing checkpointedPut :=
    ⟨⟨rfl, by simp⟩, ⟨rfl, by simp⟩, ⟨rfl, by simp⟩, trivial⟩
  ⟨by decide +kernel, (synced_in_order _ _ (reaches_runEvents .start hrun)).1⟩

end NteeDb.Properties.PowerLoss
