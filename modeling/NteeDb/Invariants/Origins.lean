import NteeDb.Invariants.Refusals
import NteeDb.Invariants.Tidy

/-!
# Where records come from

What the log holds for a key after an operation was there before, or was written with the index
values that the declared indexes gave it, or is a counter, or went through a rewrite (`Origin`).
What holds of every record of a store in terms of its value and its index values has to be shown
for these four only.

## Main results

* `op_descends` — the records after an operation, and the schema.
-/

namespace NteeDb.Core

open NteeDb.Verified
open Faults OrderedTree JsonCodec

/-- Where what the log holds for a key comes from, seen from the world before. -/
inductive Origin (w : World) (key : Bytes) : Cell → Prop
  | old {c : Cell} (h : w.dir.cells key = some c) : Origin w key c
  | written {c : Cell} {ord : MapOrder} {explicit ix : AnyMap} (isOpen : w.db.closed = false)
      (built : w.db.buildIndexValues ord key c.value explicit = .ok ix) (storable : Storable ix)
      (read : c.ix = ix.readBack) : Origin w key c
  | counter {c : Cell} {n : Int64} (value : c.value = formatCounter n) : Origin w key c
  | recast {c : Cell} (isOpen : w.db.closed = false) (h : w.dir.cells key = some c) :
      Origin w key (compactCell w.db key c)

/-- The records of `v` come from `w`; the schema is the same. -/
structure Descends (w v : World) : Prop where
  cells : ∀ key c, v.dir.cells key = some c → Origin w key c
  schema : v.dir.schema = w.dir.schema
  opened : v.db.closed = false → w.db.closed = false ∧ v.db.opts = w.db.opts ∧
    v.db.prospective = w.db.prospective

/-- `Reindex` has derived the index values of every record again. -/
def Rederived (m : Mode) (w v : World) : Prop :=
  ∃ z, v = z.marked ∧ w.db.closed = false ∧ Sound m z ∧ Recasts w z ∧
    ∀ key c, z.dir.cells key = some c → ∃ c₀ ix, w.dir.cells key = some c₀ ∧
      w.db.reExtracted key c₀.value c₀.ix = .ok ix ∧ c = { c₀ with ix := ix.readBack }

/-! ## Outcomes -/

section Outcomes

variable {m : Mode} {w v : World}

theorem Descends.of_frame (hframe : Frame w v)
    (hcells : ∀ key c, v.dir.cells key = some c → Origin w key c) : Descends w v :=
  ⟨hcells, hframe.schema, fun hopen => ⟨hframe.closed.symm.trans hopen, hframe.opts,
    hframe.prospective⟩⟩

theorem Origin.of_shrinks (h : Shrinks w v) {key : Bytes} {c : Cell}
    (hc : v.dir.cells key = some c) : Origin w key c := by
  rcases h key with hsame | hnone
  · exact .old (hsame.symm.trans hc)
  · rw [hc] at hnone
    cases hnone

theorem Descends.of_shrinks (hframe : Frame w v) (hcells : Shrinks w v) : Descends w v :=
  .of_frame hframe fun _ _ => Origin.of_shrinks hcells

theorem Descends.of_same (hframe : Frame w v) (hsame : SameContents w v) : Descends w v :=
  .of_shrinks hframe fun key => Or.inl (congrFun hsame.cells key)

/-- One record more. -/
theorem Origin.of_update {cells : Bytes → Option Cell} {key : Bytes} {c : Cell}
    (hcells : ∀ k c, cells k = some c → Origin w k c) (hc : Origin w key c) :
    ∀ k c', Function.update cells key (some c) k = some c' → Origin w k c' := by
  intro k c' hk
  by_cases heq : k = key
  · subst heq
    rw [Function.update_self, Option.some_inj] at hk
    exact hk ▸ hc
  · rw [Function.update_of_ne heq] at hk
    exact hcells k c' hk

theorem Descends.of_put {ord : MapOrder} {key value : Bytes} {explicit ix : AnyMap} {exp : Int64}
    (hframe : Frame w v) (hopen : w.db.closed = false)
    (hchecked : Checked w ord key value explicit ix) (hdone : PutDone w v ord key value ix exp) :
    Descends w v := by
  refine .of_frame hframe fun k c hc => ?_
  rcases hdone.cells k with hput | hnone
  · refine Origin.of_update (fun _ _ => .old) ?_ k c (hput.symm.trans hc)
    exact .written hopen hchecked.built hdone.storable rfl
  · rw [hc] at hnone
    cases hnone

/-- The items of a batch, one after the other. -/
theorem origin_putCells (hopen : w.db.closed = false) {cs : List CheckedItem}
    (hcs : ∀ c ∈ cs, ∃ ord,
      w.db.buildIndexValues ord c.item.key c.item.value c.item.ix = .ok c.ix ∧ Storable c.ix)
    {cells : Bytes → Option Cell} (hcells : ∀ k c, cells k = some c → Origin w k c) :
    ∀ k c, w.db.putCells cells cs k = some c → Origin w k c := by
  induction cs generalizing cells with
  | nil => exact hcells
  | cons it cs ih =>
      rw [List.forall_mem_cons] at hcs
      obtain ⟨ord, hbuilt, hstorable⟩ := hcs.1
      exact ih hcs.2 (Origin.of_update hcells (.written hopen hbuilt hstorable rfl))

theorem Descends.of_batch {ords : Nat → MapOrder} {items : List PutItem} {cs : List CheckedItem}
    (hframe : Frame w v) (hopen : w.db.closed = false)
    (hcs : w.db.checkItems w.now ords 0 items = .ok cs) (hdone : BatchDone w v ords cs) :
    Descends w v := by
  have hbuilt : ∀ c ∈ cs, ∃ ord,
      w.db.buildIndexValues ord c.item.key c.item.value c.item.ix = .ok c.ix ∧ Storable c.ix := by
    intro c hc
    obtain ⟨j, hj⟩ := (checkItems_ok hcs).2 c hc
    exact ⟨ords j, (checkItem_ok hj).2.1, hdone.storable c hc⟩
  refine .of_frame hframe fun k c hc => ?_
  rcases hdone.cells k with hsame | hnone
  · exact origin_putCells hopen hbuilt (fun _ _ => .old) k c (hsame.symm.trans hc)
  · rw [hc] at hnone
    cases hnone

theorem Dropped.shrinks {key : Bytes} (h : Dropped w v key) : Shrinks w v := by
  rcases h with ⟨rfl, _⟩ | ⟨_, _, _, hcells⟩
  · exact Shrinks.refl v
  · exact Shrinks.of_update hcells

theorem Descends.of_updated {key : Bytes} {exp : Int64} {next : Option Int64} (hframe : Frame w v)
    (hupdated : Updated w v key exp next) : Descends w v := by
  obtain ⟨u, hdrop, hnext⟩ := hupdated
  cases next with
  | none => exact .of_shrinks hframe (hnext ▸ hdrop.shrinks)
  | some n =>
      refine .of_frame hframe fun k c hc => ?_
      rw [hnext.cells] at hc
      exact Origin.of_update (fun _ _ => Origin.of_shrinks hdrop.shrinks) (.counter rfl) k c hc

theorem Descends.of_compacted {A : Answer → Prop} {g : Option Int64}
    {T : Bytes → Record → Record → Bytes → Prop} (hopen : w.db.closed = false)
    (h : Rewritten A g w T (compactCell w.db) v) : Descends w v := by
  have hkept := h.recasts
  refine ⟨fun key c hc => ?_, hkept.schema, fun _ => ⟨hopen, hkept.opts, hkept.prospective⟩⟩
  rw [h.cells, Option.map_eq_some_iff] at hc
  obtain ⟨c₀, hc₀, rfl⟩ := hc
  exact .recast hopen (Option.filter_eq_some_iff.mp hc₀).1

theorem Descends.of_closed (h : Closed m w v) : Descends w v := by
  refine ⟨fun key c hc => .old ?_, h.schema, fun hopen => ?_⟩
  · rw [← h.cells, hc]
  · rw [h.closed] at hopen
    cases hopen

/-- What `Reindex` makes of a live record. -/
theorem reindexed_record {A : Answer → Prop} {z : World} (hw : Sound m w)
    (hopen : w.db.closed = false)
    (hrew : Rewritten A none w (reindexStep w) (reindexCell w.db) z) {key : Bytes} {c : Cell}
    (hc : z.dir.cells key = some c) : ∃ c₀ ix, w.live key = some c₀ ∧
      w.db.reExtracted key c₀.value c₀.ix = .ok ix ∧ c = { c₀ with ix := ix.readBack } := by
  obtain ⟨rs, rs', _, hrecords, hchain⟩ := hrew.tidy hw hopen
    (rewrites_reindex A (hw.2.2 hopen).serving) (shaped_reindex w)
  have hok : ∀ r ∈ rs, ∃ ix, w.db.reExtracted r.key (w.dir.valueOf r) r.ix = .ok ix := by
    refine forall_of_forall₂ hchain.steps.flip ?_
    rintro r' r ⟨b, b', ⟨ix, hix, _⟩, _⟩
    exact ⟨ix, hix⟩
  have hcopied : ∀ e ∈ copied w.now.ms w.db.idx.pk.items, ∃ c ix, w.live e.key = some c ∧
      w.db.reExtracted e.key c.value c.ix = .ok ix := by
    refine forall_of_forall₂ ((List.forall₂_and_left _ _).mpr
      ⟨hok, (copied_live hw hopen hrecords).flip⟩) ?_
    rintro r e ⟨⟨ix, hix⟩, _, hkey, hlive⟩
    rw [hkey] at hix
    exact ⟨w.dir.cellOf r, ix, hlive, hix⟩
  rw [hrew.cells, Option.map_eq_some_iff] at hc
  obtain ⟨c₀, hc₀, rfl⟩ := hc
  -- the key is among those copied
  have hentry : ∃ e ∈ copied w.now.ms w.db.idx.pk.items, e.key = key := by
    cases hget : w.db.idx.pk.get key with
    | none =>
        rw [hw.live_none hopen hget] at hc₀
        cases hc₀
    | some e =>
        obtain ⟨hmem, hkey⟩ := PkIndex.get_eq_some.mp hget
        refine ⟨e, List.mem_filter.mpr ⟨hmem, ?_⟩, hkey⟩
        cases hx : e.expiredAt w.now.ms with
        | false => rfl
        | true =>
            rw [(hw.live_some hopen hget).1 hx] at hc₀
            cases hc₀
  obtain ⟨e, he, rfl⟩ := hentry
  obtain ⟨c₁, ix, hc₁, hix⟩ := hcopied e he
  rw [hc₀] at hc₁
  cases hc₁
  refine ⟨c₀, ix, hc₀, hix, ?_⟩
  rw [reindexCell, hix]

theorem rederived_of_rewritten {A : Answer → Prop} {z : World} (hw : Sound m w)
    (hopen : w.db.closed = false) (hz : Sound m z)
    (hrew : Rewritten A none w (reindexStep w) (reindexCell w.db) z) : Rederived m w z.marked := by
  refine ⟨z, rfl, hopen, hz, hrew.recasts, fun key c hc => ?_⟩
  obtain ⟨c₀, ix, hc₀, hix, rfl⟩ := reindexed_record hw hopen hrew hc
  exact ⟨c₀, ix, (Option.filter_eq_some_iff.mp hc₀).1, hix, rfl⟩

end Outcomes

/-! ## Operations -/

section Operations

variable {m : Mode} {w : World}

/-- What an operation that returned a value has made of the records. -/
def Op.Leaves (m : Mode) (w v : World) : Op → Prop
  | .reindex => Rederived m w v
  | _ => Descends w v

/-- What an operation leaves if it returns a value, and if it is refused. -/
abbrev Traced (m : Mode) (w : World) (o : Op) : Prop :=
  Spec Quiet (fun v => v = w) o.run (fun _ => Unless fun v => Sound m v ∧ o.Leaves m w v)
    fun e => Unless fun v => e = .io ∨ e = .crash ∨ (Refusable o → Sound m v ∧ Descends w v)

theorem traced_of_queued {α : Type} (h : Sound m w) {c : StoreM α} {Q : α → World → Prop}
    {E : Err → World → Prop} (hc : Spec Quiet (fun v => v = w) c Q E)
    (hQ : ∀ a v, Q a v → Queued w v) :
    Spec Quiet (fun v => v = w) (dropValue c)
      (fun _ => Unless fun v => Sound m v ∧ Descends w v)
      fun e => Unless fun v => e = .io ∨ e = .crash ∨ (False → Sound m v ∧ Descends w v) :=
  Spec.bind (hc.errors
    fun _ _ _ _ => Or.inr (Or.inr False.elim)) fun a => Spec.pure fun v hv _ =>
      ⟨(hQ a v hv).sound h, .of_same (hQ a v hv).frame.1 (hQ a v hv).frame.2⟩

theorem putIndexed_traced (h : Sound m w) (ord : MapOrder) {key : Bytes}
    (hkey : Utf8.valid key = true) (value : Bytes) {explicit : AnyMap} (hexp : CarriedMap explicit)
    (ttl : List Int64) :
    Spec Quiet (fun v => v = w) (putIndexed ord key value explicit ttl)
      (fun _ => Unless fun v => Sound m v ∧ Descends w v)
      fun e => Unless fun v => e = .io ∨ e = .crash ∨ (True → Sound m v ∧ Descends w v) := by
  refine (Spec.and (putIndexed_spec not_quiet_fail h ord hkey value hexp ttl)
    (putIndexed_refused h ord hkey value hexp ttl)).post
    (fun _ v hv hwrap => ?_) fun e v hv hwrap => ?_
  · obtain ⟨hv, hframe, hopen, exp, ix, _, hchecked, hdone⟩ := hv.1 hwrap
    exact ⟨hv, .of_put hframe hopen hchecked hdone⟩
  · exact (hv.2 hwrap).imp_right fun he => he.imp_right fun hsame _ =>
      ⟨hsame.1, .of_same hsame.2.1 hsame.2.2⟩

theorem counterOp_traced {β : Type} (h : Sound m w) {key : Bytes} (hkey : Utf8.valid key = true)
    (ttl : List Int64) {step : Int64 → Except Err (Option Int64 × β)}
    (hstep : ∀ cur e, step cur = .error e → e = .counterOverflow) :
    Spec Quiet (fun v => v = w) (counterOp key ttl step)
      (fun _ => Unless fun v => Sound m v ∧ Descends w v)
      fun e => Unless fun v => e = .io ∨ e = .crash ∨ Sound m v ∧ Descends w v := by
  have hsame : Sound m w ∧ Descends w w := ⟨h, .of_shrinks (Frame.refl w) (Shrinks.refl w)⟩
  refine (counterOp_spec not_quiet_fail h hkey ttl hstep).post
    (fun _ v hv hwrap => ?_) fun e v hv hwrap => ?_
  · obtain ⟨hv, hframe, _, createExp, next, _, _, hupdated⟩ := hv hwrap
    exact ⟨hv, .of_updated hframe hupdated⟩
  · obtain ⟨hfailed, (hio | hcrash) | ⟨rfl, _⟩ | ⟨rfl, _⟩ | ⟨hframe, _, _, herr, hdrop⟩⟩ := hv hwrap
    · exact Or.inl hio
    · exact Or.inr (Or.inl hcrash)
    · exact Or.inr (Or.inr hsame)
    · exact Or.inr (Or.inr hsame)
    · have hharmless : e.fatal = false ∧ e.isIO = false := by
        rcases stepOn_error hstep herr with rfl | rfl <;> exact ⟨rfl, rfl⟩
      exact Or.inr (Or.inr ⟨hfailed.sound hharmless.1 hharmless.2,
        .of_shrinks hframe hdrop.shrinks⟩)

theorem checkedCounterOp_traced {β : Type} (h : Sound m w) {key : Bytes}
    (hkey : Utf8.valid key = true) (amount : Int64) (ttl : List Int64)
    {step : Int64 → Except Err (Option Int64 × β)} (hstep : ∀ cur e, step cur ≠ .error e) :
    Spec Quiet (fun v => v = w)
      (do require (decide (0 ≤ amount)) Err.negativeAmount; counterOp key ttl step)
      (fun _ => Unless fun v => Sound m v ∧ Descends w v)
      fun e => Unless fun v => e = .io ∨ e = .crash ∨ Sound m v ∧ Descends w v := by
  refine Spec.bind_require ?_ fun _ =>
    counterOp_traced h hkey ttl fun cur e he => absurd he (hstep cur e)
  rintro v rfl _ _
  exact Or.inr (Or.inr ⟨h, .of_shrinks (Frame.refl v) (Shrinks.refl v)⟩)

theorem traced_of_counter {β : Type} {c : StoreM β}
    (hc : Spec Quiet (fun v => v = w) c (fun _ => Unless fun v => Sound m v ∧ Descends w v)
      fun e => Unless fun v => e = .io ∨ e = .crash ∨ Sound m v ∧ Descends w v) :
    Spec Quiet (fun v => v = w) (dropValue c)
      (fun _ => Unless fun v => Sound m v ∧ Descends w v)
      fun e => Unless fun v => e = .io ∨ e = .crash ∨ (True → Sound m v ∧ Descends w v) :=
  Spec.bind (hc.errors fun _ _ hv hwrap =>
    (hv hwrap).imp_right fun he => he.imp_right fun hd _ => hd) fun _ =>
    Spec.pure fun _ hv => hv

theorem traced_of_shrinks {α : Type} {c : StoreM α} {Q : α → World → Prop}
    {E : Err → World → Prop} (hc : Spec Quiet (fun v => v = w) c (fun a => Unless (Q a)) E)
    (hQ : ∀ a v, Q a v → Sound m v ∧ Frame w v ∧ Shrinks w v) :
    Spec Quiet (fun v => v = w) (dropValue c)
      (fun _ => Unless fun v => Sound m v ∧ Descends w v)
      fun e => Unless fun v => e = .io ∨ e = .crash ∨ (False → Sound m v ∧ Descends w v) :=
  Spec.bind (hc.errors
    fun _ _ _ _ => Or.inr (Or.inr False.elim)) fun a => Spec.pure fun v hv hwrap =>
      ⟨(hQ a v (hv hwrap)).1, .of_shrinks (hQ a v (hv hwrap)).2.1 (hQ a v (hv hwrap)).2.2⟩

/-- Every operation leaves records that come from the world before. -/
theorem op_descends (h : Sound m w) (o : Op) (ho : o.Carried) : Traced m w o := by
  cases o with
  | put ord key value ttl => exact putIndexed_traced h ord ho value storable_empty.carried ttl
  | putIndexed ord key value ix ttl => exact putIndexed_traced h ord ho.1 value ho.2 ttl
  | putBatch ords items =>
      refine (putBatch_spec not_quiet_fail h ords ho).post
        (fun _ v hv hwrap => ?_) fun _ _ _ _ => Or.inr (Or.inr False.elim)
      obtain ⟨hv, hframe, hopen, cs, hcs, hdone⟩ := hv hwrap
      exact ⟨hv, .of_batch hframe hopen hcs hdone⟩
  | delete key =>
      refine (delete_spec not_quiet_fail h key).post
        (fun _ v hv hwrap => ?_) fun _ _ _ _ => Or.inr (Or.inr False.elim)
      obtain ⟨hv, hframe, _, _, hcells⟩ := hv hwrap
      exact ⟨hv, .of_shrinks hframe (Shrinks.of_update hcells)⟩
  | removeByPkLess cutoff =>
      exact traced_of_shrinks (removeRange_spec not_quiet_fail h fun _ => mem_of_pkLess)
        fun _ _ hv => ⟨hv.1, hv.2.1, hv.2.2.2.2.2⟩
  | removeByPkGreater cutoff =>
      exact traced_of_shrinks (removeRange_spec not_quiet_fail h fun _ => mem_of_pkGreater)
        fun _ _ hv => ⟨hv.1, hv.2.1, hv.2.2.2.2.2⟩
  | incr key delta ttl =>
      exact traced_of_counter (counterOp_traced h ho ttl fun _ _ => incrStep_error)
  | topup key amount max ttl =>
      exact traced_of_counter (checkedCounterOp_traced h ho amount ttl fun _ _ => topupStep_error)
  | take key amount left ttl =>
      exact traced_of_counter (checkedCounterOp_traced h ho amount ttl fun _ _ => takeStep_error)
  | get key => exact traced_of_queued h (get_spec not_quiet_fail h key) fun _ _ hv => hv.1
  | getMany keys => exact traced_of_queued h (getMany_spec not_quiet_fail h keys) fun _ _ hv => hv.1
  | has key => exact traced_of_queued h (has_spec h key) fun _ _ hv => hv.1
  | prefixScan p => exact traced_of_queued h (prefixScan_spec h p) fun _ _ hv => hv.1
  | compact =>
      refine (compact_spec h).post (fun _ v hv hwrap => ?_)
        fun _ _ _ _ => Or.inr (Or.inr False.elim)
      obtain ⟨hopen, hv, _, hrew⟩ := hv hwrap
      exact ⟨hv, .of_compacted hopen hrew⟩
  | reindex =>
      refine (reindex_spec h).post (fun _ v hv hwrap => ?_)
        fun _ _ _ _ => Or.inr (Or.inr False.elim)
      obtain ⟨z, hopen, hz, _, hrew, rfl⟩ := hv hwrap
      exact ⟨hz.marked.1, rederived_of_rewritten h hopen hz hrew⟩
  | blobsRelieve =>
      refine (blobsRelieve_spec not_quiet_fail h).post
        (fun _ v hv hwrap => ?_) fun _ _ _ _ => Or.inr (Or.inr False.elim)
      obtain ⟨hopen, _, hv, _, hrew⟩ := hv hwrap
      exact ⟨hv, .of_compacted hopen hrew⟩
  | close =>
      exact (close_spec h).post
        (fun _ _ hv _ => ⟨hv.sound, .of_closed hv⟩) fun _ _ _ _ => Or.inr (Or.inr False.elim)
  | reapCycle n =>
      refine (reapCycle_spec not_quiet_fail h n).post
        (fun _ v hv hwrap => ?_) fun _ _ _ _ => Or.inr (Or.inr False.elim)
      obtain ⟨hv, hframe, hreaped⟩ := hv hwrap
      exact ⟨hv, .of_shrinks hframe hreaped.shrinks⟩
  | hintAsyncFlush =>
      exact (hintAsyncFlush_cases h.1).post
        (fun _ _ hv _ => ⟨hv.2.1.sound h hv.1, .of_same hv.2.1.re.frame.1 hv.2.1.re.frame.2⟩)
        fun _ _ _ _ => Or.inr (Or.inr False.elim)
  | hintAsyncWrite =>
      exact (hintAsyncWrite_cases h.1 h.2.1.pending).post
        (fun _ _ hv _ => ⟨hv.2.1.sound h hv.1, .of_same hv.2.1.re.frame.1 hv.2.1.re.frame.2⟩)
        fun _ _ _ _ => Or.inr (Or.inr False.elim)

end Operations

end NteeDb.Core
