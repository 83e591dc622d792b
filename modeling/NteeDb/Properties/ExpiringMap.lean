import NteeDb.Invariants.Refusals
import NteeDb.Properties.CounterArithmetic
import NteeDb.Properties.RangeDelete

/-!
# Lazy expiry cannot be seen

A record whose time has come stays in the log and in the indexes until the reaper, a rewrite
or a counter operation comes upon it.  Here the store is compared with an ideal map, from
which a key vanishes at the instant it expires.  Without caps no answer of the primary-key
side tells the two apart, whenever the background work is done.

With caps it does: secondary indexes count expired records, and a write may evict a live one
in their place.

## Main results

* `op_ideal` — one operation is that of the map; the steps of the background are nothing to it.
* `lockstep_related` — a store and a map that take the same requests stay related.
* `expiry_unseen` — the answers are those of the map.
-/

namespace NteeDb.Properties.ExpiringMap

open NteeDb.Verified
open Faults OrderedTree JsonCodec
open NteeDb.Core
open NteeDb.Properties.CounterArithmetic
open NteeDb.Properties.RangeDelete

/-! ## The map -/

/-- What the map holds for a key. -/
structure Item where
  value : Bytes
  exp : Int64
  counter : Bool
  deriving DecidableEq

abbrev Ideal := Bytes → Option Item

/-- Keys vanish when the clock reaches their expiry. -/
def Ideal.at (now : Int64) (M : Ideal) : Ideal := fun key => unexpired Item.exp now (M key)

def Ideal.write (now : Int64) (key : Bytes) (item : Item) (M : Ideal) : Ideal :=
  Ideal.at now (Function.update M key (some item))

/-- The value of a counter; a missing key counts as 0. -/
def Ideal.number (M : Ideal) (key : Bytes) : Except Err Int64 :=
  match M key with
  | none => .ok 0
  | some item =>
      if item.counter = false then .error .notCounter
      else
        match parseCounter item.value with
        | none => .error .notCounter
        | some v => .ok v

/-- What a counter operation makes of the present value. -/
def Ideal.step {β : Type} (M : Ideal) (key : Bytes) (step : Int64 → Except Err (Option Int64 × β)) :
    Except Err (Option Int64 × β) := (M.number key).bind step

/-- The map after a counter operation: the expiry of a counter that is there stays. -/
def Ideal.count {β : Type} (now : Millis) (key : Bytes) (ttl : List Int64)
    (step : Int64 → Except Err (Option Int64 × β)) (M : Ideal) : Ideal :=
  match resolveTTL now ttl, M.step key step with
  | .ok createExp, .ok (some n, _) =>
      M.write now.ms key ⟨formatCounter n, ((M key).map Item.exp).getD createExp, true⟩
  | _, _ => M

def Ideal.put (now : Millis) (key value : Bytes) (ttl : List Int64) (M : Ideal) : Ideal :=
  match resolveTTL now ttl with
  | .ok exp => M.write now.ms key ⟨value, exp, false⟩
  | .error _ => M

/-- The item of a batch, with a lifetime in nanoseconds if that is positive. -/
def Ideal.putItem (now : Millis) (M : Ideal) (it : PutItem) : Ideal :=
  M.write now.ms it.key ⟨it.value, if 0 < it.ttl then now.ms + it.ttl / 1000000 else 0, false⟩

def Ideal.without (M : Ideal) (p : Bytes → Bool) : Ideal :=
  fun key => if p key = true then none else M key

/-- What a request does to the map.  Reads, rewrites and the work of the background do
nothing. -/
def Ideal.after (now : Millis) : Op → Ideal → Ideal
  | .put _ key value ttl, M => M.put now key value ttl
  | .putIndexed _ key value _ ttl, M => M.put now key value ttl
  | .putBatch _ items, M => items.foldl (Ideal.putItem now) M
  | .delete key, M => Function.update M key none
  | .removeByPkLess cutoff, M => M.without fun key => key < cutoff
  | .removeByPkGreater cutoff, M => M.without fun key => cutoff < key
  | .incr key delta ttl, M => M.count now key ttl (incrStep delta)
  | .topup key amount max ttl, M => M.count now key ttl (topupStep amount max)
  | .take key amount left ttl, M => M.count now key ttl (takeStep amount left)
  | _, M => M

/-! ## The log shows the map -/

/-- What the map knows of a cell.  A blob is no counter. -/
def itemOf (c : Cell) : Item := ⟨c.value, c.exp, c.counter && !c.blob⟩

/-- The unexpired cells are the items of the map. -/
def Shows (now : Int64) (cells : Bytes → Option Cell) (M : Ideal) : Prop :=
  ∀ key, (unexpired Cell.exp now (cells key)).map itemOf = M key

theorem unexpired_item (now : Int64) (o : Option Cell) :
    unexpired Item.exp now (o.map itemOf) = (unexpired Cell.exp now o).map itemOf :=
  unexpired_map (fun _ => rfl) now o

theorem unexpired_later {α : Type} (exp : α → Int64) {now now' : Int64} (hle : now ≤ now')
    (o : Option α) : unexpired exp now' (unexpired exp now o) = unexpired exp now' o := by
  cases o with
  | none => rfl
  | some a =>
      rw [unexpired_some]
      split
      · next hexp => rw [unexpired_none, unexpired_some, if_pos (expired_later hexp hle)]
      · rfl

section Shows

variable {now : Int64} {cells cells' : Bytes → Option Cell} {M : Ideal}

theorem Shows.at (h : Shows now cells M) : Ideal.at now M = M := by
  funext key
  rw [Ideal.at, ← h key, unexpired_item, unexpired_twice]

theorem Shows.tick (h : Shows now cells M) {now' : Int64} (hle : now ≤ now') :
    Shows now' cells (M.at now') := by
  intro key
  rw [Ideal.at, ← h key, unexpired_item, unexpired_later _ hle]

theorem Shows.write (h : Shows now cells M) (key : Bytes) (c : Cell) :
    Shows now (Function.update cells key (some c)) (M.write now key (itemOf c)) := by
  intro k
  rw [Ideal.write, Ideal.at]
  by_cases hk : k = key
  · rw [hk, Function.update_self, Function.update_self, ← Option.map_some, unexpired_item]
  · rw [Function.update_of_ne hk, Function.update_of_ne hk, h k]
    exact (congrFun h.at k).symm

theorem Shows.remove (h : Shows now cells M) (key : Bytes) :
    Shows now (Function.update cells key none) (Function.update M key none) := by
  intro k
  by_cases hk : k = key
  · rw [hk, Function.update_self, Function.update_self]
    rfl
  · rw [Function.update_of_ne hk, Function.update_of_ne hk, h k]

/-- Expired cells may go. -/
theorem Shows.shrink (h : Shows now cells M)
    (hgone : ∀ key, cells' key = cells key ∨
      cells' key = none ∧ unexpired Cell.exp now (cells key) = none) : Shows now cells' M := by
  intro key
  rcases hgone key with hsame | ⟨hnone, hexp⟩
  · rw [hsame, h key]
  · rw [← h key, hnone, hexp]
    rfl

/-- The cells may be rewritten, if value, expiry and kind stay. -/
theorem Shows.recast (h : Shows now cells M) {F : Bytes → Cell → Cell}
    (hF : ∀ key c, itemOf (F key c) = itemOf c)
    (hcells : ∀ key, cells' key = (unexpired Cell.exp now (cells key)).map (F key)) :
    Shows now cells' M := by
  intro key
  have hexp : ∀ c, (F key c).exp = c.exp := fun c => congrArg Item.exp (hF key c)
  have hitem : itemOf ∘ F key = itemOf := funext (hF key)
  rw [hcells key, unexpired_map hexp, unexpired_twice, Option.map_map, hitem, h key]

/-- The counter of the map is that of the cell. -/
theorem Shows.number (h : Shows now cells M) (key : Bytes) :
    currentValue (unexpired Cell.exp now (cells key)) = M.number key := by
  rw [Ideal.number, ← h key]
  cases unexpired Cell.exp now (cells key) with
  | none => rfl
  | some c =>
      rw [currentValue, Cell.counterValue, Option.map_some]
      dsimp only [itemOf]
      refine if_congr ?_ rfl rfl
      cases c.counter <;> cases c.blob <;> decide

theorem Shows.exp (h : Shows now cells M) (key : Bytes) (createExp : Int64) :
    expiryOn createExp (unexpired Cell.exp now (cells key))
      = ((M key).map Item.exp).getD createExp := by
  rw [← h key]
  cases unexpired Cell.exp now (cells key) with
  | none => rfl
  | some c => rfl

end Shows

/-! ## Stores without caps -/

def Uncapped (opts : Options) : Prop := ∀ d ∈ opts.indexes, d.maxPerValue ≤ 0

section Uncapped

variable {m : Mode} {w v : World} {ix : Indexes} {defs : List IndexDef}

/-- No index has a cap. -/
def Indexes.Capless (ix : Indexes) : Prop := ∀ si ∈ ix.secs.items, si.max ≤ 0

theorem capless_of_decls {ix ix' : Indexes} (h : Indexes.Capless ix)
    (hdecls : ix'.secs.decls = ix.secs.decls) : Indexes.Capless ix' := by
  intro si hsi
  have hmem : si.decl ∈ ix.secs.decls := hdecls ▸ List.mem_map_of_mem hsi
  obtain ⟨si', hsi', hdecl⟩ := List.mem_map.mp hmem
  have hmax : si'.max = si.max := congrArg Decl.max hdecl
  rw [← hmax]
  exact h si' hsi'

theorem capless_of_inStep (h : ix.InStep defs) (hdefs : ∀ d ∈ defs, d.maxPerValue ≤ 0) :
    Indexes.Capless ix := by
  intro si hsi
  have hmem : si.decl ∈ ix.secs.decls := List.mem_map_of_mem hsi
  rw [h.declared] at hmem
  obtain ⟨d, hd, hdecl⟩ := List.mem_map.mp hmem
  have hmax : d.maxPerValue = si.max := congrArg Decl.max hdecl
  rw [← hmax]
  exact hdefs d hd

theorem enforceOne_capless (h : Indexes.Capless ix) (nv : Bytes × AnyValue) :
    ix.enforceOne nv = ix := by
  rw [Indexes.enforceOne]
  split
  · rfl
  · next si hsi =>
      have hmax := h si (SecIndexes.get_eq_some.mp hsi).1
      have hnone : si.victims nv.2 = [] := by
        rw [SecIndex.victims, if_pos hmax]
      rw [hnone]
      rfl

theorem enforce_capless (h : Indexes.Capless ix) (nvs : List (Bytes × AnyValue)) :
    ix.enforce nvs = ix := by
  induction nvs with
  | nil => rfl
  | cons nv nvs ih =>
      rw [Indexes.enforce, List.foldl_cons, enforceOne_capless h]
      exact ih

theorem enforceSeen_capless (nvs : List (Bytes × AnyValue)) (st : Indexes × List Bytes)
    (h : Indexes.Capless st.1) : (nvs.foldl Indexes.enforceSeen st).1 = st.1 := by
  induction nvs generalizing st with
  | nil => rfl
  | cons nv nvs ih =>
      have hone : (Indexes.enforceSeen st nv).1 = st.1 := by
        rw [Indexes.enforceSeen]
        split
        · rfl
        · exact enforceOne_capless h nv
      rw [List.foldl_cons, ih _ (hone ▸ h), hone]

theorem enforceItems_capless (ords : Nat → MapOrder) (cs : List CheckedItem) (i : Nat)
    (st : Indexes × List Bytes) (h : Indexes.Capless st.1) :
    Indexes.enforceItems ords i cs st = st.1 := by
  induction cs generalizing i st with
  | nil => rfl
  | cons c cs ih =>
      have hone := enforceSeen_capless ((ords i).items c.ix) st h
      rw [Indexes.enforceItems, ih _ _ (hone ▸ h), hone]

theorem PutItems.decls {cs : List CheckedItem} {ix ix' : Indexes} (h : PutItems cs ix ix') :
    ix'.secs.decls = ix.secs.decls := by
  induction h with
  | nil ix => rfl
  | cons _ ih => exact ih.trans (Indexes.put_decls _ rfl _)

theorem PutItems.isSome_get {cs : List CheckedItem} {ix ix' : Indexes} (h : PutItems cs ix ix')
    (key : Bytes) : (ix'.pk.get key).isSome
      = (decide (key ∈ cs.map fun c => c.item.key) || (ix.pk.get key).isSome) := by
  induction h with
  | nil ix => simp
  | @cons c cs ix ix' off n _ ih =>
      rw [ih, Indexes.put_pk _ rfl, PkIndex.get_set]
      by_cases hkey : key = c.item.key
      · rw [if_pos hkey]
        simp [hkey]
      · rw [if_neg hkey]
        simp [hkey]

theorem isSome_putCells (db : DB) (cs : List CheckedItem) (cells : Bytes → Option Cell)
    (key : Bytes) : (db.putCells cells cs key).isSome
      = (decide (key ∈ cs.map fun c => c.item.key) || (cells key).isSome) := by
  induction cs generalizing cells with
  | nil => simp [DB.putCells]
  | cons c cs ih =>
      rw [DB.putCells, List.foldl_cons]
      refine (ih _).trans ?_
      by_cases hkey : key = c.item.key
      · rw [hkey, Function.update_self]
        simp
      · rw [Function.update_of_ne hkey]
        simp [hkey]

/-- Nothing goes missing if the index has all keys. -/
theorem cells_of_isSome (hv : Sound m v) (hopen : v.db.closed = false) {cells : Bytes → Option Cell}
    (hcells : ∀ key, v.dir.cells key = cells key ∨ v.dir.cells key = none)
    (hsome : ∀ key, (v.db.idx.pk.get key).isSome = (cells key).isSome) : v.dir.cells = cells := by
  funext key
  rcases hcells key with hsame | hnone
  · exact hsame
  · have hkey := (hv.2.2 hopen).mirrors.isSome_cells key
    rw [hsome key, hnone, Option.isSome_none, eq_comm, Option.isSome_eq_false_iff,
      Option.isNone_iff_eq_none] at hkey
    rw [hnone, hkey]

theorem PutDone.cells_capless {ord : MapOrder} {key value : Bytes} {ix : AnyMap} {exp : Int64}
    (h : PutDone w v ord key value ix exp) (hw : Sound m w) (hv : Sound m v)
    (hopen : w.db.closed = false) (hopen' : v.db.closed = false) (hcap : Indexes.Capless w.db.idx) :
    v.dir.cells = Function.update w.dir.cells key
      (some ⟨value, exp, false, ix.readBack, w.db.useBlobFor value.length⟩) := by
  refine cells_of_isSome hv hopen' h.cells fun k => ?_
  obtain ⟨off, n, hidx⟩ := h.idx
  have hput := capless_of_decls hcap (Indexes.put_decls w.db.idx
    (e := { key := key, off := off, n := n, exp := exp }) rfl ix)
  rw [hidx, enforce_capless hput, Indexes.put_pk _ rfl, PkIndex.get_set]
  by_cases hk : k = key
  · rw [if_pos hk, hk, Function.update_self]
    rfl
  · rw [if_neg hk, Function.update_of_ne hk, (hw.2.2 hopen).mirrors.isSome_cells]

theorem BatchDone.cells_capless {ords : Nat → MapOrder} {cs : List CheckedItem}
    (h : BatchDone w v ords cs) (hw : Sound m w) (hv : Sound m v) (hopen : w.db.closed = false)
    (hopen' : v.db.closed = false) (hcap : Indexes.Capless w.db.idx) :
    v.dir.cells = w.db.putCells w.dir.cells cs := by
  refine cells_of_isSome hv hopen' h.cells fun k => ?_
  obtain ⟨mid, hput, hidx⟩ := h.idx
  rw [hidx, enforceItems_capless ords cs 0 (mid, []) (capless_of_decls hcap (PutItems.decls hput)),
    PutItems.isSome_get hput, isSome_putCells, (hw.2.2 hopen).mirrors.isSome_cells]

end Uncapped

/-! ## One operation -/

/-- The store shows the map. -/
structure Related (w : World) (M : Ideal) : Prop where
  sound : Sound ⟨false, true⟩ w
  shows : Shows w.now.ms w.dir.cells M
  uncapped : w.db.closed = false → Uncapped w.db.opts

section Operations

variable {w v : World} {M M' : Ideal}

theorem Related.capless (h : Related w M) (hopen : w.db.closed = false) :
    Indexes.Capless w.db.idx :=
  capless_of_inStep (h.sound.2.2 hopen).inStep (h.uncapped hopen)

theorem Related.next (h : Related w M) (hv : Sound ⟨false, true⟩ v) (hframe : Frame w v)
    (hshows : Shows w.now.ms v.dir.cells M') : Related v M' := by
  refine ⟨hv, ?_, fun hopen => ?_⟩
  · rw [hframe.now]
    exact hshows
  · rw [hframe.opts]
    exact h.uncapped (hframe.closed.symm.trans hopen)

theorem Related.same (h : Related w M) (hv : Sound ⟨false, true⟩ v) (hframe : Frame w v)
    (hsame : SameContents w v) : Related v M := by
  refine h.next hv hframe ?_
  rw [hsame.cells]
  exact h.shows

theorem Related.queued (h : Related w M) (hv : Queued w v) : Related v M :=
  h.same (hv.sound h.sound) hv.frame.1 hv.frame.2

theorem Related.live (h : Related w M) (key : Bytes) : (w.live key).map itemOf = M key :=
  h.shows key

/-- An expired counter was removed at most. -/
theorem Related.dropped (h : Related w M) {key : Bytes} (hdrop : Dropped w v key) :
    Shows w.now.ms v.dir.cells M := by
  rcases hdrop with ⟨rfl, _⟩ | ⟨hnone, _, _, hcells⟩
  · exact h.shows
  · refine h.shows.shrink fun k => ?_
    rw [hcells]
    by_cases hk : k = key
    · rw [hk, Function.update_self]
      exact Or.inr ⟨rfl, hnone⟩
    · rw [Function.update_of_ne hk]
      exact Or.inl rfl

/-- An update of a counter is that of the map. -/
theorem Related.counted {β : Type} (h : Related w M) {key : Bytes} {ttl : List Int64}
    {step : Int64 → Except Err (Option Int64 × β)} {createExp : Int64} {next : Option Int64}
    {out : β} (httl : resolveTTL w.now ttl = .ok createExp)
    (hstep : stepOn step (w.live key) = .ok (next, out))
    (hupdated : Updated w v key (expiryOn createExp (w.live key)) next) :
    Shows w.now.ms v.dir.cells (M.count w.now key ttl step) := by
  have hon : M.step key step = .ok (next, out) := by
    rw [← hstep, Ideal.step, stepOn, World.live, h.shows.number]
  rw [Ideal.count, httl, hon]
  cases next with
  | none =>
      obtain ⟨u, hdrop, rfl⟩ := hupdated
      exact h.dropped hdrop
  | some n =>
      have hcells := Updated.stored hupdated
      rw [Stored, World.live, h.shows.exp] at hcells
      rw [hcells]
      exact h.shows.write key _

theorem Related.put_shows (h : Related w M) (hopen : w.db.closed = false) {ord : MapOrder}
    {key value : Bytes} {ix : AnyMap} {ttl : List Int64} {exp : Int64}
    (httl : resolveTTL w.now ttl = .ok exp) (hv : Sound ⟨false, true⟩ v) (hframe : Frame w v)
    (hdone : PutDone w v ord key value ix exp) :
    Shows w.now.ms v.dir.cells (M.put w.now key value ttl) := by
  rw [PutDone.cells_capless hdone h.sound hv hopen (hframe.closed.trans hopen) (h.capless hopen),
    Ideal.put, httl]
  exact h.shows.write key _

/-- The items of a batch are written one after the other. -/
theorem shows_putCells (db : DB) (now : Millis) (cs : List CheckedItem)
    (hexp : ∀ c ∈ cs, c.exp = if 0 < c.item.ttl then now.ms + c.item.ttl / 1000000 else 0)
    {cells : Bytes → Option Cell} {M : Ideal} (h : Shows now.ms cells M) :
    Shows now.ms (db.putCells cells cs)
    ((cs.map CheckedItem.item).foldl (Ideal.putItem now) M) := by
  induction cs generalizing cells M with
  | nil => exact h
  | cons c cs ih =>
      rw [List.forall_mem_cons] at hexp
      have hone := h.write c.item.key
        ⟨c.item.value, c.exp, false, c.ix.readBack, db.useBlobFor c.item.value.length⟩
      rw [itemOf, hexp.1] at hone
      rw [DB.putCells, List.foldl_cons, List.map_cons, List.foldl_cons]
      refine ih hexp.2 ?_
      rw [hexp.1]
      exact hone

theorem Related.batch_shows (h : Related w M) (hopen : w.db.closed = false) {ords : Nat → MapOrder}
    {items : List PutItem} {cs : List CheckedItem}
    (hcs : w.db.checkItems w.now ords 0 items = .ok cs) (hv : Sound ⟨false, true⟩ v)
    (hframe : Frame w v) (hdone : BatchDone w v ords cs) :
    Shows w.now.ms v.dir.cells (items.foldl (Ideal.putItem w.now) M) := by
  obtain ⟨hmap, hall⟩ := checkItems_ok hcs
  rw [BatchDone.cells_capless hdone h.sound hv hopen (hframe.closed.trans hopen) (h.capless hopen),
    ← hmap]
  refine shows_putCells w.db w.now cs (fun c hc => ?_) h.shows
  obtain ⟨j, hj⟩ := hall c hc
  exact (checkItem_ok hj).2.2.2.2

theorem Related.range_shows (h : Related w M) (hopen : w.db.closed = false) (side : Side)
    (cutoff : Bytes) (hv : Sound ⟨false, true⟩ v) (hframe : Frame w v)
    (hidx : v.db.idx = w.db.idx.deleteAll (side.keys cutoff w)) (hshrinks : Shrinks w v) :
    Shows w.now.ms v.dir.cells (M.without (side.beyond cutoff)) := by
  intro key
  have hcells := cells_of_deleteAll h.sound hv hopen (hframe.closed.trans hopen) hidx hshrinks key
  simp only [Side.mem_keys, ← (h.sound.2.2 hopen).mirrors.isSome_cells] at hcells
  rw [Ideal.without]
  by_cases hbeyond : side.beyond cutoff key = true
  · rw [if_pos hbeyond, hcells]
    cases hc : w.dir.cells key with
    | none => simp
    | some c => simp [hbeyond]
  · rw [if_neg hbeyond, hcells, if_neg fun hkey => hbeyond hkey.2, h.shows key]

theorem Related.reaped (h : Related w M) (hreaped : Reaped w v) : Shows w.now.ms v.dir.cells M := by
  refine h.shows.shrink fun key => ?_
  rcases hreaped.shrinks key with hsame | hnone
  · exact Or.inl hsame
  · refine Or.inr ⟨hnone, ?_⟩
    cases hc : w.dir.cells key with
    | none => rfl
    | some c => rw [unexpired_some, if_pos (hreaped.expired key c hc hnone)]

theorem Related.rewritten (h : Related w M) {A : Answer → Prop} {g : Option Int64}
    {T : Bytes → Record → Record → Bytes → Prop} {F : Bytes → Cell → Cell}
    (hv : Sound ⟨false, true⟩ v) (hrew : Rewritten A g w T F v)
    (hF : ∀ key c, itemOf (F key c) = itemOf c) : Related v M := by
  have hkept := hrew.recasts
  refine ⟨hv, ?_, fun hopen => ?_⟩
  · rw [hkept.now]
    exact h.shows.recast hF hrew.cells
  · rw [hkept.opts]
    exact h.uncapped (hkept.closed.symm.trans hopen)

theorem itemOf_reindexCell (db : DB) (key : Bytes) (c : Cell) :
    itemOf (reindexCell db key c) = itemOf c := by
  rw [reindexCell]
  split <;> rfl

theorem Related.closed (h : Related w M) (hv : Closed ⟨false, true⟩ w v) : Related v M := by
  refine ⟨hv.sound, ?_, fun hopen => absurd (hv.closed.symm.trans hopen) (by decide)⟩
  rw [hv.now, hv.cells]
  exact h.shows

theorem Related.wroteOn (h : Related w M) (hv : WroteOn w v) (hdisk : OnDisk ⟨false, true⟩ v) :
    Related v M :=
  h.same (hv.sound h.sound hdisk) hv.re.frame.1 hv.re.frame.2

/-- What an operation leaves if it returns a value, and if it is refused. -/
abbrev Follows (w : World) (M : Ideal) (o : Op) : Prop :=
  Spec Quiet (fun v => v = w) o.run (fun _ => Unless fun v => Related v (Ideal.after w.now o M))
    fun e => Unless fun v => e = .io ∨ e = .crash ∨ (Refusable o → Related v M)

/-- A lookup is nothing to the map. -/
theorem follows_of_queued {α : Type} (h : Related w M) {c : StoreM α} {Q : α → World → Prop}
    {E : Err → World → Prop} (hc : Spec Quiet (fun v => v = w) c Q E)
    (hQ : ∀ a v, Q a v → Queued w v) (hE : ∀ e v, E e v → Queued w v) :
    Spec Quiet (fun v => v = w) (dropValue c) (fun _ => Unless fun v => Related v M)
      fun e => Unless fun v => e = .io ∨ e = .crash ∨ (False → Related v M) :=
  Spec.bind (hc.errors fun e v hv _ => Or.inr (Or.inr fun _ => h.queued (hE e v hv))) fun a =>
    Spec.pure fun v hv _ => h.queued (hQ a v hv)

/-- `PutIndexed` is the write of the map. -/
theorem putIndexed_ideal (h : Related w M) (ord : MapOrder) {key : Bytes}
    (hkey : Utf8.valid key = true) (value : Bytes) {explicit : AnyMap} (hexp : CarriedMap explicit)
    (ttl : List Int64) :
    Spec Quiet (fun v => v = w) (putIndexed ord key value explicit ttl)
      (fun _ => Unless fun v => Related v (M.put w.now key value ttl))
      fun e => Unless fun v => e = .io ∨ e = .crash ∨ (True → Related v M) := by
  refine (Spec.and (putIndexed_spec not_quiet_fail h.sound ord hkey value hexp ttl)
    (putIndexed_refused h.sound ord hkey value hexp ttl)).post
    (fun _ v hv hwrap => ?_) fun e v hv hwrap => ?_
  · obtain ⟨hv, hframe, hopen, exp, ix, httl, _, hdone⟩ := hv.1 hwrap
    exact h.next hv hframe (h.put_shows hopen httl hv hframe hdone)
  · rcases hv.2 hwrap with hio | hcrash | ⟨hv, hframe, hsame⟩
    · exact Or.inl hio
    · exact Or.inr (Or.inl hcrash)
    · exact Or.inr (Or.inr fun _ => h.same hv hframe hsame)

/-- A counter operation is that of the map. -/
theorem counterOp_ideal {β : Type} (h : Related w M) {key : Bytes} (hkey : Utf8.valid key = true)
    (ttl : List Int64) {step : Int64 → Except Err (Option Int64 × β)}
    (hstep : ∀ cur e, step cur = .error e → e = .counterOverflow) :
    Spec Quiet (fun v => v = w) (counterOp key ttl step)
      (fun out => Unless fun v => Related v (M.count w.now key ttl step) ∧
        ∃ createExp next, resolveTTL w.now ttl = .ok createExp ∧ M.step key step = .ok (next, out))
      fun e => Unless fun v => e = .io ∨ e = .crash ∨ Related v M ∧
        (resolveTTL w.now ttl = .error e ∨ e = .closed ∧ w.db.closed = true ∨
          M.step key step = .error e) := by
  have hon : stepOn step (w.live key) = M.step key step := by
    rw [Ideal.step, stepOn, World.live, h.shows.number]
  refine (counterOp_spec not_quiet_fail h.sound hkey ttl hstep).post
    (fun out v hv hwrap => ?_) fun e v hv hwrap => ?_
  · obtain ⟨hv, hframe, _, createExp, next, httl, hnext, hupdated⟩ := hv hwrap
    exact ⟨h.next hv hframe (h.counted httl hnext hupdated), createExp, next, httl, hon ▸ hnext⟩
  · obtain ⟨hfailed, (hio | hcrash) | ⟨rfl, hbad⟩ | ⟨rfl, hclosed⟩ | ⟨hframe, _, _, herr, hdrop⟩⟩ :=
      hv hwrap
    · exact Or.inl hio
    · exact Or.inr (Or.inl hcrash)
    · exact Or.inr (Or.inr ⟨h, Or.inl hbad⟩)
    · exact Or.inr (Or.inr ⟨h, Or.inr (Or.inl hclosed)⟩)
    · have hharmless : e.fatal = false ∧ e.isIO = false := by
        rcases stepOn_error hstep herr with rfl | rfl <;> exact ⟨rfl, rfl⟩
      rw [hon] at herr
      exact Or.inr (Or.inr ⟨h.next (hfailed.sound hharmless.1 hharmless.2) hframe (h.dropped hdrop),
        Or.inr (Or.inr herr)⟩)

theorem checkedCounterOp_ideal {β : Type} (h : Related w M) {key : Bytes}
    (hkey : Utf8.valid key = true) (amount : Int64) (ttl : List Int64)
    {step : Int64 → Except Err (Option Int64 × β)} (hstep : ∀ cur e, step cur ≠ .error e) :
    Spec Quiet (fun v => v = w)
      (do require (decide (0 ≤ amount)) Err.negativeAmount; counterOp key ttl step)
      (fun out => Unless fun v => Related v (M.count w.now key ttl step) ∧ 0 ≤ amount ∧
        ∃ createExp next, resolveTTL w.now ttl = .ok createExp ∧ M.step key step = .ok (next, out))
      fun e => Unless fun v => e = .io ∨ e = .crash ∨ Related v M ∧
        (e = .negativeAmount ∧ amount < 0 ∨ resolveTTL w.now ttl = .error e ∨
          e = .closed ∧ w.db.closed = true ∨ M.step key step = .error e) := by
  refine Spec.bind_require ?_ fun hle => ?_
  · rintro v rfl hneg _
    exact Or.inr (Or.inr ⟨h, Or.inl ⟨rfl, Int64.not_le.mp (of_decide_eq_false hneg)⟩⟩)
  · refine (counterOp_ideal h hkey ttl fun cur e he => absurd he (hstep cur e)).post
      (fun out v hv hwrap => ⟨(hv hwrap).1, of_decide_eq_true hle, (hv hwrap).2⟩)
      fun e v hv hwrap => ?_
    exact (hv hwrap).imp_right fun he => he.imp_right fun hrel => ⟨hrel.1, Or.inr hrel.2⟩

theorem follows_of_counter {α : Type} {c : StoreM α} {Q : α → World → Prop} {E : Err → World → Prop}
    (hc : Spec Quiet (fun v => v = w) c (fun a => Unless (Q a))
      fun e => Unless fun v => e = .io ∨ e = .crash ∨ E e v)
    (hQ : ∀ a v, Q a v → Related v M') (hE : ∀ e v, E e v → Related v M) :
    Spec Quiet (fun v => v = w) (dropValue c) (fun _ => Unless fun v => Related v M')
      fun e => Unless fun v => e = .io ∨ e = .crash ∨ (True → Related v M) :=
  Spec.bind (hc.errors fun e v hv hwrap =>
    (hv hwrap).imp_right fun he => he.imp_right fun hrel _ => hE e v hrel) fun a =>
    Spec.pure fun v hv hwrap => hQ a v (hv hwrap)

/-- A range delete is that of the map. -/
theorem range_ideal (h : Related w M) (side : Side) (cutoff : Bytes) :
    Spec Quiet (fun v => v = w) (dropValue (side.remove cutoff))
      (fun _ => Unless fun v => Related v (M.without (side.beyond cutoff)))
      fun e => Unless fun v => e = .io ∨ e = .crash ∨ (False → Related v M) := by
  refine Spec.bind ((side.remove_spec cutoff not_quiet_fail h.sound).errors
    fun _ _ _ _ => Or.inr (Or.inr False.elim)) fun n => Spec.pure fun v hv hwrap => ?_
  obtain ⟨hv, hframe, hopen, _, hidx, hshrinks⟩ := hv hwrap
  exact h.next hv hframe (h.range_shows hopen side cutoff hv hframe hidx hshrinks)

/-- Every operation does to the store what it does to the map. -/
theorem op_ideal (h : Related w M) (o : Op) (ho : o.Carried) : Follows w M o := by
  cases o with
  | put ord key value ttl => exact putIndexed_ideal h ord ho value storable_empty.carried ttl
  | putIndexed ord key value ix ttl => exact putIndexed_ideal h ord ho.1 value ho.2 ttl
  | putBatch ords items =>
      refine (putBatch_spec not_quiet_fail h.sound ords ho).post
        (fun _ v hv hwrap => ?_) fun _ _ _ _ => Or.inr (Or.inr False.elim)
      obtain ⟨hv, hframe, hopen, cs, hcs, hdone⟩ := hv hwrap
      exact h.next hv hframe (h.batch_shows hopen hcs hv hframe hdone)
  | delete key =>
      refine (delete_spec not_quiet_fail h.sound key).post
        (fun _ v hv hwrap => ?_) fun _ _ _ _ => Or.inr (Or.inr False.elim)
      obtain ⟨hv, hframe, _, _, hcells⟩ := hv hwrap
      refine h.next hv hframe ?_
      rw [hcells]
      exact h.shows.remove key
  | removeByPkLess cutoff => exact range_ideal h .less cutoff
  | removeByPkGreater cutoff => exact range_ideal h .greater cutoff
  | incr key delta ttl =>
      exact follows_of_counter (counterOp_ideal h ho ttl fun _ _ => incrStep_error)
        (fun _ _ hv => hv.1) fun _ _ hv => hv.1
  | topup key amount max ttl =>
      exact follows_of_counter (checkedCounterOp_ideal h ho amount ttl fun _ _ => topupStep_error)
        (fun _ _ hv => hv.1) fun _ _ hv => hv.1
  | take key amount left ttl =>
      exact follows_of_counter (checkedCounterOp_ideal h ho amount ttl fun _ _ => takeStep_error)
        (fun _ _ hv => hv.1) fun _ _ hv => hv.1
  | get key =>
      exact follows_of_queued h (get_spec not_quiet_fail h.sound key) (fun _ _ hv => hv.1)
        fun _ _ hv => hv.1
  | getMany keys =>
      exact follows_of_queued h (getMany_spec not_quiet_fail h.sound keys) (fun _ _ hv => hv.1)
        fun _ _ hv => hv.1
  | has key =>
      exact follows_of_queued h (has_spec h.sound key) (fun _ _ hv => hv.1) fun _ _ hv => hv.elim
  | prefixScan p =>
      refine follows_of_queued h (prefixScan_spec h.sound p) (fun _ _ hv => hv.1) ?_
      rintro e v ⟨rfl, _⟩
      exact Queued.refl v
  | compact =>
      refine (compact_spec h.sound).post (fun _ v hv hwrap => ?_)
        fun _ _ _ _ => Or.inr (Or.inr False.elim)
      obtain ⟨_, hv, _, hrew⟩ := hv hwrap
      exact h.rewritten hv hrew fun _ _ => rfl
  | reindex =>
      refine (reindex_spec h.sound).post (fun _ v hv hwrap => ?_)
        fun _ _ _ _ => Or.inr (Or.inr False.elim)
      obtain ⟨z, _, hz, _, hrew, rfl⟩ := hv hwrap
      have hrel := h.rewritten hz hrew (itemOf_reindexCell w.db)
      exact ⟨hz.marked.1, hrel.shows, hrel.uncapped⟩
  | blobsRelieve =>
      refine (blobsRelieve_spec not_quiet_fail h.sound).post
        (fun _ v hv hwrap => ?_) fun _ _ _ _ => Or.inr (Or.inr False.elim)
      obtain ⟨_, _, hv, _, hrew⟩ := hv hwrap
      exact h.rewritten hv hrew fun _ _ => rfl
  | close =>
      exact (close_spec h.sound).post (fun _ _ hv _ => h.closed hv)
        fun _ _ _ _ => Or.inr (Or.inr False.elim)
  | reapCycle n =>
      refine (reapCycle_spec not_quiet_fail h.sound n).post
        (fun _ v hv hwrap => ?_) fun _ _ _ _ => Or.inr (Or.inr False.elim)
      obtain ⟨hv, hframe, hreaped⟩ := hv hwrap
      exact h.next hv hframe (h.reaped hreaped)
  | hintAsyncFlush =>
      exact (hintAsyncFlush_cases h.sound.1).post
        (fun _ _ hv _ => h.wroteOn hv.2.1 hv.1) fun _ _ _ _ => Or.inr (Or.inr False.elim)
  | hintAsyncWrite =>
      exact (hintAsyncWrite_cases h.sound.1 h.sound.2.1.pending).post
        (fun _ _ hv _ => h.wroteOn hv.2.1 hv.1) fun _ _ _ _ => Or.inr (Or.inr False.elim)

end Operations

/-! ## Runs -/

/-- The store and the map take the same requests, from an empty directory.  The clock does not
go back, no index is capped, and the process dies between operations only.  What the store
refuses is no request to the map. -/
inductive Lockstep (start : Millis) : World → Ideal → Prop
  | start : Lockstep start { now := start } fun _ => none
  | op {w : World} {M : Ideal} {o : Op} {plan : List Answer} (h : Lockstep start w M)
      (ho : o.Carried) (hplan : Answered plan) (hok : Succeeds o.run plan w = true) :
      Lockstep start (exec o.run plan w) (Ideal.after w.now o M)
  | refused {w : World} {M : Ideal} {o : Op} {plan : List Answer} {e : Err} (h : Lockstep start w M)
      (ho : o.Carried) (hplan : Answered plan) (hrefusable : Refusable o)
      (herr : Fails o.run plan w e) (hio : e.isIO = false) (hcrash : e ≠ .crash) :
      Lockstep start (exec o.run plan w) M
  | opened {w : World} {M : Ideal} {opts : Options} {plan : List Answer} (h : Lockstep start w M)
      (hcarried : CarriedDefs opts.indexes) (hcaps : Uncapped opts) (hplan : Answered plan)
      (hok : Succeeds (openStore opts) plan w = true) :
      Lockstep start (exec (openStore opts) plan w) M
  | tick {w : World} {M : Ideal} {now : Millis} (h : Lockstep start w M) (hle : w.now.ms ≤ now.ms) :
      Lockstep start { w with now := now } (M.at now.ms)
  | kill {w : World} {M : Ideal} (h : Lockstep start w M) : Lockstep start w.kill M

section Runs

variable {start : Millis} {w : World} {M : Ideal}

theorem Related.killed (h : Related w M) : Related w.kill M := by
  refine ⟨h.sound.1.killed, h.shows, ?_⟩
  rintro ⟨⟩

theorem openStore_related {opts : Options} (h : Related w M) (hcarried : CarriedDefs opts.indexes)
    (hcaps : Uncapped opts) :
    Spec Quiet (fun v => v = w) (openStore opts) (fun _ => Unless fun v => Related v M)
      fun _ => Unless fun _ => True := by
  have husable : w.dir.usableHint.isSome = true → w.hintInode = w.inode := fun husable =>
    (h.sound.1.2.2 rfl).resolve_left (Dir.hint_of_usable husable)
  refine (openStore_sound not_quiet_fail h.sound.1 husable hcarried).post
    (fun _ v hv _ => ?_) fun _ _ _ _ => trivial
  obtain ⟨hv, hcells, _, idx, _, _, _, hopened⟩ := hv
  refine ⟨hv, ?_, fun _ => ?_⟩
  · rw [hopened.untouched.now, hcells]
    exact h.shows
  · rw [hopened.store.opts, Uncapped, Options.withDefaults]
    split
    · exact hcaps
    · exact hcaps

/-- The store shows the map, all along the run. -/
theorem lockstep_related (h : Lockstep start w M) : Unless (fun w => Related w M) w := by
  induction h with
  | start =>
      refine fun _ => ⟨sound_empty _ _, fun key => rfl, ?_⟩
      rintro ⟨⟩
  | @op w M o plan _ ho hplan hok ih =>
      exact exec_ok (Spec.unless (P := fun u => u = w ∧ Related w M) (op_keeps o) (by
        rintro u _ ⟨rfl, hrel⟩
        exact op_ideal hrel o ho)) (fun hwrap => ⟨rfl, ih hwrap⟩) hplan hok
  | @refused w M o plan e _ ho hplan hrefusable herr hio hcrash ih =>
      have hspec := Spec.unless (P := fun u => u = w ∧ Related w M) (op_keeps o) (by
        rintro u _ ⟨rfl, hrel⟩
        exact op_ideal hrel o ho)
      obtain ⟨v, hv, hexec⟩ := exec_error hspec (fun hwrap => ⟨rfl, ih hwrap⟩) hplan herr
      rw [hexec]
      refine Unless.killed fun hwrap => ?_
      rcases hv hwrap with rfl | rfl | hrel
      · cases hio
      · exact absurd rfl hcrash
      · split
        · exact (hrel hrefusable).killed
        · exact hrel hrefusable
  | @opened w M opts plan _ hcarried hcaps hplan hok ih =>
      exact exec_ok (Spec.unless (P := fun u => u = w ∧ Related w M) ((openStore_keeps opts).pre
        fun _ h => ⟨h, fun hk => nomatch hk⟩) (by
        rintro u _ ⟨rfl, hrel⟩
        exact openStore_related hrel hcarried hcaps)) (fun hwrap => ⟨rfl, ih hwrap⟩) hplan hok
  | tick _ hle ih =>
      intro hwrap
      have hrel := ih hwrap
      exact ⟨hrel.sound.tick fun hm => absurd hm Bool.false_ne_true, hrel.shows.tick hle,
        hrel.uncapped⟩
  | kill _ ih =>
      exact fun hwrap => (ih hwrap).killed

/-- What the store answers in `w` is what the map says. -/
structure AnswersLike (w : World) (M : Ideal) : Prop where
  get : ∀ key, Spec Quiet (fun v => v = w) (NteeDb.Core.get key)
    (fun r _ => r = (M key).map Item.value) fun e _ => e = .crash
  getMany : ∀ keys, Spec Quiet (fun v => v = w) (NteeDb.Core.getMany keys)
    (fun r _ => r = keys.map fun key => (M key).map Item.value) fun e _ => e = .crash
  has : ∀ key, Spec Quiet (fun v => v = w) (NteeDb.Core.has key)
    (fun r _ => r = (M key).isSome) fun _ _ => False
  prefixScan : ∀ p, Spec Quiet (fun v => v = w) (NteeDb.Core.prefixScan p)
    (fun r _ => r.Pairwise (· < ·) ∧ ∀ key, key ∈ r ↔ p <+: key ∧ (M key).isSome = true)
    fun _ _ => False
  incr : ∀ key delta ttl, Utf8.valid key = true →
    Spec Quiet (fun v => v = w) (NteeDb.Core.incr key delta ttl)
      (fun n => Unless fun _ => ∃ createExp next, resolveTTL w.now ttl = .ok createExp ∧
        M.step key (incrStep delta) = .ok (next, n))
      fun e => Unless fun _ => e = .io ∨ e = .crash ∨ resolveTTL w.now ttl = .error e ∨
        M.step key (incrStep delta) = .error e
  topup : ∀ key amount max ttl, Utf8.valid key = true →
    Spec Quiet (fun v => v = w) (NteeDb.Core.topup key amount max ttl)
      (fun n => Unless fun _ => 0 ≤ amount ∧ ∃ createExp next, resolveTTL w.now ttl
        = .ok createExp ∧ M.step key (topupStep amount max) = .ok (next, n))
      fun e => Unless fun _ => e = .io ∨ e = .crash ∨ e = .negativeAmount ∧ amount < 0 ∨
        resolveTTL w.now ttl = .error e ∨ M.step key (topupStep amount max) = .error e
  take : ∀ key amount left ttl, Utf8.valid key = true →
    Spec Quiet (fun v => v = w) (NteeDb.Core.take key amount left ttl)
      (fun applied => Unless fun _ => 0 ≤ amount ∧ ∃ createExp next,
        resolveTTL w.now ttl = .ok createExp ∧ M.step key (takeStep amount left)
          = .ok (next, applied))
      fun e => Unless fun _ => e = .io ∨ e = .crash ∨ e = .negativeAmount ∧ amount < 0 ∨
        resolveTTL w.now ttl = .error e ∨ M.step key (takeStep amount left) = .error e

theorem Related.value (h : Related w M) (key : Bytes) :
    (w.live key).map Cell.value = (M key).map Item.value := by
  rw [← h.live key, Option.map_map]
  rfl

theorem Related.isSome (h : Related w M) (key : Bytes) : (w.live key).isSome = (M key).isSome := by
  rw [← h.live key, Option.isSome_map]

theorem not_closed {φ : Prop} {e : Err} (hopen : w.db.closed = false)
    (h : φ ∨ e = .closed ∧ w.db.closed = true) : φ := by
  rcases h with h | ⟨_, hclosed⟩
  · exact h
  · rw [hopen] at hclosed
    cases hclosed

theorem open_outcomes {a b c d : Prop} (h : a ∨ b ∨ c ∨ d) : (a ∨ b ∨ d) ∨ c := by tauto

/-- What is left of the outcomes if the store is open. -/
theorem answers_open {β : Type} {c : StoreM β} {R : β → Prop} {S : β → World → Prop}
    {F : Err → Prop} {G : Err → World → Prop} (hopen : w.db.closed = false)
    (hc : Spec Quiet (fun v => v = w) c (fun a => Unless fun v => S a v)
      fun e => Unless fun v => e = .io ∨ e = .crash ∨ G e v)
    (hQ : ∀ a v, S a v → R a) (hF : ∀ e v, G e v → F e ∨ e = .closed ∧ w.db.closed = true) :
    Spec Quiet (fun v => v = w) c (fun a => Unless fun _ => R a)
      fun e => Unless fun _ => e = .io ∨ e = .crash ∨ F e :=
  hc.post (fun a v hv hwrap => hQ a v (hv hwrap)) fun e v hv hwrap =>
    (hv hwrap).imp_right fun he => he.imp_right fun hg => not_closed hopen (hF e v hg)

theorem Related.answers (h : Related w M) (hopen : w.db.closed = false) : AnswersLike w M := by
  constructor
  · intro key
    refine (get_spec not_quiet_fail h.sound key).post (fun r v hv => ?_)
      fun e v hv => not_closed hopen hv.2
    rw [hv.2.2, h.value]
  · intro keys
    refine (getMany_spec not_quiet_fail h.sound keys).post (fun r v hv => ?_)
      fun e v hv => not_closed hopen hv.2
    simp only [hv.2.2, h.value]
  · intro key
    refine (has_spec h.sound key).post (fun r v hv => ?_) fun _ _ hv => hv
    rw [hv.2, hopen, h.isSome]
    rfl
  · intro p
    refine (prefixScan_spec h.sound p).post (fun r v hv => ?_) ?_
    · obtain ⟨_, _, hsorted, hmem⟩ := hv
      refine ⟨hsorted, fun key => ?_⟩
      rw [hmem key, h.isSome]
    · rintro e v ⟨_, _, hclosed⟩
      rw [hopen] at hclosed
      cases hclosed
  · intro key delta ttl hkey
    refine answers_open hopen (counterOp_ideal h hkey ttl fun _ _ => incrStep_error)
      (fun _ _ hv => hv.2) ?_
    rintro e v ⟨_, hbad | hclosed | hstep⟩
    · exact Or.inl (Or.inl hbad)
    · exact Or.inr hclosed
    · exact Or.inl (Or.inr hstep)
  · intro key amount max ttl hkey
    exact answers_open hopen (checkedCounterOp_ideal h hkey amount ttl fun _ _ => topupStep_error)
      (fun _ _ hv => hv.2) fun _ _ hv => open_outcomes hv.2
  · intro key amount left ttl hkey
    exact answers_open hopen (checkedCounterOp_ideal h hkey amount ttl fun _ _ => takeStep_error)
      (fun _ _ hv => hv.2) fun _ _ hv => open_outcomes hv.2

/-- **Lazy expiry cannot be seen.**  After any requests to a store without caps, whatever its
background has done in between, every answer of the primary-key side is that of the ideal map. -/
theorem expiry_unseen (h : Lockstep start w M) (hopen : w.db.closed = false)
    (hfits : w.wrapped = false) : AnswersLike w M :=
  (lockstep_related h hfits).answers hopen

end Runs

/-- Two records expire; one is written again as a counter, the other stays where it is. -/
def outlived : World := runEvents { now := ⟨0, Millis.zero_bounded⟩ }
  [.openStore {} [], .op (.put .sorted [0x61] [0x31] [5000000]) [],
    .op (.put .sorted [0x62] [0x32] [5000000]) [], .tick ⟨20, by decide⟩,
    .op (.incr [0x61] 3 []) []]

theorem outlived_unseen : ∃ M, Lockstep ⟨0, Millis.zero_bounded⟩ outlived M ∧
    (outlived.dir.cells [0x62]).isSome = true ∧ M [0x62] = none ∧
    M [0x61] = some ⟨formatCounter 3, 0, true⟩ ∧ AnswersLike outlived M := by
  have hopened : Lockstep ⟨0, Millis.zero_bounded⟩
      (Event.apply (.openStore {} []) { now := ⟨0, Millis.zero_bounded⟩ }) fun _ => none :=
    .opened .start (List.forall_mem_nil _) (List.forall_mem_nil _) answered_nil (by decide +kernel)
  have hfirst := hopened.op (o := .put .sorted [0x61] [0x31] [5000000])
    (show Utf8.valid [0x61] = true by decide) answered_nil (by decide +kernel)
  have hsecond := hfirst.op (o := .put .sorted [0x62] [0x32] [5000000])
    (show Utf8.valid [0x62] = true by decide) answered_nil (by decide +kernel)
  have hlater := @Lockstep.tick _ _ _ ⟨20, by decide⟩ hsecond (by decide +kernel)
  have houtlived := hlater.op (o := .incr [0x61] 3 []) (show Utf8.valid [0x61] = true by decide)
    answered_nil (by decide +kernel)
  exact ⟨_, houtlived, by decide +kernel, by decide +kernel, by decide +kernel,
    expiry_unseen houtlived (by decide +kernel) (by decide +kernel)⟩

end NteeDb.Properties.ExpiringMap
