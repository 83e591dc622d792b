import NteeDb.Core.Handle

/-!
# A closed handle is inert

Every call looks at `closed` after it has taken the lock, and the gate and the hint writers are
waited for, so that nothing is written once `Close` has released `LOCK`.  The one exception is
the second part of `Reindex`, which takes the lock again and writes `meta.json` without looking.
-/

namespace NteeDb.Properties.ClosedHandle

open NteeDb.Core.Handle

/-- The thread holds `mu` exclusively. -/
def owns : Pc → Bool
  | .inside | .refused | .swapping _ | .stamping | .closing | .finishing | .leaving => true
  | _ => false

/-- The thread is behind the gate it raised. -/
def behindGate : Pc → Bool
  | .gated _ | .swapping _ | .failing | .cleaning | .lowering _ => true
  | _ => false

/-- The thread is where it relies on the store being open. -/
def needsOpen : Pc → Bool
  | .inside | .gated _ | .swapping _ | .cleaning | .stamping => true
  | _ => false

/-- `Reindex` gets the lock for `markReindexed` while the handle is open. -/
def Prompt (s : State) : Action → Prop
  | .mark _ => s.closed = false
  | _ => True

/-- Runs whose every step meets the condition. -/
inductive PromptRun : State → Prop
  | init : PromptRun {}
  | step {s t : State} {a : Action} (h : PromptRun s) (ha : Prompt s a)
      (hstep : Core.Handle.step s a = some t) : PromptRun t

/-- What holds of a thread that stands at `p`. -/
structure Standing (s : State) (t : Nat) (p : Pc) : Prop where
  owner : owns p = true → s.mu = some t
  gate : behindGate p = true → s.compacting = true
  live : needsOpen p = true → s.closed = false
  hinting : p = .hinting → t ∈ s.hints
  closing : p = .closing ∨ p = .finishing → s.closed = true ∧ s.released = false
  finishing : p = .finishing → s.hints = []

/-- What holds along such runs. -/
structure Inv (s : State) : Prop where
  standing : ∀ t, Standing s t (s.pcs t)
  single : ∀ t u, behindGate (s.pcs t) = true → behindGate (s.pcs u) = true → t = u
  released : s.released = true → s.closed = true ∧ s.hints = []

theorem Standing.outside {s : State} {t : Nat} {p : Pc} (howns : owns p = false)
    (hgate : behindGate p = false) (hneeds : needsOpen p = false) (hhint : p ≠ .hinting)
    (hclosing : p ≠ .closing) (hfinishing : p ≠ .finishing) : Standing s t p where
  owner h := by rw [howns] at h; exact nomatch h
  gate h := by rw [hgate] at h; exact nomatch h
  live h := by rw [hneeds] at h; exact nomatch h
  hinting h := absurd h hhint
  closing h := (h.elim hclosing hfinishing).elim
  finishing h := absurd h hfinishing

theorem standing_idle (s : State) (t : Nat) : Standing s t .idle :=
  .outside rfl rfl rfl nofun nofun nofun

theorem Inv.init : Inv {} :=
  ⟨fun t => standing_idle _ t, fun _ _ h => (nomatch h), fun h => (nomatch h)⟩

theorem Inv.inert {s : State} (h : Inv s) (hrel : s.released = true) (t : Nat) :
    Core.Handle.step s (.write t) = none := by
  obtain ⟨hclosed, hhints⟩ := h.released hrel
  have hlive : needsOpen (s.pcs t) = false := by
    by_contra hne
    have hopen := (h.standing t).live (Bool.not_eq_false _ ▸ hne)
    rw [hclosed] at hopen
    exact nomatch hopen
  have hno : (s.pcs t).writes = false := by
    cases hpc : s.pcs t
    case hinting =>
        have hmem := (h.standing t).hinting hpc
        rw [hhints] at hmem
        exact absurd hmem List.not_mem_nil
    case finishing =>
        have hfin := ((h.standing t).closing (.inr hpc)).2
        rw [hrel] at hfin
        exact nomatch hfin
    all_goals first | rfl | (rw [hpc] at hlive; exact nomatch hlive)
  simp [Core.Handle.step, hno]

/-! ## One thread moves -/

section Moves

variable {s u : State} {t : Nat} {p : Pc}

/-- One thread moves and the others stand as well as before. -/
theorem Inv.moved (h : Inv s) (hpcs : u.pcs = Function.update s.pcs t p)
    (hself : Standing u t p) (hothers : ∀ v, v ≠ t → Standing u v (s.pcs v))
    (hgate : behindGate p = true → ∀ v, v ≠ t → behindGate (s.pcs v) = false)
    (hrel : u.released = true → u.closed = true ∧ u.hints = []) : Inv u := by
  have happly : ∀ v, u.pcs v = if v = t then p else s.pcs v := by
    intro v
    rw [hpcs, Function.update_apply]
  refine ⟨?_, ?_, hrel⟩
  · intro v
    rw [happly]
    split
    · next hv => exact hv ▸ hself
    · next hv => exact hothers v hv
  · intro v w hv hw
    rw [happly] at hv hw
    split at hv
    · next hvt =>
        split at hw
        · next hwt => rw [hvt, hwt]
        · next hwt =>
            rw [hgate hv w hwt] at hw
            exact nomatch hw
    · next hvt =>
        split at hw
        · rw [hgate hw v hvt] at hv
          exact nomatch hv
        · exact h.single v w hv hw

/-- A move that changes nothing but the thread. -/
theorem Inv.moved_only (h : Inv s) (hself : Standing s t p)
    (hgate : behindGate p = true → behindGate (s.pcs t) = true) : Inv (s.move t p) := by
  refine h.moved rfl ⟨hself.1, hself.2, hself.3, hself.4, hself.5, hself.6⟩ ?_ ?_ h.released
  · intro v _
    have hv := h.standing v
    exact ⟨hv.1, hv.2, hv.3, hv.4, hv.5, hv.6⟩
  · intro hp v hv
    by_contra hne
    exact hv (h.single v t (Bool.not_eq_false _ ▸ hne) (hgate hp))

/-- Nobody holds `mu`, so that nobody stands where it is held. -/
theorem Inv.no_owner (h : Inv s) (hmu : s.mu = none) (v : Nat) : owns (s.pcs v) = false := by
  by_contra hne
  have hown := (h.standing v).owner (Bool.not_eq_false _ ▸ hne)
  rw [hmu] at hown
  exact nomatch hown

/-- A thread holds `mu`, so that no other stands where it is held. -/
theorem Inv.only_owner (h : Inv s) (ht : owns (s.pcs t) = true) (v : Nat) (hv : v ≠ t) :
    owns (s.pcs v) = false := by
  by_contra hne
  have hown := (h.standing v).owner (Bool.not_eq_false _ ▸ hne)
  rw [(h.standing t).owner ht] at hown
  exact hv (Option.some.inj hown).symm

theorem Inv.only_gated (h : Inv s) (ht : behindGate (s.pcs t) = true) (v : Nat) (hv : v ≠ t) :
    behindGate (s.pcs v) = false := by
  by_contra hne
  exact hv (h.single v t (Bool.not_eq_false _ ▸ hne) ht)

theorem Inv.no_gated (h : Inv s) (hgate : s.compacting = false) (v : Nat) :
    behindGate (s.pcs v) = false := by
  by_contra hne
  have hup := (h.standing v).gate (Bool.not_eq_false _ ▸ hne)
  rw [hgate] at hup
  exact nomatch hup

/-- Who relies on the store being open holds `mu` or the gate. -/
theorem needsOpen_cases (p : Pc) (h : needsOpen p = true) :
    owns p = true ∨ behindGate p = true := by
  cases p <;> first | exact .inl rfl | exact .inr rfl | exact nomatch h

/-- A thread without `mu` is not disturbed by what is done under it: its state may change in
`mu` and, when it is not behind the gate either, in `compacting` and `closed`. -/
theorem Standing.under (h : Standing s t p) (howns : owns p = false)
    (hgate : behindGate p = true → u.compacting = true)
    (hlive : needsOpen p = true → u.closed = false) (hhint : p = .hinting → t ∈ u.hints) :
    Standing u t p := by
  have hclosing : p ≠ .closing := by rintro rfl; exact nomatch howns
  have hfinishing : p ≠ .finishing := by rintro rfl; exact nomatch howns
  refine ⟨?_, hgate, hlive, hhint, ?_, fun hp => absurd hp hfinishing⟩
  · intro hp
    rw [howns] at hp
    exact nomatch hp
  · intro hp
    exact (hp.elim hclosing hfinishing).elim

/-- The thread takes or gives back `mu`, and nobody else holds it. -/
theorem Inv.under_mu (h : Inv s) (hfree : ∀ v, v ≠ t → owns (s.pcs v) = false) (owner : Option Nat)
    (hself : Standing { s with mu := owner } t p)
    (hgate : behindGate p = true → behindGate (s.pcs t) = true) :
    Inv { s.move t p with mu := owner } := by
  refine h.moved rfl ⟨hself.1, hself.2, hself.3, hself.4, hself.5, hself.6⟩ ?_ ?_ h.released
  · intro v hv
    have hstand := h.standing v
    exact hstand.under (hfree v hv) hstand.gate hstand.live hstand.hinting
  · intro hp v hv
    exact h.only_gated (hgate hp) v hv

end Moves

theorem free_mu {s : State} (h : s.free = true) : s.mu = none := by
  rw [State.free, Bool.and_eq_true] at h
  exact Option.isNone_iff_eq_none.mp h.1

theorem standing_afterError {s : State} {t : Nat} (call : Call) (hgate : s.compacting = true) :
    Standing s t (afterError call) := by
  cases call <;>
    exact ⟨nofun, fun _ => hgate, nofun, nofun, fun h => (h.elim nofun nofun), nofun⟩

/-! ## Every step -/

section Steps

variable {s : State} {t : Nat}

/-- Getting the lock in `lockWrite`: nobody holds `mu` and the gate is down. -/
theorem Inv.enter (h : Inv s) (hmu : s.mu = none) (hgate : s.compacting = false) (call : Call) :
    Inv (s.enter t call) := by
  have hnone := h.no_owner hmu
  have hnogate := h.no_gated hgate
  have hrefused : ∀ {u : State}, u.mu = some t → Standing u t .refused := fun hu =>
    ⟨fun _ => hu, nofun, nofun, nofun, fun h => h.elim nofun nofun, nofun⟩
  have hrefuse : Inv { s.move t .refused with mu := some t } :=
    h.under_mu (fun v _ => hnone v) (some t) (hrefused rfl) nofun
  have hraise : ∀ call : Call, s.closed = false →
      Inv { s.move t (.gated call) with compacting := true } := by
    intro call hopen
    refine h.moved rfl ⟨nofun, fun _ => rfl, fun _ => hopen, nofun,
      fun h => h.elim nofun nofun, nofun⟩ ?_ (fun _ v _ => hnogate v) h.released
    intro v _
    exact (h.standing v).under (hnone v) (fun _ => rfl) (h.standing v).live
      (h.standing v).hinting
  have hback : Inv (s.move t .idle) := h.moved_only (standing_idle s t) nofun
  cases hclosed : s.closed with
  | true =>
      cases call <;> simp only [State.enter, hclosed, if_true]
      · exact hrefuse
      · exact hback
      · exact hback
      · exact hback
      · exact hrefuse
  | false =>
      cases call <;> simp only [State.enter, hclosed, Bool.false_eq_true, if_false]
      · exact h.under_mu (fun v _ => hnone v) (some t)
          ⟨fun _ => rfl, nofun, fun _ => hclosed, nofun, fun h => h.elim nofun nofun, nofun⟩ nofun
      · exact hraise _ hclosed
      · exact hraise _ hclosed
      · exact hraise _ hclosed
      · -- `Close` sets `closed` when nobody holds `mu` or the gate.
        have hunreleased : s.released = false := by
          by_contra hne
          have hrel := (h.released (Bool.not_eq_false _ ▸ hne)).1
          rw [hclosed] at hrel
          exact nomatch hrel
        refine h.moved rfl ⟨fun _ => rfl, nofun, nofun, nofun, fun _ => ⟨rfl, hunreleased⟩, nofun⟩
          ?_ nofun ?_
        · intro v _
          refine (h.standing v).under (hnone v) (h.standing v).gate ?_ (h.standing v).hinting
          intro hneeds
          rcases needsOpen_cases _ hneeds with hown | hup
          · rw [hnone v] at hown
            exact nomatch hown
          · rw [hnogate v] at hup
            exact nomatch hup
        · intro hrel
          rw [show s.released = true from hrel] at hunreleased
          exact nomatch hunreleased

/-- Giving `mu` back. -/
theorem Inv.unlock (h : Inv s) (ht : owns (s.pcs t) = true) :
    Inv { s.move t .idle with mu := none } :=
  h.under_mu (h.only_owner ht) none (standing_idle _ t) nofun

/-- The end of a swap, for a thread that stays behind the gate. -/
theorem Inv.endSwap (h : Inv s) {call : Call} (ht : s.pcs t = .swapping call) {p : Pc}
    (hp : Standing { s with mu := none } t p) : Inv { s.move t p with mu := none } := by
  have hown : owns (s.pcs t) = true := by rw [ht]; rfl
  have hup : behindGate (s.pcs t) = true := by rw [ht]; rfl
  exact h.under_mu (h.only_owner hown) none hp fun _ => hup

/-- `failStop`, under `mu` and behind the gate, with no hint writer left. -/
theorem Inv.failStop (h : Inv s) {call : Call} (ht : s.pcs t = .swapping call)
    (hhints : s.hints = []) :
    Inv { s.move t (afterError call) with mu := none, closed := true, released := true } := by
  have hown : owns (s.pcs t) = true := by rw [ht]; rfl
  have hup : behindGate (s.pcs t) = true := by rw [ht]; rfl
  refine h.moved rfl (standing_afterError call ((h.standing t).gate hup)) ?_
    (fun _ => h.only_gated hup) fun _ => ⟨rfl, hhints⟩
  intro v hv
  refine (h.standing v).under (h.only_owner hown v hv) (h.standing v).gate ?_
    (h.standing v).hinting
  intro hneeds
  rcases needsOpen_cases _ hneeds with hown' | hup'
  · rw [h.only_owner hown v hv] at hown'
    exact nomatch hown'
  · rw [h.only_gated hup v hv] at hup'
    exact nomatch hup'

/-- Lowering the gate. -/
theorem Inv.lowerGate (h : Inv s) {next : Bool} (ht : s.pcs t = .lowering next)
    (hmu : s.mu = none) :
    Inv { s.move t (if next then .marking else .idle) with compacting := false } := by
  have hup : behindGate (s.pcs t) = true := by rw [ht]; rfl
  have hself : ∀ u : State, Standing u t (if next then .marking else .idle) := by
    intro u
    cases next <;> exact .outside rfl rfl rfl nofun nofun nofun
  refine h.moved rfl (hself _) ?_ ?_ h.released
  · intro v hv
    refine (h.standing v).under (h.no_owner hmu v) ?_ (h.standing v).live (h.standing v).hinting
    intro hup'
    rw [h.only_gated hup v hv] at hup'
    exact nomatch hup'
  · intro hp
    cases next <;> exact nomatch hp

/-- A hint writer starts, under the `mu` of an open store. -/
theorem Inv.spawn (h : Inv s) {w : Nat} (ht : s.pcs t = .inside) :
    Inv { s.move w .hinting with hints := w :: s.hints } := by
  have hopen : s.closed = false := (h.standing t).live (by rw [ht]; rfl)
  have hown : owns (s.pcs t) = true := by rw [ht]; rfl
  refine h.moved rfl ⟨nofun, nofun, nofun, fun _ => List.mem_cons_self,
    fun h => h.elim nofun nofun, nofun⟩ ?_ nofun ?_
  · intro v _
    have hv := h.standing v
    refine ⟨hv.owner, hv.gate, hv.live, fun hp => List.mem_cons_of_mem _ (hv.hinting hp),
      hv.closing, ?_⟩
    intro hp
    rw [(hv.closing (.inr hp)).1] at hopen
    exact nomatch hopen
  · intro hrel
    rw [(h.released hrel).1] at hopen
    exact nomatch hopen

/-- A hint writer ends. -/
theorem Inv.endHint (h : Inv s) :
    Inv { s.move t .idle with hints := s.hints.filter (· ≠ t) } := by
  refine h.moved rfl (standing_idle _ t) ?_ nofun ?_
  · intro v hvt
    have hv := h.standing v
    refine ⟨hv.owner, hv.gate, hv.live, ?_, hv.closing, ?_⟩
    · intro hp
      exact List.mem_filter.mpr ⟨hv.hinting hp, decide_eq_true hvt⟩
    · intro hp
      rw [show s.hints = [] from hv.finishing hp]
      rfl
  · intro hrel
    obtain ⟨hclosed, hhints⟩ := h.released hrel
    refine ⟨hclosed, ?_⟩
    rw [show s.hints = [] from hhints]
    rfl

/-- `Close` releases `LOCK`. -/
theorem Inv.release (h : Inv s) (ht : s.pcs t = .finishing) :
    Inv { s.move t .leaving with released := true } := by
  have hown : owns (s.pcs t) = true := by rw [ht]; rfl
  have hclosed := ((h.standing t).closing (.inr ht)).1
  have hhints := (h.standing t).finishing ht
  refine h.moved rfl ⟨fun _ => (h.standing t).owner hown, nofun, nofun, nofun,
    fun h => h.elim nofun nofun, nofun⟩ ?_ nofun fun _ => ⟨hclosed, hhints⟩
  intro v hv
  exact (h.standing v).under (h.only_owner hown v hv) (h.standing v).gate (h.standing v).live
    (h.standing v).hinting

end Steps

/-- One step keeps the invariant. -/
theorem Inv.step {s u : State} {a : Action} (h : Inv s) (ha : Prompt s a)
    (hstep : Core.Handle.step s a = some u) : Inv u := by
  cases a with
  | begin t call =>
      simp only [Core.Handle.step] at hstep
      split at hstep
      · cases hstep
        exact h.moved_only (.outside rfl rfl rfl nofun nofun nofun) nofun
      · exact nomatch hstep
  | beginRead t =>
      simp only [Core.Handle.step] at hstep
      split at hstep
      · split at hstep
        · cases hstep
          exact h
        · cases hstep
          have hmoved := h.moved_only (t := t) (p := .reading)
            (.outside rfl rfl rfl nofun nofun nofun) nofun
          exact ⟨fun v => let hv := hmoved.standing v; ⟨hv.1, hv.2, hv.3, hv.4, hv.5, hv.6⟩,
            hmoved.single, hmoved.released⟩
      · exact nomatch hstep
  | acquire t =>
      simp only [Core.Handle.step] at hstep
      split at hstep
      · split at hstep
        · next hfree =>
            cases hstep
            exact h.enter (free_mu hfree.1) hfree.2 _
        · exact nomatch hstep
      · exact nomatch hstep
  | write t =>
      simp only [Core.Handle.step] at hstep
      split at hstep
      · cases hstep
        exact h
      · exact nomatch hstep
  | spawn t w =>
      simp only [Core.Handle.step] at hstep
      split at hstep
      · next ht =>
          cases hstep
          exact h.spawn ht.1
      · exact nomatch hstep
  | endHint w =>
      simp only [Core.Handle.step] at hstep
      split at hstep
      · cases hstep
        exact h.endHint
      · exact nomatch hstep
  | unlock t =>
      simp only [Core.Handle.step] at hstep
      split at hstep
      case h_5 => exact nomatch hstep
      all_goals
        next ht =>
          cases hstep
          exact h.unlock (by rw [ht]; rfl)
  | abort t =>
      simp only [Core.Handle.step] at hstep
      split at hstep
      · next call ht =>
          cases hstep
          have hup : behindGate (s.pcs t) = true := by rw [ht]; rfl
          exact h.moved_only (standing_afterError call ((h.standing t).gate hup)) fun _ => hup
      · exact nomatch hstep
  | takeSwap t =>
      simp only [Core.Handle.step] at hstep
      split at hstep
      · next call ht =>
          split at hstep
          · next hfree =>
              cases hstep
              have hup : behindGate (s.pcs t) = true := by rw [ht]; rfl
              have hneeds : needsOpen (s.pcs t) = true := by rw [ht]; rfl
              exact h.under_mu (fun v _ => h.no_owner (free_mu hfree) v) (some t)
                ⟨fun _ => rfl, fun _ => (h.standing t).gate hup,
                  fun _ => (h.standing t).live hneeds, nofun, fun h => h.elim nofun nofun, nofun⟩
                fun _ => hup
          · exact nomatch hstep
      · exact nomatch hstep
  | endSwap t ok =>
      simp only [Core.Handle.step] at hstep
      split at hstep
      · next call ht =>
          cases hstep
          have hgate : s.compacting = true := (h.standing t).gate (by rw [ht]; rfl)
          refine h.endSwap ht ?_
          cases ok with
          | true =>
              exact ⟨nofun, fun _ => hgate, nofun, nofun, fun h => h.elim nofun nofun, nofun⟩
          | false => exact standing_afterError call hgate
      · exact nomatch hstep
  | failStop t =>
      simp only [Core.Handle.step] at hstep
      split at hstep
      · next call ht =>
          split at hstep
          · next hhints =>
              cases hstep
              exact h.failStop ht hhints
          · exact nomatch hstep
      · exact nomatch hstep
  | look t =>
      simp only [Core.Handle.step] at hstep
      split at hstep
      · next ht =>
          cases hstep
          have hup : behindGate (s.pcs t) = true := by rw [ht.1]; rfl
          have hgate := (h.standing t).gate hup
          refine h.moved_only ?_ fun _ => hup
          cases hclosed : s.closed with
          | true =>
              exact ⟨nofun, fun _ => hgate, nofun, nofun, fun h => h.elim nofun nofun, nofun⟩
          | false =>
              exact ⟨nofun, fun _ => hgate, fun _ => hclosed, nofun, fun h => h.elim nofun nofun,
                nofun⟩
      · exact nomatch hstep
  | cleaned t =>
      simp only [Core.Handle.step] at hstep
      split at hstep
      · next ht =>
          cases hstep
          have hup : behindGate (s.pcs t) = true := by rw [ht]; rfl
          exact h.moved_only ⟨nofun, fun _ => (h.standing t).gate hup, nofun, nofun,
            fun h => h.elim nofun nofun, nofun⟩ fun _ => hup
      · exact nomatch hstep
  | lowerGate t =>
      simp only [Core.Handle.step] at hstep
      split at hstep
      · next next ht =>
          split at hstep
          · next hfree =>
              cases hstep
              exact h.lowerGate ht (free_mu hfree)
          · exact nomatch hstep
      · exact nomatch hstep
  | mark t =>
      simp only [Core.Handle.step] at hstep
      split at hstep
      · next ht =>
          cases hstep
          exact h.under_mu (fun v _ => h.no_owner (free_mu ht.2.1) v) (some t)
            ⟨fun _ => rfl, nofun, fun _ => ha, nofun, fun h => h.elim nofun nofun, nofun⟩ nofun
      · exact nomatch hstep
  | drained t =>
      simp only [Core.Handle.step] at hstep
      split at hstep
      · next ht =>
          cases hstep
          have hstand := h.standing t
          exact h.moved_only ⟨fun _ => hstand.owner (by rw [ht.1]; rfl), nofun, nofun, nofun,
            fun _ => hstand.closing (.inl ht.1), fun _ => ht.2⟩ nofun
      · exact nomatch hstep
  | release t =>
      simp only [Core.Handle.step] at hstep
      split at hstep
      · next ht =>
          cases hstep
          exact h.release ht
      · exact nomatch hstep
  | endRead t =>
      simp only [Core.Handle.step] at hstep
      split at hstep
      · cases hstep
        have hmoved := h.moved_only (t := t) (standing_idle s t) nofun
        exact ⟨fun v => let hv := hmoved.standing v; ⟨hv.1, hv.2, hv.3, hv.4, hv.5, hv.6⟩,
          hmoved.single, hmoved.released⟩
      · exact nomatch hstep

theorem PromptRun.inv {s : State} (h : PromptRun s) : Inv s := by
  induction h with
  | init => exact Inv.init
  | step _ ha hstep ih => exact ih.step ha hstep

/-- **A closed handle is inert.**  In every run of any calls in which `Reindex` gets the lock for
`markReindexed` only while the handle is open, no thread can write, rename, truncate or remove a
file of the store once `LOCK` has been released. -/
theorem closed_handle_inert {s : State} (h : PromptRun s) (hrel : s.released = true) (t : Nat) :
    step s (.write t) = none :=
  h.inv.inert hrel t

/-- A `Put` (thread 1) that waits behind a `Close` (thread 0). -/
def putBehindClose : List Action :=
  [.begin 0 .close, .begin 1 .mutate, .acquire 0, .drained 0, .write 0, .release 0, .unlock 0,
    .acquire 1]

theorem putBehindClose_inert : ∃ s, run {} putBehindClose = some s ∧ s.released = true
    ∧ step s (.write 1) = none := by
  refine ⟨_, rfl, rfl, closed_handle_inert ?_ rfl 1⟩
  have h₁ := PromptRun.step (a := .begin 0 .close) .init trivial rfl
  have h₂ := PromptRun.step (a := .begin 1 .mutate) h₁ trivial rfl
  have h₃ := PromptRun.step (a := .acquire 0) h₂ trivial rfl
  have h₄ := PromptRun.step (a := .drained 0) h₃ trivial rfl
  have h₅ := PromptRun.step (a := .write 0) h₄ trivial rfl
  have h₆ := PromptRun.step (a := .release 0) h₅ trivial rfl
  have h₇ := PromptRun.step (a := .unlock 0) h₆ trivial rfl
  exact PromptRun.step (a := .acquire 1) h₇ trivial rfl

/-- A `Reindex` (thread 1) whose rewrite is done, a whole `Close` (thread 0), and the second part
of the `Reindex`. -/
def closeInReindex : List Action :=
  [.begin 1 .reindex, .acquire 1, .write 1, .takeSwap 1, .write 1, .endSwap 1 true, .lowerGate 1,
    .begin 0 .close, .acquire 0, .drained 0, .write 0, .release 0, .unlock 0, .mark 1]

/-- `meta.json` is written after `LOCK` has been released. -/
theorem reindex_writes_after_close :
    ∃ s, run {} closeInReindex = some s ∧ s.released = true ∧ step s (.write 1) ≠ none :=
  ⟨_, rfl, rfl, fun h => nomatch h⟩

end NteeDb.Properties.ClosedHandle
