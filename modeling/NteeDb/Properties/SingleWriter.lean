import NteeDb.Core.Lock

/-!
# A single writer across processes

`Drop` removes the files of the store, `LOCK` among them, when it no longer holds the flock: its
own `Close` has released it, and on a handle that was closed before it never had it.  A process
that opens the store in between loses its files, and after `LOCK` is gone another one locks a
new inode beside it.  As long as nobody is opening the store while files are being removed, and
no removal starts beside another handle that has the store or is about to lock it, at most one
handle has the store open and no `Drop` removes another's files.
-/

namespace NteeDb.Properties.SingleWriter

open NteeDb.Core.Lock

/-- At most one handle has the store open. -/
def Exclusive (s : State) : Prop :=
  ∀ p q i j, s.handles p = .locked i → s.handles q = .locked j → p = q

/-- The file is there. -/
def Present (s : State) (f : File) : Prop := f ∈ s.files ∨ (f = .lock ∧ s.lock ≠ none)

/-- The action removes a file that is there while a handle has the store open. -/
def Theft (s : State) (a : Action) : Prop :=
  ∃ d f fs listed q i, a = .remove d ∧ s.removals d = some ⟨f :: fs, listed⟩ ∧ Present s f
    ∧ s.handles q = .locked i

/-- Nobody opens `LOCK` while files are being removed, and no `Drop` starts removing while a
handle stands between opening `LOCK` and locking it or another handle has the store open. -/
def Apart (s : State) : Action → Prop
  | .openLock _ => ∀ d, s.removals d = none
  | .drop h _ => ∀ q i, s.handles q ≠ .opening i ∧ (q ≠ h → s.handles q ≠ .locked i)
  | _ => True

/-- Runs whose every step meets the condition. -/
inductive ApartRun : State → State → Prop
  | refl (s : State) : ApartRun s s
  | step {s t u : State} {a : Action} (h : ApartRun s t) (ha : Apart t a)
      (hstep : Core.Lock.step t a = some u) : ApartRun s u

/-- What holds along such runs: handles are on the inode the name stands for, flocks are held
by the handles that have the store open, and while files are being removed nobody has or is
getting the store. -/
structure Inv (s : State) : Prop where
  opening : ∀ p i, s.handles p = .opening i → s.lock = some i
  locked : ∀ p i, s.handles p = .locked i → s.lock = some i ∧ s.held i = some p
  alone : ∀ d r, s.removals d = some r →
    ∀ q i, s.handles q ≠ .opening i ∧ s.handles q ≠ .locked i

theorem Inv.of_quiet {s : State} (h : s.Quiet) : Inv s where
  opening p i hp := by rw [h.idle p] at hp; exact nomatch hp
  locked p i hp := by rw [h.idle p] at hp; exact nomatch hp
  alone d r hd := by rw [h.removals d] at hd; exact nomatch hd

theorem Inv.exclusive {s : State} (h : Inv s) : Exclusive s := by
  intro p q i j hp hq
  obtain ⟨hi, hpi⟩ := h.locked p i hp
  obtain ⟨hj, hqj⟩ := h.locked q j hq
  obtain rfl : i = j := Option.some.inj (hi.symm.trans hj)
  exact Option.some.inj (hpi.symm.trans hqj)

theorem Inv.no_theft {s : State} (h : Inv s) (a : Action) : ¬ Theft s a := by
  rintro ⟨d, f, fs, listed, q, i, -, hd, -, hq⟩
  exact (h.alone d _ hd q i).2 hq

/-! ## One step -/

section Moves

variable {s : State} {p : Nat}

/-- The other handles stay where they are. -/
theorem set_handles (x : Handle) (q : Nat) :
    (s.set p x).handles q = if q = p then x else s.handles q :=
  Function.update_apply s.handles p x q

/-- The other calls of `Destroy` stay where they are. -/
theorem removal_removals {d : Nat} (r : Option Removal) (c : Nat) :
    (s.removal d r).removals c = if c = d then r else s.removals c :=
  Function.update_apply s.removals d r c

/-- A handle that has nothing of the store any more keeps the invariant. -/
theorem Inv.idles (h : Inv s) : Inv (s.set p .idle) where
  opening q i hq := by
    rw [set_handles] at hq
    split at hq
    · exact nomatch hq
    · exact h.opening q i hq
  locked q i hq := by
    rw [set_handles] at hq
    split at hq
    · exact nomatch hq
    · exact h.locked q i hq
  alone d r hd q i := by
    rw [set_handles]
    split
    · exact ⟨nofun, nofun⟩
    · exact h.alone d r hd q i

/-- Releasing the flock of a handle that had the store open, which then has neither file nor
flock. -/
theorem Inv.release {i : Nat} (h : Inv s) (hp : s.handles p = .locked i) {x : Handle}
    (hx : ∀ j, x ≠ .opening j ∧ x ≠ .locked j) : Inv ((s.release p).set p x) := by
  have hrel : s.release p = s.hold i none := by rw [State.release, hp]
  rw [hrel]
  refine ⟨?_, ?_, ?_⟩
  · intro q j hq
    rw [set_handles] at hq
    split at hq
    · exact absurd hq (hx j).1
    · exact h.opening q j hq
  · intro q j hq
    rw [set_handles] at hq
    split at hq
    · exact absurd hq (hx j).2
    · next hne => exact absurd (h.exclusive q p j i hq hp) hne
  · intro d r hd
    exact absurd hp (h.alone d r hd p i).2

/-- `Destroy` starts when nobody has or is getting the store. -/
theorem Inv.destroys {d : Nat} {t : State} (h : Inv s) (ht : s.destroy d = some t)
    (hnone : ∀ q i, s.handles q ≠ .opening i ∧ s.handles q ≠ .locked i) : Inv t := by
  rw [State.destroy] at ht
  split at ht
  · cases ht
    exact ⟨h.opening, h.locked, fun _ _ _ => hnone⟩
  · exact nomatch ht

/-- While files are being removed nobody has or is getting the store, so that what the names
stand for does not matter. -/
theorem Inv.removes (h : Inv s) {t : State} (ht : t.handles = s.handles) {d : Nat} {r : Removal}
    (hd : s.removals d = some r) (r' : Option Removal) : Inv (t.removal d r') := by
  have hnone : ∀ q i, t.handles q ≠ .opening i ∧ t.handles q ≠ .locked i := by
    rw [ht]
    exact h.alone d r hd
  exact ⟨fun q i hq => absurd hq (hnone q i).1, fun q i hq => absurd hq (hnone q i).2,
    fun _ _ _ => hnone⟩

/-- A call of `Destroy` that ends takes nothing with it. -/
theorem Inv.leaves (h : Inv s) (d : Nat) : Inv (s.removal d none) := by
  refine ⟨h.opening, h.locked, ?_⟩
  intro c r hc
  rw [removal_removals] at hc
  split at hc
  · exact nomatch hc
  · exact h.alone c r hc

/-- A handle opens the inode the name stands for, or stands for from now on. -/
theorem Inv.opens (h : Inv s) {t : State} (ht : t.handles = s.handles) (hheld : t.held = s.held)
    (hremovals : t.removals = s.removals) {i : Nat} (hi : t.lock = some i)
    (hlock : ∀ j, s.lock = some j → j = i) (hapart : ∀ d, s.removals d = none) :
    Inv (t.set p (.opening i)) := by
  refine ⟨?_, ?_, ?_⟩
  · intro q j hq
    rw [set_handles, ht] at hq
    split at hq
    · cases hq
      exact hi
    · rw [hlock j (h.opening q j hq)]
      exact hi
  · intro q j hq
    rw [set_handles, ht] at hq
    split at hq
    · exact nomatch hq
    · obtain ⟨hj, hqj⟩ := h.locked q j hq
      refine ⟨?_, ?_⟩
      · rw [hlock j hj]
        exact hi
      · rw [← hqj, ← hheld]
        rfl
  · intro d r hd
    have hd' : s.removals d = some r := by rw [← hremovals]; exact hd
    rw [hapart d] at hd'
    exact nomatch hd'

/-- A handle gets the flock of the inode it opened. -/
theorem Inv.locks (h : Inv s) {i : Nat} (hp : s.handles p = .opening i)
    (hfree : s.held i = none) : Inv ((s.hold i (some p)).set p (.locked i)) := by
  have hlock := h.opening p i hp
  refine ⟨?_, ?_, ?_⟩
  · intro q j hq
    rw [set_handles] at hq
    split at hq
    · exact nomatch hq
    · exact h.opening q j hq
  · intro q j hq
    rw [set_handles] at hq
    split at hq
    · next hqp =>
        cases hq
        refine ⟨hlock, ?_⟩
        rw [hqp]
        exact Function.update_self i (some p) s.held
    · -- Another holder would hold the flock of the same inode.
      obtain ⟨hj, hqj⟩ := h.locked q j hq
      obtain rfl : i = j := Option.some.inj (hlock.symm.trans hj)
      rw [hfree] at hqj
      exact nomatch hqj
  · intro d r hd
    exact absurd hp (h.alone d r hd p i).1

end Moves

/-- One step keeps the invariant. -/
theorem Inv.step {s t : State} {a : Action} (h : Inv s) (ha : Apart s a)
    (hstep : Core.Lock.step s a = some t) : Inv t := by
  cases a with
  | openLock p =>
      simp only [Core.Lock.step] at hstep
      split at hstep
      · split at hstep
        · next i hi =>
            cases hstep
            exact h.opens rfl rfl rfl hi (fun j hj => Option.some.inj (hj.symm.trans hi)) ha
        · next hnone =>
            cases hstep
            exact h.opens (t := { s with lock := some s.fresh, fresh := s.fresh + 1 }) rfl rfl
              rfl rfl (fun j hj => by rw [hnone] at hj; exact nomatch hj) ha
      · exact nomatch hstep
  | flock p =>
      simp only [Core.Lock.step] at hstep
      split at hstep
      · next i hp =>
          split at hstep
          · next hfree =>
              cases hstep
              exact h.locks hp hfree
          · cases hstep
            exact h.idles
      · exact nomatch hstep
  | fail p =>
      simp only [Core.Lock.step] at hstep
      split at hstep
      · next i hp =>
          cases hstep
          exact h.release hp fun j => ⟨nofun, nofun⟩
      · exact nomatch hstep
  | write p f =>
      simp only [Core.Lock.step] at hstep
      split at hstep
      · split at hstep
        · cases hstep
          exact h
        · cases hstep
          exact ⟨h.opening, h.locked, h.alone⟩
      · exact nomatch hstep
  | close p =>
      simp only [Core.Lock.step] at hstep
      split at hstep
      · next i hp =>
          cases hstep
          exact h.release hp fun j => ⟨nofun, nofun⟩
      · exact nomatch hstep
  | drop p d =>
      simp only [Core.Lock.step] at hstep
      split at hstep
      · next i hp =>
          refine (h.release (x := .closed) hp fun j => ⟨nofun, nofun⟩).destroys hstep
            fun q j => ?_
          have hrel : (s.release p).handles = s.handles := by rw [State.release, hp]; rfl
          rw [set_handles, hrel]
          split
          · exact ⟨nofun, nofun⟩
          · next hne => exact ⟨(ha q j).1, (ha q j).2 hne⟩
      · next hp =>
          refine h.destroys hstep fun q j => ⟨(ha q j).1, fun hq => ?_⟩
          refine (ha q j).2 ?_ hq
          rintro rfl
          rw [hp] at hq
          exact nomatch hq
      · exact nomatch hstep
  | list d =>
      simp only [Core.Lock.step] at hstep
      split at hstep
      · next hd =>
          cases hstep
          exact h.removes rfl hd _
      · exact nomatch hstep
  | remove d =>
      simp only [Core.Lock.step] at hstep
      split at hstep
      · next f fs listed hd =>
          cases hstep
          refine h.removes ?_ hd _
          rw [State.unlink]
          split <;> rfl
      · exact nomatch hstep
  | leave d =>
      simp only [Core.Lock.step] at hstep
      split at hstep
      · cases hstep
        exact h.leaves d
      · exact nomatch hstep
  | crash p =>
      cases hstep
      cases hp : s.handles p with
      | locked i => exact h.release hp fun j => ⟨nofun, nofun⟩
      | _ =>
          rw [State.release, hp]
          exact h.idles

theorem ApartRun.inv {s t : State} (hrun : ApartRun s t) (hs : Inv s) : Inv t := by
  induction hrun with
  | refl => exact hs
  | step _ ha hstep ih => exact ih.step ha hstep

/-- **Single writer.**  In every run of any number of handles in which nobody opens `LOCK` during
the removals of a `Drop`, and no `Drop` starts removing while another handle has the store open
or any handle is about to lock it, no two handles ever have the store open, and no `Drop` removes
a file of a store that is open. -/
theorem single_writer {s t : State} (hs : s.Quiet) (hrun : ApartRun s t) :
    Exclusive t ∧ ∀ a, ¬ Theft t a :=
  ⟨(hrun.inv (.of_quiet hs)).exclusive, (hrun.inv (.of_quiet hs)).no_theft⟩

/-! ## Runs -/

theorem quiet_empty : State.empty.Quiet := ⟨fun _ => rfl, fun _ => rfl, fun _ => rfl⟩

/-- Handle 0 is closed and then dropped, and dropped again; handle 1 opens the store when both
calls have returned. -/
def dropThenOpen : List Action :=
  [.openLock 0, .flock 0, .write 0 .main, .close 0, .drop 0 0, .remove 0, .drop 0 1, .leave 0,
    .leave 1, .openLock 1, .flock 1]

theorem single_writer_dropThenOpen : ∃ t, run State.empty dropThenOpen = some t
    ∧ t.handles 1 = .locked 0 ∧ Exclusive t ∧ ∀ a, ¬ Theft t a := by
  refine ⟨_, rfl, rfl, single_writer quiet_empty ?_⟩
  have h₁ : ApartRun State.empty _ := .step (a := .openLock 0) (.refl _) (fun _ => rfl) rfl
  have h₂ := ApartRun.step (a := .flock 0) h₁ trivial rfl
  have h₃ := ApartRun.step (a := .write 0 .main) h₂ trivial rfl
  have h₄ := ApartRun.step (a := .close 0) h₃ trivial rfl
  have h₅ := ApartRun.step (a := .drop 0 0) h₄ (by
    intro q i
    by_cases hq : q = 0 <;> simp [State.set, State.hold, State.release, State.empty,
      Function.update, hq]) rfl
  have h₆ := ApartRun.step (a := .remove 0) h₅ trivial rfl
  have h₇ := ApartRun.step (a := .drop 0 1) h₆ (by
    intro q i
    by_cases hq : q = 0 <;> simp [State.set, State.hold, State.release, State.removal,
      State.unlink, State.empty, Function.update, hq, storeFiles]) rfl
  have h₈ := ApartRun.step (a := .leave 0) h₇ trivial rfl
  have h₉ := ApartRun.step (a := .leave 1) h₈ trivial rfl
  have h₁₀ := ApartRun.step (a := .openLock 1) h₉ (by
    intro d
    by_cases h₀ : d = 0 <;> by_cases h₁ : d = 1 <;> simp [State.set, State.hold, State.release,
      State.removal, State.unlink, State.empty, Function.update, h₀, h₁, storeFiles]) rfl
  exact ApartRun.step (a := .flock 1) h₁₀ trivial rfl

/-- Handle 1 opens the store between the release and the removals of handle 0's `Drop`, and
handle 2 opens it after `LOCK` has been removed. -/
def openDuringDrop : List Action :=
  [.openLock 0, .flock 0, .write 0 .main, .drop 0 0, .openLock 1, .flock 1, .remove 0, .remove 0,
    .remove 0, .remove 0, .remove 0, .remove 0, .remove 0, .openLock 2, .flock 2]

/-- Handle 0 is closed, handle 1 opens the store, and then comes `Drop` on handle 0, which has
nothing to close; handle 2 opens the store when that `Drop` has returned. -/
def dropAfterClose : List Action :=
  [.openLock 0, .flock 0, .write 0 .main, .close 0, .openLock 1, .flock 1, .drop 0 0, .remove 0,
    .remove 0, .remove 0, .remove 0, .remove 0, .remove 0, .remove 0, .list 0, .leave 0,
    .openLock 2, .flock 2]

/-- In both runs the `Drop` removes the log of the store that handle 1 has opened, and in the end
handles 1 and 2 both have the store open.  In the second one nobody opens `LOCK` during the
`Drop`. -/
theorem drop_breaks_lock :
    (∃ t, run State.empty (openDuringDrop.take 6) = some t ∧ Theft t (.remove 0))
      ∧ (∃ t, run State.empty openDuringDrop = some t ∧ ¬ Exclusive t)
      ∧ (∃ t, run State.empty (dropAfterClose.take 7) = some t ∧ Theft t (.remove 0))
      ∧ ∃ t, run State.empty dropAfterClose = some t ∧ ¬ Exclusive t := by
  refine ⟨⟨_, rfl, 0, .main, _, _, 1, 0, rfl, rfl, .inl List.mem_cons_self, rfl⟩,
    ⟨_, rfl, fun hexcl => absurd (hexcl 1 2 0 1 rfl rfl) (by decide)⟩,
    ⟨_, rfl, 0, .main, _, _, 1, 0, rfl, rfl, .inl List.mem_cons_self, rfl⟩,
    ⟨_, rfl, fun hexcl => absurd (hexcl 1 2 0 1 rfl rfl) (by decide)⟩⟩

end NteeDb.Properties.SingleWriter
