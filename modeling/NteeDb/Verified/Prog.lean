import Mathlib.Tactic.Common

/-!
# Programs with state and errors

A program of type `Prog σ ε α` changes a state and ends with a value or with an
error; the state it has reached is kept in either case, as in a language whose
errors are return values.

`Triple P c Q E` is total correctness: from a state in `P`, the program ends with
a value in `Q` or with an error in `E`.  The rules follow the program text.

## Main results

`Triple.bind`, `Triple.attempt`, `Triple.forEach` and `Triple.foldEach`.
-/

namespace NteeDb.Verified

/-- A program over states `σ` that may end with an error `ε`. -/
def Prog (σ ε α : Type) := σ → Except ε α × σ

namespace Prog

variable {σ ε α β : Type}

/-- Return a value. -/
protected def ret (a : α) : Prog σ ε α := fun s => (.ok a, s)

/-- Run one program after another; an error ends the run. -/
protected def andThen (c : Prog σ ε α) (f : α → Prog σ ε β) : Prog σ ε β := fun s =>
  match c s with
  | (.ok a, s') => f a s'
  | (.error e, s') => (.error e, s')

instance : Monad (Prog σ ε) where
  pure := Prog.ret
  bind := Prog.andThen

/-- End with an error. -/
def fail (e : ε) : Prog σ ε α := fun s => (.error e, s)

/-- Run a program and return how it ended. -/
def attempt (c : Prog σ ε α) : Prog σ ε (Except ε α) := fun s => (.ok (c s).1, (c s).2)

/-- A value, or the error that stands for it. -/
def ofExcept : Except ε α → Prog σ ε α
  | .ok a => Prog.ret a
  | .error e => fail e

/-- Run a program for every item of a list. -/
def forEach (xs : List α) (f : α → Prog σ ε Unit) : Prog σ ε Unit :=
  match xs with
  | [] => pure ()
  | x :: xs => do
      f x
      forEach xs f

/-- Thread a value through a program for every item of a list. -/
def foldEach (xs : List α) (b : β) (f : β → α → Prog σ ε β) : Prog σ ε β :=
  match xs with
  | [] => pure b
  | x :: xs => do
      let b ← f b x
      foldEach xs b f

/-! ## Running -/

theorem run_bind (c : Prog σ ε α) (f : α → Prog σ ε β) (s : σ) :
    (c >>= f) s = match c s with
      | (.ok a, s') => f a s'
      | (.error e, s') => (.error e, s') := rfl

theorem run_bind_ok {c : Prog σ ε α} {f : α → Prog σ ε β} {s s' : σ} {a : α}
    (h : c s = (.ok a, s')) : (c >>= f) s = f a s' := by
  rw [run_bind, h]

theorem run_bind_error {c : Prog σ ε α} {f : α → Prog σ ε β} {s s' : σ} {e : ε}
    (h : (c >>= f) s = (.error e, s')) :
    c s = (.error e, s') ∨ ∃ a t, c s = (.ok a, t) ∧ f a t = (.error e, s') := by
  rw [run_bind] at h
  cases hc : c s with
  | mk r t =>
      rw [hc] at h
      cases r with
      | ok a => exact Or.inr ⟨a, t, rfl, h⟩
      | error e' =>
          cases h
          exact Or.inl rfl

@[simp] theorem run_attempt (c : Prog σ ε α) (s : σ) : attempt c s = (.ok (c s).1, (c s).2) := rfl

/-! ## Triples -/

/-- From a state in `P`, `c` ends with a value in `Q` or an error in `E`. -/
def Triple (P : σ → Prop) (c : Prog σ ε α) (Q : α → σ → Prop) (E : ε → σ → Prop) : Prop :=
  ∀ s, P s → match c s with
    | (.ok a, s') => Q a s'
    | (.error e, s') => E e s'

variable {P P' : σ → Prop} {Q Q' : α → σ → Prop} {R : β → σ → Prop} {E E' : ε → σ → Prop}

namespace Triple

theorem ok {c : Prog σ ε α} (h : Triple P c Q E) {s s' : σ} {a : α} (hP : P s)
    (hrun : c s = (.ok a, s')) : Q a s' := by
  have := h s hP
  rwa [hrun] at this

theorem error {c : Prog σ ε α} (h : Triple P c Q E) {s s' : σ} {e : ε} (hP : P s)
    (hrun : c s = (.error e, s')) : E e s' := by
  have := h s hP
  rwa [hrun] at this

theorem intro {c : Prog σ ε α} (hok : ∀ s a s', P s → c s = (.ok a, s') → Q a s')
    (herr : ∀ s e s', P s → c s = (.error e, s') → E e s') : Triple P c Q E := by
  intro s hs
  split
  · next a s' hrun => exact hok s a s' hs hrun
  · next e s' hrun => exact herr s e s' hs hrun

theorem conseq {c : Prog σ ε α} (h : Triple P c Q E) (hP : ∀ s, P' s → P s)
    (hQ : ∀ a s, Q a s → Q' a s) (hE : ∀ e s, E e s → E' e s) : Triple P' c Q' E' :=
  intro (fun s a _ hs hrun => hQ a _ (h.ok (hP s hs) hrun))
    fun s e _ hs hrun => hE e _ (h.error (hP s hs) hrun)

theorem pure {a : α} (h : ∀ s, P s → Q a s) : Triple P (Pure.pure a : Prog σ ε α) Q E := h

theorem fail {e : ε} (h : ∀ s, P s → E e s) : Triple P (Prog.fail e : Prog σ ε α) Q E := h

theorem bind {c : Prog σ ε α} {f : α → Prog σ ε β} (hc : Triple P c Q E)
    (hf : ∀ a, Triple (Q a) (f a) R E) : Triple P (c >>= f) R E := by
  intro s hs
  have h := hc s hs
  rw [run_bind]
  revert h
  cases c s with
  | mk r s' =>
      cases r with
      | ok a => exact fun h => hf a s' h
      | error e => exact fun h => h

theorem attempt {c : Prog σ ε α} {S : Except ε α → σ → Prop}
    (h : Triple P c (fun a => S (.ok a)) (fun e => S (.error e))) :
    Triple P (Prog.attempt c) S E := by
  intro s hs
  have h := h s hs
  rw [run_attempt]
  revert h
  cases c s with
  | mk r s' =>
      cases r with
      | ok a => exact id
      | error e => exact id

theorem ofExcept {r : Except ε α} (hok : ∀ a s, r = .ok a → P s → Q a s)
    (herr : ∀ e s, r = .error e → P s → E e s) : Triple P (Prog.ofExcept r) Q E := by
  cases r with
  | ok a => exact fun s hs => hok a s rfl hs
  | error e => exact fun s hs => herr e s rfl hs

theorem ite {c d : Prog σ ε α} {b : Prop} [Decidable b] (hc : b → Triple P c Q E)
    (hd : ¬ b → Triple P d Q E) : Triple P (if b then c else d) Q E := by
  by_cases h : b
  · rw [if_pos h]
    exact hc h
  · rw [if_neg h]
    exact hd h

/-- A loop over a list, with an assertion about the items still to come. -/
theorem forEach {f : α → Prog σ ε Unit} {I : List α → σ → Prop}
    (h : ∀ x xs, Triple (I (x :: xs)) (f x) (fun _ => I xs) E) (xs : List α) :
    Triple (I xs) (Prog.forEach xs f) (fun _ => I []) E := by
  induction xs with
  | nil => exact pure fun _ hs => hs
  | cons x xs ih => exact bind (h x xs) fun _ => ih

/-- A fold over a list, with an assertion about the items still to come and the
value so far. -/
theorem foldEach {f : β → α → Prog σ ε β} {I : List α → β → σ → Prop}
    (h : ∀ x xs b, Triple (I (x :: xs) b) (f b x) (fun b' => I xs b') E) (xs : List α) (b : β) :
    Triple (I xs b) (Prog.foldEach xs b f) (fun b' => I [] b') E := by
  induction xs generalizing b with
  | nil => exact pure fun _ hs => hs
  | cons x xs ih => exact bind (h x xs b) fun b' => ih b'

end Triple

end Prog

end NteeDb.Verified
