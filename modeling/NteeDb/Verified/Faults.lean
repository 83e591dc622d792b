import NteeDb.Verified.Prog

/-!
# Programs whose steps the environment answers

A program that works on a world outside of it (files, a device) reaches that
world in steps, and the environment answers each one: it carries the step out,
refuses it after some of its data got through, or the program dies before it.
The answers still to come are part of the state, so one text of a program stands
for its runs without faults, with failing steps, and cut off anywhere.

`Spec A P c Q E` is the triple of such a program over the world alone, when every
answer still to come is in `A`.  With `A` true of every answer it speaks of
arbitrary faults; with refusals left out, of runs that at most get cut off.
-/

namespace NteeDb.Verified

/-- How the environment answers a step. -/
inductive Answer where
  | ok
  | fail (kept : Nat)
  | crash
  deriving DecidableEq

/-- A world and the answers to the steps still to come; after the last one every
step is carried out. -/
structure Env (ω : Type) where
  world : ω
  plan : List Answer := []

namespace Faults

variable {ω ε α β : Type}

/-- The world. -/
def getWorld : Prog (Env ω) ε ω := fun s => (.ok s.world, s)

/-- Change what the program itself knows; no step of the environment. -/
def modify (f : ω → ω) : Prog (Env ω) ε Unit := fun s => (.ok (), { s with world := f s.world })

/-- One step: `act` when it is carried out, `torn` when it is refused after `kept`
bytes of its data got through. -/
def step (refused crashed : ε) (act : ω → ω) (torn : Nat → ω → ω) : Prog (Env ω) ε Unit :=
  fun s =>
    match s.plan with
    | [] => (.ok (), { s with world := act s.world })
    | .ok :: plan => (.ok (), ⟨act s.world, plan⟩)
    | .fail kept :: plan => (.error refused, ⟨torn kept s.world, plan⟩)
    | .crash :: plan => (.error crashed, ⟨s.world, plan⟩)

/-! ## Specifications -/

/-- The answers still to come are in `A`. -/
def Answers (A : Answer → Prop) (plan : List Answer) : Prop := ∀ a ∈ plan, A a

/-- From a world in `P`, with answers in `A`, `c` ends with a value in `Q` or with
an error in `E`. -/
def Spec (A : Answer → Prop) (P : ω → Prop) (c : Prog (Env ω) ε α) (Q : α → ω → Prop)
    (E : ε → ω → Prop) : Prop :=
  Prog.Triple (fun s => P s.world ∧ Answers A s.plan) c
    (fun a s => Q a s.world ∧ Answers A s.plan) (fun e s => E e s.world ∧ Answers A s.plan)

variable {A : Answer → Prop} {P P' : ω → Prop} {Q Q' : α → ω → Prop} {R : β → ω → Prop}
  {E E' : ε → ω → Prop}

namespace Spec

theorem ok {c : Prog (Env ω) ε α} (h : Spec A P c Q E) {w w' : ω} {plan plan' : List Answer}
    {a : α} (hP : P w) (hplan : Answers A plan) (hrun : c ⟨w, plan⟩ = (.ok a, ⟨w', plan'⟩)) :
    Q a w' := (Prog.Triple.ok h ⟨hP, hplan⟩ hrun).1

theorem error {c : Prog (Env ω) ε α} (h : Spec A P c Q E) {w w' : ω} {plan plan' : List Answer}
    {e : ε} (hP : P w) (hplan : Answers A plan)
    (hrun : c ⟨w, plan⟩ = (.error e, ⟨w', plan'⟩)) : E e w' :=
  (Prog.Triple.error h ⟨hP, hplan⟩ hrun).1

/-- What holds however the program ends holds of the world it leaves. -/
theorem world {c : Prog (Env ω) ε α} {I : ω → Prop} (h : Spec A P c (fun _ => I) fun _ => I)
    {s : Env ω} (hs : P s.world) (hplan : Answers A s.plan) : I (c s).2.world := by
  have h := h s ⟨hs, hplan⟩
  revert h
  cases c s with
  | mk r s' =>
      cases r with
      | ok a => exact And.left
      | error e => exact And.left

/-- A program that cannot end with an error ends with a value. -/
theorem run_ok {c : Prog (Env ω) ε α} (h : Spec A P c Q fun _ _ => False) {w : ω} (hP : P w) :
    ∃ a w' plan, c ⟨w, []⟩ = (.ok a, ⟨w', plan⟩) ∧ Q a w' := by
  have hrun := h ⟨w, []⟩ ⟨hP, by simp [Answers]⟩
  revert hrun
  cases c ⟨w, []⟩ with
  | mk r s =>
      cases r with
      | ok a => exact fun hrun => ⟨a, s.world, s.plan, rfl, hrun.1⟩
      | error e => exact fun hrun => hrun.1.elim

theorem conseq {c : Prog (Env ω) ε α} (h : Spec A P c Q E) (hP : ∀ w, P' w → P w)
    (hQ : ∀ a w, Q a w → Q' a w) (hE : ∀ e w, E e w → E' e w) : Spec A P' c Q' E' :=
  Prog.Triple.conseq h (fun _ hs => ⟨hP _ hs.1, hs.2⟩) (fun a _ hs => ⟨hQ a _ hs.1, hs.2⟩)
    fun e _ hs => ⟨hE e _ hs.1, hs.2⟩

/-- Weaken the precondition. -/
theorem pre {c : Prog (Env ω) ε α} (h : Spec A P c Q E) (hP : ∀ w, P' w → P w) :
    Spec A P' c Q E := h.conseq hP (fun _ _ hq => hq) fun _ _ he => he

/-- Weaken the outcomes. -/
theorem post {c : Prog (Env ω) ε α} (h : Spec A P c Q E) (hQ : ∀ a w, Q a w → Q' a w)
    (hE : ∀ e w, E e w → E' e w) : Spec A P c Q' E' := h.conseq (fun _ hp => hp) hQ hE

theorem errors {c : Prog (Env ω) ε α} (h : Spec A P c Q E) (hE : ∀ e w, E e w → E' e w) :
    Spec A P c Q E' := h.post (fun _ _ hq => hq) hE

/-- Two specifications of one program. -/
theorem and {c : Prog (Env ω) ε α} (h : Spec A P c Q E) (h' : Spec A P c Q' E') :
    Spec A P c (fun a w => Q a w ∧ Q' a w) fun e w => E e w ∧ E' e w := by
  refine Prog.Triple.intro (fun s a s' hs hrun => ?_) fun s e s' hs hrun => ?_
  · have hq := Prog.Triple.ok h hs hrun
    exact ⟨⟨hq.1, (Prog.Triple.ok h' hs hrun).1⟩, hq.2⟩
  · have he := Prog.Triple.error h hs hrun
    exact ⟨⟨he.1, (Prog.Triple.error h' hs hrun).1⟩, he.2⟩

/-- Fix the world the program starts from. -/
theorem of_world {c : Prog (Env ω) ε α} (h : ∀ w, P w → Spec A (fun v => v = w) c Q E) :
    Spec A P c Q E := by
  intro s hs
  exact h s.world hs.1 s ⟨rfl, hs.2⟩

/-- Take a fact that does not depend on the world out of the precondition. -/
theorem of_pure {φ : Prop} {c : Prog (Env ω) ε α} (h : φ → Spec A P c Q E) :
    Spec A (fun w => φ ∧ P w) c Q E := by
  intro s hs
  exact h hs.1.1 s ⟨hs.1.2, hs.2⟩

theorem pure {a : α} (h : ∀ w, P w → Q a w) : Spec A P (Pure.pure a : Prog (Env ω) ε α) Q E :=
  Prog.Triple.pure fun _ hs => ⟨h _ hs.1, hs.2⟩

theorem fail {e : ε} (h : ∀ w, P w → E e w) : Spec A P (Prog.fail e : Prog (Env ω) ε α) Q E :=
  Prog.Triple.fail fun _ hs => ⟨h _ hs.1, hs.2⟩

theorem bind {c : Prog (Env ω) ε α} {f : α → Prog (Env ω) ε β} (hc : Spec A P c Q E)
    (hf : ∀ a, Spec A (Q a) (f a) R E) : Spec A P (c >>= f) R E := Prog.Triple.bind hc hf

theorem getWorld {S : ω → ω → Prop} (h : ∀ w, P w → S w w) :
    Spec A P (Faults.getWorld : Prog (Env ω) ε ω) S E := fun s hs => ⟨h s.world hs.1, hs.2⟩

/-- Look at the world, then go on knowing it. -/
theorem bind_getWorld {f : ω → Prog (Env ω) ε β}
    (h : ∀ w, P w → Spec A (fun v => v = w) (f w) R E) :
    Spec A P (Faults.getWorld >>= f) R E := by
  intro s hs
  exact h s.world hs.1 s ⟨rfl, hs.2⟩

theorem modify {f : ω → ω} {S : Unit → ω → Prop} (h : ∀ w, P w → S () (f w)) :
    Spec A P (Faults.modify f : Prog (Env ω) ε Unit) S E := fun s hs => ⟨h s.world hs.1, hs.2⟩

theorem attempt {c : Prog (Env ω) ε α} {S : Except ε α → ω → Prop}
    (h : Spec A P c (fun a => S (.ok a)) (fun e => S (.error e))) :
    Spec A P (Prog.attempt c) S E := Prog.Triple.attempt h

/-- Go on after a computation whose errors are caught. -/
theorem bind_attempt {β : Type} {c : Prog (Env ω) ε α} {k : Except ε α → Prog (Env ω) ε β}
    {R : β → ω → Prop} {F : ε → ω → Prop} (hc : Spec A P c Q F)
    (hok : ∀ a, Spec A (Q a) (k (.ok a)) R E) (herr : ∀ e, Spec A (F e) (k (.error e)) R E) :
    Spec A P (Prog.attempt c >>= k) R E := by
  refine bind (attempt (S := fun r w => (∀ a, r = .ok a → Q a w) ∧ ∀ e, r = .error e → F e w)
    (hc.post (fun a w h => ⟨?_, ?_⟩) fun e w h => ⟨?_, ?_⟩)) fun r => ?_
  · rintro _ ⟨⟩
    exact h
  · rintro _ ⟨⟩
  · rintro _ ⟨⟩
  · rintro _ ⟨⟩
    exact h
  cases r with
  | ok a => exact (hok a).conseq (fun w h => h.1 a rfl) (fun _ _ h => h) fun _ _ h => h
  | error e => exact (herr e).conseq (fun w h => h.2 e rfl) (fun _ _ h => h) fun _ _ h => h

theorem ofExcept {r : Except ε α} (hok : ∀ a w, r = .ok a → P w → Q a w)
    (herr : ∀ e w, r = .error e → P w → E e w) : Spec A P (Prog.ofExcept r) Q E :=
  Prog.Triple.ofExcept (fun a s hr hs => ⟨hok a s.world hr hs.1, hs.2⟩)
    fun e s hr hs => ⟨herr e s.world hr hs.1, hs.2⟩

/-- After a computation that may be an error, its value is known. -/
theorem bind_ofExcept {r : Except ε α} {f : α → Prog (Env ω) ε β}
    (herr : ∀ e w, r = .error e → P w → E e w) (hok : ∀ a, r = .ok a → Spec A P (f a) R E) :
    Spec A P (Prog.ofExcept r >>= f) R E := by
  cases r with
  | ok a => exact hok a rfl
  | error e => exact fun s hs => ⟨herr e s.world rfl hs.1, hs.2⟩

theorem ite {c d : Prog (Env ω) ε α} {b : Prop} [Decidable b] (hc : b → Spec A P c Q E)
    (hd : ¬ b → Spec A P d Q E) : Spec A P (if b then c else d) Q E := Prog.Triple.ite hc hd

/-- A step: each answer in `A` has its own outcome. -/
theorem step {refused crashed : ε} {act : ω → ω} {torn : Nat → ω → ω} {S : Unit → ω → Prop}
    (hok : ∀ w, P w → S () (act w))
    (hfail : ∀ kept w, A (.fail kept) → P w → E refused (torn kept w))
    (hcrash : ∀ w, A .crash → P w → E crashed w) :
    Spec A P (Faults.step refused crashed act torn) S E := by
  intro s hs
  obtain ⟨w, plan⟩ := s
  obtain ⟨hP, hA⟩ := hs
  cases plan with
  | nil => exact ⟨hok w hP, hA⟩
  | cons a plan =>
      have hrest : Answers A plan := fun b hb => hA b (List.mem_cons_of_mem a hb)
      have ha : A a := hA a (List.mem_cons_self ..)
      cases a with
      | ok => exact ⟨hok w hP, hrest⟩
      | fail kept => exact ⟨hfail kept w ha hP, hrest⟩
      | crash => exact ⟨hcrash w ha hP, hrest⟩

/-- A loop over a list, with an assertion about the items still to come. -/
theorem forEach {f : α → Prog (Env ω) ε Unit} {I : List α → ω → Prop}
    (h : ∀ x xs, Spec A (I (x :: xs)) (f x) (fun _ => I xs) E) (xs : List α) :
    Spec A (I xs) (Prog.forEach xs f) (fun _ => I []) E :=
  Prog.Triple.forEach (I := fun xs (s : Env ω) => I xs s.world ∧ Answers A s.plan) h xs

/-- A fold over a list, with an assertion about the items still to come and the
value so far. -/
theorem foldEach {f : β → α → Prog (Env ω) ε β} {I : List α → β → ω → Prop}
    (h : ∀ x xs b, Spec A (I (x :: xs) b) (f b x) (fun b' => I xs b') E) (xs : List α) (b : β) :
    Spec A (I xs b) (Prog.foldEach xs b f) (fun b' => I [] b') E :=
  Prog.Triple.foldEach (I := fun xs b (s : Env ω) => I xs b s.world ∧ Answers A s.plan) h xs b

end Spec

/-! ## Invariants -/

/-- The program keeps `I` when every answer is in `A`, however it ends. -/
def Keeps (A : Answer → Prop) (I : ω → Prop) (c : Prog (Env ω) ε α) : Prop :=
  Spec A I c (fun _ => I) fun _ => I

namespace Keeps

variable {I : ω → Prop}

theorem run {c : Prog (Env ω) ε α} (h : Keeps A I c) {s : Env ω} (hs : I s.world)
    (hplan : Answers A s.plan) : I (c s).2.world := Spec.world h hs hplan

theorem pure (a : α) : Keeps A I (Pure.pure a : Prog (Env ω) ε α) := Spec.pure fun _ h => h

theorem fail (e : ε) : Keeps A I (Prog.fail e : Prog (Env ω) ε α) := Spec.fail fun _ h => h

theorem bind {c : Prog (Env ω) ε α} {f : α → Prog (Env ω) ε β} (hc : Keeps A I c)
    (hf : ∀ a, Keeps A I (f a)) : Keeps A I (c >>= f) := Spec.bind hc hf

theorem getWorld : Keeps A I (Faults.getWorld : Prog (Env ω) ε ω) := Spec.getWorld fun _ h => h

theorem modify {f : ω → ω} (h : ∀ w, I w → I (f w)) :
    Keeps A I (Faults.modify f : Prog (Env ω) ε Unit) := Spec.modify h

theorem attempt {c : Prog (Env ω) ε α} (h : Keeps A I c) : Keeps A I (Prog.attempt c) :=
  Spec.attempt h

theorem ofExcept (r : Except ε α) : Keeps A I (Prog.ofExcept r : Prog (Env ω) ε α) :=
  Spec.ofExcept (fun _ _ _ h => h) fun _ _ _ h => h

theorem ite {c d : Prog (Env ω) ε α} {b : Prop} [Decidable b] (hc : b → Keeps A I c)
    (hd : ¬ b → Keeps A I d) : Keeps A I (if b then c else d) := Spec.ite hc hd

theorem step {refused crashed : ε} {act : ω → ω} {torn : Nat → ω → ω} (hact : ∀ w, I w → I (act w))
    (htorn : ∀ kept w, A (.fail kept) → I w → I (torn kept w)) :
    Keeps A I (Faults.step refused crashed act torn) := Spec.step hact htorn fun _ _ h => h

theorem forEach {f : α → Prog (Env ω) ε Unit} (h : ∀ x, Keeps A I (f x)) (xs : List α) :
    Keeps A I (Prog.forEach xs f) := Spec.forEach (I := fun _ => I) (fun x _ => h x) xs

theorem foldEach {f : β → α → Prog (Env ω) ε β} (h : ∀ b x, Keeps A I (f b x)) (xs : List α)
    (b : β) : Keeps A I (Prog.foldEach xs b f) :=
    Spec.foldEach (I := fun _ _ => I) (fun x _ b => h b x) xs b

end Keeps

end Faults

end NteeDb.Verified
