import NteeDb.Core.Rewrite

/-!
# Rules for the steps of the store

The specification rules of `Faults` for the steps the store's programs are made
of.  `Spec A P c Q E` says what holds of the world after `c`, and what holds when
it is cut off or returns an error; `Keeps A I c` is the case of an invariant.
-/

namespace NteeDb.Core

open NteeDb.Verified
open Faults

variable {α : Type} {A : Answer → Prop} {P : World → Prop} {E : Err → World → Prop}

namespace Spec

theorem fileStep {act : World → World} {torn : Nat → World → World} {Q : Unit → World → Prop}
    (hok : ∀ w, P w → Q () (act w))
    (hfail : ∀ kept w, A (.fail kept) → P w → E .io (torn kept w))
    (hcrash : ∀ w, A .crash → P w → E .crash w) : Spec A P (fileStep act torn) Q E :=
  Spec.step hok hfail hcrash

/-- A step that changes no file, or changes it as a whole. -/
theorem atomicStep {act : World → World} {Q : Unit → World → Prop}
    (hok : ∀ w, P w → Q () (act w)) (hfail : ∀ k w, A (.fail k) → P w → E .io w)
    (hcrash : ∀ w, A .crash → P w → E .crash w) : Spec A P (atomicStep act) Q E :=
  fileStep hok hfail hcrash

theorem quietStep {Q : Unit → World → Prop} (hok : ∀ w, P w → Q () w)
    (hfail : ∀ k w, A (.fail k) → P w → E .io w) (hcrash : ∀ w, A .crash → P w → E .crash w) :
    Spec A P quietStep Q E := fileStep hok hfail hcrash

theorem readStep {f : World → Except Err α} {Q : α → World → Prop}
    (hok : ∀ a w, P w → f w = .ok a → Q a w) (herr : ∀ e w, P w → f w = .error e → E e w)
    (hfail : ∀ k w, A (.fail k) → P w → E .io w) (hcrash : ∀ w, A .crash → P w → E .crash w) :
    Spec A P (readStep f) Q E := by
  refine Spec.bind (Spec.quietStep (Q := fun _ => P) (fun _ h => h) hfail hcrash) fun _ => ?_
  refine Spec.bind_getWorld fun w hw => ?_
  refine Spec.ofExcept ?_ ?_
  · rintro a v hr rfl
    exact hok a v hw hr
  · rintro e v hr rfl
    exact herr e v hw hr

theorem updateDB {f : DB → DB} {Q : Unit → World → Prop}
    (h : ∀ w, P w → Q () { w with db := f w.db }) : Spec A P (updateDB f) Q E :=
  Spec.modify h

theorem require {b : Bool} {e : Err} {Q : Unit → World → Prop} (hok : ∀ w, P w → b = true → Q () w)
    (herr : ∀ w, P w → b = false → E e w) : Spec A P (require b e) Q E := by
  cases b with
  | true => exact Spec.pure fun w h => hok w h rfl
  | false => exact Spec.fail fun w h => herr w h rfl

theorem bind_require {b : Bool} {e : Err} {f : Unit → StoreM α} {Q : α → World → Prop}
    (herr : ∀ w, P w → b = false → E e w) (hok : b = true → Spec A P (f ()) Q E) :
    Spec A P (Core.require b e >>= f) Q E := by
  cases b with
  | true => exact hok rfl
  | false => exact fun s hs => ⟨herr s.world hs.1 rfl, hs.2⟩

theorem doWhen {b : Bool} {c : StoreM Unit} {Q : Unit → World → Prop}
    (hc : b = true → Spec A P c Q E) (hskip : ∀ w, P w → b = false → Q () w) :
    Spec A P (doWhen b c) Q E := by
  cases b with
  | true => exact hc rfl
  | false => exact Spec.pure fun w h => hskip w h rfl

/-- The cleanup after an error starts from what holds of the error. -/
theorem onError {c : StoreM α} {cleanup : StoreM Unit} {Q : α → World → Prop}
    {F : Err → World → Prop} (hc : Spec A P c Q F)
    (hclean : ∀ e, e.fatal = false → Spec A (F e) cleanup (fun _ => E e) E)
    (hfatal : ∀ e w, e.fatal = true → F e w → E e w) : Spec A P (onError c cleanup) Q E := by
  refine Spec.bind_attempt hc (fun a => Spec.pure fun _ h => h) fun e => ?_
  refine Spec.bind (Q := fun _ => E e) ?_ fun _ => Spec.fail fun _ h => h
  refine doWhen (fun he => ?_) fun w h he => ?_
  · exact hclean e (by simpa using he)
  · exact hfatal e w (by simpa using he) h

theorem ignoreError {c : StoreM Unit} {Q : Unit → World → Prop} {F : Err → World → Prop}
    (hc : Spec A P c Q F) (hdrop : ∀ e w, e.fatal = false → F e w → Q () w)
    (hfatal : ∀ e w, e.fatal = true → F e w → E e w) : Spec A P (ignoreError c) Q E := by
  refine Spec.bind_attempt hc (fun _ => Spec.pure fun _ h => h) fun e => ?_
  refine Spec.ite (fun he => ?_) fun he => ?_
  · exact Spec.fail fun w h => hfatal e w he h
  · exact Spec.pure fun w h => hdrop e w (by simpa using he) h

theorem optionalRead {f : World → Option α} {Q : Option α → World → Prop}
    (hread : ∀ w, P w → Q (f w) w) (hnone : ∀ k w, A (.fail k) → P w → Q none w)
    (hcrash : ∀ w, A .crash → P w → E .crash w) : Spec A P (optionalRead f) Q E := by
  have hquiet : Spec A P NteeDb.Core.quietStep (fun _ => P)
      (fun e w => P w ∧ (e = .io ∧ (∃ k, A (.fail k)) ∨ e = .crash ∧ A .crash)) :=
    Spec.fileStep (fun _ h => h) (fun k w hk h => ⟨h, Or.inl ⟨rfl, k, hk⟩⟩)
      fun w hc h => ⟨h, Or.inr ⟨rfl, hc⟩⟩
  refine Spec.bind (Spec.attempt (S := fun r w => P w ∧ ∀ e, r = .error e →
    (e = .io ∧ (∃ k, A (.fail k)) ∨ e = .crash ∧ A .crash))
    (hquiet.post (fun _ _ h => ⟨h, by rintro e ⟨⟩⟩)
      fun e w h => ⟨h.1, fun e' he' => by cases he'; exact h.2⟩)) fun r => ?_
  cases r with
  | ok _ =>
      refine Spec.bind_getWorld fun w hw => ?_
      refine Spec.pure ?_
      rintro v rfl
      exact hread v hw.1
  | error e =>
      refine Spec.of_world fun w hw => ?_
      rcases hw.2 e rfl with ⟨rfl, k, hfail⟩ | ⟨rfl, hc⟩
      · refine Spec.pure ?_
        rintro v rfl
        exact hnone k v hfail hw.1
      · refine Spec.fail ?_
        rintro v rfl
        exact hcrash v hc hw.1

end Spec

/-! ## Invariants -/

namespace Keeps

variable {I : World → Prop}

theorem fileStep {act : World → World} {torn : Nat → World → World} (hact : ∀ w, I w → I (act w))
    (htorn : ∀ kept w, A (.fail kept) → I w → I (torn kept w)) : Keeps A I (fileStep act torn) :=
  Keeps.step hact htorn

theorem atomicStep {act : World → World} (hact : ∀ w, I w → I (act w)) :
    Keeps A I (atomicStep act) :=
  fileStep hact fun _ _ _ h => h

theorem quietStep : Keeps A I quietStep := fileStep (fun _ h => h) fun _ _ _ h => h

theorem readStep (f : World → Except Err α) : Keeps A I (readStep f) :=
  Keeps.bind quietStep fun _ => Keeps.bind Keeps.getWorld fun _ =>
    Keeps.ofExcept _

theorem updateDB {f : DB → DB} (h : ∀ w, I w → I { w with db := f w.db }) :
    Keeps A I (updateDB f) :=
  Keeps.modify h

theorem require (b : Bool) (e : Err) : Keeps A I (require b e) := by
  cases b with
  | true => exact Keeps.pure ()
  | false => exact Keeps.fail e

theorem doWhen {b : Bool} {c : StoreM Unit} (hc : Keeps A I c) : Keeps A I (doWhen b c) :=
  Spec.doWhen (fun _ => hc) fun _ h _ => h

theorem onError {c : StoreM α} {cleanup : StoreM Unit} (hc : Keeps A I c)
    (hclean : Keeps A I cleanup) : Keeps A I (onError c cleanup) :=
  Spec.onError hc (fun _ _ => hclean) fun _ _ _ h => h

theorem ignoreError {c : StoreM Unit} (hc : Keeps A I c) : Keeps A I (ignoreError c) :=
  Spec.ignoreError hc (fun _ _ _ h => h) fun _ _ _ h => h

theorem optionalRead (f : World → Option α) : Keeps A I (optionalRead f) :=
  Spec.optionalRead (fun _ h => h) (fun _ _ _ h => h) fun _ _ h => h

end Keeps

end NteeDb.Core
