import NteeDb.Invariants.Sessions

/-!
# Requests that are refused

A request may be refused for what it asks: a value that an index cannot read, a key that would
be evicted at once, a record that cannot be encoded, a counter that is none.  None of this
changes what the log holds, but for a counter that has expired.
-/

namespace NteeDb.Core

open NteeDb.Verified
open Faults OrderedTree JsonCodec

/-- The requests that the store may refuse for what they ask. -/
def Refusable : Op → Prop
  | .put .. => True
  | .putIndexed .. => True
  | .incr .. => True
  | .topup .. => True
  | .take .. => True
  | _ => False

/-! ## Refused writes -/

section Refused

variable {m : Mode} {w : World}

/-- A record that cannot be written leaves at most its value in the blob file. -/
theorem appendRecord_refused (h : Sound m w) (hopen : w.db.closed = false) (key value : Bytes)
    (ix : AnyMap) (exp : Int64) (durable counter : Bool) :
    Spec Quiet (fun v => v = w) (appendRecord key value ix exp durable counter) (fun _ _ => True)
      (fun e => Unless fun v => e = .io ∨ e = .crash ∨ Sound m v ∧ Frame w v ∧
        SameContents w v) := by
  unfold appendRecord
  refine Spec.bind ((storeValue_spec not_quiet_fail h hopen key value ix exp counter).errors
    fun e v hv hwrap => ?_) fun r => ?_
  · exact (hv hwrap).2.imp_right Or.inl
  refine Spec.bind (Q := fun _ _ => True) ?_ fun _ => Spec.updateDB fun _ _ => trivial
  refine (Spec.unless (Q := fun _ _ => True) (E := fun e v => e = .io ∨ e = .crash ∨
    Sound m v ∧ Frame w v ∧ SameContents w v)
    ((appendSync_keeps r _ durable).post
      (fun _ _ hv => hv.1) fun _ _ hv => hv) ?_).post (fun _ _ _ => trivial)
    fun _ _ hv => hv
  rintro u _ ⟨hu, hframe, hsame, _⟩
  refine (appendSync_cases Quiet u r _ durable).post (fun _ _ _ _ => trivial) fun e v hv _ => ?_
  cases hv with
  | marshal => exact Or.inr (Or.inr ⟨hu, hframe, hsame⟩)
  | full => exact Or.inl rfl
  | crash => exact Or.inr (Or.inl rfl)
  | torn _ hk => exact absurd hk (not_quiet_fail _)
  | unsynced _ hk => exact absurd hk (not_quiet_fail _)
  | crashSync => exact Or.inr (Or.inl rfl)

/-- A write that is refused changes nothing that a reader sees. -/
theorem write_refused (h : Sound m w) (hopen : w.db.closed = false) (ord : MapOrder) {key : Bytes}
    (hkey : Utf8.valid key = true) (value : Bytes) {explicit : AnyMap} (hexp : CarriedMap explicit)
    (exp : Int64) :
    Spec Quiet (fun v => v = w) (write ord key value explicit exp) (fun _ => Unless fun _ => True)
      (fun e => Unless fun v => e = .io ∨ e = .crash ∨ Sound m v ∧ Frame w v ∧
        SameContents w v) := by
  have hstore := h.2.2 hopen
  have hsame : Sound m w ∧ Frame w w ∧ SameContents w w := ⟨h, Frame.refl w, rfl, rfl⟩
  unfold write
  refine Spec.bind_getWorld ?_
  rintro w rfl
  refine Spec.bind_ofExcept ?_ fun ix hix => ?_
  · rintro e v _ rfl _
    exact Or.inr (Or.inr hsame)
  refine Spec.bind_ofExcept ?_ fun _ _ => ?_
  · rintro e v _ rfl _
    exact Or.inr (Or.inr hsame)
  have hacc : AcceptedMap w.db.idx.secs ix := fun nv hnv => (buildIndexValues_mem hix nv hnv).2
  refine Spec.bind (Q := fun _ => Unless fun v => Sound m v ∧ Frame w v ∧
    AnyMap.Encodable ix) ?_ fun _ => ?_
  · refine (Spec.and (appendRecord_spec not_quiet_fail h hopen hkey value hacc
      (carried_buildIndexValues hstore.carried hkey hexp hix) exp w.db.opts.syncEveryWrite false)
      (appendRecord_refused h hopen key value ix exp w.db.opts.syncEveryWrite false)).post
      (fun _ v hv hwrap => ?_) fun _ _ hv => hv.2
    obtain ⟨hv, hframe, hwrote⟩ := hv.1 hwrap
    exact ⟨hv, hframe, hwrote.storable.encodable⟩
  refine Spec.bind (Q := fun _ => Unless fun v => Sound m v ∧ Frame w v) ?_ fun _ => ?_
  · refine Spec.unless (Keeps.forEach enforceOne_keeps _) ?_
    rintro u _ ⟨hu, hframe, henc⟩
    refine (enforceMaxPerValue_spec not_quiet_fail hu (hframe.closed.trans hopen) ord henc).post
      (fun _ v hv hwrap => ?_) fun e v hv hwrap => (hv hwrap).2.imp_right Or.inl
    obtain ⟨hv, hframe', _⟩ := hv hwrap
    exact ⟨hv, hframe.trans hframe'⟩
  · refine Spec.unless (Keeps.bind (countWrites_keeps 1) fun _ => maybeWriteHint_keeps) ?_
    rintro u _ ⟨hu, hframe⟩
    exact (countAndHint_spec hu (hframe.closed.trans hopen) 1).post
      (fun _ _ _ _ => trivial) fun _ _ hv => hv.elim

theorem putIndexed_refused (h : Sound m w) (ord : MapOrder) {key : Bytes}
    (hkey : Utf8.valid key = true) (value : Bytes) {explicit : AnyMap} (hexp : CarriedMap explicit)
    (ttl : List Int64) :
    Spec Quiet (fun v => v = w) (putIndexed ord key value explicit ttl)
    (fun _ => Unless fun _ => True)
      (fun e => Unless fun v => e = .io ∨ e = .crash ∨ Sound m v ∧ Frame w v ∧
        SameContents w v) := by
  have hsame : Sound m w ∧ Frame w w ∧ SameContents w w := ⟨h, Frame.refl w, rfl, rfl⟩
  unfold putIndexed
  refine Spec.bind_getWorld ?_
  rintro w rfl
  refine Spec.bind_ofExcept ?_ fun exp _ => ?_
  · rintro e v _ rfl _
    exact Or.inr (Or.inr hsame)
  exact Spec.bind_requireOpen (fun _ _ => Or.inr (Or.inr hsame)) fun hopen =>
    write_refused h hopen ord hkey value hexp exp

end Refused

/-- The errors of a counter's arithmetic. -/
theorem stepOn_error {β : Type} {step : Int64 → Except Err (Option Int64 × β)}
    (hstep : ∀ cur e, step cur = .error e → e = .counterOverflow) {c : Option Cell} {e : Err}
    (h : stepOn step c = .error e) : e = .counterOverflow ∨ e = .notCounter := by
  rw [stepOn] at h
  cases hcur : currentValue c with
  | ok cur =>
      rw [hcur] at h
      exact Or.inl (hstep cur e h)
  | error e' =>
      rw [hcur] at h
      cases h
      unfold currentValue at hcur
      split at hcur
      · cases hcur
      · unfold Cell.counterValue at hcur
        split at hcur
        · cases hcur
          exact Or.inr rfl
        · split at hcur
          · cases hcur
            exact Or.inr rfl
          · cases hcur

/-! ## After a request -/

section After

variable {w : World}

theorem quiet_of_answered {plan : List Answer} (h : Answered plan) : Answers Quiet plan := h.answers

/-- The world after a program that returned a value. -/
theorem exec_ok {α : Type} {c : StoreM α} {plan : List Answer} {P : World → Prop}
    {Q : World → Prop} {E : Err → World → Prop} (h : Spec Quiet P c (fun _ => Q) E) (hw : P w)
    (hplan : Answered plan) (hok : Succeeds c plan w = true) : Q (exec c plan w) :=
  exec_spec h hw (quiet_of_answered hplan) (fun _ _ hq => hq)
    fun e _ hfails _ => absurd hfails (Succeeds.not_fails hok e)

/-- The world after a program that returned an error. -/
theorem exec_error {α : Type} {c : StoreM α} {plan : List Answer} {P : World → Prop}
    {Q : α → World → Prop} {E : Err → World → Prop} {e : Err} (h : Spec Quiet P c Q E) (hw : P w)
    (hplan : Answered plan) (herr : Fails c plan w e) :
    ∃ v, E e v ∧ exec c plan w = if e.fatal then v.kill else v := by
  have hrun : c ⟨w, plan⟩ = (.error e, ⟨(c ⟨w, plan⟩).2.world, (c ⟨w, plan⟩).2.plan⟩) :=
    Prod.ext herr rfl
  refine ⟨_, Spec.error h hw (quiet_of_answered hplan) hrun, ?_⟩
  rw [exec, hrun]
  rfl

/-- A length that has wrapped stays so. -/
theorem wrapped_apply (ev : Event) (h : w.wrapped = true) : (ev.apply w).wrapped = true := by
  have hsettled : ∀ (e : Err) (v : World), Watched { wrapped := true } v →
      (if e.fatal then v.kill else v).wrapped = true := by
    intro e v hv
    have hwrap : v.wrapped = true := watched_wrapped.mp hv
    split <;> exact hwrap
  cases ev with
  | tick now => exact h
  | kill => exact h
  | op o plan =>
      exact exec_spec (A := fun _ => True) (op_keeps o) (watched_wrapped.mpr h) (fun _ _ => trivial)
        (fun _ _ hv => watched_wrapped.mp hv) fun e v _ hv => hsettled e v hv
  | openStore opts plan =>
      exact exec_spec (A := fun _ => True) (openStore_keeps opts)
        ⟨watched_wrapped.mpr h, fun hk => nomatch hk⟩ (fun _ _ => trivial)
        (fun _ _ hv => watched_wrapped.mp hv) fun e v _ hv => hsettled e v hv

/-- What an event keeps, unless a length wraps. -/
theorem Unless.apply {P : World → Prop} {ev : Event} (h : Unless P w)
    (hstep : P w → Unless P (ev.apply w)) : Unless P (ev.apply w) := by
  cases hw : w.wrapped with
  | false => exact hstep (h hw)
  | true =>
      intro hwrap
      rw [wrapped_apply ev hw] at hwrap
      cases hwrap

end After

end NteeDb.Core
