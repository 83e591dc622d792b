import NteeDb.Core.Counter
import NteeDb.Server.Dispatch

/-!
# The store behind the server

The calls of `dispatch` that can set an expiry, answered by the store of `NteeDb.Core`.  What
answers the other calls is left open.
-/

namespace NteeDb.Net

open NteeDb.Core NteeDb.Verified NteeDb.Verified.JsonCodec

/-- A program of the store as a call of the server; the server only sees an error's text. -/
def perform {α : Type} (msg : Err → String) (c : StoreM α) : Call (Env World) α := fun s =>
  ((c s).1.mapError msg, (c s).2)

/-- Answer the calls that can set an expiry by the store. -/
def Database.overStore (ord : MapOrder) (msg : Err → String) (rest : Database (Env World) AnyMap) :
    Database (Env World) AnyMap :=
  { rest with
    put := fun key value ttl => perform msg (Core.put ord key value ttl.toList)
    putIndexed := fun key value ix ttl => perform msg (Core.putIndexed ord key value ix ttl.toList)
    incr := fun key delta ttl s =>
      (((perform msg (Core.incr key (Int64.ofInt delta) ttl.toList)) s).1.map Int64.toInt,
        (perform msg (Core.incr key (Int64.ofInt delta) ttl.toList) s).2)
    topup := fun key amount max ttl s =>
      (((perform msg (Core.topup key (Int64.ofInt amount) (Int64.ofInt max) ttl.toList)) s).1.map
          Int64.toInt,
        (perform msg (Core.topup key (Int64.ofInt amount) (Int64.ofInt max) ttl.toList) s).2)
    take := fun key amount left ttl =>
      perform msg (Core.take key (Int64.ofInt amount) (Int64.ofInt left) ttl.toList) }

/-! ## Commands that succeeded -/

section Answered

variable {δ ι : Type}

/-- The reply says `ok`. -/
def Effect.Succeeded (e : Effect) : Prop := ∃ r : Reply, e.reply = .ok r ∧ r.ok = true

theorem Effect.succeeded_iff {e : Effect} :
    e.Succeeded ↔ e.reply.toOption.map Reply.ok = some true := by
  rw [Effect.Succeeded]
  cases e.reply with
  | error err => simp [Except.toOption]
  | ok r => simp [Except.toOption]

instance Effect.decidableSucceeded : DecidablePred Effect.Succeeded :=
  fun _ => decidable_of_iff _ Effect.succeeded_iff.symm

theorem not_succeeded_refuse {msg : String} {x : Session δ} : ¬ (refuse msg x).1.Succeeded := by
  rintro ⟨r, hr, hok⟩
  cases hr
  cases hok

theorem call_succeeded {α : Type} {f : Call δ α} {show_ : α → Reply} {x : Session δ}
    (h : (call f show_ x).1.Succeeded) : ∃ a, f x.db = (.ok a, (call f show_ x).2.db) := by
  obtain ⟨r, hr, hok⟩ := h
  rw [call] at hr ⊢
  cases hf : f x.db with
  | mk out db =>
      cases out with
      | ok a => exact ⟨a, rfl⟩
      | error e =>
          rw [hf] at hr
          cases hr
          cases hok

theorem withArgs_succeeded {α : Type} {args : Except String α}
    {k : α → Session δ → Effect × Session δ} {x : Session δ}
    (h : (withArgs args k x).1.Succeeded) : ∃ a, args = .ok a ∧ withArgs args k x = k a x := by
  cases args with
  | ok a => exact ⟨a, rfl, rfl⟩
  | error e => exact absurd h not_succeeded_refuse

theorem requireAuth_succeeded {f : Session δ → Effect × Session δ} {x : Session δ}
    (h : (requireAuth f x).1.Succeeded) : requireAuth f x = f x := by
  rw [requireAuth] at h ⊢
  split at h
  · next hauth => rw [if_pos hauth]
  · exact absurd h not_succeeded_refuse

/-- A command behind `requireAuth` that parses its arguments first. -/
theorem guarded_succeeded {α : Type} {args : Except String α}
    {k : α → Session δ → Effect × Session δ} {x : Session δ}
    (h : (requireAuth (withArgs args k) x).1.Succeeded) :
    ∃ a, args = .ok a ∧ requireAuth (withArgs args k) x = k a x := by
  have hauth := requireAuth_succeeded h
  rw [hauth] at h
  obtain ⟨a, hargs, hk⟩ := withArgs_succeeded h
  exact ⟨a, hargs, hauth.trans hk⟩

theorem not_succeeded_fatal {c : Conn δ} {e : ReadErr} : ¬ (c.fatal e).1.Succeeded := by
  rintro ⟨r, hr, _⟩
  cases hr

theorem not_succeeded_run_refuse {c : Conn δ} {msg : String} :
    ¬ (c.run (refuse msg)).1.Succeeded := not_succeeded_refuse (x := c.sess)

theorem run_effect (c : Conn δ) (f : Session δ → Effect × Session δ) :
    (c.run f).1 = (f c.sess).1 := rfl

theorem run_sess (c : Conn δ) (f : Session δ → Effect × Session δ) :
    (c.run f).2.sess = (f c.sess).2 := rfl

end Answered

end NteeDb.Net
