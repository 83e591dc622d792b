import NteeDb.Server.Dispatch

/-!
# What commands have in common

Every command but `quit` and `auth` replies, goes on and leaves the session as it is; a
maintenance operation is run for administrators only, and behind `requireAuth`.  The commands
with data blocks do the same once their blocks have been read.
-/

namespace NteeDb.Net

open NteeDb.Verified

variable {δ ι : Type}

/-- The role a command is granted: that of an `auth` with valid credentials. -/
def Server.granted (s : Server ι) (word : Option Word) (args : List Bytes) : Option Role :=
  match word with
  | some (.line .auth) => (s.auth.check args).toOption
  | _ => none

theorem Server.granted_of_ne (s : Server ι) {word : Option Word} (h : word ≠ some (.line .auth))
    (args : List Bytes) : s.granted word args = none := by
  unfold Server.granted
  split
  · exact absurd rfl h
  · rfl

/-! ## Commands on a session -/

/-- A command that replies and goes on, leaves the session, and runs maintenance for
administrators only. -/
structure Routine (f : Session δ → Effect × Session δ) : Prop where
  replies : ∀ x, (f x).1.reply.isOk = true
  goesOn : ∀ x, (f x).1.quit = false
  session : ∀ x, (f x).2.st = x.st
  admin : ∀ x, (f x).1.ran ≠ none → x.st.role = .admin

theorem routine_refuse (msg : String) : Routine (refuse msg : Session δ → _) :=
  ⟨fun _ => rfl, fun _ => rfl, fun _ => rfl, fun _ h => absurd rfl h⟩

/-- A reply that may depend on the session, and on the store as it then is. -/
theorem routine_reply (r : Session δ → Reply) (next : Session δ → δ) :
    Routine fun x => reply (r x) { x with db := next x } :=
  ⟨fun _ => rfl, fun _ => rfl, fun _ => rfl, fun _ h => absurd rfl h⟩

theorem routine_call {α : Type} (f : Call δ α) (out : Session δ → α → Reply) :
    Routine fun x => call f (out x) x := by
  refine ⟨fun x => ?_, fun x => ?_, fun x => ?_, fun x h => ?_⟩
  · unfold call
    split <;> rfl
  · unfold call
    split <;> rfl
  · unfold call
    split <;> rfl
  · unfold call at h
    split at h <;> exact absurd rfl h

theorem routine_withArgs {α : Type} {args : Except String α}
    {k : α → Session δ → Effect × Session δ} (hk : ∀ a, Routine (k a)) :
    Routine (withArgs args k) := by
  cases args with
  | ok a => exact hk a
  | error e => exact routine_refuse e

theorem routine_maintain (cmd : String) (op : Maintenance) (f : Call δ Unit)
    (count : Counters → Counters) : Routine (maintain cmd op f count) := by
  have hall : ∀ x, (maintain cmd op f count x).1.reply.isOk = true ∧
      (maintain cmd op f count x).1.quit = false ∧ (maintain cmd op f count x).2.st = x.st ∧
      ((maintain cmd op f count x).1.ran ≠ none → x.st.role = .admin) := by
    intro x
    unfold maintain
    split
    · exact ⟨rfl, rfl, rfl, fun h => absurd rfl h⟩
    · next hrole =>
        split
        · exact ⟨rfl, rfl, rfl, fun _ => Decidable.not_not.mp hrole⟩
        · exact ⟨rfl, rfl, rfl, fun _ => Decidable.not_not.mp hrole⟩
  exact ⟨fun x => (hall x).1, fun x => (hall x).2.1, fun x => (hall x).2.2.1,
    fun x => (hall x).2.2.2⟩

theorem requireAuth_authed {f : Session δ → Effect × Session δ} {x : Session δ}
    (h : x.st.authed = true) : requireAuth f x = f x := by rw [requireAuth, if_pos h]

theorem requireAuth_unauthed {f : Session δ → Effect × Session δ} {x : Session δ}
    (h : x.st.authed = false) : requireAuth f x = refuse "auth required" x := by
  rw [requireAuth, h]
  rfl

theorem Routine.requireAuth {f : Session δ → Effect × Session δ} (h : Routine f) :
    Routine (requireAuth f) := by
  have hcases : ∀ x, Net.requireAuth f x = f x ∨
      Net.requireAuth f x = refuse "auth required" x := by
    intro x
    cases hst : x.st.authed with
    | true => exact .inl (requireAuth_authed hst)
    | false => exact .inr (requireAuth_unauthed hst)
  refine ⟨fun x => ?_, fun x => ?_, fun x => ?_, fun x => ?_⟩
  · rcases hcases x with heq | heq <;> rw [heq]
    · exact h.replies x
    · rfl
  · rcases hcases x with heq | heq <;> rw [heq]
    · exact h.goesOn x
    · rfl
  · rcases hcases x with heq | heq <;> rw [heq]
    · exact h.session x
    · rfl
  · rcases hcases x with heq | heq <;> rw [heq]
    · exact h.admin x
    · exact fun hran => absurd rfl hran

/-- Behind `requireAuth` nothing is run for a session without credentials. -/
theorem requireAuth_ran {f : Session δ → Effect × Session δ} {x : Session δ}
    (h : (requireAuth f x).1.ran ≠ none) : x.st.authed = true := by
  cases hst : x.st.authed with
  | true => rfl
  | false =>
      rw [requireAuth_unauthed hst] at h
      exact absurd rfl h

theorem routine_lineCommand (s : Server ι) (B : Database δ ι) (cmd : LineCmd) (args : List Bytes)
    (hquit : cmd ≠ .quit) (hauth : cmd ≠ .auth) : Routine (s.lineCommand B cmd args) := by
  cases cmd
  case quit => exact absurd rfl hquit
  case auth => exact absurd rfl hauth
  case hello => exact routine_reply (fun x => s.hello x.st) Session.db
  all_goals refine Routine.requireAuth ?_
  case ping => exact routine_reply (fun _ => _) Session.db
  case get =>
      split
      · exact routine_call _ _
      · exact routine_refuse _
  case getm =>
      split
      · exact routine_refuse _
      · exact routine_call _ _
  case has =>
      split
      · next key =>
          exact routine_reply (fun x => Reply.okay (.bool (B.has key x.db).1))
            fun x => (B.has key x.db).2
      · exact routine_refuse _
  case scan =>
      split
      · exact routine_call _ _
      · exact routine_call _ _
      · exact routine_refuse _
  case ix => exact routine_withArgs fun _ => routine_call _ _
  case ixh => exact routine_withArgs fun _ => routine_call _ _
  case ixp =>
      split
      · split
        · exact routine_refuse _
        · exact routine_withArgs fun _ => routine_call _ _
      · exact routine_refuse _
  case ixr =>
      split
      · exact routine_withArgs fun _ => routine_withArgs fun _ => routine_call _ _
      · exact routine_refuse _
  case ixrec => exact routine_withArgs fun _ => routine_call _ _
  case incr => exact routine_withArgs fun _ => routine_call _ _
  case decr => exact routine_withArgs fun _ => routine_call _ _
  case topup => exact routine_withArgs fun _ => routine_call _ _
  case take => exact routine_withArgs fun _ => routine_call _ _
  case del =>
      split
      · exact routine_call _ _
      · exact routine_refuse _
  case rml =>
      split
      · exact routine_call _ _
      · exact routine_refuse _
  case rmg =>
      split
      · exact routine_call _ _
      · exact routine_refuse _
  case stats => exact routine_call _ fun x st => Reply.okay (.stats st x.counters)
  case dropped =>
    exact routine_reply (fun x => Reply.okay (.keys (B.droppedIndexes x.db))) Session.db
  case prospective =>
    exact routine_reply (fun x => Reply.okay (.keys (B.prospectiveIndexes x.db))) Session.db
  case compact => exact routine_maintain _ _ _ _
  case reindex => exact routine_maintain _ _ _ _
  case relieve => exact routine_maintain _ _ _ _

/-- No line command runs maintenance for a session without credentials. -/
theorem lineCommand_ran (s : Server ι) (B : Database δ ι) (cmd : LineCmd) (args : List Bytes)
    (x : Session δ) (h : (s.lineCommand B cmd args x).1.ran ≠ none) : x.st.authed = true := by
  cases cmd
  case quit => exact absurd rfl h
  case hello => exact absurd rfl h
  case auth =>
      simp only [Server.lineCommand] at h
      split at h <;> exact absurd rfl h
  all_goals exact requireAuth_ran h

/-! ## Commands that read from the connection -/

/-- A command with data blocks ended the connection, or did something routine after them. -/
def Routed (c : Conn δ) (p : Effect × Conn δ) : Prop :=
  (∃ r f, Routine f ∧ p = Conn.run ⟨r, c.sess⟩ f) ∨ ∃ e, p = c.fatal e

theorem Routine.routed {f : Session δ → Effect × Session δ} (h : Routine f) (c : Conn δ)
    (r : Reader) : Routed c (Conn.run ⟨r, c.sess⟩ f) := .inl ⟨r, f, h, rfl⟩

theorem Routed.session {c : Conn δ} {p : Effect × Conn δ} (h : Routed c p) :
    p.2.sess.st = c.sess.st := by
  rcases h with ⟨r, f, hf, rfl⟩ | ⟨e, rfl⟩
  · exact hf.session c.sess
  · rfl

theorem Routed.admin {c : Conn δ} {p : Effect × Conn δ} (h : Routed c p) (hran : p.1.ran ≠ none) :
    c.sess.st.role = .admin := by
  rcases h with ⟨r, f, hf, rfl⟩ | ⟨e, rfl⟩
  · exact hf.admin c.sess hran
  · exact absurd rfl hran

section Blocks

variable (s : Server ι) (B : Database δ ι) (args : List Bytes) (c : Conn δ)

theorem routed_putCommand (line : Bytes) : Routed c (s.putCommand B line args c) := by
  unfold Server.putCommand
  split
  · split
    · split
      · exact (routine_call _ _).routed c _
      · exact .inr ⟨_, rfl⟩
    · exact (routine_call _ _).routed c _
  · exact (routine_call _ _).routed c _
  · exact (routine_refuse _).routed c _

theorem routed_putexCommand : Routed c (s.putexCommand B args c) := by
  unfold Server.putexCommand
  split
  · split
    · split
      · exact (routine_withArgs fun _ => routine_call _ _).routed c _
      · exact .inr ⟨_, rfl⟩
    · exact (routine_refuse _).routed c _
  · exact (routine_refuse _).routed c _

theorem routine_storeIndexed (key ixRaw value : Bytes) (ttl : Except String (Option Int64)) :
    Routine (s.storeIndexed B key ixRaw value ttl) :=
  routine_withArgs fun _ => routine_withArgs fun _ => routine_call _ _

theorem routed_putxCommand : Routed c (s.putxCommand B args c) := by
  unfold Server.putxCommand
  split
  · split
    · exact (routine_refuse _).routed c _
    · split
      · split
        · exact .inr ⟨_, rfl⟩
        · split
          · exact .inr ⟨_, rfl⟩
          · exact (routine_storeIndexed s B _ _ _ _).routed c _
      · exact (routine_refuse _).routed c _
  · exact (routine_refuse _).routed c _

end Blocks

end NteeDb.Net
