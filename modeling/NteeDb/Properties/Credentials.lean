import NteeDb.Server.Commands

/-!
# No data without credentials

Before a valid `auth` the loop answers from the line and the auth store alone, and it never
touches the store.  Afterwards the session holds the role of the latest valid `auth`, and that
role stands in front of the maintenance operations.
-/

namespace NteeDb.Properties.Credentials

open NteeDb.Net NteeDb.Verified

variable {δ ι : Type}

/-! ## What a line grants -/

/-- The role a line is granted: that of an `auth` command with valid credentials. -/
def grants (s : Server ι) (line : Bytes) : Option Role :=
  s.granted (Word.parse (splitCommand line).1) (splitCommand line).2

/-- The role granted by the most recent successful `auth` among the dispatched lines. -/
def lastGrant (s : Server ι) (entries : List Entry) : Option Role :=
  entries.foldl (fun g e => (grants s e.line).or g) none

/-- The session of a connection on which `g` was granted last. -/
def sessionOf : Option Role → ConnState
  | none => ⟨false, .user⟩
  | some role => ⟨true, role⟩

/-- The answer to a line before any valid credentials: it reads neither store nor schema. -/
def preAuth (a : AuthStore) (line : Bytes) : Effect :=
  match Word.parse (splitCommand line).1 with
  | some (.line .quit) => { quit := true, reply := .ok (done ()) }
  | some (.line .hello) => { reply := .ok (Reply.okay (.hello a.mode none)) }
  | some (.line .auth) =>
      match a.check (splitCommand line).2 with
      | .ok _ => { reply := .ok (done ()) }
      | .error e => { reply := .ok (Reply.fail e) }
  | _ => { reply := .ok (Reply.fail "auth required") }

theorem dispatch_preAuth (s : Server ι) (B : Database δ ι) (line : Bytes) (c : Conn δ)
    (hst : c.sess.st.authed = false) (hno : grants s line = none) :
    s.dispatch B line c = (preAuth s.auth line, c) := by
  rw [Server.dispatch, preAuth]
  rw [grants] at hno
  split
  · next cmd hword =>
      rw [hword] at hno ⊢
      cases cmd
      case quit => rfl
      case hello => simp only [Conn.run, Server.lineCommand, reply, Server.hello, hst]; rfl
      case auth =>
          simp only [Conn.run, Server.lineCommand]
          cases hc : s.auth.check (splitCommand line).2 with
          | ok role => simp [Server.granted, hc, Except.toOption] at hno
          | error e => rfl
      all_goals
        simp only [Conn.run, Server.lineCommand, requireAuth, hst, Bool.false_eq_true, if_false,
          refuse]
  · next framed hframed =>
      rw [if_pos hst]
      split
      · next hq => exact absurd hq (hframed _)
      · next hq => exact absurd hq (hframed _)
      · next hq => exact absurd hq (hframed _)
      · rfl

/-! ## What a line leaves of the session -/

/-- One dispatched line: the role granted to it becomes the session's, and maintenance runs in
an administrator's session only. -/
theorem dispatch_guarded (s : Server ι) (B : Database δ ι) (line : Bytes) (c : Conn δ)
    {g : Option Role} (hg : c.sess.st = sessionOf g) :
    (s.dispatch B line c).2.sess.st = sessionOf ((grants s line).or g)
      ∧ ((s.dispatch B line c).1.ran ≠ none → g = some .admin) := by
  have hadmin : c.sess.st.authed = true ∧ c.sess.st.role = .admin → g = some .admin := by
    rw [hg]
    rintro ⟨hauthed, hrole⟩
    cases g with
    | none => exact nomatch hauthed
    | some role => exact congrArg some hrole
  rw [Server.dispatch, grants]
  split
  · next cmd hword =>
      rw [hword]
      have hauthed := lineCommand_ran s B cmd (splitCommand line).2 c.sess
      by_cases hcmd : cmd = .auth
      · subst hcmd
        simp only [Conn.run, Server.lineCommand, Server.granted]
        cases s.auth.check (splitCommand line).2 with
        | ok role => exact ⟨rfl, fun h => absurd rfl h⟩
        | error e => exact ⟨hg, fun h => absurd rfl h⟩
      · rw [s.granted_of_ne (fun h => hcmd (Word.line.inj (Option.some.inj h)))]
        by_cases hquit : cmd = .quit
        · subst hquit
          exact ⟨hg, fun h => absurd rfl h⟩
        · have hroutine := routine_lineCommand s B cmd (splitCommand line).2 hquit hcmd
          exact ⟨(hroutine.session c.sess).trans hg,
            fun hran => hadmin ⟨hauthed hran, hroutine.admin c.sess hran⟩⟩
  · next framed hframed =>
      rw [s.granted_of_ne (hframed _)]
      split
      · exact ⟨hg, fun h => absurd rfl h⟩
      · next hst =>
          have hrouted : ∀ {p}, Routed c p → p.2.sess.st = sessionOf (none.or g) ∧
              (p.1.ran ≠ none → g = some .admin) := fun h =>
            ⟨h.session.trans hg, fun hran =>
              hadmin ⟨Bool.eq_true_of_not_eq_false hst, h.admin hran⟩⟩
          split
          · exact hrouted (routed_putCommand s B _ c line)
          · exact hrouted (routed_putexCommand s B _ c)
          · exact hrouted (routed_putxCommand s B _ c)
          · exact ⟨hg, fun h => absurd rfl h⟩

/-! ## Whole connections -/

/-- The server with another schema. -/
def withSchema (s : Server ι) (schema : List (Bytes × Kind)) : Server ι :=
  { s with schema := schema }

/-- What two servers with different stores and schemas have in common before credentials. -/
structure SameBefore {δ₁ δ₂ : Type} (d₁ : δ₁) (d₂ : δ₂) (v₁ : Served δ₁) (v₂ : Served δ₂) :
    Prop where
  entries : v₂.entries = v₁.entries
  closing : v₂.closing = v₁.closing
  db₁ : v₁.conn.sess.db = d₁
  db₂ : v₂.conn.sess.db = d₂

theorem SameBefore.after {δ₁ δ₂ : Type} {d₁ : δ₁} {d₂ : δ₂} {v₁ : Served δ₁} {v₂ : Served δ₂}
    (h : SameBefore d₁ d₂ v₁ v₂) (e : Entry) : SameBefore d₁ d₂ (v₁.after e) (v₂.after e) :=
  ⟨congrArg (e :: ·) h.entries, h.closing, h.db₁, h.db₂⟩

section TwoRuns

variable {δ₁ δ₂ : Type} (s : Server ι) (schema : List (Bytes × Kind)) (B₁ : Database δ₁ ι)
  (B₂ : Database δ₂ ι)

theorem serve_preAuth (d₁ : δ₁) (d₂ : δ₂) (n : Nat) (r : Reader) (k : Counters)
    (hno : ∀ e ∈ (s.serve B₁ n ⟨r, sessionOf none, k, d₁⟩).entries, grants s e.line = none) :
    SameBefore d₁ d₂ (s.serve B₁ n ⟨r, sessionOf none, k, d₁⟩)
      ((withSchema s schema).serve B₂ n ⟨r, sessionOf none, k, d₂⟩) := by
  induction n generalizing r k with
  | zero => exact ⟨rfl, rfl, rfl, rfl⟩
  | succ n ih =>
      cases hread : readLine s.bufSize r with
      | error e =>
          by_cases he : e = .lineTooLong
          · subst he
            rw [serve_tooLong hread,
              serve_tooLong (s := withSchema s schema) (c := ⟨r, sessionOf none, k, d₂⟩) hread]
            exact ⟨rfl, rfl, rfl, rfl⟩
          · rw [serve_ended hread he,
              serve_ended (s := withSchema s schema) (c := ⟨r, sessionOf none, k, d₂⟩) hread he]
            exact ⟨rfl, rfl, rfl, rfl⟩
      | ok p =>
          obtain ⟨line, r'⟩ := p
          cases line with
          | nil =>
              rw [serve_blank hread] at hno ⊢
              rw [serve_blank (s := withSchema s schema) (c := ⟨r, sessionOf none, k, d₂⟩) hread]
              exact ih r' k hno
          | cons b line =>
              -- The line granted nothing, so both servers give the answer of `preAuth`.
              rw [serve_line hread] at hno ⊢
              rw [serve_line (s := withSchema s schema) (c := ⟨r, sessionOf none, k, d₂⟩) hread]
              have hline : grants s (b :: line) = none := hno _ List.mem_cons_self
              rw [dispatch_preAuth s B₁ _ _ rfl hline] at hno ⊢
              rw [dispatch_preAuth (withSchema s schema) B₂ _ _ rfl hline]
              refine SameBefore.after ?_ _
              by_cases hon : (preAuth s.auth (b :: line)).goesOn = true
              · rw [if_pos hon, if_pos (show (preAuth (withSchema s schema).auth _).goesOn = true
                  from hon)]
                refine ih r' _ fun e he => hno e ?_
                simp only [Server.round, Served.after, hon, if_true]
                exact List.mem_cons_of_mem _ he
              · rw [if_neg hon, if_neg (show ¬ (preAuth (withSchema s schema).auth _).goesOn = true
                  from hon)]
                exact ⟨rfl, rfl, rfl, rfl⟩

end TwoRuns

/-- The role granted last, when `g` was granted before the first of the lines. -/
private def grantFrom (s : Server ι) (g : Option Role) (entries : List Entry) : Option Role :=
  entries.foldl (fun g e => (grants s e.line).or g) g

theorem serve_guarded (s : Server ι) (B : Database δ ι) (n : Nat) (c : Conn δ)
    {g : Option Role} (hg : c.sess.st = sessionOf g) (pre : List Entry) (e : Entry)
    (post : List Entry) (hsplit : (s.serve B n c).entries = pre ++ e :: post)
    (hran : e.ran ≠ none) : grantFrom s g pre = some .admin := by
  induction n generalizing c g pre with
  | zero => exact absurd hsplit.symm (List.append_ne_nil_of_right_ne_nil _ (List.cons_ne_nil _ _))
  | succ n ih =>
      have hnil : ∀ xs : List Entry, [] ≠ xs ++ e :: post := fun xs h =>
        List.append_ne_nil_of_right_ne_nil _ (List.cons_ne_nil _ _) h.symm
      cases hread : readLine s.bufSize c.reader with
      | error err =>
          by_cases he : err = .lineTooLong
          · subst he
            rw [serve_tooLong hread] at hsplit
            exact absurd hsplit (hnil _)
          · rw [serve_ended hread he] at hsplit
            exact absurd hsplit (hnil _)
      | ok p =>
          obtain ⟨line, r⟩ := p
          cases line with
          | nil =>
              rw [serve_blank hread] at hsplit
              exact ih ⟨r, c.sess⟩ hg pre hsplit
          | cons b line =>
              rw [serve_line hread] at hsplit
              have hstep := dispatch_guarded s B (b :: line) ⟨r, c.sess.count⟩ hg
              cases pre with
              | nil =>
                  -- The line itself ran maintenance.
                  have hhead := (List.cons.inj hsplit).1
                  rw [← hhead] at hran
                  exact hstep.2 hran
              | cons e₀ pre =>
                  obtain ⟨hhead, htail⟩ := List.cons.inj hsplit
                  rw [grantFrom, List.foldl_cons, ← hhead]
                  split at htail
                  · exact ih _ hstep.1 pre htail
                  · exact absurd htail (hnil _)

/-- **No data without credentials.**  Take a server that requires authentication, any number of
rounds of one connection on any stream, and two stores with two schemas.  If no dispatched line
carried valid credentials, both answer the same lines in the same way and neither store has been
touched.  And whatever the stream, a maintenance operation is run only where the most recent
successful `auth` before it granted the administrator's role. -/
theorem no_data_without_credentials {δ₁ δ₂ : Type} (s : Server ι)
    (hreq : s.auth.required = true) (schema : List (Bytes × Kind)) (B₁ : Database δ₁ ι)
    (B₂ : Database δ₂ ι) (d₁ : δ₁) (d₂ : δ₂) (r : Reader) (k : Counters) (n : Nat) :
    ((∀ e ∈ (s.serve B₁ n ⟨r, s.initial, k, d₁⟩).entries, grants s e.line = none) →
      SameBefore d₁ d₂ (s.serve B₁ n ⟨r, s.initial, k, d₁⟩)
        ((withSchema s schema).serve B₂ n ⟨r, s.initial, k, d₂⟩))
    ∧ ∀ pre e post, (s.serve B₁ n ⟨r, s.initial, k, d₁⟩).entries = pre ++ e :: post →
        e.ran ≠ none → lastGrant s pre = some .admin := by
  have hinit : s.initial = sessionOf none := by rw [Server.initial, if_pos hreq]; rfl
  rw [hinit]
  refine ⟨serve_preAuth s schema B₁ B₂ d₁ d₂ n r k, ?_⟩
  intro pre e post hsplit hran
  exact serve_guarded s B₁ n _ rfl pre e post hsplit hran

/-- `get a`, sent before any credentials. -/
def getBytes : Bytes := ascii ['g', 'e', 't', ' ', 'a', '\n']

/-- `auth pw` and `compact`. -/
def compactBytes : Bytes :=
  ascii ['a', 'u', 't', 'h', ' ', 'p', 'w', '\n', 'c', 'o', 'm', 'p', 'a', 'c', 't', '\n']

/-- `get a` on a store that holds `a` and on one that does not, and `compact` after `auth pw`. -/
theorem get_a_and_compact :
    SameBefore [([0x61], [0x31])] []
      (Server.withPassword.serve .recording 4
        (Conn.sending Server.withPassword [([0x61], [0x31])] getBytes))
      ((withSchema Server.withPassword [([0x69], .number)]).serve .recording 4
        (Conn.sending Server.withPassword [] getBytes))
    ∧ (Server.withPassword.serve .recording 4
        (Conn.sending Server.withPassword [] compactBytes)).entries.map Entry.ran
      = [none, some .compact]
    ∧ ∀ pre e post, (Server.withPassword.serve .recording 4
        (Conn.sending Server.withPassword [] compactBytes)).entries = pre ++ e :: post →
        e.ran ≠ none → lastGrant Server.withPassword pre = some .admin := by
  refine ⟨?_, by decide +kernel, ?_⟩
  · exact (no_data_without_credentials Server.withPassword rfl _ .recording .recording
      [([0x61], [0x31])] [] _ _ 4).1 (by decide +kernel)
  · exact (no_data_without_credentials Server.withPassword rfl [] .recording .recording [] []
      _ _ 4).2

end NteeDb.Properties.Credentials
