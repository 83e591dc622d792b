import NteeDb.Server.Commands
import NteeDb.Server.Framing

/-!
# Client and server stay aligned

The server's loop on the concatenated frames of a sequence of requests.  On an authenticated
connection every request is dispatched with its own keys, blocks and tokens and answered by one
line.  On a connection that is not authenticated the gate refuses `put`, `putex` and `putx`
before their blocks are read, and the blocks are then taken for command lines.
-/

namespace NteeDb.Properties.Framing

open NteeDb.Net NteeDb.Verified NteeDb.Verified.Lines NteeDb.Verified.Decimal

variable {δ ι : Type}

/-! ## What a request asks for -/

/-- The TTL of a `putx` request. -/
def putxTTL (s : Server ι) (ttlMs : Nat) : Except String (Option Int64) :=
  s.optTTL "putx" (ttlTokens ttlMs)

/-- The command a request stands for, with its own keys, blocks and tokens. -/
def perform (s : Server ι) (B : Database δ ι) : Request → Session δ → Effect × Session δ
  | .line cmd args => s.lineCommand B cmd args
  | .put key value => requireAuth (call (B.put key value none) done)
  | .putx key ix value ttlMs => requireAuth (s.storeIndexed B key ix value (putxTTL s ttlMs))
  | .putex key ttlMs value =>
      requireAuth (withArgs (s.parseTTLMillis "putex" (natDigits ttlMs)) fun ttl =>
        call (B.put key value (some ttl)) done)

/-- The entries of requests that are performed one after the other, until `quit`, and the
session they leave. -/
def performed (s : Server ι) (B : Database δ ι) : List Request → Session δ → List Entry × Session δ
  | [], x => ([], x)
  | q :: qs, x =>
      let p := perform s B q x.count
      let e : Entry := ⟨(frames (q :: qs)).length, q.text, p.1.sent, p.1.ran⟩
      if q.word = .line .quit then ([e], p.2)
      else (e :: (performed s B qs p.2).1, (performed s B qs p.2).2)

/-- Where the command lines of the requests stand in the stream (counted from its end), until
`quit`. -/
def schedule : List Request → List (Nat × Bytes)
  | [] => []
  | q :: qs =>
      ((frames (q :: qs)).length, q.text) :: if q.word = .line .quit then [] else schedule qs

/-- The server dispatched the command lines of the requests and nothing else, so that it wrote
one response line for each, in order. -/
def InSync (v : Served δ) (qs : List Request) : Prop :=
  v.entries.map (fun e => (e.left, e.line)) = schedule qs ∧ v.closing = none

instance (v : Served δ) (qs : List Request) : Decidable (InSync v qs) :=
  inferInstanceAs (Decidable (_ ∧ _))

/-! ## One request -/

/-- Whether a request is an `auth` command with valid credentials. -/
def grants (s : Server ι) (q : Request) : Bool := (s.granted (some q.word) q.args).isSome

theorem routine_perform (s : Server ι) (B : Database δ ι) (q : Request)
    (hquit : q.word ≠ .line .quit) (hauth : q.word ≠ .line .auth) : Routine (perform s B q) := by
  cases q with
  | line cmd args =>
      exact routine_lineCommand s B cmd args (fun h => hquit (congrArg Word.line h))
        (fun h => hauth (congrArg Word.line h))
  | put key value => exact (routine_call _ _).requireAuth
  | putx key ix value ttlMs => exact (routine_storeIndexed s B _ _ _ _).requireAuth
  | putex key ttlMs value => exact (routine_withArgs fun _ => routine_call _ _).requireAuth

/-- Every request is answered without a fatal error. -/
theorem perform_reply (s : Server ι) (B : Database δ ι) (q : Request) (x : Session δ) :
    (perform s B q x).1.reply.isOk = true ∧
      (perform s B q x).1.quit = decide (q.word = .line .quit) := by
  by_cases hquit : q.word = .line .quit
  · cases q with
    | line cmd args =>
        obtain rfl : cmd = .quit := Word.line.inj hquit
        exact ⟨rfl, rfl⟩
    | _ => cases hquit
  · by_cases hauth : q.word = .line .auth
    · cases q with
      | line cmd args =>
          obtain rfl : cmd = .auth := Word.line.inj hauth
          simp only [perform, Server.lineCommand]
          split <;> exact ⟨rfl, rfl⟩
      | _ => cases hauth
    · have hroutine := routine_perform s B q hquit hauth
      exact ⟨hroutine.replies x, by rw [hroutine.goesOn x, decide_eq_false hquit]⟩

/-- A request authenticates the session if it carries valid credentials, and no other does. -/
theorem perform_authed (s : Server ι) (B : Database δ ι) (q : Request) (x : Session δ) :
    (perform s B q x).2.st.authed = (x.st.authed || grants s q) := by
  by_cases hauth : q.word = .line .auth
  · cases q with
    | line cmd args =>
        obtain rfl : cmd = .auth := Word.line.inj hauth
        simp only [perform, Server.lineCommand, grants, Server.granted, Request.word,
          Request.args]
        cases s.auth.check args with
        | ok role => simp [Except.toOption, reply]
        | error e => simp [Except.toOption, refuse]
    | _ => cases hauth
  · have hno : grants s q = false := by
      rw [grants, s.granted_of_ne (fun h => hauth (Option.some.inj h))]
      rfl
    rw [hno, Bool.or_false]
    by_cases hquit : q.word = .line .quit
    · cases q with
      | line cmd args =>
          obtain rfl : cmd = .quit := Word.line.inj hquit
          rfl
      | _ => cases hquit
    · rw [(routine_perform s B q hquit hauth).session x]

/-! ## Dispatching the line of a request -/

section Dispatch

variable (s : Server ι) (B : Database δ ι)

theorem dispatch_word {q : Request} (hq : q.Valid s.maxLine s.maxValue) (c : Conn δ) :
    s.dispatch B q.text c =
      match q.word with
      | .line cmd => c.run (s.lineCommand B cmd q.args)
      | framed =>
          if c.sess.st.authed = false then c.run (refuse "auth required")
          else
            match framed with
            | .put => s.putCommand B q.text q.args c
            | .putex => s.putexCommand B q.args c
            | .putx => s.putxCommand B q.args c
            | .line _ => c.run (refuse "") := by
  rw [Server.dispatch, hq.split]
  dsimp only
  rw [q.word.parse_toLower]
  cases q.word <;> rfl

/-- Before authentication a request is answered without reading its blocks. -/
theorem dispatch_unauthed {q : Request} (hq : q.Valid s.maxLine s.maxValue) (c : Conn δ)
    (hst : c.sess.st.authed = false) :
    s.dispatch B q.text c
      = ((perform s B q c.sess).1, ⟨c.reader, (perform s B q c.sess).2⟩) := by
  rw [dispatch_word s B hq]
  cases q with
  | line cmd args => rfl
  | _ =>
      simp only [Request.word, hst, if_true, perform, requireAuth, Bool.false_eq_true, if_false]
      rfl

/-- Once authenticated, a request is performed with its own blocks, which are consumed. -/
theorem dispatch_authed {q : Request} (hq : q.Valid s.maxLine s.maxValue) (c : Conn δ)
    (hst : c.sess.st.authed = true) {more : Bytes}
    (hrest : c.reader.rest = blocksText q.blocks ++ more) :
    ∃ r, s.dispatch B q.text c = ((perform s B q c.sess).1, ⟨r, (perform s B q c.sess).2⟩)
      ∧ r.rest = more := by
  have hfits : ∀ b ∈ q.blocks, parseInt64 (natDigits b.length) = some (b.length : Int) :=
    fun b hb => parseInt64_natDigits (Nat.lt_of_le_of_lt (hq.blocks b hb) s.maxValueInt)
  rw [dispatch_word s B hq]
  cases q with
  | line cmd args => exact ⟨c.reader, rfl, by simpa [Request.blocks, blocksText] using hrest⟩
  | put key value =>
      obtain ⟨r, hread, hmore⟩ := readData_block (hq.blocks value (by simp [Request.blocks]))
        c.reader (by simpa [Request.blocks, blocksText] using hrest)
      refine ⟨r, ?_, hmore⟩
      simp only [Request.word, hst, Bool.true_eq_false, if_false, Request.args, Server.putCommand,
        hfits value (by simp [Request.blocks]), hread, perform, requireAuth, if_true, Conn.run]
  | putx key ix value ttlMs =>
      have hcut : c.reader.rest = ix ++ crlf ++ (value ++ crlf ++ more) := by
        simpa [Request.blocks, blocksText] using hrest
      obtain ⟨r₁, hread₁, hmore₁⟩ := readData_block (hq.blocks ix (by simp [Request.blocks]))
        c.reader hcut
      obtain ⟨r₂, hread₂, hmore₂⟩ := readData_block (hq.blocks value (by simp [Request.blocks]))
        r₁ hmore₁
      refine ⟨r₂, ?_, hmore₂⟩
      have htokens : ¬ 1 < (ttlTokens ttlMs).length := by
        rw [ttlTokens]
        split <;> simp
      simp only [Request.word, hst, Bool.true_eq_false, if_false, Request.args, Server.putxCommand,
        htokens, hfits value (by simp [Request.blocks]), hfits ix (by simp [Request.blocks]),
        hread₁, hread₂, perform, requireAuth, if_true, Conn.run, putxTTL]
  | putex key ttlMs value =>
      obtain ⟨r, hread, hmore⟩ := readData_block (hq.blocks value (by simp [Request.blocks]))
        c.reader (by simpa [Request.blocks, blocksText] using hrest)
      refine ⟨r, ?_, hmore⟩
      simp only [Request.word, hst, Bool.true_eq_false, if_false, Request.args,
        Server.putexCommand, hfits value (by simp [Request.blocks]), hread, perform, requireAuth,
        if_true, Conn.run]

/-- A round on a stream that starts with the frame of a request. -/
theorem serve_request {q : Request} (hq : q.Valid s.maxLine s.maxValue) (n : Nat) (c : Conn δ)
    {more : Bytes} (hrest : c.reader.rest = q.frame ++ more) :
    ∃ r : Reader, r.rest = blocksText q.blocks ++ more ∧
      s.serve B (n + 1) c = s.round B n c q.text (s.dispatch B q.text ⟨r, c.sess.count⟩) := by
  have hcut : c.reader.rest = q.text ++ crlf ++ (blocksText q.blocks ++ more) := by
    rw [hrest, Request.frame, List.append_assoc]
  have hlen : (q.text ++ crlf).length ≤ s.bufSize := Nat.le_trans hq.line (Nat.le_max_left _ _)
  obtain ⟨r, hread, hmore⟩ := readLine_crlf hq.no_newline hlen c.reader hcut
  refine ⟨r, hmore, ?_⟩
  obtain ⟨b, line, htext⟩ := q.text_ne_nil
  rw [htext] at hread ⊢
  exact serve_line hread

theorem bufSize_pos : 0 < s.bufSize := Nat.lt_of_lt_of_le (by decide) (Nat.le_max_right _ 16)

/-- The end of the stream. -/
theorem serve_end (n : Nat) (c : Conn δ) (hrest : c.reader.rest = []) :
    s.serve B (n + 1) c = ⟨[], none, c⟩ := by
  refine serve_ended (e := .eof) ?_ (by decide)
  rw [readLine, readSlice_ended c.reader.buf c.reader.chunks hrest (bufSize_pos s)]

theorem perform_goesOn (q : Request) (x : Session δ) :
    (perform s B q x).1.goesOn = !decide (q.word = .line .quit) := by
  rw [Effect.goesOn, (perform_reply s B q x).1, (perform_reply s B q x).2, Bool.and_true]

/-! ## Authenticated connections -/

theorem serve_authed (qs : List Request) (hqs : ∀ q ∈ qs, q.Valid s.maxLine s.maxValue) (n : Nat)
    (c : Conn δ) (hst : c.sess.st.authed = true) (hrest : c.reader.rest = frames qs)
    (hn : c.reader.rest.length < n) :
    (s.serve B n c).entries = (performed s B qs c.sess).1 ∧ (s.serve B n c).closing = none
      ∧ (s.serve B n c).conn.sess = (performed s B qs c.sess).2 := by
  induction qs generalizing n c with
  | nil =>
      obtain ⟨m, rfl⟩ : ∃ m, n = m + 1 := ⟨n - 1, by omega⟩
      rw [serve_end s B m c hrest]
      exact ⟨rfl, rfl, rfl⟩
  | cons q qs ih =>
      obtain ⟨m, rfl⟩ : ∃ m, n = m + 1 := ⟨n - 1, by omega⟩
      have hq := hqs q List.mem_cons_self
      obtain ⟨r, hmore, hround⟩ := serve_request s B hq m c
        (show _ = _ ++ frames qs from hrest)
      obtain ⟨r', hdispatch, hnext⟩ := dispatch_authed s B hq ⟨r, c.sess.count⟩ hst hmore
      have hshort : r'.rest.length < m := by
        obtain ⟨b, line, htext⟩ := q.text_ne_nil
        rw [hrest, frames, Request.frame, htext] at hn
        rw [hnext]
        simp only [List.length_append, List.length_cons] at hn
        omega
      rw [hround, hdispatch, Server.round, performed]
      dsimp only
      rw [perform_goesOn, hrest]
      by_cases hquit : q.word = .line .quit
      · simp only [hquit, decide_true, Bool.not_true, Bool.false_eq_true, if_false, if_true,
          Served.after, and_self]
      · have hst' : (perform s B q c.sess.count).2.st.authed = true := by
          rw [perform_authed, show c.sess.count.st.authed = true from hst, Bool.true_or]
        have hrun := ih (fun q' hq' => hqs q' (List.mem_cons_of_mem _ hq')) m
          ⟨r', (perform s B q c.sess.count).2⟩ hst' hnext hshort
        simp only [hquit, decide_false, Bool.not_false, if_true, if_false, Served.after]
        exact ⟨by rw [hrun.1], hrun.2.1, hrun.2.2⟩

end Dispatch

theorem performed_schedule (s : Server ι) (B : Database δ ι) (qs : List Request)
    (x : Session δ) :
    (performed s B qs x).1.map (fun e => (e.left, e.line)) = schedule qs := by
  induction qs generalizing x with
  | nil => rfl
  | cons q qs ih =>
      rw [performed, schedule]
      split
      · rfl
      · rw [List.map_cons, ih]

/-- **Framing on authenticated connections.**  Whatever chunks the frames of valid requests
arrive in, the server dispatches their command lines and nothing else, and it performs exactly
those requests, with their own keys, blocks and tokens, in order and until `quit`; each is one
entry, so one response line. -/
theorem authenticated_in_sync (s : Server ι) (B : Database δ ι) (qs : List Request)
    (hqs : ∀ q ∈ qs, q.Valid s.maxLine s.maxValue) (c : Conn δ)
    (hst : c.sess.st.authed = true) (hrest : c.reader.rest = frames qs) :
    InSync (s.handleConn B c) qs
      ∧ (s.handleConn B c).entries = (performed s B qs c.sess).1
      ∧ (s.handleConn B c).conn.sess = (performed s B qs c.sess).2 := by
  obtain ⟨hentries, hclosing, hsess⟩ :=
    serve_authed s B qs hqs _ c hst hrest (Nat.lt_succ_self _)
  refine ⟨⟨?_, hclosing⟩, hentries, hsess⟩
  rw [Server.handleConn, hentries, performed_schedule]

/-- `put k` with the value `quit`, and `ping`. -/
def putQuit : List Request := [.put [0x6B] (ascii ['q', 'u', 'i', 't']), .line .ping []]

theorem putQuit_valid : ∀ q ∈ putQuit, q.Valid Server.withPassword.maxLine
    Server.withPassword.maxValue := by
  intro q hq
  simp only [putQuit, List.mem_cons, List.not_mem_nil, or_false] at hq
  rcases hq with rfl | rfl
  · refine ⟨?_, by decide, by decide⟩
    have hall : ∀ t ∈ (Request.put [0x6B] (ascii ['q', 'u', 'i', 't'])).args,
        t ≠ [] ∧ ∀ n, n < t.length → spaceLen (t.drop n) = 0 := by decide
    exact hall
  · exact ⟨fun t ht => absurd ht List.not_mem_nil, by decide, by decide⟩

/-- The two requests on an authenticated connection. -/
theorem putQuit_authenticated :
    InSync (Server.withPassword.handleConn .recording
        ⟨⟨[], [frames putQuit]⟩, ⟨true, .admin⟩, ⟨1, 1, 0, 0, 0⟩, []⟩) putQuit
      ∧ (Server.withPassword.handleConn .recording
        ⟨⟨[], [frames putQuit]⟩, ⟨true, .admin⟩, ⟨1, 1, 0, 0, 0⟩, []⟩).conn.sess.db
        = [([0x6B], ascii ['q', 'u', 'i', 't'])] := by
  have hrun := authenticated_in_sync Server.withPassword .recording putQuit putQuit_valid
    ⟨⟨[], [frames putQuit]⟩, ⟨true, .admin⟩, ⟨1, 1, 0, 0, 0⟩, []⟩ rfl (by simp [Reader.rest])
  refine ⟨hrun.1, ?_⟩
  rw [hrun.2.2]
  decide +kernel

/-! ## Connections that are not authenticated -/

/-- Blank lines: empty but for the line end. -/
def Blank (l : Bytes) : Prop := trimCR l = []

instance (l : Bytes) : Decidable (Blank l) := inferInstanceAs (Decidable (_ = _))

/-- The lines of the blocks of a request, as a reader of lines sees them. -/
def blockLines (q : Request) : List Bytes := (splitLines (blocksText q.blocks)).1

/-- Every request that is sent before authentication has data blocks of blank lines only (none
at all for the line commands). -/
def Aligned (s : Server ι) : Bool → List Request → Prop
  | _, [] => True
  | authed, q :: qs =>
      (authed = true ∨ ∀ l ∈ blockLines q, Blank l)
        ∧ (q.word = .line .quit ∨ Aligned s (authed || grants s q) qs)

theorem blocksText_ends (bs : List Bytes) :
    (splitLines (blocksText bs)).2 = [] := by
  have hends : blocksText bs = [] ∨ ∃ init, blocksText bs = init ++ [newline] := by
    induction bs with
    | nil => exact .inl rfl
    | cons b bs ih =>
        rw [blocksText]
        rcases ih with hnil | ⟨init, hinit⟩
        · exact .inr ⟨b ++ [cr], by simp [hnil, crlf]⟩
        · exact .inr ⟨b ++ crlf ++ init, by rw [hinit, List.append_assoc _ init]⟩
  exact splitLines_tail_nil hends

theorem joinLines_blockLines (q : Request) : joinLines (blockLines q) = blocksText q.blocks := by
  have hjoin := joinLines_splitLines (blocksText q.blocks)
  rw [blocksText_ends, List.append_nil] at hjoin
  exact hjoin

section Stray

variable (s : Server ι) (B : Database δ ι)

/-- Blank lines are passed over. -/
theorem serve_skip (ls : List Bytes) (hls : ∀ l ∈ ls, newline ∉ l) (hblank : ∀ l ∈ ls, Blank l)
    {more : Bytes} (n : Nat) (c : Conn δ) (hrest : c.reader.rest = joinLines ls ++ more)
    (hn : c.reader.rest.length < n) :
    ∃ m r, s.serve B n c = s.serve B m ⟨r, c.sess⟩ ∧ r.rest = more ∧ r.rest.length < m := by
  induction ls generalizing n c with
  | nil => exact ⟨n, c.reader, rfl, hrest, hn⟩
  | cons l ls ih =>
      obtain ⟨m, rfl⟩ : ∃ m, n = m + 1 := ⟨n - 1, by omega⟩
      have hl : Blank l := hblank l List.mem_cons_self
      have hshort : l.length < s.bufSize := by
        have hle : l.length ≤ 1 := by
          rw [Blank, trimCR] at hl
          split at hl
          · have hlen := congrArg List.length hl
            rw [List.length_dropLast, List.length_nil] at hlen
            omega
          · rw [hl]
            exact Nat.zero_le _
        have h16 : 16 ≤ s.bufSize := Nat.le_max_right _ _
        omega
      have hcut : c.reader.buf ++ c.reader.chunks.flatten
          = l ++ newline :: (joinLines ls ++ more) := by
        rw [show c.reader.buf ++ c.reader.chunks.flatten = c.reader.rest from rfl, hrest,
          joinLines_cons, List.append_assoc]
        rfl
      obtain ⟨r, hread, hmore⟩ := readSlice_line (hls l List.mem_cons_self) hshort _ _ hcut
      have hline : readLine s.bufSize c.reader = .ok ([], r) := by
        rw [readLine, hread]
        exact congrArg (fun x => Except.ok (x, r)) hl
      rw [serve_blank hline]
      refine ih (fun l' hl' => hls l' (List.mem_cons_of_mem _ hl'))
        (fun l' hl' => hblank l' (List.mem_cons_of_mem _ hl')) m ⟨r, c.sess⟩ hmore ?_
      have hlt := readSlice_shorter _ _ hread
      exact Nat.lt_of_lt_of_le hlt (Nat.le_of_lt_succ hn)

/-- A line that is not blank is dispatched from inside the block, or does not fit the buffer. -/
theorem serve_stray (ls : List Bytes) (hls : ∀ l ∈ ls, newline ∉ l) (hstray : ¬ ∀ l ∈ ls, Blank l)
    {more : Bytes} (n : Nat) (c : Conn δ) (hrest : c.reader.rest = joinLines ls ++ more)
    (hn : c.reader.rest.length < n) :
    (s.serve B n c).closing ≠ none
      ∨ ∃ e es, (s.serve B n c).entries = e :: es ∧ more.length < e.left := by
  induction ls generalizing n c with
  | nil => exact absurd (fun l hl => absurd hl List.not_mem_nil) hstray
  | cons l ls ih =>
      obtain ⟨m, rfl⟩ : ∃ m, n = m + 1 := ⟨n - 1, by omega⟩
      have hcut : c.reader.buf ++ c.reader.chunks.flatten
          = l ++ newline :: (joinLines ls ++ more) := by
        rw [show c.reader.buf ++ c.reader.chunks.flatten = c.reader.rest from rfl, hrest,
          joinLines_cons, List.append_assoc]
        rfl
      by_cases hlong : s.bufSize ≤ l.length
      · left
        have hread := readSlice_tooLong (hls l List.mem_cons_self) hlong _ _ _ hcut
        rw [serve_tooLong (by rw [readLine, hread])]
        exact Option.some_ne_none _
      · obtain ⟨r, hread, hmore⟩ :=
          readSlice_line (hls l List.mem_cons_self) (Nat.lt_of_not_le hlong) _ _ hcut
        have hline : readLine s.bufSize c.reader = .ok (trimCR l, r) := by rw [readLine, hread]
        by_cases hl : Blank l
        · have hrest' : ¬ ∀ l' ∈ ls, Blank l' := by
            intro hall
            refine hstray fun l' hl' => ?_
            rcases List.mem_cons.mp hl' with rfl | hl'
            · exact hl
            · exact hall l' hl'
          rw [Blank] at hl
          rw [hl] at hline
          rw [serve_blank hline]
          refine ih (fun l' hl' => hls l' (List.mem_cons_of_mem _ hl')) hrest' m
            ⟨r, c.sess⟩ hmore ?_
          have hlt := readSlice_shorter _ _ hread
          exact Nat.lt_of_lt_of_le hlt (Nat.le_of_lt_succ hn)
        · obtain ⟨b, line, htrim⟩ := List.exists_cons_of_ne_nil hl
          rw [htrim] at hline
          rw [serve_line hline]
          refine .inr ⟨_, _, rfl, ?_⟩
          dsimp only
          rw [hrest, joinLines_cons]
          simp only [List.length_append, List.length_cons]
          omega

/-- A stray entry is not where the next request stands. -/
theorem not_inSync_of_stray {v : Served δ} {qs : List Request}
    (h : v.closing ≠ none ∨ ∃ e es, v.entries = e :: es ∧ (frames qs).length < e.left) :
    ¬ InSync v qs := by
  rintro ⟨hsched, hclosing⟩
  rcases h with h | ⟨e, es, hentries, hleft⟩
  · exact h hclosing
  · rw [hentries, List.map_cons] at hsched
    cases qs with
    | nil => exact nomatch hsched
    | cons q qs =>
        have hhead := (Prod.mk.inj (List.cons.inj hsched).1).1
        omega

theorem inSync_after {q : Request} {qs : List Request} {e : Entry} {v : Served δ}
    (hleft : e.left = (frames (q :: qs)).length) (hline : e.line = q.text)
    (hquit : q.word ≠ .line .quit) : InSync (v.after e) (q :: qs) ↔ InSync v qs := by
  rw [InSync, InSync, schedule, if_neg hquit, Served.after, List.map_cons, hleft, hline]
  simp only [List.cons.injEq, true_and]

theorem inSync_iff_aligned (qs : List Request) (hqs : ∀ q ∈ qs, q.Valid s.maxLine s.maxValue)
    (n : Nat) (c : Conn δ) (hrest : c.reader.rest = frames qs) (hn : c.reader.rest.length < n) :
    InSync (s.serve B n c) qs ↔ Aligned s c.sess.st.authed qs := by
  induction qs generalizing n c with
  | nil =>
      obtain ⟨m, rfl⟩ : ∃ m, n = m + 1 := ⟨n - 1, by omega⟩
      rw [serve_end s B m c hrest]
      exact iff_of_true ⟨rfl, rfl⟩ trivial
  | cons q qs ih =>
      obtain ⟨m, rfl⟩ : ∃ m, n = m + 1 := ⟨n - 1, by omega⟩
      have hq := hqs q List.mem_cons_self
      have hqs' : ∀ q' ∈ qs, q'.Valid s.maxLine s.maxValue :=
        fun q' hq' => hqs q' (List.mem_cons_of_mem _ hq')
      obtain ⟨r, hmore, hround⟩ := serve_request s B hq m c (show _ = _ ++ frames qs from hrest)
      have hshort : r.rest.length < m := by
        obtain ⟨b, line, htext⟩ := q.text_ne_nil
        rw [hrest, frames, Request.frame, htext] at hn
        rw [hmore]
        simp only [List.length_append, List.length_cons] at hn ⊢
        omega
      have hauthed : (perform s B q c.sess.count).2.st.authed
          = (c.sess.st.authed || grants s q) := perform_authed s B q _
      rw [hround, Aligned, ← hauthed]
      have hlines : ∀ l ∈ blockLines q, newline ∉ l := splitLines_lines _
      -- The rounds after this one: on a connection at the blocks, or past them.
      have hcases : ∃ r', s.dispatch B q.text ⟨r, c.sess.count⟩
            = ((perform s B q c.sess.count).1, ⟨r', (perform s B q c.sess.count).2⟩)
          ∧ r'.rest.length < m
          ∧ (c.sess.st.authed = true ∧ r'.rest = frames qs
            ∨ c.sess.st.authed = false ∧ r'.rest = joinLines (blockLines q) ++ frames qs) := by
        cases hst : c.sess.st.authed with
        | true =>
            obtain ⟨r', hdispatch, hnext⟩ := dispatch_authed s B hq ⟨r, c.sess.count⟩ hst hmore
            refine ⟨r', hdispatch, ?_, .inl ⟨rfl, hnext⟩⟩
            rw [hmore, List.length_append] at hshort
            rw [hnext]
            omega
        | false =>
            refine ⟨r, dispatch_unauthed s B hq ⟨r, c.sess.count⟩ hst, hshort, .inr ⟨rfl, ?_⟩⟩
            rw [hmore, joinLines_blockLines]
      obtain ⟨r', hdispatch, hlt, hnext⟩ := hcases
      rw [hdispatch, Server.round]
      dsimp only
      rw [perform_goesOn, hrest]
      by_cases hquit : q.word = .line .quit
      · have hblocks : ∀ l ∈ blockLines q, Blank l := by
          cases q with
          | line cmd args => exact fun l hl => absurd hl List.not_mem_nil
          | _ => cases hquit
        refine iff_of_true ⟨?_, ?_⟩ ⟨.inr hblocks, .inl hquit⟩
        · simp only [hquit, decide_true, Bool.not_true, Bool.false_eq_true, if_false, if_true,
            Served.after, List.map_cons, List.map_nil, schedule]
        · simp only [hquit, decide_true, Bool.not_true, Bool.false_eq_true, if_false, Served.after]
      · rw [decide_eq_false hquit, Bool.not_false, if_pos rfl, inSync_after rfl rfl hquit]
        have hword : (q.word = .line .quit ∨ Aligned s (perform s B q c.sess.count).2.st.authed qs)
            ↔ Aligned s (perform s B q c.sess.count).2.st.authed qs := or_iff_right hquit
        rw [hword]
        rcases hnext with ⟨hst, hnext⟩ | ⟨hst, hnext⟩
        · rw [ih hqs' m _ hnext hlt]
          exact ⟨fun h => ⟨.inl hst, h⟩, fun h => h.2⟩
        · by_cases hblank : ∀ l ∈ blockLines q, Blank l
          · obtain ⟨m', r'', hskip, hrest', hlt'⟩ :=
              serve_skip s B _ hlines hblank m ⟨r', (perform s B q c.sess.count).2⟩ hnext hlt
            rw [hskip, ih hqs' m' _ hrest' hlt']
            exact ⟨fun h => ⟨.inr hblank, h⟩, fun h => h.2⟩
          · refine iff_of_false ?_ ?_
            · exact not_inSync_of_stray (serve_stray s B _ hlines hblank m _ hnext hlt)
            · rintro ⟨hauthed' | hblank', -⟩
              · rw [hst] at hauthed'
                exact nomatch hauthed'
              · exact hblank hblank'

end Stray

/-- **Framing before authentication.**  On a connection that is not authenticated to a server
that requires it, client and server stay aligned exactly when the data blocks of the requests
that precede valid credentials consist of blank lines. -/
theorem unauthenticated_in_sync_iff (s : Server ι) (hreq : s.auth.required = true)
    (B : Database δ ι) (qs : List Request) (hqs : ∀ q ∈ qs, q.Valid s.maxLine s.maxValue)
    (r : Reader) (hrest : r.rest = frames qs) (k : Counters) (d : δ) :
    InSync (s.handleConn B ⟨r, s.initial, k, d⟩) qs ↔ Aligned s false qs := by
  have hinit : s.initial.authed = false := by rw [Server.initial, if_pos hreq]
  rw [← hinit]
  exact inSync_iff_aligned s B qs hqs _ ⟨r, s.initial, k, d⟩ hrest (Nat.lt_succ_self _)

/-- `hello`, `put k` with an empty value, and `ping`. -/
def putEmpty : List Request := [.line .hello [], .put [0x6B] [], .line .ping []]

/-- An empty block leaves client and server aligned. -/
theorem putEmpty_in_sync :
    InSync (Server.withPassword.handleConn .recording
      (Conn.sending Server.withPassword [] (frames putEmpty))) putEmpty := by
  have hvalid : ∀ q ∈ putEmpty, q.Valid Server.withPassword.maxLine
      Server.withPassword.maxValue := by
    intro q hq
    simp only [putEmpty, List.mem_cons, List.not_mem_nil, or_false] at hq
    rcases hq with rfl | rfl | rfl
    · exact ⟨fun t ht => absurd ht List.not_mem_nil, by decide, by decide⟩
    · refine ⟨?_, by decide, by decide⟩
      have hall : ∀ t ∈ (Request.put [0x6B] []).args,
          t ≠ [] ∧ ∀ n, n < t.length → spaceLen (t.drop n) = 0 := by decide
      exact hall
    · exact ⟨fun t ht => absurd ht List.not_mem_nil, by decide, by decide⟩
  refine (unauthenticated_in_sync_iff Server.withPassword rfl .recording putEmpty hvalid _
    (by simp [Reader.rest]) _ _).mpr ?_
  have hblank : ∀ l ∈ blockLines (.put [0x6B] []), Blank l := by decide
  exact ⟨.inr (by decide), .inr ⟨.inr hblank, .inr ⟨.inr (by decide), .inr trivial⟩⟩⟩

/-- `put k` with the value `auth pw`, and `ping`. -/
def putAuth : List Request :=
  [.put [0x6B] (ascii ['a', 'u', 't', 'h', ' ', 'p', 'w']), .line .ping []]

/-- The value runs `auth`: three replies to two requests, and the session is authenticated. -/
theorem value_runs_auth :
    ¬ InSync (Server.withPassword.handleConn .recording
        (Conn.sending Server.withPassword [] (frames putAuth))) putAuth
      ∧ (Server.withPassword.handleConn .recording
          (Conn.sending Server.withPassword [] (frames putAuth))).entries.length = 3
      ∧ (Server.withPassword.handleConn .recording
          (Conn.sending Server.withPassword [] (frames putAuth))).conn.sess.st
            = ⟨true, .admin⟩ := by
  decide +kernel

end NteeDb.Properties.Framing
