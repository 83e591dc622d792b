import Mathlib.Data.List.Induction
import NteeDb.Server.Client
import NteeDb.Server.Values

/-!
# Each response settles its command

The client answers the `k`-th command with the `k`-th line, whatever chunks the lines arrive in
and however commands and chunks alternate, and a close rejects what is left.
-/

namespace NteeDb.Properties.Demultiplexing

open NteeDb.Client NteeDb.Verified NteeDb.Verified.Lines

variable {ρ : Type}

/-! ## What a run issues and receives -/

/-- The commands issued. -/
def sends : List (Event ρ) → List (Command ρ)
  | [] => []
  | .send c :: es => c :: sends es
  | _ :: es => sends es

/-- The bytes received. -/
def received : List (Event ρ) → Bytes
  | [] => []
  | .chunk b :: es => b ++ received es
  | _ :: es => received es

/-- The response lines that have fully arrived. -/
def arrived (es : List (Event ρ)) : List Bytes := (splitLines (received es)).1

/-- No close yet. -/
def Open (es : List (Event ρ)) : Prop := ∀ e ∈ es, e ≠ .close

/-- A response never precedes its command. -/
def Causal (es : List (Event ρ)) : Prop :=
  ∀ es' rest, es = es' ++ rest → (arrived es').length ≤ (sends es').length

/-- Commands with the numbers they get, from `k` on. -/
def numbered : Nat → List (Command ρ) → List (Pending ρ)
  | _, [] => []
  | k, c :: cs => ⟨k, c⟩ :: numbered (k + 1) cs

/-- The outcome of the `k`-th command is what it makes of the `k`-th line. -/
def outcomes (parse : Bytes → Option (Envelope ρ)) :
    Nat → List (Command ρ) → List Bytes → List (Nat × Outcome ρ)
  | k, c :: cs, l :: ls =>
      match parse l with
      | some env => (k, c.settle env) :: outcomes parse (k + 1) cs ls
      | none => []
  | _, _, _ => []

/-- Commands that are rejected because the connection is gone. -/
def rejected (ps : List (Pending ρ)) : List (Nat × Outcome ρ) :=
  ps.map fun p => (p.id, .disconnected)

/-! ## Small facts -/

theorem sends_append (xs ys : List (Event ρ)) : sends (xs ++ ys) = sends xs ++ sends ys := by
  induction xs with
  | nil => rfl
  | cons e xs ih => cases e <;> simp [sends, ih]

theorem received_append (xs ys : List (Event ρ)) :
    received (xs ++ ys) = received xs ++ received ys := by
  induction xs with
  | nil => rfl
  | cons e xs ih => cases e <;> simp [received, ih]

theorem numbered_append (k : Nat) (xs ys : List (Command ρ)) :
    numbered k (xs ++ ys) = numbered k xs ++ numbered (k + xs.length) ys := by
  induction xs generalizing k with
  | nil => rfl
  | cons c xs ih =>
      simp only [List.cons_append, numbered, ih, List.length_cons]
      rw [Nat.add_right_comm, Nat.add_assoc k]

theorem outcomes_nil (parse : Bytes → Option (Envelope ρ)) (k : Nat) (cs : List (Command ρ)) :
    outcomes parse k cs [] = [] := by
  cases cs <;> rfl

theorem outcomes_append_lines (parse : Bytes → Option (Envelope ρ)) (k : Nat)
    (cs : List (Command ρ)) (xs ys : List Bytes) (hxs : ∀ l ∈ xs, parse l ≠ none) :
    outcomes parse k cs (xs ++ ys)
      = outcomes parse k cs xs ++ outcomes parse (k + xs.length) (cs.drop xs.length) ys := by
  induction xs generalizing k cs with
  | nil => simp [outcomes]
  | cons l xs ih =>
      cases cs with
      | nil => cases ys <;> simp [outcomes]
      | cons c cs =>
          rw [List.forall_mem_cons] at hxs
          obtain ⟨env, henv⟩ := Option.ne_none_iff_exists'.mp hxs.1
          simp only [List.cons_append, outcomes, henv, ih _ _ hxs.2, List.length_cons,
            List.drop_succ_cons]
          rw [Nat.add_right_comm, Nat.add_assoc k]

theorem outcomes_append_commands (parse : Bytes → Option (Envelope ρ)) (k : Nat)
    (cs ds : List (Command ρ)) (ls : List Bytes) (h : ls.length ≤ cs.length) :
    outcomes parse k (cs ++ ds) ls = outcomes parse k cs ls := by
  induction ls generalizing k cs with
  | nil => cases cs <;> cases ds <;> rfl
  | cons l ls ih =>
      cases cs with
      | nil => exact absurd h (Nat.not_succ_le_zero _)
      | cons c cs =>
          simp only [List.cons_append, outcomes, ih (k + 1) cs (Nat.le_of_succ_le_succ h)]

theorem outcomes_ids (parse : Bytes → Option (Envelope ρ)) (k : Nat) (cs : List (Command ρ))
    (ls : List Bytes) (hls : ∀ l ∈ ls, parse l ≠ none) (h : ls.length ≤ cs.length) :
    (outcomes parse k cs ls).map Prod.fst = List.range' k ls.length := by
  induction ls generalizing k cs with
  | nil => cases cs <;> rfl
  | cons l ls ih =>
      cases cs with
      | nil => exact absurd h (Nat.not_succ_le_zero _)
      | cons c cs =>
          rw [List.forall_mem_cons] at hls
          obtain ⟨env, henv⟩ := Option.ne_none_iff_exists'.mp hls.1
          simp only [outcomes, henv, List.map_cons, ih (k + 1) cs hls.2 (Nat.le_of_succ_le_succ h),
            List.length_cons, List.range'_succ]

theorem numbered_ids (k : Nat) (cs : List (Command ρ)) :
    (numbered k cs).map Pending.id = List.range' k cs.length := by
  induction cs generalizing k with
  | nil => rfl
  | cons c cs ih => simp only [numbered, List.map_cons, ih, List.length_cons, List.range'_succ]

/-! ## One event -/

/-- A client that has issued `cs`, received the complete lines `ls` and holds the tail `t`. -/
structure After (parse : Bytes → Option (Envelope ρ)) (cs : List (Command ρ)) (ls : List Bytes)
    (t : Bytes) (s : State ρ) : Prop where
  recv : s.recv = t
  running : s.destroyed = false ∧ s.closed = false
  sent : s.sent = cs.length
  pending : s.pending = numbered ls.length (cs.drop ls.length)
  settled : s.settled = outcomes parse 0 cs ls

/-- The loop of `#onData`: by induction on the lines, each taking the first pending command. -/
theorem onLines_after (parse : Bytes → Option (Envelope ρ)) (cs : List (Command ρ))
    (new : List Bytes) (hnew : ∀ l ∈ new, parse l ≠ none) {old : List Bytes} {t : Bytes}
    {s : State ρ} (hold : ∀ l ∈ old, parse l ≠ none)
    (hlen : (old ++ new).length ≤ cs.length) (h : After parse cs old t s) :
    After parse cs (old ++ new) t (s.onLines parse new) := by
  induction new generalizing old s with
  | nil => rwa [List.append_nil]
  | cons l new ih =>
      rw [List.forall_mem_cons] at hnew
      obtain ⟨env, henv⟩ := Option.ne_none_iff_exists'.mp hnew.1
      have hlt : old.length < cs.length := by
        simp only [List.length_append, List.length_cons] at hlen
        omega
      have hpending : s.pending = ⟨old.length, cs.get ⟨old.length, hlt⟩⟩
          :: numbered (old.length + 1) (cs.drop (old.length + 1)) := by
        rw [h.pending, List.drop_eq_getElem_cons hlt]
        rfl
      have hline : s.onLine parse l = { s with
          pending := numbered (old.length + 1) (cs.drop (old.length + 1))
          settled := s.settled ++ [(old.length, (cs.get ⟨old.length, hlt⟩).settle env)] } := by
        rw [State.onLine, henv, hpending]
      have hstep : After parse cs (old ++ [l]) t (s.onLine parse l) := by
        rw [hline]
        refine ⟨h.recv, h.running, h.sent, ?_, ?_⟩
        · simp only [List.length_append, List.length_singleton]
        · dsimp only
          rw [h.settled, outcomes_append_lines parse 0 cs old [l] hold,
            List.drop_eq_getElem_cons hlt]
          simp only [outcomes, outcomes_nil, henv, Nat.zero_add]
          rfl
      have hold' : ∀ l' ∈ old ++ [l], parse l' ≠ none := by
        intro l' hl'
        rcases List.mem_append.mp hl' with hl' | hl'
        · exact hold l' hl'
        · rw [List.mem_singleton.mp hl']
          exact hnew.1
      rw [State.onLines]
      rw [if_neg (by rw [hstep.running.1]; decide)]
      have hnext := ih hnew.2 hold' (by simpa [List.append_assoc] using hlen) hstep
      rwa [List.append_assoc, List.singleton_append] at hnext

theorem After.chunk {parse : Bytes → Option (Envelope ρ)} {cs : List (Command ρ)} {b : Bytes}
    {es : List (Event ρ)} {s : State ρ}
    (h : After parse cs (arrived es) (splitLines (received es)).2 s)
    (hparse : ∀ l ∈ arrived (es ++ [.chunk b]), parse l ≠ none)
    (hlen : (arrived (es ++ [.chunk b])).length ≤ cs.length) :
    After parse cs (arrived (es ++ [.chunk b])) (splitLines (received (es ++ [.chunk b]))).2
      (s.onData parse b) := by
  have hreceived : received (es ++ [.chunk b]) = received es ++ b := by
    rw [received_append]
    simp [received]
  have hsplit := splitLines_append (received es) b
  have harrived : arrived (es ++ [.chunk b])
      = arrived es ++ (splitLines ((splitLines (received es)).2 ++ b)).1 := by
    rw [arrived, hreceived, hsplit]
    rfl
  rw [hreceived, hsplit]
  rw [harrived] at hparse hlen ⊢
  rw [State.onData, if_neg (by rw [h.running.1, h.running.2]; decide)]
  dsimp only
  rw [h.recv]
  exact onLines_after parse cs _ (fun l hl => hparse l (List.mem_append_right _ hl))
    (fun l hl => hparse l (List.mem_append_left _ hl)) hlen
    ⟨rfl, h.running, h.sent, h.pending, h.settled⟩

theorem After.send {parse : Bytes → Option (Envelope ρ)} {cs : List (Command ρ)}
    {ls : List Bytes} {t : Bytes} {s : State ρ} (h : After parse cs ls t s)
    (hlen : ls.length ≤ cs.length) (c : Command ρ) :
    After parse (cs ++ [c]) ls t (s.send c) := by
  rw [State.send, if_neg (by rw [h.running.2]; decide)]
  refine ⟨h.recv, h.running, ?_, ?_, ?_⟩
  · dsimp only
    rw [h.sent, List.length_append]
    rfl
  · dsimp only
    rw [h.pending, List.drop_append_of_le_length hlen, numbered_append, List.length_drop,
      Nat.add_sub_cancel' hlen, h.sent]
    rfl
  · dsimp only
    rw [h.settled, outcomes_append_commands parse 0 cs [c] ls hlen]

/-! ## Whole runs -/

theorem run_append (parse : Bytes → Option (Envelope ρ)) (xs ys : List (Event ρ)) :
    run parse (xs ++ ys) = ys.foldl (State.step parse) (run parse xs) :=
  List.foldl_append

theorem arrived_monotone (xs ys : List (Event ρ)) : arrived xs <+: arrived (xs ++ ys) := by
  rw [arrived, arrived, received_append]
  exact splitLines_prefix _ _

/-- Every event keeps the client where the commands and the lines so far put it. -/
theorem run_after (parse : Bytes → Option (Envelope ρ)) (es : List (Event ρ)) (hopen : Open es)
    (hcausal : Causal es) (hparse : ∀ l ∈ arrived es, parse l ≠ none) :
    After parse (sends es) (arrived es) (splitLines (received es)).2 (run parse es) := by
  induction es using List.reverseRecOn with
  | nil => exact ⟨rfl, ⟨rfl, rfl⟩, rfl, rfl, rfl⟩
  | append_singleton es e ih =>
      have hcausal' : Causal es := fun es' rest hes => hcausal es' (rest ++ [e]) (by
        rw [hes, List.append_assoc])
      have hbefore := ih (fun e' he' => hopen e' (List.mem_append_left _ he')) hcausal'
        (fun l hl => hparse l ((arrived_monotone es [e]).subset hl))
      have hlen := hcausal (es ++ [e]) [] (List.append_nil _).symm
      rw [run_append, List.foldl_cons, List.foldl_nil]
      cases e with
      | send c =>
          have harrived : received (es ++ [.send c]) = received es := by
            rw [received_append]
            simp [received]
          rw [sends_append, arrived, harrived]
          exact hbefore.send (hcausal' es [] (List.append_nil _).symm) c
      | chunk b =>
          have hsends : sends (es ++ [.chunk b]) = sends es := by
            rw [sends_append]
            simp [sends]
          rw [hsends] at hlen ⊢
          exact hbefore.chunk hparse hlen
      | close => exact (hopen .close (List.mem_append_right _ List.mem_cons_self) rfl).elim

/-- After the close a client only rejects. -/
theorem run_late (parse : Bytes → Option (Envelope ρ)) (late : List (Event ρ)) (s : State ρ)
    (hclosed : s.closed = true) (hpending : s.pending = []) :
    (late.foldl (State.step parse) s).settled
      = s.settled ++ rejected (numbered s.sent (sends late)) := by
  induction late generalizing s with
  | nil => simp [sends, numbered, rejected]
  | cons e late ih =>
      rw [List.foldl_cons]
      cases e with
      | send c =>
          have hsend : State.step parse s (.send c) = { s with
              sent := s.sent + 1, settled := s.settled ++ [(s.sent, .disconnected)] } := by
            rw [State.step, State.send, if_pos hclosed]
          rw [ih _ (by rw [hsend]; exact hclosed) (by rw [hsend]; exact hpending), hsend]
          simp [sends, numbered, rejected]
      | chunk b =>
          have hdata : State.step parse s (.chunk b) = s := by
            rw [State.step, State.onData, if_pos (by rw [hclosed, Bool.or_true])]
          rw [hdata, ih s hclosed hpending]
          rfl
      | close =>
          rw [ih _ rfl rfl]
          simp [State.step, State.onClose, hpending, sends]

/-- **Response demultiplexing.**  Let commands be issued and chunks arrive in any order in which
a response never precedes its command, the complete lines being JSON.  Then the `k`-th line that
has fully arrived has settled the `k`-th command, with what that command makes of the line, and
nothing else is settled.  A close rejects exactly the commands whose lines have not arrived, and
whatever comes later is rejected, so that every command is settled once. -/
theorem responses_settle_commands (parse : Bytes → Option (Envelope ρ)) (es : List (Event ρ))
    (hopen : Open es) (hcausal : Causal es) (hparse : ∀ l ∈ arrived es, parse l ≠ none)
    (late : List (Event ρ)) :
    (run parse es).settled = outcomes parse 0 (sends es) (arrived es)
      ∧ (run parse (es ++ [.close])).settled = outcomes parse 0 (sends es) (arrived es)
          ++ rejected (numbered (arrived es).length ((sends es).drop (arrived es).length))
      ∧ (run parse (es ++ .close :: late)).settled.map Prod.fst
          = List.range ((sends es).length + (sends late).length) := by
  have hafter := run_after parse es hopen hcausal hparse
  have hlen := hcausal es [] (List.append_nil _).symm
  have hclose : (run parse (es ++ [.close])).settled = outcomes parse 0 (sends es) (arrived es)
      ++ rejected (numbered (arrived es).length ((sends es).drop (arrived es).length)) := by
    rw [run_append, ← hafter.settled, ← hafter.pending]
    rfl
  refine ⟨hafter.settled, hclose, ?_⟩
  have hsplit : es ++ .close :: late = (es ++ [.close]) ++ late := by simp
  have hsent : (run parse (es ++ [.close])).sent = (sends es).length := by
    rw [run_append, ← hafter.sent]
    rfl
  rw [hsplit, run_append, run_late parse late _ (by rw [run_append]; rfl) (by rw [run_append]; rfl),
    hclose, hsent]
  have hids : ∀ k (cs : List (Command ρ)),
      (rejected (numbered k cs)).map Prod.fst = List.range' k cs.length := by
    intro k cs
    rw [rejected, List.map_map, ← numbered_ids]
    rfl
  rw [List.map_append, List.map_append, outcomes_ids parse 0 _ _ hparse hlen]
  have hall : ∀ m n, List.range' 0 m ++ List.range' m n = List.range' 0 (m + n) := by
    intro m n
    rw [← List.range'_append_1, Nat.zero_add]
  rw [hids, hids, List.length_drop, hall, Nat.add_sub_cancel' hlen, hall, List.range_eq_range']

/-- The envelope of a line whose result is a boolean. -/
def boolEnvelope (line : Bytes) : Option (Envelope Bool) :=
  match Net.parseText line with
  | some (.obj ms) =>
      match JsonTokens.getMember ms (Net.nameUnits ['o', 'k']),
          JsonTokens.getMember ms (Net.nameUnits ['r', 'e', 's', 'u', 'l', 't']) with
      | some (.bool ok), some (.bool b) => some ⟨!ok, none, none, b⟩
      | _, _ => none
  | _ => none

/-- `{"ok":true,"result":true}`. -/
def okTrue : Bytes :=
  [0x7B, 0x22, 0x6F, 0x6B, 0x22, 0x3A, 0x74, 0x72, 0x75, 0x65, 0x2C, 0x22, 0x72, 0x65, 0x73, 0x75,
    0x6C, 0x74, 0x22, 0x3A, 0x74, 0x72, 0x75, 0x65, 0x7D]

/-- Two commands in flight, and one answer and a part of the next in two chunks. -/
def twoCommands : List (Event Bool) :=
  [.send ⟨"has", none⟩, .chunk (okTrue.take 10), .send ⟨"has", none⟩,
    .chunk (okTrue.drop 10 ++ newline :: okTrue.take 5)]

theorem responses_settle_two_commands :
    (run boolEnvelope twoCommands).settled = [(0, .resolved true)]
      ∧ (run boolEnvelope (twoCommands ++ [.close])).settled
        = [(0, .resolved true), (1, .disconnected)] := by
  have hopen : Open twoCommands := by
    intro e he hclose
    simp only [twoCommands, List.mem_cons, List.not_mem_nil, or_false] at he
    rcases he with rfl | rfl | rfl | rfl <;> exact nomatch hclose
  have hcausal : Causal twoCommands := by
    intro es' rest hes
    have htake : es' = twoCommands.take es'.length := by rw [hes, List.take_left]
    have hle : es'.length ≤ 4 := by
      have hcount := congrArg List.length hes
      rw [List.length_append] at hcount
      exact Nat.le.intro hcount.symm
    have hall : ∀ n : Fin 5, (arrived (twoCommands.take n.val)).length
        ≤ (sends (twoCommands.take n.val)).length := by decide
    rw [htake]
    exact hall ⟨es'.length, Nat.lt_succ_of_le hle⟩
  have hparse : ∀ l ∈ arrived twoCommands, (boolEnvelope l).isSome = true := by decide +kernel
  have hsettled : outcomes boolEnvelope 0 (sends twoCommands) (arrived twoCommands)
      = [(0, .resolved true)] := by decide +kernel
  obtain ⟨hrun, hclose, -⟩ := responses_settle_commands boolEnvelope twoCommands hopen hcausal
    (fun l hl => Option.isSome_iff_ne_none.mp (hparse l hl)) []
  rw [hsettled] at hrun hclose
  exact ⟨hrun, hclose⟩

end NteeDb.Properties.Demultiplexing
