import NteeDb.Verified.Lines

/-!
# The client's response queue

`#onData`, `#fatal`, `#send` and the `close` handler of the JS client, as steps on its buffer and
its queue of pending commands.  `parse` is `JSON.parse` of a line (`none` when it throws);
promises are recorded in the order in which they are settled.
-/

namespace NteeDb.Client

open NteeDb.Verified NteeDb.Verified.Lines

/-- The members of a parsed response that the client reads, over the values `ρ` of JSON. -/
structure Envelope (ρ : Type) where
  /-- `env.ok === false`. -/
  failed : Bool
  err : Option String
  found : Option Bool
  result : ρ

/-- How a promise is settled: with a value, with an `NteeServerError`, with what the decoder
threw, or with the connection's error. -/
inductive Outcome (ρ : Type) where
  | resolved (value : ρ)
  | serverError (message command : String)
  | thrown (message : String)
  | disconnected
  deriving DecidableEq, Repr

/-- A command: its word and the decoder it passes to `#send`, if any. -/
structure Command (ρ : Type) where
  word : String
  decode : Option (Envelope ρ → Except String ρ)

/-- What a command makes of its response. -/
def Command.settle {ρ : Type} (c : Command ρ) (env : Envelope ρ) : Outcome ρ :=
  if env.failed then .serverError (env.err.getD "unknown error") c.word
  else
    match c.decode with
    | none => .resolved env.result
    | some decode =>
        match decode env with
        | .ok v => .resolved v
        | .error e => .thrown e

/-- A command in flight: its number, and what it was. -/
structure Pending (ρ : Type) where
  id : Nat
  command : Command ρ

/-- The client.  `destroyed` is set by `#fatal`: the socket delivers nothing more and closes. -/
structure State (ρ : Type) where
  pending : List (Pending ρ) := []
  recv : Bytes := []
  closed : Bool := false
  destroyed : Bool := false
  /-- Commands issued so far. -/
  sent : Nat := 0
  /-- Settled promises, in order. -/
  settled : List (Nat × Outcome ρ) := []

variable {ρ : Type}

/-- `#fatal`. -/
def State.fatal (s : State ρ) : State ρ := { s with destroyed := true }

/-- One complete line of the loop of `#onData`; the buffer is already past it. -/
def State.onLine (parse : Bytes → Option (Envelope ρ)) (line : Bytes) (s : State ρ) : State ρ :=
  match parse line with
  | none => s.fatal
  | some env =>
      match s.pending with
      | [] => s.fatal
      | p :: ps => { s with pending := ps, settled := s.settled ++ [(p.id, p.command.settle env)] }

/-- The loop of `#onData` over the complete lines of the buffer; it is left at once by
`#fatal`. -/
def State.onLines (parse : Bytes → Option (Envelope ρ)) : List Bytes → State ρ → State ρ
  | [], s => s
  | l :: ls, s =>
      let s' := s.onLine parse l
      if s'.destroyed then s' else s'.onLines parse ls

/-- `#onData`: append the chunk, then take out its complete lines. -/
def State.onData (parse : Bytes → Option (Envelope ρ)) (chunk : Bytes) (s : State ρ) : State ρ :=
  if s.destroyed || s.closed then s
  else
    let buf := s.recv ++ chunk
    { s with recv := (splitLines buf).2 }.onLines parse (splitLines buf).1

/-- `#send`: a closed client rejects at once. -/
def State.send (command : Command ρ) (s : State ρ) : State ρ :=
  if s.closed then
    { s with sent := s.sent + 1, settled := s.settled ++ [(s.sent, .disconnected)] }
  else { s with sent := s.sent + 1, pending := s.pending ++ [⟨s.sent, command⟩] }

/-- The `close` handler: everything that is pending is rejected. -/
def State.onClose (s : State ρ) : State ρ :=
  { s with
    closed := true
    pending := []
    settled := s.settled ++ s.pending.map fun p => (p.id, .disconnected) }

/-- What can happen to a client. -/
inductive Event (ρ : Type) where
  | send (command : Command ρ)
  | chunk (bytes : Bytes)
  | close

/-- One event. -/
def State.step (parse : Bytes → Option (Envelope ρ)) (s : State ρ) : Event ρ → State ρ
  | .send command => s.send command
  | .chunk bytes => s.onData parse bytes
  | .close => s.onClose

/-- A run of events from a new connection. -/
def run (parse : Bytes → Option (Envelope ρ)) (es : List (Event ρ)) : State ρ :=
  es.foldl (State.step parse) {}

end NteeDb.Client
