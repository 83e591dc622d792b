import NteeDb.Server.Wire

/-!
# The server's connection loop

`auth.go`, `handlers.go` and `handleConn` of `server.go`.  The store behind the server is a
parameter: a `Database` is what `dispatch` calls, over any state type.  So are the parts of the
standard library that only shape a reply (`Codec`).
-/

namespace NteeDb.Net

open NteeDb.Verified NteeDb.Verified.Lines

/-! ## Sessions -/

/-- Granted roles. -/
inductive Role where
  | user
  | admin
  deriving DecidableEq, Repr

/-- A line of the auth file. -/
structure FileUser where
  password : Bytes
  role : Role

/-- `authStore`: the mode with its data; `users` is a map. -/
inductive AuthStore where
  | none
  | password (password : Bytes)
  | file (users : Bytes → Option FileUser)

/-- The name of the mode, as `hello` shows it. -/
def AuthStore.mode : AuthStore → String
  | .none => "none"
  | .password _ => "password"
  | .file _ => "file"

/-- `required`. -/
def AuthStore.required : AuthStore → Bool
  | .none => false
  | .password _ => true
  | .file _ => true

/-- `equalConstantTime`. -/
def equalConstantTime (got want : Bytes) : Bool := decide (got = want)

/-- `check`: the role granted to the arguments of an `auth` command. -/
def AuthStore.check (a : AuthStore) (args : List Bytes) : Except String Role :=
  match a with
  | .none => .ok .admin
  | .password pw =>
      match args with
      | [got] => if equalConstantTime got pw then .ok .admin else .error "invalid password"
      | _ => .error "usage: auth <password>"
  | .file users =>
      match args with
      | [name, got] =>
          -- An unknown user is compared with the empty password, and refused whatever comes out.
          let pw := match users name with
            | some u => u.password
            | Option.none => []
          match equalConstantTime got pw, users name with
          | true, some u => .ok u.role
          | _, _ => .error "invalid user or password"
      | _ => .error "usage: auth <user> <password>"

/-- `connState`. -/
structure ConnState where
  authed : Bool
  role : Role
  deriving DecidableEq, Repr

/-! ## Replies -/

/-- Index kinds. -/
inductive Kind where
  | string
  | number
  deriving DecidableEq, Repr

/-- A value to look up in an index: a token, or the bits of the number it denotes. -/
inductive IndexArg where
  | token (t : Bytes)
  | number (bits : UInt64)
  deriving DecidableEq, Repr

/-- `Stats` of the store, with `LiveBytes` and `BlobUsage`. -/
structure StoreStats where
  records : Int
  mainBytes : Int
  liveBytes : Int
  blobBytes : Int
  blobLiveBytes : Int
  blobOrphanedBytes : Int
  blobGenerations : Int
  deriving DecidableEq, Repr

/-- The server's own counters. -/
structure Counters where
  connections : Nat
  totalConns : Nat
  commands : Nat
  autoCompacts : Nat
  blobCompacts : Nat
  deriving DecidableEq, Repr

/-- What the `result` member of a reply holds. -/
inductive Payload where
  | bool (b : Bool)
  | text (s : String)
  | int (i : Int)
  | null
  | value (v : Bytes)
  | keys (ks : List Bytes)
  | entries (es : List (Bytes × Option Bytes))
  | records (es : List (Bytes × Bytes))
  | hello (mode : String) (indexes : Option (List (Bytes × Kind)))
  | stats (store : StoreStats) (own : Counters)
  deriving DecidableEq, Repr

/-- `envelope`: one response line. -/
structure Reply where
  ok : Bool
  found : Option Bool := none
  result : Option Payload := none
  err : String := ""
  deriving DecidableEq, Repr

/-- `respWriter.ok`. -/
def Reply.okay (result : Payload) : Reply := { ok := true, result := some result }

/-- `respWriter.found`. -/
def Reply.foundValue (found : Bool) (result : Payload) : Reply :=
  { ok := true, found := some found, result := some result }

/-- `respWriter.fail`. -/
def Reply.fail (msg : String) : Reply := { ok := false, err := msg }

/-! ## The store behind the server -/

/-- A call that may fail; the store may change either way. -/
abbrev Call (δ α : Type) := δ → Except String α × δ

/-- What `dispatch` calls.  `ι` are decoded explicit index values. -/
structure Database (δ ι : Type) where
  get : Bytes → Call δ (Option Bytes)
  getMany : List Bytes → Call δ (List (Option Bytes))
  has : Bytes → δ → Bool × δ
  prefixScan : Bytes → Call δ (List Bytes)
  byIndex : Bytes → IndexArg → Option Int → Call δ (List Bytes)
  byIndexHas : Bytes → IndexArg → Call δ Bool
  byIndexPrefix : Bytes → Bytes → Option Int → Call δ (List Bytes)
  byIndexRange : Bytes → IndexArg → IndexArg → Call δ (List Bytes)
  put : Bytes → Bytes → Option Int64 → Call δ Unit
  putIndexed : Bytes → Bytes → ι → Option Int64 → Call δ Unit
  incr : Bytes → Int → Option Int64 → Call δ Int
  topup : Bytes → Int → Int → Option Int64 → Call δ Int
  take : Bytes → Int → Int → Option Int64 → Call δ Bool
  delete : Bytes → Call δ Unit
  removeByPkLess : Bytes → Call δ Int
  removeByPkGreater : Bytes → Call δ Int
  stats : Call δ StoreStats
  droppedIndexes : δ → List Bytes
  prospectiveIndexes : δ → List Bytes
  compact : Call δ Unit
  reindex : Call δ Unit
  blobsRelieve : Call δ Unit

/-- Library functions that shape values and messages: `%q`, `%q` of `strings.ToLower`, `%s`,
`strconv.ParseFloat`, `json.Unmarshal` into index values. -/
structure Codec (ι : Type) where
  quote : Bytes → String
  quoteLower : Bytes → String
  plain : Bytes → String
  parseFloat : Bytes → Option UInt64
  unmarshalIndexValues : Bytes → Except String ι

/-- A server: limits, auth, schema. -/
structure Server (ι : Type) where
  maxLine : Nat
  maxValue : Nat
  auth : AuthStore
  schema : List (Bytes × Kind)
  codec : Codec ι
  maxValueInt : maxValue < 2 ^ 63

variable {δ ι : Type}

/-- The buffer of a connection, `bufio.NewReaderSize(c, MaxLine)`: never less than 16 bytes. -/
def Server.bufSize (s : Server ι) : Nat := max s.maxLine 16

/-! ## Arguments -/

/-- `parseTTLMillis`; the product with a millisecond is an `int64` one. -/
def Server.parseTTLMillis (s : Server ι) (cmd : String) (tok : Bytes) : Except String Int64 :=
  match parseInt64 tok with
  | some ms =>
      if 0 < ms then .ok (Int64.ofInt ms * 1000000)
      else .error (cmd ++ ": ttlms must be a positive integer, got " ++ s.codec.quote tok)
  | none => .error (cmd ++ ": ttlms must be a positive integer, got " ++ s.codec.quote tok)

/-- An optional last TTL token. -/
def Server.optTTL (s : Server ι) (cmd : String) : List Bytes → Except String (Option Int64)
  | [] => .ok none
  | tok :: _ => (s.parseTTLMillis cmd tok).map some

/-- The kind the schema gives an index. -/
def Server.kind (s : Server ι) (name : Bytes) : Option Kind := s.schema.lookup name

/-- `indexValue`. -/
def Server.indexValue (s : Server ι) (name token : Bytes) : Except String IndexArg :=
  if s.kind name = some .number then
    match s.codec.parseFloat token with
    | some f => .ok (.number f)
    | none => .error ("index " ++ s.codec.plain name ++ " holds numbers; " ++ s.codec.quote token
        ++ " is not a number")
  else .ok (.token token)

/-- `parseLimit`. -/
def Server.parseLimit (s : Server ι) : List Bytes → Except String (Option Int)
  | [] => .ok none
  | tok :: _ =>
      match parseInt64 tok with
      | some n => .ok (some n)
      | none => .error ("limit must be an integer (±N), got " ++ s.codec.quote tok)

/-- `indexArgs`. -/
def Server.indexArgs (s : Server ι) (cmd : String) (args : List Bytes) (withLimit : Bool) :
    Except String (Bytes × IndexArg × Option Int) :=
  let usage := "usage: " ++ cmd ++ " <index> <value>" ++ if withLimit then " [±N]" else ""
  match args with
  | name :: token :: rest =>
      if (if withLimit then 1 else 0) < rest.length then .error usage
      else do
        let val ← s.indexValue name token
        let limit ← s.parseLimit rest
        return (name, val, limit)
  | _ => .error usage

/-- An integer argument, or the message that it is none. -/
def Server.intArg (s : Server ι) (cmd what : String) (tok : Bytes) : Except String Int :=
  match parseInt64 tok with
  | some n => .ok n
  | none => .error (cmd ++ ": " ++ what ++ " must be an integer, got " ++ s.codec.quote tok)

/-! ## One command -/

/-- The maintenance operations reserved to administrators. -/
inductive Maintenance where
  | compact
  | reindex
  | relieve
  deriving DecidableEq, Repr

/-- What one dispatched line led to: whether the connection ends, the reply or the error that
is fatal to the connection, and which maintenance operation was called. -/
structure Effect where
  quit : Bool := false
  reply : Except ReadErr Reply
  ran : Option Maintenance := none

/-- The part of a connection that commands read and change. -/
structure Session (δ : Type) where
  st : ConnState
  counters : Counters
  db : δ

/-- A command that fails before it reaches the store. -/
def refuse (msg : String) (x : Session δ) : Effect × Session δ :=
  ({ reply := .ok (Reply.fail msg) }, x)

/-- A command whose reply needs no call that can fail. -/
def reply (r : Reply) (x : Session δ) : Effect × Session δ := ({ reply := .ok r }, x)

/-- Call the store and reply with the result, or with the error. -/
def call {α : Type} (f : Call δ α) (show_ : α → Reply) (x : Session δ) : Effect × Session δ :=
  match f x.db with
  | (.ok a, db) => ({ reply := .ok (show_ a) }, { x with db := db })
  | (.error e, db) => ({ reply := .ok (Reply.fail e) }, { x with db := db })

/-- Go on with parsed arguments, or refuse with the message. -/
def withArgs {α : Type} (args : Except String α) (k : α → Session δ → Effect × Session δ)
    (x : Session δ) : Effect × Session δ :=
  match args with
  | .ok a => k a x
  | .error e => refuse e x

/-- The reply to a command without a natural payload. -/
def done : Unit → Reply := fun _ => Reply.okay (.bool true)

/-- `hello`: the schema only for a session that is authenticated. -/
def Server.hello (s : Server ι) (st : ConnState) : Reply :=
  Reply.okay (.hello s.auth.mode (if st.authed then some s.schema else none))

/-- `incr` and `decr`: the parsed delta and TTL. -/
def Server.counterArgs (s : Server ι) (cmd : String) (negate : Bool) (args : List Bytes) :
    Except String (Bytes × Int × Option Int64) :=
  match args with
  | key :: rest =>
      if 2 < rest.length then .error ("usage: " ++ cmd ++ " <pk> [delta] [ttlms]")
      else do
        let delta ← match rest with
          | [] => Except.ok (1 : Int)
          | tok :: _ => s.intArg cmd "delta" tok
        let ttl ← s.optTTL cmd rest.tail
        if negate then
          if delta = -2 ^ 63 then .error "decr: delta out of range" else .ok (key, -delta, ttl)
        else .ok (key, delta, ttl)
  | [] => .error ("usage: " ++ cmd ++ " <pk> [delta] [ttlms]")

/-- `topup` and `take`: the parsed amount, bound and TTL. -/
def Server.boundedArgs (s : Server ι) (cmd bound : String) (args : List Bytes) :
    Except String (Bytes × Int × Int × Option Int64) :=
  match args with
  | key :: amountTok :: limitTok :: rest =>
      if 1 < rest.length then
        .error ("usage: " ++ cmd ++ " <pk> <amount> <" ++ bound ++ "> [ttlms]")
      else do
        let amount ← s.intArg cmd "amount" amountTok
        let limit ← s.intArg cmd bound limitTok
        let ttl ← s.optTTL cmd rest
        return (key, amount, limit, ttl)
  | _ => .error ("usage: " ++ cmd ++ " <pk> <amount> <" ++ bound ++ "> [ttlms]")

/-- A maintenance command: behind `requireAdmin`. -/
def maintain (cmd : String) (op : Maintenance) (f : Call δ Unit)
    (count : Counters → Counters) (x : Session δ) : Effect × Session δ :=
  if x.st.role ≠ .admin then refuse ("permission denied: " ++ cmd ++ " requires admin") x
  else
    match f x.db with
    | (.ok _, db) =>
        ({ reply := .ok (done ()), ran := some op },
          { x with db := db, counters := count x.counters })
    | (.error e, db) => ({ reply := .ok (Reply.fail e), ran := some op }, { x with db := db })

/-- `ixrec`: the records of the keys an index lookup returns. -/
def recordsOf (B : Database δ ι) (name : Bytes) (val : IndexArg) (limit : Option Int) :
    Call δ (List (Bytes × Bytes)) := fun db =>
  match B.byIndex name val limit db with
  | (.error e, db₁) => (.error e, db₁)
  | (.ok ks, db₁) =>
      match B.getMany ks db₁ with
      | (.error e, db₂) => (.error e, db₂)
      | (.ok vs, db₂) =>
          (.ok ((ks.zip vs).filterMap fun p => p.2.map fun v => (p.1, v)), db₂)

/-- `requireAuth` in front of a command. -/
def requireAuth (f : Session δ → Effect × Session δ) (x : Session δ) : Effect × Session δ :=
  if x.st.authed then f x else refuse "auth required" x

/-- A command that is one line: the session commands, then those behind `requireAuth`. -/
def Server.lineCommand (s : Server ι) (B : Database δ ι) (cmd : LineCmd) (args : List Bytes) :
    Session δ → Effect × Session δ :=
  match cmd with
  | .quit => fun x => ({ quit := true, reply := .ok (done ()) }, x)
  | .hello => fun x => reply (s.hello x.st) x
  | .auth => fun x =>
      match s.auth.check args with
      | .ok role => reply (done ()) { x with st := ⟨true, role⟩ }
      | .error e => refuse e x
  | .ping => requireAuth <| reply (Reply.okay (.text "pong"))
  | .get => requireAuth <|
      match args with
      | [key] => call (B.get key) fun
          | some v => Reply.foundValue true (.value v)
          | none => Reply.foundValue false .null
      | _ => refuse "usage: get <pk>"
  | .getm => requireAuth <|
      match args with
      | [] => refuse "usage: getm <pk> [<pk> ...]"
      | keys => call (B.getMany keys) fun vs => Reply.okay (.entries (keys.zip vs))
  | .has => requireAuth <|
      match args with
      | [key] => fun x => reply (Reply.okay (.bool (B.has key x.db).1))
          { x with db := (B.has key x.db).2 }
      | _ => refuse "usage: has <pk>"
  | .scan => requireAuth <|
      match args with
      | [] => call (B.prefixScan []) fun ks => Reply.okay (.keys ks)
      | [p] => call (B.prefixScan p) fun ks => Reply.okay (.keys ks)
      | _ => refuse "usage: scan [<prefix>]"
  | .ix => requireAuth <|
      withArgs (s.indexArgs "ix" args true) fun (name, val, limit) =>
        call (B.byIndex name val limit) fun ks => Reply.okay (.keys ks)
  | .ixh => requireAuth <|
      withArgs (s.indexArgs "ixh" args false) fun (name, val, _) =>
        call (B.byIndexHas name val) fun b => Reply.okay (.bool b)
  | .ixp => requireAuth <|
      match args with
      | name :: p :: rest =>
          if 1 < rest.length then refuse "usage: ixp <index> <prefix> [±N]"
          else withArgs (s.parseLimit rest) fun limit =>
            call (B.byIndexPrefix name p limit) fun ks => Reply.okay (.keys ks)
      | _ => refuse "usage: ixp <index> <prefix> [±N]"
  | .ixr => requireAuth <|
      match args with
      | [name, loTok, hiTok] =>
          withArgs (s.indexValue name loTok) fun lo =>
            withArgs (s.indexValue name hiTok) fun hi =>
              call (B.byIndexRange name lo hi) fun ks => Reply.okay (.keys ks)
      | _ => refuse "usage: ixr <index> <lo> <hi>"
  | .ixrec => requireAuth <|
      withArgs (s.indexArgs "ixrec" args true) fun (name, val, limit) =>
        call (recordsOf B name val limit) fun es => Reply.okay (.records es)
  | .incr => requireAuth <|
      withArgs (s.counterArgs "incr" false args) fun (key, delta, ttl) =>
        call (B.incr key delta ttl) fun v => Reply.okay (.int v)
  | .decr => requireAuth <|
      withArgs (s.counterArgs "decr" true args) fun (key, delta, ttl) =>
        call (B.incr key delta ttl) fun v => Reply.okay (.int v)
  | .topup => requireAuth <|
      withArgs (s.boundedArgs "topup" "max" args) fun (key, amount, limit, ttl) =>
        call (B.topup key amount limit ttl) fun v => Reply.okay (.int v)
  | .take => requireAuth <|
      withArgs (s.boundedArgs "take" "left" args) fun (key, amount, limit, ttl) =>
        call (B.take key amount limit ttl) fun b => Reply.okay (.bool b)
  | .del => requireAuth <|
      match args with
      | [key] => call (B.delete key) done
      | _ => refuse "usage: del <pk>"
  | .rml => requireAuth <|
      match args with
      | [cutoff] => call (B.removeByPkLess cutoff) fun n => Reply.okay (.int n)
      | _ => refuse "usage: rml <cutoff-pk>"
  | .rmg => requireAuth <|
      match args with
      | [cutoff] => call (B.removeByPkGreater cutoff) fun n => Reply.okay (.int n)
      | _ => refuse "usage: rmg <cutoff-pk>"
  | .stats => requireAuth <| fun x => call B.stats (fun st => Reply.okay (.stats st x.counters)) x
  | .dropped => requireAuth <| fun x => reply (Reply.okay (.keys (B.droppedIndexes x.db))) x
  | .prospective => requireAuth <| fun x => reply (Reply.okay (.keys (B.prospectiveIndexes x.db))) x
  | .compact => requireAuth <| maintain "compact" .compact B.compact id
  | .reindex => requireAuth <| maintain "reindex" .reindex B.reindex id
  | .relieve => requireAuth <| maintain "relieve" .relieve B.blobsRelieve
      fun c => { c with blobCompacts := c.blobCompacts + 1 }

/-- `putx` after its blocks: a bad TTL or bad index values are reported, else `PutIndexed`. -/
def Server.storeIndexed (s : Server ι) (B : Database δ ι) (key ixRaw value : Bytes)
    (ttl : Except String (Option Int64)) : Session δ → Effect × Session δ :=
  withArgs ttl fun ttl =>
    withArgs ((s.codec.unmarshalIndexValues ixRaw).mapError
      fun e => "putx: index values are not a JSON object: " ++ e) fun ix =>
        call (B.putIndexed key value ix ttl) done

/-- A connection: what is still to be read, and the session. -/
structure Conn (δ : Type) where
  reader : Reader
  sess : Session δ

/-- Run a command that reads nothing more from the connection. -/
def Conn.run (c : Conn δ) (f : Session δ → Effect × Session δ) : Effect × Conn δ :=
  ((f c.sess).1, { c with sess := (f c.sess).2 })

/-- A read failed in the middle of a frame. -/
def Conn.fatal (c : Conn δ) (e : ReadErr) : Effect × Conn δ := ({ reply := .error e }, c)

/-- The usage line of `put`. -/
def putUsage : String := "usage: put <pk> <nbytes> | put <pk> <inline json>"

/-- `put`: a data block when the second and last argument is a number, else the rest of the
line. -/
def Server.putCommand (s : Server ι) (B : Database δ ι) (line : Bytes) (args : List Bytes)
    (c : Conn δ) : Effect × Conn δ :=
  match args with
  | [key, tok] =>
      match parseInt64 tok with
      | some n =>
          match readData n s.maxValue c.reader with
          | .ok (value, r) => Conn.run ⟨r, c.sess⟩ (call (B.put key value none) done)
          | .error e => c.fatal e
      | none => c.run (call (B.put key (restAfterTokens 2 line) none) done)
  | key :: _ :: _ :: _ => c.run (call (B.put key (restAfterTokens 2 line) none) done)
  | _ => c.run (refuse putUsage)

/-- `putex`: the TTL is reported only after the block, so that the stream stays in sync. -/
def Server.putexCommand (s : Server ι) (B : Database δ ι) (args : List Bytes) (c : Conn δ) :
    Effect × Conn δ :=
  match args with
  | [key, ttlTok, tok] =>
      match parseInt64 tok with
      | some n =>
          match readData n s.maxValue c.reader with
          | .ok (value, r) =>
              Conn.run ⟨r, c.sess⟩ (withArgs (s.parseTTLMillis "putex" ttlTok) fun ttl =>
                call (B.put key value (some ttl)) done)
          | .error e => c.fatal e
      | none => c.run (refuse "usage: putex <pk> <ttlms> <nbytes>")
  | _ => c.run (refuse "usage: putex <pk> <ttlms> <nbytes>")

/-- `putx`: both blocks are read before anything is reported. -/
def Server.putxCommand (s : Server ι) (B : Database δ ι) (args : List Bytes) (c : Conn δ) :
    Effect × Conn δ :=
  match args with
  | key :: ixTok :: tok :: rest =>
      if 1 < rest.length then c.run (refuse "usage: putx <pk> <ixbytes> <nbytes> [ttlms]")
      else
        match parseInt64 ixTok, parseInt64 tok with
        | some ixLen, some n =>
            match readData ixLen s.maxValue c.reader with
            | .error e => c.fatal e
            | .ok (ixRaw, r₁) =>
                match readData n s.maxValue r₁ with
                | .error e => c.fatal e
                | .ok (value, r₂) =>
                    Conn.run ⟨r₂, c.sess⟩
                      (s.storeIndexed B key ixRaw value (s.optTTL "putx" rest))
        | _, _ => c.run (refuse "usage: putx <pk> <ixbytes> <nbytes> [ttlms]")
  | _ => c.run (refuse "usage: putx <pk> <ixbytes> <nbytes> [ttlms]")

/-- `dispatch`: run one command line. -/
def Server.dispatch (s : Server ι) (B : Database δ ι) (line : Bytes) (c : Conn δ) :
    Effect × Conn δ :=
  let args := (splitCommand line).2
  match Word.parse (splitCommand line).1 with
  | some (.line cmd) => c.run (s.lineCommand B cmd args)
  | framed =>
      if c.sess.st.authed = false then c.run (refuse "auth required")
      else
        match framed with
        | some .put => s.putCommand B line args c
        | some .putex => s.putexCommand B args c
        | some .putx => s.putxCommand B args c
        | _ => c.run (refuse ("unknown command " ++ s.codec.quoteLower (commandWord line)))

/-! ## The connection loop -/

/-- The text of a read error. -/
def ReadErr.message : ReadErr → String
  | .lineTooLong => "protocol: line too long"
  | .valueTooBig => "protocol: value exceeds size limit"
  | .badDataEnd => "protocol: data block not terminated by newline"
  | .eof => "EOF"
  | .cutShort => "unexpected EOF"

/-- The reply to a line that does not fit the buffer. -/
def Server.tooLong (s : Server ι) : Reply :=
  Reply.fail (ReadErr.lineTooLong.message ++ " (max " ++ toString s.maxLine
    ++ " bytes; use the length-prefixed put form for large values)")

/-- One dispatched line: how much of the stream was left when it was read, the line, the one
reply to it, and the maintenance operation it ran. -/
structure Entry where
  left : Nat
  line : Bytes
  reply : Reply
  ran : Option Maintenance

/-- What the loop did: the lines it dispatched, in order, the reply to an overlong line if one
ended the connection, and the connection it left. -/
structure Served (δ : Type) where
  entries : List Entry
  closing : Option Reply
  conn : Conn δ

/-- Put a dispatched line in front. -/
def Served.after (e : Entry) (v : Served δ) : Served δ := { v with entries := e :: v.entries }

/-- The reply that is sent for an effect; a fatal error is reported and ends the connection. -/
def Effect.sent (e : Effect) : Reply :=
  match e.reply with
  | .ok r => r
  | .error err => Reply.fail err.message

/-- Whether the loop goes on after an effect. -/
def Effect.goesOn (e : Effect) : Bool := !e.quit && e.reply.isOk

/-- One more command counted. -/
def Session.count (x : Session δ) : Session δ :=
  { x with counters := { x.counters with commands := x.counters.commands + 1 } }

/-- The loop of `handleConn`, for at most `n` rounds. -/
def Server.serve (s : Server ι) (B : Database δ ι) : Nat → Conn δ → Served δ
  | 0, c => ⟨[], none, c⟩
  | n + 1, c =>
      match readLine s.bufSize c.reader with
      | .error .lineTooLong => ⟨[], some s.tooLong, c⟩
      | .error _ => ⟨[], none, c⟩
      | .ok ([], r) => s.serve B n ⟨r, c.sess⟩
      | .ok (line, r) =>
          let e := (s.dispatch B line ⟨r, c.sess.count⟩).1
          let c' := (s.dispatch B line ⟨r, c.sess.count⟩).2
          Served.after ⟨c.reader.rest.length, line, e.sent, e.ran⟩
            (if e.goesOn then s.serve B n c' else ⟨[], none, c'⟩)

/-- A round that dispatches a line. -/
def Server.round (s : Server ι) (B : Database δ ι) (n : Nat) (c : Conn δ) (line : Bytes)
    (c' : Effect × Conn δ) : Served δ :=
  Served.after ⟨c.reader.rest.length, line, c'.1.sent, c'.1.ran⟩
    (if c'.1.goesOn then s.serve B n c'.2 else ⟨[], none, c'.2⟩)

section Rounds

variable {s : Server ι} {B : Database δ ι} {n : Nat} {c : Conn δ} {r : Reader}

theorem serve_line {b : UInt8} {line : Bytes}
    (h : readLine s.bufSize c.reader = .ok (b :: line, r)) :
    s.serve B (n + 1) c
      = s.round B n c (b :: line) (s.dispatch B (b :: line) ⟨r, c.sess.count⟩) := by
  rw [Server.serve, h]
  rfl

theorem serve_blank (h : readLine s.bufSize c.reader = .ok ([], r)) :
    s.serve B (n + 1) c = s.serve B n ⟨r, c.sess⟩ := by
  rw [Server.serve, h]

theorem serve_tooLong (h : readLine s.bufSize c.reader = .error .lineTooLong) :
    s.serve B (n + 1) c = ⟨[], some s.tooLong, c⟩ := by
  rw [Server.serve, h]

theorem serve_ended {e : ReadErr} (h : readLine s.bufSize c.reader = .error e)
    (he : e ≠ .lineTooLong) : s.serve B (n + 1) c = ⟨[], none, c⟩ := by
  rw [Server.serve, h]
  cases e <;> first | rfl | exact absurd rfl he

end Rounds

/-- The session a connection starts with. -/
def Server.initial (s : Server ι) : ConnState :=
  if s.auth.required then ⟨false, .user⟩ else ⟨true, .admin⟩

/-- `handleConn`: every round consumes at least a newline, so as many rounds as bytes do. -/
def Server.handleConn (s : Server ι) (B : Database δ ι) (c : Conn δ) : Served δ :=
  s.serve B (c.reader.rest.length + 1) c

/-! ## Stores for runs on fixed inputs -/

/-- A store that answers every call with nothing and never changes. -/
def Database.inert : Database δ ι where
  get _ d := (.ok none, d)
  getMany ks d := (.ok (ks.map fun _ => none), d)
  has _ d := (false, d)
  prefixScan _ d := (.ok [], d)
  byIndex _ _ _ d := (.ok [], d)
  byIndexHas _ _ d := (.ok false, d)
  byIndexPrefix _ _ _ d := (.ok [], d)
  byIndexRange _ _ _ d := (.ok [], d)
  put _ _ _ d := (.ok (), d)
  putIndexed _ _ _ _ d := (.ok (), d)
  incr _ _ _ d := (.ok 0, d)
  topup _ _ _ _ d := (.ok 0, d)
  take _ _ _ _ d := (.ok false, d)
  delete _ d := (.ok (), d)
  removeByPkLess _ d := (.ok 0, d)
  removeByPkGreater _ d := (.ok 0, d)
  stats d := (.ok ⟨0, 0, 0, 0, 0, 0, 0⟩, d)
  droppedIndexes _ := []
  prospectiveIndexes _ := []
  compact d := (.ok (), d)
  reindex d := (.ok (), d)
  blobsRelieve d := (.ok (), d)

/-- A store that keeps the values it is given under their keys, the latest first. -/
def Database.recording : Database (List (Bytes × Bytes)) Unit :=
  { Database.inert with
    get := fun key d => (.ok (d.lookup key), d)
    getMany := fun keys d => (.ok (keys.map (d.lookup ·)), d)
    has := fun key d => ((d.lookup key).isSome, d)
    put := fun key value _ d => (.ok (), (key, value) :: d)
    delete := fun key d => (.ok (), d.filter fun kv => kv.1 ≠ key) }

/-- A server with the password `pw` and small limits. -/
def Server.withPassword : Server Unit where
  maxLine := 64
  maxValue := 64
  auth := .password (ascii ['p', 'w'])
  schema := []
  codec := ⟨fun _ => "", fun _ => "", fun _ => "", fun _ => none, fun _ => .ok ()⟩
  maxValueInt := by decide

/-- A new connection on which the client sends the given bytes. -/
def Conn.sending (s : Server ι) (d : δ) (bytes : Bytes) : Conn δ :=
  ⟨⟨[], [bytes]⟩, s.initial, ⟨1, 1, 0, 0, 0⟩, d⟩

end NteeDb.Net
