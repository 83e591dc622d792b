import NteeDb.Verified.Decimal
import NteeDb.Verified.Lines

/-!
# The wire format

Requests are lines of space-separated tokens, `put`, `putex` and `putx` lines being followed by
length-prefixed data blocks.  This module holds the server's half of `proto.go` (a buffered
reader over the chunks the connection delivers, `readLine`, `readData`, `splitCommand`,
`restAfterTokens`) and the frames the client builds in `protocol.js`.
-/

namespace NteeDb.Net

open NteeDb.Verified NteeDb.Verified.Lines NteeDb.Verified.Json NteeDb.Verified.Decimal

/-- The bytes of an ASCII text. -/
def ascii (cs : List Char) : Bytes := cs.map fun c => UInt8.ofNat c.toNat

/-- Carriage return. -/
abbrev cr : UInt8 := 0x0D

/-- The space that separates tokens. -/
abbrev space : UInt8 := 0x20

/-! ## Reading from the connection -/

/-- Why a read ends the connection. -/
inductive ReadErr where
  | lineTooLong
  | valueTooBig
  | badDataEnd
  /-- `io.EOF`. -/
  | eof
  /-- `io.ErrUnexpectedEOF`. -/
  | cutShort
  deriving DecidableEq, Repr

/-- A buffered reader: what is buffered, and the chunks the connection has yet to deliver. -/
structure Reader where
  buf : Bytes
  chunks : List Bytes

/-- Everything that is still to be read. -/
def Reader.rest (r : Reader) : Bytes := r.buf ++ r.chunks.flatten

/-- `bufio.Reader.ReadSlice('\n')`: the bytes before the next newline, when it stands among
the first `size` ones. -/
def readSlice (size : Nat) : Bytes → List Bytes → Except ReadErr (Bytes × Reader)
  | buf, chunks =>
      if newline ∈ buf.take size then
        .ok (buf.takeWhile (· ≠ newline), ⟨(buf.dropWhile (· ≠ newline)).tail, chunks⟩)
      else if size ≤ buf.length then .error .lineTooLong
      else
        match chunks with
        | [] => .error .eof
        | c :: cs => readSlice size (buf ++ c) cs
termination_by structural _ chunks => chunks

/-- `io.ReadFull` of `n` bytes; also `ReadByte`, as one byte. -/
def readFull (n : Nat) : Bytes → List Bytes → Except ReadErr (Bytes × Reader)
  | buf, chunks =>
      if n ≤ buf.length then .ok (buf.take n, ⟨buf.drop n, chunks⟩)
      else
        match chunks with
        | [] => .error (if buf = [] then .eof else .cutShort)
        | c :: cs => readFull n (buf ++ c) cs
termination_by structural _ chunks => chunks

/-- `bytes.TrimSuffix(line, "\r")`. -/
def trimCR (line : Bytes) : Bytes :=
  if line.getLast? = some cr then line.dropLast else line

/-- `readLine`: one command line, ended by `\r\n` or `\n`. -/
def readLine (size : Nat) (r : Reader) : Except ReadErr (Bytes × Reader) :=
  match readSlice size r.buf r.chunks with
  | .ok (line, r') => .ok (trimCR line, r')
  | .error e => .error e

/-- The newline that ends a data block, `\r\n` or `\n`. -/
def readDataEnd (r : Reader) : Except ReadErr Reader :=
  match readFull 1 r.buf r.chunks with
  | .error e => .error e
  | .ok (b, r₁) =>
      if b = [cr] then
        match readFull 1 r₁.buf r₁.chunks with
        | .error e => .error e
        | .ok (b', r₂) => if b' = [newline] then .ok r₂ else .error .badDataEnd
      else if b = [newline] then .ok r₁ else .error .badDataEnd

/-- `readData`: an `n`-byte data block and its newline. -/
def readData (n : Int) (max : Nat) (r : Reader) : Except ReadErr (Bytes × Reader) :=
  if n < 0 ∨ (max : Int) < n then .error .valueTooBig
  else
    match readFull n.toNat r.buf r.chunks with
    | .error e => .error e
    | .ok (value, r₁) =>
        match readDataEnd r₁ with
        | .error e => .error e
        | .ok r₂ => .ok (value, r₂)

/-! ## Tokens -/

/-- Length of the Unicode white space character the bytes start with, 0 when they start with
none (`unicode.IsSpace`). -/
def spaceLen : Bytes → Nat
  | b :: rest =>
      if (0x09 ≤ b ∧ b ≤ 0x0D) ∨ b = 0x20 then 1
      else if b = 0xC2 then
        match rest with
        | c :: _ => if c = 0x85 ∨ c = 0xA0 then 2 else 0
        | [] => 0
      else
        match rest with
        | c :: d :: _ =>
            if (b = 0xE1 ∧ c = 0x9A ∧ d = 0x80)
              ∨ (b = 0xE2 ∧ c = 0x80 ∧ ((0x80 ≤ d ∧ d ≤ 0x8A) ∨ d = 0xA8 ∨ d = 0xA9 ∨ d = 0xAF))
              ∨ (b = 0xE2 ∧ c = 0x81 ∧ d = 0x9F)
              ∨ (b = 0xE3 ∧ c = 0x80 ∧ d = 0x80) then 3
            else 0
        | _ => 0
  | [] => 0

/-- End the token `cur`, if one was begun. -/
def endToken (cur : Bytes) (more : List Bytes) : List Bytes :=
  if cur = [] then more else cur :: more

/-- `strings.Fields`, in the middle of the token `cur`, with `skip` bytes of a white space
character still to pass. -/
def fieldsFrom : Nat → Bytes → Bytes → List Bytes
  | _, cur, [] => endToken cur []
  | k + 1, cur, _ :: rest => fieldsFrom k cur rest
  | 0, cur, b :: rest =>
      match spaceLen (b :: rest) with
      | 0 => fieldsFrom 0 (cur ++ [b]) rest
      | n + 1 => endToken cur (fieldsFrom n [] rest)

/-- `strings.Fields`. -/
def fields (line : Bytes) : List Bytes := fieldsFrom 0 [] line

/-- `strings.ToLower`, as far as it decides which command a word is: the ASCII capitals and the
two other characters whose lower case is an ASCII letter, the Kelvin sign and the dotted capital
I.  No command has another character, and what becomes of one shows only in the text about an
unknown command (`Codec.quoteLower`). -/
def toLowerFrom : Nat → Bytes → Bytes
  | _, [] => []
  | k + 1, _ :: rest => toLowerFrom k rest
  | 0, b :: rest =>
      if 0x41 ≤ b ∧ b ≤ 0x5A then (b + 0x20) :: toLowerFrom 0 rest
      else if b = 0xE2 ∧ rest.take 2 = [0x84, 0xAA] then 0x6B :: toLowerFrom 2 rest
      else if b = 0xC4 ∧ rest.take 1 = [0xB0] then 0x69 :: toLowerFrom 1 rest
      else b :: toLowerFrom 0 rest

/-- The lower case of a command word. -/
def toLower (word : Bytes) : Bytes := toLowerFrom 0 word

/-- `splitCommand`: the command word, lower-cased, and the arguments. -/
def splitCommand (line : Bytes) : Bytes × List Bytes :=
  match fields line with
  | [] => ([], [])
  | word :: args => (toLower word, args)

/-- The command word as it was sent. -/
def commandWord (line : Bytes) : Bytes := (fields line).headD []

/-- `restAfterTokens`: what follows the first `n` space-separated tokens. -/
def restAfterTokens : Nat → Bytes → Bytes
  | 0, line => line.dropWhile (· = space)
  | n + 1, line =>
      match (line.dropWhile (· = space)).dropWhile (· ≠ space) with
      | [] => []
      | _ :: rest => restAfterTokens n rest

/-- Digits of a signed decimal, without the sign, and whether it is negative. -/
def splitSign : Bytes → Bool × Bytes
  | b :: rest =>
      if b = 0x2D then (true, rest) else if b = 0x2B then (false, rest) else (false, b :: rest)
  | [] => (false, [])

/-- `strconv.ParseInt(tok, 10, 64)` and, on a 64-bit machine, `strconv.Atoi`. -/
def parseInt64 (tok : Bytes) : Option Int :=
  let ds := (splitSign tok).2
  if ds = [] ∨ ¬ (∀ b ∈ ds, isDigit b = true) then none
  else if (splitSign tok).1 = true then
    if natOfDigits ds ≤ 2 ^ 63 then some (-(natOfDigits ds : Int)) else none
  else if natOfDigits ds < 2 ^ 63 then some (natOfDigits ds) else none

/-! ## The command words -/

/-- The commands that are one line. -/
inductive LineCmd where
  | quit | hello | auth | ping
  | get | getm | has | scan | ix | ixh | ixp | ixr | ixrec
  | incr | decr | topup | take | del | rml | rmg
  | stats | dropped | prospective
  | compact | reindex | relieve
  deriving DecidableEq, Repr

/-- Every command: a line, or a line with data blocks. -/
inductive Word where
  | line (cmd : LineCmd)
  | put
  | putex
  | putx
  deriving DecidableEq, Repr

/-- The word of a line command. -/
def LineCmd.chars : LineCmd → List Char
  | .quit => ['q', 'u', 'i', 't']
  | .hello => ['h', 'e', 'l', 'l', 'o']
  | .auth => ['a', 'u', 't', 'h']
  | .ping => ['p', 'i', 'n', 'g']
  | .get => ['g', 'e', 't']
  | .getm => ['g', 'e', 't', 'm']
  | .has => ['h', 'a', 's']
  | .scan => ['s', 'c', 'a', 'n']
  | .ix => ['i', 'x']
  | .ixh => ['i', 'x', 'h']
  | .ixp => ['i', 'x', 'p']
  | .ixr => ['i', 'x', 'r']
  | .ixrec => ['i', 'x', 'r', 'e', 'c']
  | .incr => ['i', 'n', 'c', 'r']
  | .decr => ['d', 'e', 'c', 'r']
  | .topup => ['t', 'o', 'p', 'u', 'p']
  | .take => ['t', 'a', 'k', 'e']
  | .del => ['d', 'e', 'l']
  | .rml => ['r', 'm', 'l']
  | .rmg => ['r', 'm', 'g']
  | .stats => ['s', 't', 'a', 't', 's']
  | .dropped => ['d', 'r', 'o', 'p', 'p', 'e', 'd']
  | .prospective => ['p', 'r', 'o', 's', 'p', 'e', 'c', 't', 'i', 'v', 'e']
  | .compact => ['c', 'o', 'm', 'p', 'a', 'c', 't']
  | .reindex => ['r', 'e', 'i', 'n', 'd', 'e', 'x']
  | .relieve => ['r', 'e', 'l', 'i', 'e', 'v', 'e']

/-- The word of a command. -/
def Word.text : Word → Bytes
  | .line cmd => ascii cmd.chars
  | .put => ascii ['p', 'u', 't']
  | .putex => ascii ['p', 'u', 't', 'e', 'x']
  | .putx => ascii ['p', 'u', 't', 'x']

/-- All commands, in the order in which `dispatch` lists them. -/
def Word.all : List Word :=
  [.line .quit, .line .hello, .line .auth, .line .ping, .line .get, .line .getm, .line .has,
    .line .scan, .line .ix, .line .ixh, .line .ixp, .line .ixr, .line .ixrec, .put, .putex, .putx,
    .line .incr, .line .decr, .line .topup, .line .take, .line .del, .line .rml, .line .rmg,
    .line .stats, .line .dropped, .line .prospective, .line .compact, .line .reindex,
    .line .relieve]

/-- The command a (lower-cased) word names. -/
def Word.parse (word : Bytes) : Option Word := Word.all.find? fun w => w.text == word

/-! ## The frames of the client -/

/-- Tokens with a space between them. -/
def joinTokens : List Bytes → Bytes
  | [] => []
  | [t] => t
  | t :: u :: ts => t ++ space :: joinTokens (u :: ts)

/-- `CRLF`. -/
def crlf : Bytes := [cr, newline]

/-- A request as the client builds it: `#cmd` for the line commands, `buildPut`, `buildPutx`
(`ttlMs = 0`: no TTL) and `buildPutex` for the frames. -/
inductive Request where
  | line (cmd : LineCmd) (args : List Bytes)
  | put (key value : Bytes)
  | putx (key ix value : Bytes) (ttlMs : Nat)
  | putex (key : Bytes) (ttlMs : Nat) (value : Bytes)

/-- The TTL token of a `putx` line. -/
def ttlTokens (ttlMs : Nat) : List Bytes := if 0 < ttlMs then [natDigits ttlMs] else []

/-- The arguments on a request's command line. -/
def Request.args : Request → List Bytes
  | .line _ args => args
  | .put key value => [key, natDigits value.length]
  | .putx key ix value ttlMs =>
      key :: natDigits ix.length :: natDigits value.length :: ttlTokens ttlMs
  | .putex key ttlMs value => [key, natDigits ttlMs, natDigits value.length]

/-- The command of a request. -/
def Request.word : Request → Word
  | .line cmd _ => .line cmd
  | .put _ _ => .put
  | .putx _ _ _ _ => .putx
  | .putex _ _ _ => .putex

/-- The data blocks of a request. -/
def Request.blocks : Request → List Bytes
  | .line _ _ => []
  | .put _ value => [value]
  | .putx _ ix value _ => [ix, value]
  | .putex _ _ value => [value]

/-- The command line of a request, without its line end. -/
def Request.text (q : Request) : Bytes := joinTokens (q.word.text :: q.args)

/-- Data blocks as they are sent. -/
def blocksText : List Bytes → Bytes
  | [] => []
  | b :: bs => b ++ crlf ++ blocksText bs

/-- The bytes the client sends for a request. -/
def Request.frame (q : Request) : Bytes := q.text ++ crlf ++ blocksText q.blocks

/-- The bytes the client sends for a sequence of requests. -/
def frames : List Request → Bytes
  | [] => []
  | q :: qs => q.frame ++ frames qs

/-- A token: not empty, and no white space, as the server sees it, starts anywhere in it. -/
def Token (t : Bytes) : Prop := t ≠ [] ∧ ∀ n, n < t.length → spaceLen (t.drop n) = 0

/-- A request that the server can take as it is meant: its arguments are tokens, its line and
its blocks are within the limits.  The client's own check is another one: it looks for what
JavaScript takes for white space. -/
structure Request.Valid (maxLine maxValue : Nat) (q : Request) : Prop where
  args : ∀ t ∈ q.args, Token t
  line : (q.text ++ crlf).length ≤ maxLine
  blocks : ∀ b ∈ q.blocks, b.length ≤ maxValue

end NteeDb.Net
