import NteeDb.Server.Wire
import NteeDb.Verified.Base64
import NteeDb.Verified.JsonDecoding

/-!
# Values on the wire

The server answers `get` with one line of JSON.  `jsonValue` embeds a stored value that is JSON
and wraps any other one as base64; the client parses the line and undoes the wrapping in
`decodeValue`.
-/

namespace NteeDb.Net

open NteeDb.Verified NteeDb.Verified.Json NteeDb.Verified.JsonTokens

/-! ## The server -/

/-- `json.Valid`: the grammar of JSON, on bytes. -/
def jsonValid (value : Bytes) : Bool := (JsonTokens.parse value).isSome

/-- The string token of an ASCII name. -/
def nameToken (cs : List Char) : JsonTokens.Token := .str ((ascii cs).map .byte)

/-- Marshalled `map[string]any` with the keys `base64` and `bin`, which come out in this order. -/
def wrapped (value : Bytes) : Bytes :=
  printAll [.lbrace, nameToken ['b', 'a', 's', 'e', '6', '4'], .colon]
    ++ printStr (Base64.encode value)
    ++ printAll [.comma, nameToken ['b', 'i', 'n'], .colon, .bool true, .rbrace]

/-- `jsonValue`, marshalled: a `json.RawMessage` is compacted. -/
def jsonValue (value : Bytes) : Bytes :=
  if jsonValid value then (compact value).getD [] else wrapped value

/-- The members of the envelope before the result. -/
def foundHead : List JsonTokens.Token :=
  [.lbrace, nameToken ['o', 'k'], .colon, .bool true, .comma,
    nameToken ['f', 'o', 'u', 'n', 'd'], .colon, .bool true, .comma,
    nameToken ['r', 'e', 's', 'u', 'l', 't'], .colon]

/-- The response of `get` to a stored value, without the newline that ends it. -/
def foundLine (value : Bytes) : Bytes :=
  printAll foundHead ++ jsonValue value ++ printAll [.rbrace]

/-! ## The client -/

/-- The code units of an ASCII name. -/
def nameUnits (cs : List Char) : List Nat := cs.map Char.toNat

/-- Six-bit number of a base64 character; the URL alphabet is read too. -/
def sextet (u : Nat) : Option Nat :=
  if u = 0x2D then some 62
  else if u = 0x5F then some 63
  else if u < 256 then Base64.value (UInt8.ofNat u)
  else none

/-- Bytes of six-bit numbers; what is left of a last group is used as far as it goes. -/
def pack : List Nat → Bytes
  | a :: b :: c :: d :: rest =>
      UInt8.ofNat (a * 4 + b / 16) :: UInt8.ofNat (b % 16 * 16 + c / 4) ::
        UInt8.ofNat (c % 4 * 64 + d) :: pack rest
  | [a, b, c] => [UInt8.ofNat (a * 4 + b / 16), UInt8.ofNat (b % 16 * 16 + c / 4)]
  | [a, b] => [UInt8.ofNat (a * 4 + b / 16)]
  | _ => []

/-- `Buffer.from(s, "base64")`: characters that are not base64 are passed over. -/
def bufferFrom (s : List Nat) : Bytes := pack (s.filterMap sextet)

/-- What the client hands to its caller. -/
inductive Decoded where
  | buffer (bytes : Bytes)
  | value (v : Tree)

/-- The text of an object of the shape `bin: true, base64: string`, without other keys. -/
def wrappedText : Tree → Option (List Nat)
  | .obj ms =>
      match getMember ms (nameUnits ['b', 'i', 'n']),
          getMember ms (nameUnits ['b', 'a', 's', 'e', '6', '4']) with
      | some (.bool true), some (.str s) => if ms.length = 2 then some s else none
      | _, _ => none
  | _ => none

/-- `decodeValue` -/
def decodeValue (parsed : Tree) : Decoded :=
  match wrappedText parsed with
  | some s => .buffer (bufferFrom s)
  | none => .value parsed

/-- The decoder of `get`; `none` when the promise is rejected. -/
def decodeGet : Tree → Option Decoded
  | .obj env =>
      match getMember env (nameUnits ['o', 'k']) with
      | some (.bool false) => none
      | _ =>
          match getMember env (nameUnits ['f', 'o', 'u', 'n', 'd']) with
          | some (.bool true) =>
              (getMember env (nameUnits ['r', 'e', 's', 'u', 'l', 't'])).map decodeValue
          | _ => some (.value .null)
  | _ => none

/-- `JSON.parse` of the text of a line. -/
def parseText (line : Bytes) : Option Tree := JsonTokens.parse (TextDecoder.decode line)

/-- What the client makes of a line that answers `get`. -/
def receiveGet (line : Bytes) : Option Decoded := (parseText line).bind decodeGet

/-! ## Base64 -/

theorem sextet_symbol {n : Nat} (h : n < 64) : sextet (Base64.symbol n).toNat = some n := by
  have hall : ∀ n : Fin 64, sextet (Base64.symbol n.val).toNat = some n.val := by decide
  exact hall ⟨n, h⟩

theorem sextet_pad : sextet Base64.pad.toNat = none := by decide

/-- Base64 characters are ASCII. -/
theorem sextet_lt {u : Nat} (h : (sextet u).isSome = true) : u < 0x80 := by
  have hascii : ∀ b : UInt8, (Base64.value b).isSome = true → b < 0x80 :=
    forall_byte (by set_option maxRecDepth 2000 in decide)
  unfold sextet at h
  split at h
  · omega
  split at h
  · omega
  split at h
  · next hu =>
      have hlt := UInt8.lt_iff_toNat_lt.mp (hascii _ h)
      rwa [UInt8.toNat_ofNat_of_lt' hu] at hlt
  · cases h

theorem length_pack_le (xs : List Nat) : 4 * (pack xs).length ≤ 3 * xs.length := by
  fun_induction pack xs with
  | case1 a b c d rest ih =>
      simp only [List.length_cons]
      omega
  | case2 => simp
  | case3 => simp
  | case4 => simp

/-- Four characters give three bytes. -/
theorem length_bufferFrom_le (s : List Nat) :
    4 * (bufferFrom s).length ≤ 3 * s.countP fun u => (sextet u).isSome := by
  rw [bufferFrom, ← List.length_filterMap_eq_countP]
  exact length_pack_le _

private theorem byte_of_toNat {n : Nat} {b : UInt8} (h : n = b.toNat) : UInt8.ofNat n = b := by
  subst h
  exact UInt8.ofNat_toNat

/-- The client reads back what the server has encoded. -/
theorem bufferFrom_encode (value : Bytes) :
    bufferFrom ((Base64.encode value).map UInt8.toNat) = value := by
  rw [bufferFrom]
  fun_induction Base64.encode value with
  | case1 => rfl
  | case2 a =>
      have ha := a.toNat_lt
      simp only [List.map_cons, List.map_nil, List.filterMap_cons, List.filterMap_nil, sextet_pad,
        sextet_symbol (show a.toNat / 4 < 64 by omega),
        sextet_symbol (show a.toNat % 4 * 16 < 64 by omega), pack, List.cons.injEq, and_true]
      exact byte_of_toNat (by omega)
  | case3 a b =>
      have ha := a.toNat_lt
      have hb := b.toNat_lt
      simp only [List.map_cons, List.map_nil, List.filterMap_cons, List.filterMap_nil, sextet_pad,
        sextet_symbol (show a.toNat / 4 < 64 by omega),
        sextet_symbol (show a.toNat % 4 * 16 + b.toNat / 16 < 64 by omega),
        sextet_symbol (show b.toNat % 16 * 4 < 64 by omega), pack, List.cons.injEq, and_true]
      exact ⟨byte_of_toNat (by omega), byte_of_toNat (by omega)⟩
  | case4 a b c rest ih =>
      have ha := a.toNat_lt
      have hb := b.toNat_lt
      have hc := c.toNat_lt
      simp only [List.map_cons, List.filterMap_cons, sextet_symbol (show a.toNat / 4 < 64 by omega),
        sextet_symbol (show a.toNat % 4 * 16 + b.toNat / 16 < 64 by omega),
        sextet_symbol (show b.toNat % 16 * 4 + c.toNat / 64 < 64 by omega),
        sextet_symbol (show c.toNat % 64 < 64 by omega), pack, ih, List.cons.injEq, and_true]
      exact ⟨byte_of_toNat (by omega), byte_of_toNat (by omega), byte_of_toNat (by omega)⟩

end NteeDb.Net
