import NteeDb.Core.Write

/-!
# Binary batches

`putMany` of the JS binding sends the keys, the byte lengths and the index values of its items as
JSON and all value bytes in one buffer; `nteedb_put_batch_bin` cuts the buffer at the lengths and
calls `PutBatch`.  Lengths are Go's 64-bit `int` and offsets are added in it, wrapping.

What the JSON text carries is the list of metas; its encoding is left out, as are `JSON.stringify`
and the UTF-8 encoder of the values, which are parameters.
-/

namespace NteeDb.Binding

open NteeDb.Core NteeDb.Verified NteeDb.Verified.JsonCodec

/-! ## The Go side -/

/-- `binBatchItem` -/
structure BinBatchItem where
  k : Bytes
  n : Int64
  ix : AnyMap

/-- Why `nteedb_put_batch_bin` answers with an error before it calls `PutBatch`. -/
inductive Refusal where
  | invalidHandle
  | badMeta
  | lengthMismatch
  deriving DecidableEq, Repr

/-- What `nteedb_put_batch_bin` does. -/
inductive Outcome where
  | refused (why : Refusal)
  /-- A Go panic, which ends the process. -/
  | panic
  /-- `PutBatch` is called. -/
  | call (items : List PutItem)

/-- `C.GoBytes`: a copy of the first `n` bytes; it panics on a negative length. -/
def goBytes (mem : Bytes) (n : Int32) : Option Bytes :=
  if n < 0 then none else some (mem.take n.toInt.toNat)

/-- `buf[lo:hi]`; `none` is the panic of a bound out of range. -/
def slice (buf : Bytes) (lo hi : Int64) : Option Bytes :=
  if 0 ≤ lo.toInt ∧ lo.toInt ≤ hi.toInt ∧ hi.toInt ≤ buf.length then
    some ((buf.drop lo.toInt.toNat).take (hi.toInt - lo.toInt).toNat)
  else none

/-- The loop over the metas from `off` on, and the check after it. -/
def cut (buf : Bytes) (off : Int64) (done : List PutItem) : List BinBatchItem → Outcome
  | [] => if off ≠ Int64.ofNat buf.length then .refused .lengthMismatch else .call done
  | m :: ms =>
      if m.n < 0 ∨ Int64.ofNat buf.length < off + m.n then .refused .lengthMismatch
      else
        match slice buf off (off + m.n) with
        | none => .panic
        | some value => cut buf (off + m.n)
            (done ++ [{ key := m.k, value := value, ix := m.ix }]) ms

/-- `nteedb_put_batch_bin`; `metas` is what `json.Unmarshal` makes of the text. -/
def putBatchBin (handle : Bool) (metas : Option (List BinBatchItem)) (blob : Bytes)
    (blobLen : Int32) : Outcome :=
  if handle = false then .refused .invalidHandle
  else
    match metas with
    | none => .refused .badMeta
    | some ms =>
        match goBytes blob blobLen with
        | none => .panic
        | some buf => cut buf 0 [] ms

/-- The values of the call, if there is one. -/
def Outcome.values : Outcome → Option (List Bytes)
  | .call items => some (items.map PutItem.value)
  | _ => none

/-! ## The JS side -/

/-- The functions of the JS runtime that `putMany` uses, on objects `ω` and strings `σ`:
`JSON.stringify`, which is undefined on some objects, and `Buffer.from(s, "utf8")`. -/
structure Runtime (ω σ : Type) where
  stringify : ω → Option σ
  utf8 : σ → Bytes

/-- A value given to `putMany`. -/
inductive JsValue (ω σ : Type) where
  | buffer (b : Bytes)
  | string (s : σ)
  | undefined
  | object (o : ω)

/-- An item given to `putMany`. -/
structure JsItem (ω σ ι : Type) where
  key : σ
  value : JsValue ω σ
  ix : Option ι

/-- An element of the metas `putMany` sends. -/
structure JsMeta (σ ι : Type) where
  k : σ
  n : Nat
  ix : Option ι

variable {ω σ ι : Type}

/-- The buffer of a value: `toStorable`, then `Buffer.from` unless it is a buffer already.
`none` is an exception. -/
def Runtime.bufferOf (js : Runtime ω σ) : JsValue ω σ → Option Bytes
  | .buffer b => some b
  | .string s => some (js.utf8 s)
  | .undefined => none
  | .object o => (js.stringify o).map js.utf8

/-- The buffers of the items. -/
def Runtime.buffers (js : Runtime ω σ) : List (JsItem ω σ ι) → Option (List Bytes)
  | [] => some []
  | item :: items => do
      let buf ← js.bufferOf item.value
      let bufs ← js.buffers items
      return buf :: bufs

/-- `putMany`: the metas and the blob it sends. -/
def Runtime.putMany (js : Runtime ω σ) (items : List (JsItem ω σ ι)) :
    Option (List (JsMeta σ ι) × Bytes) := do
  let bufs ← js.buffers items
  return (List.zipWith (fun item buf => ⟨item.key, buf.length, item.ix⟩) items bufs, bufs.flatten)

/-- The number is passed as a C `int`. -/
def intArg (n : Nat) : Int32 := Int32.ofNat n

end NteeDb.Binding
