import NteeDb.Invariants.Evictions
import NteeDb.Invariants.Exact
import NteeDb.Invariants.Layout

/-!
# Lengths in 32 bits

The length of a line and of a blob is kept as an `int32` and added back to 64-bit offsets.  A
write appends lines to `main.jsonl` and values to blob files, one piece after another, and each
piece is measured right if and only if it is shorter than 2^31 bytes; the first one that is not
puts every later offset wrong.  The same holds of the scan of a log and of its rewrite.
-/

namespace NteeDb.Properties.Lengths

open NteeDb.Core NteeDb.Verified NteeDb.Verified.Faults NteeDb.Verified.JsonCodec
open NteeDb.Verified.Lines NteeDb.Verified.OrderedTree

/-! ## The pieces that a write appends -/

/-- What is appended to a file at once: the line of a record, with the place that `appendSync`
returns for it, or a value, with the reference that is kept of it. -/
inductive Piece where
  | line (r : Record) (text : Bytes) (off : Int64) (n : Int32)
  | blob (value : Bytes) (ref : BlobRef)

/-- The bytes of a piece, the newline of a line included. -/
def Piece.length : Piece → Nat
  | .line _ text _ _ => text.length + 1
  | .blob value _ => value.length

/-- The files and the sizes that the store keeps of them. -/
structure Meter where
  dir : Dir
  size : Int64
  stores : BlobStores

/-- The files and the sizes in a world. -/
def meter (w : World) : Meter := ⟨w.dir, w.db.size, w.db.blobs⟩

/-- A piece is appended and measured: `appendSync` and `append`. -/
def Meter.take (m : Meter) : Piece → Meter
  | .line _ text _ _ =>
      { m with dir := m.dir.appendMain (text ++ [newline])
               size := m.size + (lineLen text).toInt64 }
  | .blob value ref =>
      { m with dir := m.dir.appendBlob ref.gen value
               stores := match m.stores.get? { gen := ref.gen } with
                 | none => m.stores
                 | some bs => m.stores.set { bs with size := bs.size + Int64.ofNat value.length } }

/-- The pieces are appended in order. -/
def Meter.after (m : Meter) (ps : List Piece) : Meter := ps.foldl Meter.take m

/-- The store appends the piece: it is the line of a record, or there is a blob store for it, and
the system accepts the size of the file.  The place starts at the tracked size, with the length in
32 bits. -/
def Meter.Accepts (m : Meter) : Piece → Prop
  | .line r text off n => marshalRecord r = some text ∧
      m.dir.mainBytes.length + (text.length + 1) < maxFileSize ∧ off = m.size ∧ n = lineLen text
  | .blob value ref => (∃ bs, m.stores.get? { gen := ref.gen } = some bs ∧ ref.off = bs.size) ∧
      ref.size = Int32.ofNat value.length ∧
      (m.dir.blobBytes ref.gen).length + value.length < maxFileSize

/-- Pieces that the store appended one after another. -/
inductive Trace (m : Meter) : List Piece → Prop
  | nil : Trace m []
  | snoc {ps : List Piece} {p : Piece} (h : Trace m ps) (hp : (m.after ps).Accepts p) :
      Trace m (ps ++ [p])

theorem after_append (m : Meter) (ps qs : List Piece) :
    m.after (ps ++ qs) = (m.after ps).after qs := List.foldl_append ..

theorem Trace.append {m : Meter} {ps qs : List Piece} (h : Trace m ps)
    (h' : Trace (m.after ps) qs) : Trace m (ps ++ qs) := by
  induction h' with
  | nil => rwa [List.append_nil]
  | snoc _ hp ih =>
      rw [← after_append] at hp
      rw [← List.append_assoc]
      exact ih.snoc hp

section Measure

variable {m : Meter}

end Measure

/-! ## The pieces of `Put` and `PutBatch` -/

/-- What the program has done to the files and sizes when it returns is to append pieces, as the
relation says of its result. -/
def Appends {α : Type} (T : α → List Piece → Prop) (c : StoreM α) : Prop :=
  ∀ w, Spec (fun _ => True) (fun v => v = w) c
    (fun a v => ∃ ps, T a ps ∧ Trace (meter w) ps ∧ meter v = (meter w).after ps) fun _ _ => True

/-- The program appends nothing. -/
def Silent {α : Type} (c : StoreM α) : Prop := Appends (fun _ ps => ps = []) c

/-- The pieces that store a value under a key: a line that holds it, or the value and a line that
refers to it. -/
def Stores (key value : Bytes) (ps : List Piece) : Prop :=
  ∃ r text off n, r.key = key ∧
    (r.blob = none ∧ r.value = value ∧ ps = [.line r text off n] ∨
      ∃ ref, r.blob = some ref ∧ ps = [.blob value ref, .line r text off n])

/-- Lines of tombstones. -/
def Buries (ps : List Piece) : Prop :=
  ∀ p ∈ ps, ∃ key text off n, p = .line (tombstone key) text off n

section Programs

variable {α β : Type} {T : α → List Piece → Prop} {U : β → List Piece → Prop}

theorem Appends.bind {S : α → β → List Piece → Prop} {c : StoreM α} {f : α → StoreM β}
    (hc : Appends T c) (hf : ∀ a, Appends (S a) (f a))
    (h : ∀ a b ps qs, T a ps → S a b qs → U b (ps ++ qs)) : Appends U (c >>= f) := by
  refine fun w => Spec.bind (hc w) fun a => Spec.of_world fun v => ?_
  rintro ⟨ps, hps, htrace, hv⟩
  refine (hf a v).post ?_ fun _ _ _ => trivial
  rintro b x ⟨qs, hqs, htrace', hx⟩
  rw [hv] at htrace' hx
  exact ⟨ps ++ qs, h a b ps qs hps hqs, htrace.append htrace', by rw [hx, after_append]⟩

theorem Appends.mono {S : α → List Piece → Prop} {c : StoreM α} (hc : Appends S c)
    (h : ∀ a ps, S a ps → T a ps) : Appends T c := fun w =>
  (hc w).post (fun a _ ⟨ps, hps, hx⟩ => ⟨ps, h a ps hps, hx⟩)
  fun _ _ _ => trivial

theorem Silent.of {c : StoreM α} (h : ∀ w, Spec (fun _ => True) (fun v => v = w) c
    (fun _ v => meter v = meter w) fun _ _ => True) : Silent c := fun w =>
  (h w).post (fun _ _ hv => ⟨[], rfl, .nil, hv⟩) fun _ _ _ => trivial

theorem Silent.bind {c : StoreM α} {f : α → StoreM β} (hc : Silent c)
    (hf : ∀ a, Appends U (f a)) : Appends U (c >>= f) := by
  refine Appends.bind hc hf ?_
  rintro a b ps qs rfl hqs
  exact hqs

end Programs

section Evictions

variable {α β : Type}

theorem Buries.append {ps qs : List Piece} (h : Buries ps) (h' : Buries qs) : Buries (ps ++ qs) :=
  List.forall_mem_append.mpr ⟨h, h'⟩

end Evictions

/-- A call of `Put`, `PutIndexed` or `PutBatch`. -/
inductive PutCall where
  | put (ord : MapOrder) (key value : Bytes) (ttl : List Int64)
  | putIndexed (ord : MapOrder) (key value : Bytes) (explicit : AnyMap) (ttl : List Int64)
  | putBatch (ords : Nat → MapOrder) (items : List PutItem)

/-- The call. -/
def PutCall.run : PutCall → StoreM Unit
  | .put ord key value ttl => Core.put ord key value ttl
  | .putIndexed ord key value explicit ttl => Core.putIndexed ord key value explicit ttl
  | .putBatch ords items => Core.putBatch ords items

/-- The keys and values that a call is to store, in order. -/
def PutCall.records : PutCall → List (Bytes × Bytes)
  | .put _ key value _ => [(key, value)]
  | .putIndexed _ key value _ _ => [(key, value)]
  | .putBatch _ items => items.map fun it => (it.key, it.value)

end NteeDb.Properties.Lengths
