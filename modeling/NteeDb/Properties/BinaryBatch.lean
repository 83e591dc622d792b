import NteeDb.Binding.BinaryBatch

/-!
# Cutting a binary batch

A batch is cut into values that make up the whole blob, or it is refused, unless a length added
to the running offset leaves the 64 bits: the sum is then negative, passes the bound check, and
the slice panics.
-/

namespace NteeDb.Properties.BinaryBatch

open NteeDb.Core NteeDb.Verified NteeDb.Verified.JsonCodec NteeDb.Binding

/-- A blob as it reaches C: its length is an `int`. -/
structure CBlob where
  bytes : Bytes
  fits : bytes.length < 2147483648

/-- From the offset `s` on, no length leaves the 64 bits before the loop stops at a length that is
negative or goes past the blob. -/
def NeverWraps (len s : Int) : List Int64 → Prop
  | [] => True
  | n :: ns => 0 ≤ n.toInt →
      s + n.toInt < 2 ^ 63 ∧ (s + n.toInt ≤ len → NeverWraps len (s + n.toInt) ns)

/-- The item of the call is the one its meta describes. -/
structure Agrees (m : BinBatchItem) (item : PutItem) : Prop where
  key : item.key = m.k
  length : (item.value.length : Int) = m.n.toInt
  ix : item.ix = m.ix

/-- The batch is refused, or the call gets the blob cut at the given lengths. -/
def Clean (metas : List BinBatchItem) (blob : Bytes) : Outcome → Prop
  | .refused _ => True
  | .panic => False
  | .call items => (items.map PutItem.value).flatten = blob ∧ List.Forall₂ Agrees metas items

/-! ## One step of the loop -/

theorem ofNat_length {buf : Bytes} (hbuf : buf.length < 2147483648) :
    (Int64.ofNat buf.length).toInt = buf.length :=
  Int64.toInt_ofNat_of_lt (by omega)

/-- The item the loop makes of a meta. -/
def itemAt (buf : Bytes) (off : Int64) (m : BinBatchItem) : PutItem :=
  { key := m.k, value := (buf.drop off.toInt.toNat).take m.n.toInt.toNat, ix := m.ix }

section Step

variable {buf : Bytes} {off n : Int64} {m : BinBatchItem} {ms : List BinBatchItem}
  {done : List PutItem}

theorem add_exact (hoff : 0 ≤ off.toInt) (hn : 0 ≤ n.toInt) (h : off.toInt + n.toInt < 2 ^ 63) :
    (off + n).toInt = off.toInt + n.toInt := by
  rw [Int64.toInt_add]
  exact Int.bmod_eq_of_le (by omega) (by omega)

theorem add_wrapped (h : 2 ^ 63 ≤ off.toInt + n.toInt) : (off + n).toInt < 0 := by
  have hoff := off.toInt_lt
  have hn := n.toInt_lt
  have hback : (off.toInt + n.toInt).bmod (2 ^ 64) = off.toInt + n.toInt - 2 ^ 64 := by
    rw [← Int.bmod_eq_of_le (m := 2 ^ 64) (n := off.toInt + n.toInt - 2 ^ 64) (by omega) (by omega)]
    exact (Int.sub_bmod_right _ _).symm
  rw [Int64.toInt_add, hback]
  omega

theorem cut_negative (hneg : m.n.toInt < 0) :
    cut buf off done (m :: ms) = .refused .lengthMismatch := by
  rw [cut, if_pos (Or.inl (Int64.lt_iff_toInt_lt.mpr hneg))]

section Bounded

variable (hbuf : buf.length < 2147483648) (hoff : 0 ≤ off.toInt) (hn : 0 ≤ m.n.toInt)

include hbuf hoff hn

theorem cut_past (hwrap : off.toInt + m.n.toInt < 2 ^ 63)
    (hpast : buf.length < off.toInt + m.n.toInt) :
    cut buf off done (m :: ms) = .refused .lengthMismatch := by
  rw [cut, if_pos]
  right
  rw [Int64.lt_iff_toInt_lt, ofNat_length hbuf, add_exact hoff hn hwrap]
  exact hpast

theorem cut_step (hle : off.toInt + m.n.toInt ≤ buf.length) :
    cut buf off done (m :: ms) = cut buf (off + m.n) (done ++ [itemAt buf off m]) ms := by
  have hadd := add_exact hoff hn (by omega)
  have hin : ¬ (m.n < 0 ∨ Int64.ofNat buf.length < off + m.n) := by
    rw [not_or, Int64.lt_iff_toInt_lt, Int64.lt_iff_toInt_lt, ofNat_length hbuf, hadd]
    exact ⟨Int.not_lt.mpr hn, Int.not_lt.mpr hle⟩
  have hdiff : (off + m.n).toInt - off.toInt = m.n.toInt := by omega
  have hslice : slice buf off (off + m.n) = some (itemAt buf off m).value := by
    rw [slice, if_pos (by omega), hdiff]
    rfl
  rw [cut, if_neg hin, hslice]
  rfl

/-- A sum that leaves the 64 bits is negative: it passes the check and the slice panics. -/
theorem cut_wrapped (hwrap : 2 ^ 63 ≤ off.toInt + m.n.toInt) :
    cut buf off done (m :: ms) = .panic := by
  have hsum := add_wrapped hwrap
  have hin : ¬ (m.n < 0 ∨ Int64.ofNat buf.length < off + m.n) := by
    rw [not_or, Int64.lt_iff_toInt_lt, Int64.lt_iff_toInt_lt, ofNat_length hbuf]
    exact ⟨Int.not_lt.mpr hn, by omega⟩
  have hslice : slice buf off (off + m.n) = none := by
    rw [slice, if_neg]
    omega
  rw [cut, if_neg hin, hslice]

omit hbuf in
theorem itemAt_agrees (hle : off.toInt + m.n.toInt ≤ buf.length) : Agrees m (itemAt buf off m) := by
  refine ⟨rfl, ?_, rfl⟩
  rw [itemAt, List.length_take, List.length_drop]
  omega

/-- The values so far, with the next one, are the blob up to the next offset. -/
theorem cut_values (hle : off.toInt + m.n.toInt ≤ buf.length)
    (hdone : (done.map PutItem.value).flatten = buf.take off.toInt.toNat) :
    ((done ++ [itemAt buf off m]).map PutItem.value).flatten
      = buf.take (off + m.n).toInt.toNat := by
  have hnat : (off + m.n).toInt.toNat = off.toInt.toNat + m.n.toInt.toNat := by
    rw [add_exact hoff hn (by omega)]
    omega
  rw [List.map_append, List.flatten_append, hdone, hnat, List.take_add]
  simp [itemAt]

end Bounded

end Step

/-! ## The loop -/

/-- What the loop does from an offset that the values cut so far end at. -/
theorem cut_cases {buf : Bytes} (hbuf : buf.length < 2147483648) (ms : List BinBatchItem) :
    ∀ (off : Int64) (done : List PutItem), 0 ≤ off.toInt → off.toInt ≤ buf.length →
      (done.map PutItem.value).flatten = buf.take off.toInt.toNat →
      (NeverWraps buf.length off.toInt (ms.map BinBatchItem.n) ∧
        (cut buf off done ms = .refused .lengthMismatch ∨
          ∃ items, cut buf off done ms = .call (done ++ items) ∧
            ((done ++ items).map PutItem.value).flatten = buf ∧ List.Forall₂ Agrees ms items)) ∨
      (¬ NeverWraps buf.length off.toInt (ms.map BinBatchItem.n) ∧ cut buf off done ms
        = .panic) := by
  induction ms with
  | nil =>
      intro off done hoff hle hdone
      left
      refine ⟨trivial, ?_⟩
      rw [cut]
      by_cases hend : off = Int64.ofNat buf.length
      · right
        have hall : off.toInt.toNat = buf.length := by
          rw [hend, ofNat_length hbuf]
          rfl
        rw [hall, List.take_length] at hdone
        exact ⟨[], by rw [if_neg (not_not_intro hend), List.append_nil], by rwa [List.append_nil],
          .nil⟩
      · left
        rw [if_pos hend]
  | cons m ms ih =>
      intro off done hoff hle hdone
      rw [List.map_cons]
      by_cases hneg : m.n.toInt < 0
      · left
        exact ⟨fun h => absurd h (Int.not_le.mpr hneg), Or.inl (cut_negative hneg)⟩
      have hn : 0 ≤ m.n.toInt := Int.not_lt.mp hneg
      by_cases hwrap : off.toInt + m.n.toInt < 2 ^ 63
      · by_cases hpast : buf.length < off.toInt + m.n.toInt
        · left
          exact ⟨fun _ => ⟨hwrap, fun h => absurd h (Int.not_le.mpr hpast)⟩,
            Or.inl (cut_past hbuf hoff hn hwrap hpast)⟩
        have hin : off.toInt + m.n.toInt ≤ buf.length := Int.not_lt.mp hpast
        have hadd := add_exact hoff hn hwrap
        have hrest := ih (off + m.n) (done ++ [itemAt buf off m]) (by omega) (by omega)
          (cut_values hbuf hoff hn hin hdone)
        rw [hadd, ← cut_step hbuf hoff hn hin] at hrest
        rcases hrest with ⟨hnever, hout⟩ | ⟨hwraps, hout⟩
        · left
          refine ⟨fun _ => ⟨hwrap, fun _ => hnever⟩, hout.imp id ?_⟩
          intro ⟨items, hcall, hall, hagree⟩
          rw [List.append_assoc, List.singleton_append] at hcall hall
          exact ⟨itemAt buf off m :: items, hcall, hall, .cons (itemAt_agrees hoff hn hin) hagree⟩
        · right
          exact ⟨fun h => hwraps ((h hn).2 hin), hout⟩
      · right
        exact ⟨fun h => hwrap (h hn).1, cut_wrapped hbuf hoff hn (Int.not_lt.mp hwrap)⟩

/-- Lengths that are those of consecutive values cut these values. -/
theorem cut_lengths {buf : Bytes} (hbuf : buf.length < 2147483648) (bufs : List Bytes) :
    ∀ (ms : List BinBatchItem) (off : Int64) (done : List PutItem),
      ms.map BinBatchItem.n = bufs.map (fun b => Int64.ofNat b.length) → 0 ≤ off.toInt →
      off.toInt ≤ buf.length → buf.drop off.toInt.toNat = bufs.flatten →
      ∃ items, cut buf off done ms = .call (done ++ items) ∧ items.map PutItem.value = bufs := by
  induction bufs with
  | nil =>
      intro ms off done hms hoff hle hdrop
      have hnil : ms = [] := List.map_eq_nil_iff.mp hms
      have hge : buf.length ≤ off.toInt.toNat := List.drop_eq_nil_iff.mp hdrop
      have hend : off = Int64.ofNat buf.length := by
        rw [← Int64.toInt_inj, ofNat_length hbuf]
        omega
      refine ⟨[], ?_, rfl⟩
      rw [hnil, cut, if_neg (not_not_intro hend), List.append_nil]
  | cons b bufs ih =>
      intro ms off done hms hoff hle hdrop
      cases ms with
      | nil => cases hms
      | cons m ms =>
          rw [List.map_cons, List.map_cons, List.cons.injEq] at hms
          have hlen : buf.length - off.toInt.toNat = b.length + bufs.flatten.length := by
            rw [← List.length_drop, hdrop, List.flatten_cons, List.length_append]
          have hb : m.n.toInt = b.length := by
            rw [hms.1]
            exact Int64.toInt_ofNat_of_lt (by omega)
          have hn : 0 ≤ m.n.toInt := by omega
          have hin : off.toInt + m.n.toInt ≤ buf.length := by omega
          have hadd := add_exact hoff hn (by omega)
          have hnat : (off + m.n).toInt.toNat = off.toInt.toNat + b.length := by omega
          have hvalue : (itemAt buf off m).value = b := by
            rw [itemAt, hdrop, hb, List.flatten_cons]
            exact List.take_left
          have hrest := ih ms (off + m.n) (done ++ [itemAt buf off m]) hms.2 (by omega)
              (by omega) (by
            rw [hnat, ← List.drop_drop, hdrop, List.flatten_cons]
            exact List.drop_left)
          obtain ⟨items, hcall, hvalues⟩ := hrest
          rw [List.append_assoc, List.singleton_append] at hcall
          refine ⟨itemAt buf off m :: items, ?_, ?_⟩
          · rw [cut_step hbuf hoff hn hin]
            exact hcall
          · rw [List.map_cons, hvalue, hvalues]

/-! ## The whole call -/

theorem goBytes_blob (blob : CBlob) :
    goBytes blob.bytes (intArg blob.bytes.length) = some blob.bytes := by
  have hlen : (intArg blob.bytes.length).toInt = blob.bytes.length :=
    Int32.toInt_ofNat_of_lt blob.fits
  have hnonneg : ¬ intArg blob.bytes.length < 0 := by
    rw [Int32.lt_iff_toInt_lt, hlen]
    exact Int.not_lt.mpr (Int.natCast_nonneg _)
  rw [goBytes, if_neg hnonneg, hlen, Int.toNat_natCast, List.take_length]

theorem goBytes_length {mem buf : Bytes} {n : Int32} (h : goBytes mem n = some buf) :
    buf.length < 2147483648 := by
  rw [goBytes] at h
  split at h
  · cases h
  · have hlt := n.toInt_lt
    rw [← Option.some.inj h, List.length_take]
    omega

theorem clean_iff (handle : Bool) (metas : List BinBatchItem) (blob : CBlob) :
    Clean metas blob.bytes (putBatchBin handle (some metas) blob.bytes (intArg blob.bytes.length)) ↔
      (handle = true → NeverWraps blob.bytes.length 0 (metas.map BinBatchItem.n)) := by
  cases handle with
  | false =>
      constructor
      · intro _ h
        cases h
      · intro _
        exact trivial
  | true =>
      have hcall : putBatchBin true (some metas) blob.bytes (intArg blob.bytes.length)
          = cut blob.bytes 0 [] metas := by
        simp only [putBatchBin, goBytes_blob]
        rfl
      have hcases := cut_cases blob.fits metas 0 [] (by decide) (Int.natCast_nonneg _) rfl
      rw [hcall]
      rcases hcases with ⟨hnever, hout⟩ | ⟨hwraps, hout⟩
      · constructor
        · intro _ _
          exact hnever
        · intro _
          rcases hout with hout | ⟨items, hout, hall, hagree⟩
          · rw [hout]
            exact trivial
          · rw [hout]
            exact ⟨hall, hagree⟩
      · constructor
        · intro hclean
          rw [hout] at hclean
          exact hclean.elim
        · intro h
          exact absurd (h rfl) hwraps

/-- The values of a call come from a buffer that an `int` can measure. -/
theorem values_length {metas : List BinBatchItem} {mem : Bytes} {n : Int32} {values : List Bytes}
    (h : (putBatchBin true (some metas) mem n).values = some values) :
    values.flatten.length < 2147483648 := by
  simp only [putBatchBin] at h
  cases hbuf : goBytes mem n with
  | none =>
      rw [hbuf] at h
      cases h
  | some buf =>
      have hlen := goBytes_length hbuf
      rw [hbuf] at h
      change (cut buf 0 [] metas).values = some values at h
      rcases cut_cases hlen metas 0 [] (by decide) (Int.natCast_nonneg _) rfl with
        ⟨_, hout | ⟨items, hout, hall, _⟩⟩ | ⟨_, hout⟩
      · rw [hout] at h
        cases h
      · rw [hout] at h
        rw [← Option.some.inj h, hall]
        exact hlen
      · rw [hout] at h
        cases h

section PutMany

variable {ω σ ι : Type} {js : Runtime ω σ}

theorem buffers_length {items : List (JsItem ω σ ι)} {bufs : List Bytes}
    (h : js.buffers items = some bufs) : items.length = bufs.length := by
  induction items generalizing bufs with
  | nil =>
      rw [← Option.some.inj h]
      rfl
  | cons item items ih =>
      simp only [Runtime.buffers, Option.bind_eq_bind, Option.bind_eq_some_iff,
        Option.pure_def] at h
      obtain ⟨buf, _, rest, hrest, hbufs⟩ := h
      rw [← Option.some.inj hbufs, List.length_cons, List.length_cons, ih hrest]

/-- The lengths that `putMany` sends are those of the buffers. -/
theorem putMany_lengths {items : List (JsItem ω σ ι)} {bufs : List Bytes}
    (h : js.buffers items = some bufs) {metas : List (JsMeta σ ι)} {blob : Bytes}
    (hput : js.putMany items = some (metas, blob)) :
    metas.map JsMeta.n = bufs.map List.length ∧ blob = bufs.flatten := by
  rw [Runtime.putMany, h] at hput
  have hpair := Prod.mk.inj (Option.some.inj hput)
  refine ⟨?_, hpair.2.symm⟩
  rw [← hpair.1, List.map_zipWith]
  have hlen := buffers_length h
  clear hput hpair h
  induction items generalizing bufs with
  | nil =>
      cases bufs with
      | nil => rfl
      | cons _ _ => cases hlen
  | cons item items ih =>
      cases bufs with
      | nil => cases hlen
      | cons buf bufs =>
          rw [List.zipWith_cons_cons, List.map_cons, ih (Nat.succ.inj hlen)]

theorem putMany_received_iff {items : List (JsItem ω σ ι)} {bufs : List Bytes}
    (h : js.buffers items = some bufs) {metas : List (JsMeta σ ι)} {blob : Bytes}
    (hput : js.putMany items = some (metas, blob)) {received : List BinBatchItem}
    (hreceived : received.map BinBatchItem.n = metas.map fun m => Int64.ofNat m.n) :
    (putBatchBin true (some received) blob (intArg blob.length)).values = some bufs ↔
      blob.length < 2147483648 := by
  obtain ⟨hlens, hblob⟩ := putMany_lengths h hput
  have hns : received.map BinBatchItem.n = bufs.map fun b => Int64.ofNat b.length := by
    rw [hreceived]
    calc metas.map (fun m => Int64.ofNat m.n)
        = (metas.map JsMeta.n).map Int64.ofNat := by
          rw [List.map_map]
          rfl
      _ = (bufs.map List.length).map Int64.ofNat := by rw [hlens]
      _ = bufs.map fun b => Int64.ofNat b.length := by
          rw [List.map_map]
          rfl
  constructor
  · intro hvalues
    rw [hblob]
    exact values_length hvalues
  · intro hfits
    obtain ⟨its, hcall, hvalues⟩ := cut_lengths hfits bufs received 0 [] hns (by decide)
      (Int.natCast_nonneg _) hblob
    simp only [putBatchBin, goBytes_blob ⟨blob, hfits⟩]
    change (cut blob 0 [] received).values = some bufs
    rw [hcall, ← hvalues]
    rfl

end PutMany

/-- A binary batch is cut cleanly if and only if no length leaves the 64 bits; what `putMany` sends
arrives as it was if and only if the blob's length is an `int`. -/
theorem binary_batch_iff {ω σ ι : Type} (js : Runtime ω σ) :
    (∀ handle metas (blob : CBlob),
      Clean metas blob.bytes
          (putBatchBin handle (some metas) blob.bytes (intArg blob.bytes.length)) ↔
        (handle = true → NeverWraps blob.bytes.length 0 (metas.map BinBatchItem.n))) ∧
    ∀ (items : List (JsItem ω σ ι)) bufs metas blob (received : List BinBatchItem),
      js.buffers items = some bufs → js.putMany items = some (metas, blob) →
      received.map BinBatchItem.n = metas.map (fun m => Int64.ofNat m.n) →
      ((putBatchBin true (some received) blob (intArg blob.length)).values = some bufs ↔
        blob.length < 2147483648) := by
  constructor
  · exact clean_iff
  · intro items bufs metas blob received h hput hreceived
    exact putMany_received_iff h hput hreceived

/-- A runtime in which strings are bytes. -/
def plainRuntime : Runtime Unit Bytes := ⟨fun _ => none, id⟩

theorem two_buffers_received :
    (putBatchBin true (some [⟨[0x61], 1, OrderedTree.Tree.empty⟩,
      ⟨[0x62], 2, OrderedTree.Tree.empty⟩]) [7, 8, 9] 3).values = some [[7], [8, 9]] := by
  have hiff := (binary_batch_iff (ι := Unit) plainRuntime).2
    [⟨[0x61], .buffer [7], none⟩, ⟨[0x62], .buffer [8, 9], none⟩] [[7], [8, 9]]
    [⟨[0x61], 1, none⟩, ⟨[0x62], 2, none⟩] [7, 8, 9]
    [⟨[0x61], 1, OrderedTree.Tree.empty⟩, ⟨[0x62], 2, OrderedTree.Tree.empty⟩] rfl rfl rfl
  exact hiff.mpr (by decide)

/-- A second length of 2^63 - 1 passes the check behind a first byte, and the slice panics. -/
theorem wrapped_length_panics :
    putBatchBin true (some [⟨[0x61], 1, OrderedTree.Tree.empty⟩,
      ⟨[0x62], 9223372036854775807, OrderedTree.Tree.empty⟩]) [7] 1 = .panic := by
  rfl

end NteeDb.Properties.BinaryBatch
