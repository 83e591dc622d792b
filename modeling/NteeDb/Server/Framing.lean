import NteeDb.Server.Dispatch

/-!
# Reading frames back

What the readers do on a stream that starts with a line or a data block, whatever the chunks it
arrives in, and what `splitCommand` makes of the line of a request.
-/

namespace NteeDb.Net

open NteeDb.Verified NteeDb.Verified.Lines NteeDb.Verified.Json NteeDb.Verified.Decimal

/-! ## Lines in a stream -/

private theorem mem_take_of_line {size : Nat} {buf late line more : Bytes}
    (hrest : buf ++ late = line ++ newline :: more) (hsize : line.length < size)
    (hbuf : line.length < buf.length) : newline ∈ buf.take size := by
  have hget : (buf ++ late)[line.length]? = some newline := by
    rw [hrest, List.getElem?_append_right (Nat.le_refl _), Nat.sub_self]
    rfl
  rw [List.getElem?_append_left hbuf] at hget
  refine List.mem_of_getElem? (i := line.length) ?_
  rw [List.getElem?_take_of_lt hsize, hget]

/-- A line within the buffer is found, however the stream is cut into chunks. -/
theorem readSlice_line {size : Nat} {line more : Bytes} (hline : newline ∉ line)
    (hlen : line.length < size) (buf : Bytes) (chunks : List Bytes)
    (hrest : buf ++ chunks.flatten = line ++ newline :: more) :
    ∃ r, readSlice size buf chunks = .ok (line, r) ∧ r.rest = more := by
  have hfound : newline ∈ buf.take size →
      ∃ r, readSlice size buf chunks = .ok (line, r) ∧ r.rest = more := by
    intro hmem
    have hbuf := eq_of_newline_mem (List.mem_of_mem_take hmem)
    rw [hbuf, List.append_assoc, List.cons_append] at hrest
    obtain ⟨hl, hm⟩ := line_unique (not_mem_takeWhile buf) hline hrest
    refine ⟨⟨(buf.dropWhile (· ≠ newline)).tail, chunks⟩, ?_, hm⟩
    unfold readSlice
    rw [if_pos hmem, hl]
  by_cases hmem : newline ∈ buf.take size
  · exact hfound hmem
  · -- Not in the buffer yet, so the buffer is shorter than the line.
    have hshort : buf.length ≤ line.length := by
      by_contra hlt
      exact hmem (mem_take_of_line hrest hlen (by omega))
    unfold readSlice
    rw [if_neg hmem, if_neg (by omega)]
    cases chunks with
    | nil =>
        have hcount := congrArg List.length hrest
        simp only [List.flatten_nil, List.length_append, List.length_nil,
          List.length_cons] at hcount
        omega
    | cons c cs =>
        refine readSlice_line hline hlen (buf ++ c) cs ?_
        rw [List.append_assoc]
        exact hrest

/-- A line that does not fit the buffer ends the connection. -/
theorem readSlice_tooLong {size : Nat} {line : Bytes} (hline : newline ∉ line)
    (hlen : size ≤ line.length) (more buf : Bytes) (chunks : List Bytes)
    (hrest : buf ++ chunks.flatten = line ++ newline :: more) :
    readSlice size buf chunks = .error .lineTooLong := by
  have hmem : newline ∉ buf.take size := by
    intro hmem
    have htake : newline ∈ (buf ++ chunks.flatten).take size := by
      rw [List.take_append]
      exact List.mem_append_left _ hmem
    rw [hrest, List.take_append_of_le_length hlen] at htake
    exact hline (List.mem_of_mem_take htake)
  unfold readSlice
  rw [if_neg hmem]
  split
  · rfl
  · next hbuf =>
      cases chunks with
      | nil =>
          have hcount := congrArg List.length hrest
          simp only [List.flatten_nil, List.length_append, List.length_nil, List.length_cons]
            at hcount
          omega
      | cons c cs =>
          refine readSlice_tooLong hline hlen more (buf ++ c) cs ?_
          rw [List.append_assoc]
          exact hrest

/-- A stream without a newline gives no line. -/
theorem readSlice_ended {size : Nat} (buf : Bytes) (chunks : List Bytes)
    (hrest : buf ++ chunks.flatten = []) (hsize : 0 < size) :
    readSlice size buf chunks = .error .eof := by
  obtain ⟨hbuf, hchunks⟩ := List.append_eq_nil_iff.mp hrest
  subst hbuf
  unfold readSlice
  rw [if_neg (by simp), if_neg (by simp only [List.length_nil]; omega)]
  cases chunks with
  | nil => rfl
  | cons c cs =>
      rw [List.flatten_cons, List.append_eq_nil_iff] at hchunks
      refine readSlice_ended ([] ++ c) cs ?_ hsize
      rw [hchunks.1, hchunks.2]
      rfl

/-- What a successful read leaves is shorter. -/
theorem readSlice_shorter {size : Nat} (buf : Bytes) (chunks : List Bytes) {line : Bytes}
    {r : Reader} (h : readSlice size buf chunks = .ok (line, r)) :
    r.rest.length < (buf ++ chunks.flatten).length := by
  unfold readSlice at h
  split at h
  · next hmem =>
      have hbuf := eq_of_newline_mem (List.mem_of_mem_take hmem)
      cases h
      have hcount := congrArg List.length hbuf
      simp only [Reader.rest, List.length_append, List.length_cons] at hcount ⊢
      omega
  · split at h
    · exact nomatch h
    · cases chunks with
      | nil => exact nomatch h
      | cons c cs =>
          have hlt := readSlice_shorter (buf ++ c) cs h
          rw [List.append_assoc] at hlt
          exact hlt

/-- A block is read back, however the stream is cut into chunks. -/
theorem readFull_block (block more buf : Bytes) (chunks : List Bytes)
    (hrest : buf ++ chunks.flatten = block ++ more) :
    ∃ r, readFull block.length buf chunks = .ok (block, r) ∧ r.rest = more := by
  unfold readFull
  split
  · next hle =>
      have htake := congrArg (List.take block.length) hrest
      have hdrop := congrArg (List.drop block.length) hrest
      rw [List.take_append_of_le_length hle, List.take_left] at htake
      rw [List.drop_append_of_le_length hle, List.drop_left] at hdrop
      exact ⟨⟨buf.drop block.length, chunks⟩, by rw [htake], hdrop⟩
  · next hlt =>
      cases chunks with
      | nil =>
          have hcount := congrArg List.length hrest
          simp only [List.flatten_nil, List.length_append, List.length_nil] at hcount
          omega
      | cons c cs =>
          refine readFull_block block more (buf ++ c) cs ?_
          rw [List.append_assoc]
          exact hrest

/-- `readData` returns the block and consumes its line end. -/
theorem readData_block {block more : Bytes} {max : Nat} (hmax : block.length ≤ max) (r : Reader)
    (hrest : r.rest = block ++ crlf ++ more) :
    ∃ r', readData block.length max r = .ok (block, r') ∧ r'.rest = more := by
  obtain ⟨r₁, hread₁, hrest₁⟩ := readFull_block block (crlf ++ more) r.buf r.chunks
    (by rw [← List.append_assoc]; exact hrest)
  obtain ⟨r₂, hread₂, hrest₂⟩ := readFull_block [cr] (newline :: more)
    r₁.buf r₁.chunks hrest₁
  obtain ⟨r₃, hread₃, hrest₃⟩ := readFull_block [newline] more r₂.buf r₂.chunks
    hrest₂
  refine ⟨r₃, ?_, hrest₃⟩
  have hend : readDataEnd r₁ = .ok r₃ := by
    rw [List.length_singleton] at hread₂ hread₃
    simp only [readDataEnd, hread₂, hread₃, if_true]
  rw [readData, if_neg (by omega), Int.toNat_natCast, hread₁]
  simp only [hend]

/-- `readLine` returns a line without its `\r\n`. -/
theorem readLine_crlf {size : Nat} {line more : Bytes} (hline : newline ∉ line)
    (hlen : (line ++ crlf).length ≤ size) (r : Reader)
    (hrest : r.rest = line ++ crlf ++ more) :
    ∃ r', readLine size r = .ok (line, r') ∧ r'.rest = more := by
  have hcr : newline ∉ line ++ [cr] := by
    simp only [List.mem_append, List.mem_singleton, not_or]
    exact ⟨hline, by decide⟩
  have hlt : (line ++ [cr]).length < size := by
    simp only [crlf, List.length_append, List.length_cons, List.length_nil] at hlen ⊢
    omega
  have hcut : r.buf ++ r.chunks.flatten = (line ++ [cr]) ++ newline :: more := by
    rw [show r.buf ++ r.chunks.flatten = r.rest from rfl, hrest]
    simp [crlf]
  obtain ⟨r', hread, hmore⟩ := readSlice_line hcr hlt r.buf r.chunks hcut
  refine ⟨r', ?_, hmore⟩
  rw [readLine, hread]
  simp [trimCR]

/-! ## Tokens -/

/-- What follows a token: nothing, or an ASCII byte. -/
def Breaks (more : Bytes) : Prop := ∀ b rest, more = b :: rest → b < 0x80

theorem breaks_nil : Breaks [] := fun _ _ h => nomatch h

theorem breaks_space (more : Bytes) : Breaks (space :: more) := by
  intro b rest h
  rw [← (List.cons.inj h).1]
  decide

/-- No white space character straddles the end of a token: its later bytes are not ASCII. -/
theorem spaceLen_append {t more : Bytes} (ht : t ≠ []) (h : spaceLen t = 0) (hm : Breaks more) :
    spaceLen (t ++ more) = 0 := by
  cases more with
  | nil => rwa [List.append_nil]
  | cons m more =>
      have hascii : m < 0x80 := hm m more rfl
      have hne : ∀ k : UInt8, 0x80 ≤ k → m ≠ k := by
        rintro k hk rfl
        exact absurd hascii (UInt8.not_lt.mpr hk)
      have h85 := hne 0x85 (by decide)
      have hA0 := hne 0xA0 (by decide)
      have h9A := hne 0x9A (by decide)
      have h80 := hne 0x80 (by decide)
      have h81 := hne 0x81 (by decide)
      have h9F := hne 0x9F (by decide)
      have hA8 := hne 0xA8 (by decide)
      have hA9 := hne 0xA9 (by decide)
      have hAF := hne 0xAF (by decide)
      have hle : ¬ (0x80 : UInt8) ≤ m := fun hk => hne m hk rfl
      match t, ht with
      | [b], _ =>
          simp only [List.singleton_append]
          cases more with
          | nil => revert h; simp only [spaceLen]; split <;> simp [h85, hA0]
          | cons m' more =>
              revert h
              simp only [spaceLen]
              split
              · exact id
              · split <;> simp [h85, hA0, h9A, h80, h81]
      | [b, c], _ =>
          simp only [List.cons_append, List.nil_append]
          revert h
          simp only [spaceLen]
          split
          · exact id
          · split
            · exact id
            · simp [h80, h9F, hA8, hA9, hAF, hle]
      | b :: c :: d :: t, _ => exact h

theorem Token.drop_one {b : UInt8} {t : Bytes} (h : ∀ n, n < (b :: t).length →
    spaceLen ((b :: t).drop n) = 0) : ∀ n, n < t.length → spaceLen (t.drop n) = 0 := by
  intro n hn
  exact h (n + 1) (Nat.succ_lt_succ hn)

theorem fieldsFrom_token {t : Bytes} (ht : ∀ n, n < t.length → spaceLen (t.drop n) = 0)
    {more : Bytes} (hm : Breaks more) (cur : Bytes) :
    fieldsFrom 0 cur (t ++ more) = fieldsFrom 0 (cur ++ t) more := by
  induction t generalizing cur with
  | nil => rw [List.nil_append, List.append_nil]
  | cons b t ih =>
      have hzero : spaceLen (b :: (t ++ more)) = 0 :=
        spaceLen_append (List.cons_ne_nil b t) (ht 0 (Nat.succ_pos _)) hm
      rw [List.cons_append, fieldsFrom, hzero]
      rw [ih (Token.drop_one ht), List.append_assoc]
      rfl

theorem spaceLen_white {b : UInt8} (rest : Bytes) (h : (0x09 ≤ b ∧ b ≤ 0x0D) ∨ b = 0x20) :
    spaceLen (b :: rest) = 1 := by
  unfold spaceLen
  dsimp only
  rw [if_pos h]

theorem fieldsFrom_space (cur more : Bytes) :
    fieldsFrom 0 cur (space :: more) = endToken cur (fieldsFrom 0 [] more) := by
  rw [fieldsFrom, spaceLen_white more (by decide)]

/-- `strings.Fields` gives the tokens back. -/
theorem fields_joinTokens (ts : List Bytes) (hts : ∀ t ∈ ts, Token t) :
    fields (joinTokens ts) = ts := by
  induction ts with
  | nil => rfl
  | cons t ts ih =>
      have ht := hts t List.mem_cons_self
      cases ts with
      | nil =>
          rw [joinTokens, fields]
          have hfrom := fieldsFrom_token ht.2 breaks_nil []
          rw [List.append_nil] at hfrom
          rw [hfrom, fieldsFrom, List.nil_append, endToken, if_neg ht.1]
      | cons u us =>
          have hus := ih fun t' ht' => hts t' (List.mem_cons_of_mem _ ht')
          rw [fields] at hus
          rw [joinTokens, fields, fieldsFrom_token ht.2 (breaks_space _), fieldsFrom_space,
            List.nil_append, endToken, if_neg ht.1, hus]

theorem Token.no_newline {t : Bytes} (ht : Token t) : newline ∉ t := by
  intro hmem
  obtain ⟨n, hn, hget⟩ := List.mem_iff_getElem.mp hmem
  have hzero := ht.2 n hn
  rw [List.drop_eq_getElem_cons hn, hget, spaceLen_white _ (by decide)] at hzero
  exact nomatch hzero

theorem joinTokens_no_newline (ts : List Bytes) (hts : ∀ t ∈ ts, Token t) :
    newline ∉ joinTokens ts := by
  induction ts with
  | nil => exact List.not_mem_nil
  | cons t ts ih =>
      have ht := (hts t List.mem_cons_self).no_newline
      cases ts with
      | nil => exact ht
      | cons u us =>
          have hus := ih fun t' ht' => hts t' (List.mem_cons_of_mem _ ht')
          simp only [joinTokens, List.mem_append, List.mem_cons, not_or]
          exact ⟨ht, by decide, hus⟩

/-! ## Command words and numbers -/

theorem Word.token_text (w : Word) : Token w.text := by
  have hall : ∀ v ∈ Word.all, v.text ≠ [] ∧ ∀ n, n < v.text.length → spaceLen (v.text.drop n)
      = 0 := by
    decide +kernel
  have hmem : w ∈ Word.all := by
    cases w with
    | line cmd => cases cmd <;> decide
    | _ => decide
  exact hall w hmem

theorem Word.parse_toLower (w : Word) : Word.parse (toLower w.text) = some w := by
  have hall : ∀ v ∈ Word.all, Word.parse (toLower v.text) = some v := by decide +kernel
  have hmem : w ∈ Word.all := by
    cases w with
    | line cmd => cases cmd <;> decide
    | _ => decide
  exact hall w hmem

theorem natDigits_ne_nil (n : Nat) : natDigits n ≠ [] := by
  obtain ⟨b, rest, h, -⟩ := natDigits_ne_minus n
  rw [h]
  exact List.cons_ne_nil _ _

theorem spaceLen_digit {b : UInt8} {rest : Bytes} (hb : isDigit b = true) :
    spaceLen (b :: rest) = 0 := by
  have hrange : 0x30 ≤ b ∧ b ≤ 0x39 := by simpa [isDigit] using hb
  have hne : ∀ k : UInt8, 0x39 < k → b ≠ k := by
    rintro k hk rfl
    exact absurd hrange.2 (UInt8.not_le.mpr hk)
  have hwhite : ¬ ((0x09 ≤ b ∧ b ≤ 0x0D) ∨ b = 0x20) := by
    rintro (⟨-, h⟩ | rfl)
    · exact absurd (UInt8.le_trans hrange.1 h) (by decide)
    · exact absurd hrange.1 (by decide)
  unfold spaceLen
  dsimp only
  rw [if_neg hwhite, if_neg (hne 0xC2 (by decide))]
  split
  · simp [hne 0xE1 (by decide), hne 0xE2 (by decide), hne 0xE3 (by decide)]
  · rfl

/-- The lengths and TTLs the client writes are read back. -/
theorem parseInt64_natDigits {n : Nat} (hn : n < 2 ^ 63) :
    parseInt64 (natDigits n) = some (n : Int) := by
  have hsign : splitSign (natDigits n) = (false, natDigits n) := by
    cases hd : natDigits n with
    | nil => exact absurd hd (natDigits_ne_nil n)
    | cons b rest =>
        have hb : isDigit b = true := natDigits_digits n b (hd ▸ List.mem_cons_self)
        have hminus : b ≠ 0x2D := by rintro rfl; exact nomatch hb
        have hplus : b ≠ 0x2B := by rintro rfl; exact nomatch hb
        rw [splitSign, if_neg hminus, if_neg hplus]
  have hdigits : ¬ (natDigits n = [] ∨ ¬ ∀ b ∈ natDigits n, isDigit b = true) := by
    rintro (h | h)
    · exact natDigits_ne_nil n h
    · exact h (natDigits_digits n)
  simp only [parseInt64, hsign, if_neg hdigits, natOfDigits_natDigits, if_pos hn]
  rfl

/-! ## The line of a request -/

theorem Request.Valid.tokens {maxLine maxValue : Nat} {q : Request}
    (h : q.Valid maxLine maxValue) : ∀ t ∈ q.word.text :: q.args, Token t := by
  intro t ht
  rcases List.mem_cons.mp ht with rfl | ht
  · exact q.word.token_text
  · exact h.args t ht

/-- The server splits the line into the request's command and arguments. -/
theorem Request.Valid.split {maxLine maxValue : Nat} {q : Request}
    (h : q.Valid maxLine maxValue) :
    splitCommand q.text = (toLower q.word.text, q.args) := by
  rw [splitCommand, Request.text, fields_joinTokens _ h.tokens]

theorem Request.Valid.no_newline {maxLine maxValue : Nat} {q : Request}
    (h : q.Valid maxLine maxValue) : newline ∉ q.text :=
  joinTokens_no_newline _ h.tokens

theorem Request.text_ne_nil (q : Request) : ∃ b line, q.text = b :: line := by
  have hword := q.word.token_text.1
  rw [Request.text]
  obtain ⟨b, w, hw⟩ := List.exists_cons_of_ne_nil hword
  rw [hw]
  cases q.args with
  | nil => exact ⟨b, w, rfl⟩
  | cons t ts => exact ⟨b, _, rfl⟩

end NteeDb.Net
