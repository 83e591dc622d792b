import NteeDb.Verified.JsonTokens

/-!
# JSON text through a UTF-8 decoder

The decoder of `TextDecoder` changes the bytes inside string literals only: every other token is
ASCII.  A literal is decoded to a literal in which at most as many characters start as it had
pieces (`decode_printAll`), whatever bytes were wrong in it, and decoded tokens are read back
(`lex_redecoded`).  So a bound on strings by the pieces of their literals holds of every string of
the decoded value (`strings_redecoded`, `strings_run`).
-/

namespace NteeDb.Verified.JsonTokens

open NteeDb.Verified.Json
open NteeDb.Verified.TextDecoder
open NteeDb.Verified.Utf8 (isCont replacement)

/-! ## Literals -/

/-- A piece that a character may start with: all but the continuation bytes. -/
def Piece.starts : Piece → Bool
  | .byte b => !isCont b
  | _ => true

/-- The text is that of a literal in which at most `n` characters start. -/
def Spells (s : Bytes) (n : Nat) : Prop :=
  ∃ ps, s = printPieces ps ∧ (∀ p ∈ ps, p.WF) ∧ ps.countP Piece.starts ≤ n

theorem Spells.append {s t : Bytes} {m n : Nat} (hs : Spells s m) (ht : Spells t n) :
    Spells (s ++ t) (m + n) := by
  obtain ⟨ps, rfl, hps, hm⟩ := hs
  obtain ⟨qs, rfl, hqs, hn⟩ := ht
  refine ⟨ps ++ qs, List.flatMap_append.symm, List.forall_mem_append.mpr ⟨hps, hqs⟩, ?_⟩
  rw [List.countP_append]
  omega

theorem Spells.mono {s : Bytes} {m n : Nat} (h : Spells s m) (hle : m ≤ n) : Spells s n := by
  obtain ⟨ps, hs, hps, hm⟩ := h
  exact ⟨ps, hs, hps, hm.trans hle⟩

theorem spells_nil : Spells [] 0 := ⟨[], rfl, by simp, le_rfl⟩

theorem spells_piece {p : Piece} (hp : p.WF) : Spells p.print 1 :=
  ⟨[p], by simp [printPieces], by simpa using hp, List.countP_le_length⟩

/-- Bytes above ASCII stand for themselves. -/
theorem spells_high {s : Bytes} (h : ∀ b ∈ s, 0x80 ≤ b) :
    Spells s (s.countP fun b => !isCont b) := by
  have hwf : ∀ b : UInt8, 0x80 ≤ b → Piece.WF (.byte b) :=
    forall_byte (by set_option maxRecDepth 2000 in decide)
  refine ⟨s.map .byte, (printPieces_bytes s).symm, ?_, le_of_eq ?_⟩
  · intro p hp
    obtain ⟨b, hb, rfl⟩ := List.mem_map.mp hp
    exact hwf b (h b hb)
  · rw [List.countP_map]
    rfl

theorem spells_replacement : Spells replacement 1 :=
  (spells_high (s := replacement) (by simp [replacement])).mono (by simp [replacement, isCont])

/-- The character that a state has begun. -/
def owed : State → Nat
  | .start => 0
  | _ => 1

theorem owed_le (q : State) : owed q ≤ 1 := by
  cases q with
  | start => exact Nat.zero_le 1
  | _ => exact le_rfl

/-- A literal is decoded to a literal; a character that starts in it was a piece, or begun. -/
theorem spells_decodeFrom {ps : List Piece} (hwf : ∀ p ∈ ps, p.WF) {q : State} {begun : Bytes}
    (hbegun : q = .start → begun = []) (hhigh : ∀ b ∈ begun, 0x80 ≤ b)
    (hone : (begun.countP fun b => !isCont b) ≤ 1) :
    Spells (decodeFrom q begun (printPieces ps)) (ps.length + owed q) := by
  induction ps generalizing q begun with
  | nil =>
      rw [printPieces, List.flatMap_nil, decodeFrom, List.length_nil, Nat.zero_add]
      cases q with
      | start => exact spells_nil
      | _ => exact spells_replacement
  | cons p ps ih =>
      obtain ⟨hp, hps⟩ := List.forall_mem_cons.mp hwf
      have hrest : Spells (decode (printPieces ps)) ps.length :=
        ih hps (fun _ => rfl) (by simp) (by simp)
      rw [printPieces, List.flatMap_cons, ← printPieces, List.length_cons]
      by_cases hascii : ∀ b ∈ p.print, b < 0x80
      · have hend : Spells (decodeFrom q begun []) (owed q) := by
          cases q with
          | start => exact spells_nil
          | _ => exact spells_replacement
        have hne : p.print ≠ [] := by cases p <;> simp [Piece.print]
        rw [decodeFrom_ascii hascii hne _ hbegun]
        exact (hend.append ((spells_piece hp).append hrest)).mono (by omega)
      · simp only [not_forall, not_lt] at hascii
        obtain ⟨b, hb, hge⟩ := hascii
        obtain rfl := (p.print_range hp b hb).2.resolve_right (not_lt.mpr hge)
        have hhead := (spells_piece hp).append hrest
        have hgoesOn : ∀ {q' : State} {begun' : Bytes}, q' ≠ .start → (∀ b ∈ begun', 0x80 ≤ b) →
            (begun'.countP fun b => !isCont b) ≤ 1 →
            Spells (decodeFrom q' begun' (printPieces ps)) (ps.length + 1) := by
          intro q' begun' hq' hhigh' hone'
          exact (ih hps (fun h => absurd h hq') hhigh' hone').mono
            (Nat.add_le_add_left (owed_le q') _)
        rw [Piece.print, List.singleton_append, decodeFrom]
        cases hnext : q.next b with
        | some q' =>
            have hhigh' : ∀ c ∈ begun ++ [b], 0x80 ≤ c :=
              List.forall_mem_append.mpr ⟨hhigh, by simpa using hge⟩
            have hone' : ((begun ++ [b]).countP fun b => !isCont b) ≤ 1 := by
              by_cases hq : q = .start
              · rw [hbegun hq]
                exact List.countP_le_length
              · rw [List.countP_append]
                simpa [next_isCont hq hnext] using hone
            cases q' with
            | start =>
                have hfirst : Spells begun (owed q) := by
                  cases q with
                  | start =>
                      rw [hbegun rfl]
                      exact spells_nil
                  | _ => exact (spells_high hhigh).mono hone
                exact (hfirst.append hhead).mono (by omega)
            | _ => exact (hgoesOn (by rintro ⟨⟩) hhigh' hone').mono (by omega)
        | none =>
            by_cases hq : q = .start
            · rw [if_pos hq]
              exact (spells_replacement.append hrest).mono (by omega)
            · have howed : owed q = 1 := by
                cases q with
                | start => exact absurd rfl hq
                | _ => rfl
              rw [if_neg hq, howed]
              refine (spells_replacement.append (m := 1) (n := ps.length + 1) ?_).mono (by omega)
              -- the byte is read again, as the first of a sequence
              cases State.start.next b with
              | some q' =>
                  cases q' with
                  | start => exact hhead.mono (by omega)
                  | _ =>
                      exact hgoesOn (by rintro ⟨⟩) (by simpa using hge) List.countP_le_length
              | none => exact (spells_replacement.append hrest).mono (by omega)

theorem count_utf16 {P : Nat → Bool} (hP : ∀ u, P u = true → u < 0xD800) (r : Nat) :
    (utf16 r).countP P ≤ 1 := by
  rw [utf16]
  split
  · exact List.countP_le_length
  · refine (List.countP_eq_zero.mpr fun u hu hp => ?_).le.trans (Nat.zero_le 1)
    have hlow := hP u hp
    simp only [List.mem_cons, List.not_mem_nil, or_false] at hu
    omega

/-- A string has no more units below the surrogates than characters start in its literal. -/
theorem count_unitsFrom {P : Nat → Bool} (hP : ∀ u, P u = true → u < 0xD800) (acc need : Nat)
    (ps : List Piece) :
    (unitsFrom acc need ps).countP P ≤ ps.countP Piece.starts + min need 1 := by
  have hstarts : ∀ b : UInt8, b < 0x80 ∨ ¬ b < 0xC0 → Piece.starts (.byte b) = true :=
    forall_byte (by set_option maxRecDepth 2000 in decide)
  have hunit : ∀ u (us : List Nat), (u :: us).countP P ≤ us.countP P + 1 := fun u us => by
    rw [List.countP_cons]
    split <;> omega
  induction ps generalizing acc need with
  | nil => simp [unitsFrom]
  | cons p ps ih =>
      have hrest := ih 0 0
      rw [unitsFrom.eq_def, List.countP_cons]
      cases p with
      | byte b =>
          dsimp only
          split
          · next hb =>
              rw [if_pos (hstarts b (.inl hb))]
              exact (hunit b.toNat _).trans (by omega)
          split
          · rcases need with _ | _ | n
            · exact hrest.trans (by omega)
            · have hcount := count_utf16 hP (acc * 64 + b.toNat % 64)
              dsimp only
              rw [List.countP_append]
              omega
            · exact (ih _ (n + 1)).trans (by omega)
          · next hb =>
              rw [if_pos (hstarts b (.inr hb))]
              split
              · exact (ih _ 1).trans (by omega)
              split
              · exact (ih _ 2).trans (by omega)
              · exact (ih _ 3).trans (by omega)
      | esc c =>
          rw [if_pos (show Piece.starts (.esc c) = true from rfl)]
          exact (hunit _ _).trans (by omega)
      | hex a b c d =>
          rw [if_pos (show Piece.starts (.hex a b c d) = true from rfl)]
          exact (hunit _ _).trans (by omega)

theorem count_units {P : Nat → Bool} (hP : ∀ u, P u = true → u < 0xD800) (ps : List Piece) :
    (units ps).countP P ≤ ps.countP Piece.starts := count_unitsFrom hP 0 0 ps

/-! ## Tokens -/

/-- What decoding makes of a token: no more characters start in a literal than it had pieces. -/
inductive Redecoded : Token → Token → Prop
  | same (t : Token) : Redecoded t t
  | str {ps ps' : List Piece} (hwf : ∀ p ∈ ps', p.WF)
      (hle : ps'.countP Piece.starts ≤ ps.length) : Redecoded (.str ps) (.str ps')

theorem Redecoded.wf {t t' : Token} (h : Redecoded t t') (ht : t.WF) : t'.WF := by
  cases h with
  | same => exact ht
  | str hwf => exact hwf

/-- Only strings have bytes above ASCII. -/
theorem Token.print_ascii {t : Token} (hwf : t.WF) (hstr : ∀ ps, t ≠ .str ps) :
    ∀ b ∈ t.print, b < 0x80 := by
  have hnum : ∀ b : UInt8, isNumChar b = true → b < 0x80 :=
    forall_byte (by set_option maxRecDepth 2000 in decide)
  cases t with
  | str ps => exact absurd rfl (hstr ps)
  | num lit => exact fun b hb => hnum b (hwf.2 b hb)
  | bool b => cases b <;> exact ascii_of_all rfl
  | _ => exact ascii_of_all rfl

/-- The text of tokens is decoded to the text of tokens. -/
theorem decode_printAll {ts : List Token} (hwf : ∀ t ∈ ts, t.WF) :
    ∃ ts', List.Forall₂ Redecoded ts ts' ∧ decode (printAll ts) = printAll ts' := by
  induction ts with
  | nil => exact ⟨[], .nil, rfl⟩
  | cons t ts ih =>
      obtain ⟨ht, hts⟩ := List.forall_mem_cons.mp hwf
      obtain ⟨ts', hrel, hdecode⟩ := ih hts
      rw [printAll, List.flatMap_cons, ← printAll]
      by_cases hstr : ∃ ps, t = .str ps
      · obtain ⟨ps, rfl⟩ := hstr
        obtain ⟨ps', hps', hwf', hle⟩ :=
          @spells_decodeFrom ps ht .start [] (fun _ => rfl) (by simp) (by simp)
        refine ⟨.str ps' :: ts', .cons (.str hwf' hle) hrel, ?_⟩
        have hsplit : decode (printPieces ps ++ quote :: printAll ts)
            = printPieces ps' ++ quote :: printAll ts' := by
          rw [← hps', ← hdecode]
          exact decodeFrom_split (by decide) _ _ fun _ => rfl
        have hopen := @decode_ascii_append [quote] (ascii_of_all rfl)
          (printPieces ps ++ quote :: printAll ts)
        rw [hsplit] at hopen
        simpa [Token.print, printAll] using hopen
      · refine ⟨t :: ts', .cons (.same t) hrel, ?_⟩
        rw [decode_ascii_append (t.print_ascii ht fun ps h => hstr ⟨ps, h⟩), hdecode]
        rfl

/-- Decoding keeps the first byte of a token. -/
theorem Redecoded.first {t t' : Token} (h : Redecoded t t') (ht : t.WF) :
    ∃ b rest rest', t.print = b :: rest ∧ t'.print = b :: rest' := by
  cases h with
  | same =>
      obtain ⟨b, rest, hprint, _⟩ := print_cons ht
      exact ⟨b, rest, rest, hprint, hprint⟩
  | str => exact ⟨quote, _, _, rfl, rfl⟩

theorem separate_redecoded {ts ts' : List Token} (h : List.Forall₂ Redecoded ts ts')
    (hwf : ∀ t ∈ ts, t.WF) (hsep : Separate ts) : Separate ts' := by
  induction h with
  | nil => trivial
  | @cons t t' ts ts' ht hts ih =>
      obtain ⟨_, hrest⟩ := List.forall_mem_cons.mp hwf
      refine ⟨?_, ih hrest hsep.2⟩
      cases ht with
      | str => cases printAll ts' <;> trivial
      | same =>
          have hfollows := hsep.1
          cases hts with
          | nil => exact hfollows
          | cons hnext =>
              obtain ⟨b, x, x', hx, hx'⟩ := hnext.first (hrest _ List.mem_cons_self)
              rw [printAll, List.flatMap_cons, hx] at hfollows
              rw [printAll, List.flatMap_cons, hx']
              cases t <;> exact hfollows

theorem wf_redecoded {ts ts' : List Token} (h : List.Forall₂ Redecoded ts ts')
    (hwf : ∀ t ∈ ts, t.WF) : ∀ t ∈ ts', t.WF := by
  induction h with
  | nil => exact hwf
  | cons ht _ ih =>
      obtain ⟨hfirst, hrest⟩ := List.forall_mem_cons.mp hwf
      exact List.forall_mem_cons.mpr ⟨ht.wf hfirst, ih hrest⟩

/-- Decoded tokens are read back. -/
theorem lex_redecoded {ts ts' : List Token} (h : List.Forall₂ Redecoded ts ts')
    (hwf : ∀ t ∈ ts, t.WF) (hsep : Separate ts) : lex (printAll ts') = some ts' :=
  lex_printAll (wf_redecoded h hwf) (separate_redecoded h hwf hsep)

/-! ## Strings of a value -/

/-- Every string of the value is as given; names of members are not looked at. -/
inductive Strings (P : List Nat → Prop) : Tree → Prop
  | null : Strings P .null
  | bool (b : Bool) : Strings P (.bool b)
  | num (lit : Bytes) : Strings P (.num lit)
  | str {s : List Nat} (h : P s) : Strings P (.str s)
  | arr {xs : List Tree} (h : ∀ x ∈ xs, Strings P x) : Strings P (.arr xs)
  | obj {ms : List (List Nat × Tree)} (h : ∀ m ∈ ms, Strings P m.2) : Strings P (.obj ms)

/-- The values that a frame has collected. -/
def Frame.Strings (P : List Nat → Prop) : Frame → Prop
  | .arr items => ∀ x ∈ items, JsonTokens.Strings P x
  | .obj ms => ∀ m ∈ ms, JsonTokens.Strings P m.2
  | .member ms _ => ∀ m ∈ ms, JsonTokens.Strings P m.2

/-- The value just read. -/
def Mode.Strings (P : List Nat → Prop) : Mode → Prop
  | .after t => JsonTokens.Strings P t
  | _ => True

/-- The literals of a token. -/
def Token.Strings (P : List Nat → Prop) : Token → Prop
  | .str ps => P (units ps)
  | _ => True

variable {P : List Nat → Prop}

theorem strings_setMember {ms : List (List Nat × Tree)} (hms : ∀ m ∈ ms, Strings P m.2)
    (k : List Nat) {v : Tree} (hv : Strings P v) : ∀ m ∈ setMember ms k v, Strings P m.2 := by
  induction ms with
  | nil => simpa [setMember] using hv
  | cons m ms ih =>
      obtain ⟨hm, hms⟩ := List.forall_mem_cons.mp hms
      rw [setMember]
      split
      · exact List.forall_mem_cons.mpr ⟨hv, hms⟩
      · exact List.forall_mem_cons.mpr ⟨hm, ih hms⟩

theorem strings_getMember {ms : List (List Nat × Tree)} (hms : ∀ m ∈ ms, Strings P m.2)
    {k : List Nat} {v : Tree} (h : getMember ms k = some v) : Strings P v := by
  induction ms with
  | nil => cases h
  | cons m ms ih =>
      obtain ⟨hm, hms⟩ := List.forall_mem_cons.mp hms
      rw [getMember] at h
      split at h
      · cases h
        exact hm
      · exact ih hms h

theorem strings_step {m m' : Mode} {st st' : List Frame} {t : Token} (ht : t.Strings P)
    (hm : m.Strings P) (hst : ∀ f ∈ st, f.Strings P) (h : step (m, st) t = some (m', st')) :
    m'.Strings P ∧ ∀ f ∈ st', f.Strings P := by
  have hopen : ∀ f : Frame, f.Strings P → ∀ f' ∈ f :: st, f'.Strings P :=
    fun f hf => List.forall_mem_cons.mpr ⟨hf, hst⟩
  cases m with
  | value first =>
      cases t with
      | rbracket =>
          simp only [step, stepValue] at h
          split at h
          · cases h
            obtain ⟨hitems, hst⟩ := List.forall_mem_cons.mp hst
            exact ⟨.arr hitems, hst⟩
          · cases h
      | lbrace => cases h; exact ⟨trivial, hopen (.obj []) (by simp [Frame.Strings])⟩
      | lbracket => cases h; exact ⟨trivial, hopen (.arr []) (by simp [Frame.Strings])⟩
      | null => cases h; exact ⟨.null, hst⟩
      | bool b => cases h; exact ⟨.bool b, hst⟩
      | num lit => cases h; exact ⟨.num lit, hst⟩
      | str ps => cases h; exact ⟨.str ht, hst⟩
      | _ => cases h
  | key first =>
      simp only [step, stepKey] at h
      split at h
      · cases h
        exact ⟨trivial, hst⟩
      · split at h
        · cases h
          obtain ⟨hms, hst⟩ := List.forall_mem_cons.mp hst
          exact ⟨.obj hms, hst⟩
        · cases h
      · cases h
  | colon k =>
      simp only [step, stepColon] at h
      split at h
      · cases h
        obtain ⟨hms, hst⟩ := List.forall_mem_cons.mp hst
        exact ⟨trivial, List.forall_mem_cons.mpr ⟨hms, hst⟩⟩
      · cases h
  | after v =>
      have hsnoc : ∀ items : List Tree, (∀ x ∈ items, Strings P x) →
          ∀ x ∈ items ++ [v], Strings P x := fun items hitems =>
        List.forall_mem_append.mpr ⟨hitems, List.forall_mem_singleton.mpr hm⟩
      simp only [step, stepAfter] at h
      split at h
      · cases h
        obtain ⟨hitems, hst⟩ := List.forall_mem_cons.mp hst
        exact ⟨trivial, List.forall_mem_cons.mpr ⟨hsnoc _ hitems, hst⟩⟩
      · cases h
        obtain ⟨hitems, hst⟩ := List.forall_mem_cons.mp hst
        exact ⟨.arr (hsnoc _ hitems), hst⟩
      · cases h
        obtain ⟨hms, hst⟩ := List.forall_mem_cons.mp hst
        exact ⟨trivial, List.forall_mem_cons.mpr ⟨strings_setMember hms _ hm, hst⟩⟩
      · cases h
        obtain ⟨hms, hst⟩ := List.forall_mem_cons.mp hst
        exact ⟨.obj (strings_setMember hms _ hm), hst⟩
      · cases h

/-- A value has the strings of its tokens. -/
theorem strings_run {m m' : Mode} {st st' : List Frame} {ts : List Token}
    (hts : ∀ t ∈ ts, t.Strings P) (hm : m.Strings P) (hst : ∀ f ∈ st, f.Strings P)
    (h : ts.foldlM step (m, st) = some (m', st')) : m'.Strings P := by
  induction ts generalizing m st with
  | nil =>
      cases h
      exact hm
  | cons t ts ih =>
      obtain ⟨ht, hts⟩ := List.forall_mem_cons.mp hts
      rw [List.foldlM_cons, Option.bind_eq_bind, Option.bind_eq_some_iff] at h
      obtain ⟨⟨m₁, st₁⟩, hstep, hrest⟩ := h
      obtain ⟨hm₁, hst₁⟩ := strings_step ht hm hst hstep
      exact ih hts hm₁ hst₁ hrest

theorem strings_redecoded {ts ts' : List Token} (h : List.Forall₂ Redecoded ts ts')
    (hstr : ∀ ps, .str ps ∈ ts → ∀ ps', ps'.countP Piece.starts ≤ ps.length → P (units ps')) :
    ∀ t ∈ ts', t.Strings P := by
  induction h with
  | nil => simp
  | @cons t t' ts ts' ht _ ih =>
      refine List.forall_mem_cons.mpr
        ⟨?_, ih fun ps hps => hstr ps (List.mem_cons_of_mem _ hps)⟩
      cases ht with
      | same =>
          cases t with
          | str ps => exact hstr ps List.mem_cons_self ps List.countP_le_length
          | _ => trivial
      | str _ hle => exact hstr _ List.mem_cons_self _ hle

/-! ## Lengths -/

theorem length_escapeFrom_le (k : Nat) (ps : List Piece) :
    (escapeFrom k ps).length ≤ ps.length := by
  induction ps generalizing k with
  | nil => simp [escapeFrom]
  | cons p ps ih =>
      cases k with
      | succ k => exact (ih k).trans (Nat.le_succ _)
      | zero =>
          rw [escapeFrom]
          split
          · exact Nat.succ_le_succ (ih 2)
          · exact Nat.succ_le_succ (ih 0)

theorem Sparse.length_le {s t : Bytes} (h : Sparse s t) : t.length ≤ s.length := by
  induction h with
  | nil => exact le_rfl
  | keep _ _ ih => exact Nat.succ_le_succ ih
  | drop _ _ ih => exact ih.trans (Nat.le_succ _)

theorem length_le_printPieces (ps : List Piece) : ps.length ≤ (printPieces ps).length := by
  induction ps with
  | nil => exact le_rfl
  | cons p ps ih =>
      have hp : 1 ≤ p.print.length := by cases p <;> simp [Piece.print]
      rw [printPieces, List.flatMap_cons, List.length_append, List.length_cons, ← printPieces]
      omega

/-- A text is longer than each of its literals has pieces. -/
theorem length_pieces_le {s : Bytes} {ts : List Token} (hlex : lex s = some ts) {ps : List Piece}
    (h : .str ps ∈ ts) : ps.length ≤ s.length := by
  have hprinted : (Token.print (.str ps)).length ≤ (printAll ts).length :=
    (List.sublist_flatten_of_mem (List.mem_map_of_mem h)).length_le
  have hpieces := length_le_printPieces ps
  have hsparse := (lexFrom_spec hlex).1.length_le
  simp only [Token.print, List.length_cons, List.length_append] at hprinted
  omega

end NteeDb.Verified.JsonTokens
