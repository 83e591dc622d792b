import NteeDb.Verified.Utf8
import Mathlib.Tactic.Common

/-!
# A UTF-8 decoder as an automaton

The decoder of the WHATWG Encoding standard reads one byte after the other.  A byte that cannot
continue the sequence begun makes it emit U+FFFD and is read again as the first byte of a
sequence.  Text is kept in its UTF-8 form, so that decoding well-formed text changes nothing.
-/

namespace NteeDb.Verified.TextDecoder

open NteeDb.Verified.Utf8

/-- How many continuation bytes are missing, and after some first bytes which. -/
inductive State where
  | start
  | one
  | two
  | three
  | afterE0
  | afterED
  | afterF0
  | afterF4
  deriving DecidableEq, Repr

/-- The state after the first byte of a longer sequence. -/
def lead (b : UInt8) : Option State :=
  if 0xC2 ≤ b && b ≤ 0xDF then some .one
  else if b = 0xE0 then some .afterE0
  else if b = 0xED then some .afterED
  else if 0xE0 ≤ b && b ≤ 0xEF then some .two
  else if b = 0xF0 then some .afterF0
  else if b = 0xF4 then some .afterF4
  else if 0xF0 ≤ b && b ≤ 0xF4 then some .three
  else none

/-- The state after one more byte; `none` when the byte does not fit. -/
def State.next : State → UInt8 → Option State
  | .start, b => if b < 0x80 then some .start else lead b
  | .one, b => if isCont b then some .start else none
  | .two, b => if isCont b then some .one else none
  | .three, b => if isCont b then some .two else none
  | .afterE0, b => if 0xA0 ≤ b && b ≤ 0xBF then some .one else none
  | .afterED, b => if 0x80 ≤ b && b ≤ 0x9F then some .one else none
  | .afterF0, b => if 0x90 ≤ b && b ≤ 0xBF then some .two else none
  | .afterF4, b => if 0x80 ≤ b && b ≤ 0x8F then some .two else none

/-- Decode on, with the bytes of the sequence begun. -/
def decodeFrom : State → Bytes → Bytes → Bytes
  | q, _, [] => if q = .start then [] else replacement
  | q, begun, b :: rest =>
      match q.next b with
      | some .start => begun ++ b :: decodeFrom .start [] rest
      | some q' => decodeFrom q' (begun ++ [b]) rest
      | none =>
          replacement ++
            if q = .start then decodeFrom .start [] rest
            else
              match State.start.next b with
              | some .start => b :: decodeFrom .start [] rest
              | some q' => decodeFrom q' [b] rest
              | none => replacement ++ decodeFrom .start [] rest

/-- The text of some bytes. -/
def decode (s : Bytes) : Bytes := decodeFrom .start [] s

/-- The automaton gets from one state to the other without an error. -/
def Leads (q : State) (s : Bytes) (q' : State) : Prop := s.foldlM State.next q = some q'

theorem leads_nil {q q' : State} : Leads q [] q' ↔ q = q' := by
  simp [Leads]

theorem leads_cons {q q' : State} {b : UInt8} {s : Bytes} :
    Leads q (b :: s) q' ↔ ∃ p, q.next b = some p ∧ Leads p s q' := by
  simp only [Leads, List.foldlM_cons, Option.bind_eq_bind, Option.bind_eq_some_iff]

theorem leads_append {q q' : State} {s t : Bytes} :
    Leads q (s ++ t) q' ↔ ∃ p, Leads q s p ∧ Leads p t q' := by
  simp only [Leads, List.foldlM_append, Option.bind_eq_bind, Option.bind_eq_some_iff]

theorem Leads.append {q p q' : State} {s t : Bytes} (hs : Leads q s p) (ht : Leads p t q') :
    Leads q (s ++ t) q' := leads_append.mpr ⟨p, hs, ht⟩

/-- Text without an error is its own decoding. -/
theorem decodeFrom_eq {q : State} {begun s : Bytes} (hbegun : q = .start → begun = [])
    (h : Leads q s .start) : decodeFrom q begun s = begun ++ s := by
  induction s generalizing q begun with
  | nil =>
      cases leads_nil.mp h
      simp [decodeFrom, hbegun rfl]
  | cons b s ih =>
      obtain ⟨p, hp, hrest⟩ := leads_cons.mp h
      rw [decodeFrom, hp]
      cases p with
      | start =>
          dsimp only
          rw [ih (fun _ => rfl) hrest, List.nil_append]
      | _ =>
          dsimp only
          rw [ih (by rintro ⟨⟩) hrest, List.append_assoc, List.singleton_append]

theorem decode_eq {s : Bytes} (h : Leads .start s .start) : decode s = s :=
  decodeFrom_eq (fun _ => rfl) h

/-- An ASCII byte fits between sequences only. -/
theorem next_ascii {q q' : State} {b : UInt8} (hb : b < 0x80) (h : q.next b = some q') :
    q = .start ∧ q' = .start := by
  have hcont : isCont b = false := by
    simp only [isCont, Bool.and_eq_false_iff, decide_eq_false_iff_not]
    exact Or.inl (UInt8.not_le.mpr hb)
  have hlow : ∀ lo : UInt8, 0x80 ≤ lo → ¬ lo ≤ b := fun lo hlo hle =>
    absurd (UInt8.le_trans hlo hle) (UInt8.not_le.mpr hb)
  cases q with
  | start =>
      rw [State.next, if_pos hb, Option.some.injEq] at h
      exact ⟨rfl, h.symm⟩
  | one => simp [State.next, hcont] at h
  | two => simp [State.next, hcont] at h
  | three => simp [State.next, hcont] at h
  | afterE0 => simp [State.next, hlow 0xA0 (by decide)] at h
  | afterED => simp [State.next, hlow 0x80 (by decide)] at h
  | afterF0 => simp [State.next, hlow 0x90 (by decide)] at h
  | afterF4 => simp [State.next, hlow 0x80 (by decide)] at h

/-- An ASCII byte ends the sequence begun. -/
theorem decodeFrom_split {a : UInt8} (ha : a < 0x80) (x rest : Bytes) {q : State} {begun : Bytes}
    (hbegun : q = .start → begun = []) :
    decodeFrom q begun (x ++ a :: rest) = decodeFrom q begun x ++ a :: decode rest := by
  induction x generalizing q begun with
  | nil =>
      rw [List.nil_append, decodeFrom, decodeFrom]
      cases hnext : q.next a with
      | some q' =>
          obtain ⟨rfl, rfl⟩ := next_ascii ha hnext
          simp [hbegun rfl, decode]
      | none =>
          have hq : q ≠ .start := by
            rintro rfl
            rw [State.next, if_pos ha] at hnext
            cases hnext
          simp [hq, State.next, ha, decode]
  | cons b x ih =>
      rw [List.cons_append, decodeFrom, decodeFrom]
      cases q.next b with
      | some p =>
          cases p with
          | start => simp [ih]
          | _ => exact ih (by rintro ⟨⟩)
      | none =>
          by_cases hq : q = .start
          · simp [hq, ih]
          · simp only [if_neg hq, List.append_assoc]
            cases State.start.next b with
            | some p =>
                cases p with
                | start => simp [ih]
                | _ => exact congrArg (replacement ++ ·) (ih (by rintro ⟨⟩))
            | none => simp [ih]

/-- A text is ASCII when the test says so of every byte. -/
theorem ascii_of_all {s : Bytes} (h : (s.all fun b => decide (b < 0x80)) = true) :
    ∀ b ∈ s, b < 0x80 := fun b hb => of_decide_eq_true (List.all_eq_true.mp h b hb)

/-- ASCII text is kept. -/
theorem decode_ascii_append {x : Bytes} (hx : ∀ b ∈ x, b < 0x80) (rest : Bytes) :
    decode (x ++ rest) = x ++ decode rest := by
  induction x with
  | nil => rfl
  | cons a x ih =>
      obtain ⟨ha, hx⟩ := List.forall_mem_cons.mp hx
      have hsplit := @decodeFrom_split a ha [] (x ++ rest) .start [] fun _ => rfl
      rw [List.cons_append, List.cons_append, ← ih hx]
      exact hsplit

theorem decodeFrom_ascii {x : Bytes} (hx : ∀ b ∈ x, b < 0x80) (hne : x ≠ []) (rest : Bytes)
    {q : State} {begun : Bytes} (hbegun : q = .start → begun = []) :
    decodeFrom q begun (x ++ rest) = decodeFrom q begun [] ++ (x ++ decode rest) := by
  cases x with
  | nil => exact absurd rfl hne
  | cons a x =>
      obtain ⟨ha, hx⟩ := List.forall_mem_cons.mp hx
      rw [List.cons_append, List.cons_append, ← decode_ascii_append hx]
      exact decodeFrom_split ha [] (x ++ rest) hbegun

/-- A byte that goes on with a sequence is a continuation byte. -/
theorem next_isCont {q q' : State} {b : UInt8} (hq : q ≠ .start) (h : q.next b = some q') :
    isCont b = true := by
  have hwithin : ∀ b : UInt8, (0xA0 ≤ b && b ≤ 0xBF) = true ∨ (0x80 ≤ b && b ≤ 0x9F) = true ∨
      (0x90 ≤ b && b ≤ 0xBF) = true ∨ (0x80 ≤ b && b ≤ 0x8F) = true → isCont b = true :=
    forall_byte (by set_option maxRecDepth 2000 in decide)
  cases q with
  | start => exact absurd rfl hq
  | one => exact (Option.ite_none_right_eq_some.mp h).1
  | two => exact (Option.ite_none_right_eq_some.mp h).1
  | three => exact (Option.ite_none_right_eq_some.mp h).1
  | afterE0 => exact hwithin b (.inl (Option.ite_none_right_eq_some.mp h).1)
  | afterED => exact hwithin b (.inr (.inl (Option.ite_none_right_eq_some.mp h).1))
  | afterF0 => exact hwithin b (.inr (.inr (.inl (Option.ite_none_right_eq_some.mp h).1)))
  | afterF4 => exact hwithin b (.inr (.inr (.inr (Option.ite_none_right_eq_some.mp h).1)))

theorem leads_ascii {s : Bytes} (h : ∀ b ∈ s, b < 0x80) : Leads .start s .start := by
  induction s with
  | nil => exact leads_nil.mpr rfl
  | cons b s ih =>
      obtain ⟨hb, hs⟩ := List.forall_mem_cons.mp h
      exact leads_cons.mpr ⟨.start, by rw [State.next, if_pos hb], ih hs⟩

/-- After the first byte of three, the second byte is read. -/
theorem lead_second3 {b b1 : UInt8} (hb : (0xE0 ≤ b && b ≤ 0xEF) = true)
    (h1 : second3 b b1 = true) : ∃ q, lead b = some q ∧ q.next b1 = some .one := by
  have hfirst : ∀ b : UInt8, (0xE0 ≤ b && b ≤ 0xEF) = true → lead b
      = some (if b = 0xE0 then .afterE0 else if b = 0xED then .afterED else .two) :=
    forall_byte (by set_option maxRecDepth 2000 in decide)
  rw [second3] at h1
  refine ⟨_, hfirst b hb, ?_⟩
  split
  · next he0 => simpa [State.next, he0] using h1
  · next he0 =>
      rw [if_neg he0] at h1
      split
      · next hed => simpa [State.next, hed] using h1
      · next hed => simpa [State.next, hed] using h1

/-- After the first byte of four, the second byte is read. -/
theorem lead_second4 {b b1 : UInt8} (hb : (0xF0 ≤ b && b ≤ 0xF4) = true)
    (h1 : second4 b b1 = true) : ∃ q, lead b = some q ∧ q.next b1 = some .two := by
  have hfirst : ∀ b : UInt8, (0xF0 ≤ b && b ≤ 0xF4) = true → lead b
      = some (if b = 0xF0 then .afterF0 else if b = 0xF4 then .afterF4 else .three) :=
    forall_byte (by set_option maxRecDepth 2000 in decide)
  rw [second4] at h1
  refine ⟨_, hfirst b hb, ?_⟩
  split
  · next hf0 => simpa [State.next, hf0] using h1
  · next hf0 =>
      rw [if_neg hf0] at h1
      split
      · next hf4 => simpa [State.next, hf4] using h1
      · next hf4 => simpa [State.next, hf4] using h1

/-- The automaton reads the sequence that a well-formed text starts with. -/
theorem leads_rune {b : UInt8} {rest : Bytes} {n : Nat} (h : runeLen (b :: rest) = n + 1) :
    Leads .start ((b :: rest).take (n + 1)) .start := by
  have hstart : ¬ b < 0x80 → State.start.next b = lead b := fun hb => by
    rw [State.next, if_neg hb]
  simp only [runeLen] at h
  split at h
  · next hb =>
      cases h
      simp [leads_cons, leads_nil, State.next, hb]
  · next hb =>
      split at h
      · next h2 =>
          split at h
          · split at h
            · next hc =>
                cases h
                simp [leads_cons, leads_nil, State.next, hb, lead, h2, hc]
            · cases h
          · cases h
      · split at h
        · next h3 =>
            split at h
            · split at h
              · next hc =>
                  cases h
                  obtain ⟨hc1, hc2⟩ := Bool.and_eq_true_iff.mp hc
                  obtain ⟨q, hq, hnext⟩ := lead_second3 h3 hc1
                  have hlast : State.one.next _ = some .start := if_pos hc2
                  exact leads_cons.mpr ⟨q, (hstart hb).trans hq, leads_cons.mpr ⟨.one, hnext,
                    leads_cons.mpr ⟨.start, hlast, leads_nil.mpr rfl⟩⟩⟩
              · cases h
            · cases h
        · split at h
          · next h4 =>
              split at h
              · split at h
                · next hc =>
                    cases h
                    obtain ⟨hc12, hc3⟩ := Bool.and_eq_true_iff.mp hc
                    obtain ⟨hc1, hc2⟩ := Bool.and_eq_true_iff.mp hc12
                    obtain ⟨q, hq, hnext⟩ := lead_second4 h4 hc1
                    have hthird : State.two.next _ = some .one := if_pos hc2
                    have hlast : State.one.next _ = some .start := if_pos hc3
                    exact leads_cons.mpr ⟨q, (hstart hb).trans hq, leads_cons.mpr ⟨.two, hnext,
                      leads_cons.mpr ⟨.one, hthird, leads_cons.mpr ⟨.start, hlast,
                        leads_nil.mpr rfl⟩⟩⟩⟩
                · cases h
              · cases h
          · cases h

/-- Well-formed text is read without an error. -/
theorem leads_of_valid {s : Bytes} (h : valid s = true) : Leads .start s .start := by
  induction hlen : s.length using Nat.strongRecOn generalizing s with
  | ind n ih =>
      cases s with
      | nil => exact leads_nil.mpr rfl
      | cons b rest =>
          rw [valid, validFrom] at h
          split at h
          · cases h
          · next m hm =>
              have hle : m ≤ rest.length := by
                have hbound := runeLen_le_length (b :: rest)
                rw [hm, List.length_cons] at hbound
                omega
              rw [validFrom_drop m rest hle] at h
              rw [← List.take_append_drop (m + 1) (b :: rest)]
              refine (leads_rune hm).append (ih _ ?_ h rfl)
              rw [List.length_drop, ← hlen, List.length_cons]
              omega

end NteeDb.Verified.TextDecoder
