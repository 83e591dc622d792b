import NteeDb.Invariants.Evictions
import NteeDb.Invariants.Exact
import NteeDb.Server.Backend

/-!
# Expiries set over the wire

A TTL comes as a number of milliseconds, is turned into nanoseconds in 64 bits, and back into
milliseconds when the expiry is computed.  The product wraps for large TTLs, and a wrapped product
that is positive passes the check of `resolveTTL`.
-/

namespace NteeDb.Properties.WireTTL

open NteeDb.Core NteeDb.Net NteeDb.Verified NteeDb.Verified.Faults NteeDb.Verified.JsonCodec
open NteeDb.Verified.OrderedTree

/-! ## Milliseconds and back -/

/-- The expiry is exact if and only if the TTL in nanoseconds fits an `int64`. -/
theorem resolveTTL_exact_iff {now : Millis} (hnow : now.ms.toInt ≤ 2 ^ 42) {ms : Int}
    (hpos : 0 < ms) (hms : ms < 2 ^ 63) {exp : Int64}
    (hexp : resolveTTL now [Int64.ofInt ms * 1000000] = .ok exp) :
    exp.toInt = now.ms.toInt + ms ↔ ms * 1000000 < 2 ^ 63 := by
  rw [resolveTTL] at hexp
  split at hexp
  · cases hexp
  next hd =>
    have hd' : 0 < (Int64.ofInt ms * 1000000).toInt := by
      rw [Int64.le_iff_toInt_le] at hd
      exact Int.not_le.mp hd
    have hlow := now.ms.le_toInt
    have hdlt := (Int64.ofInt ms * 1000000).toInt_lt
    have hq : (Int64.ofInt ms * 1000000 / 1000000).toInt
        = (Int64.ofInt ms * 1000000).toInt / 1000000 := by
      rw [Int64.toInt_div, show (1000000 : Int64).toInt = 1000000 from rfl,
        Int.tdiv_eq_ediv_of_nonneg (by omega), Int.bmod_eq_of_le (by omega) (by omega)]
    have hsum : exp.toInt = now.ms.toInt + (Int64.ofInt ms * 1000000).toInt / 1000000 := by
      rw [← Except.ok.inj hexp, Int64.toInt_add, hq, Int.bmod_eq_of_le (by omega) (by omega)]
    have hprod : (Int64.ofInt ms * 1000000).toInt = (ms * 1000000).bmod (2 ^ 64) := by
      rw [Int64.toInt_mul, Int64.toInt_ofInt, show (1000000 : Int64).toInt = 1000000 from rfl,
        Int.bmod_mul_bmod]
      rfl
    constructor
    · intro heq
      omega
    · intro hfits
      rw [hprod, Int.bmod_eq_of_le (by omega) (by omega)] at hsum
      omega

/-! ## The expiry a write leaves -/

section Expiry

variable {w : World} {A : Answer → Prop}

/-- The entry of a key that was just put. -/
theorem get_put_exp {ix : Indexes} {key : Bytes} {off : Int64} {n : Int32} {exp : Int64}
    {ixv : AnyMap} {e : PkEntry}
    (h : (ix.put { key := key, off := off, n := n, exp := exp } ixv).pk.get key = some e) :
    e.exp = exp := by
  rw [Indexes.put_pk ix rfl, PkIndex.get_set, if_pos rfl] at h
  rw [← Option.some.inj h]

/-- What `v` has under the key expires when a call with this TTL, made in `w`, says. -/
def Stamped (w : World) (key : Bytes) (ttl : List Int64) (v : World) : Prop :=
  ∀ e, v.db.idx.pk.get key = some e → resolveTTL w.now ttl = .ok e.exp

theorem putIndexed_expiry (ord : MapOrder) (key value : Bytes) (ix : AnyMap) (ttl : List Int64) :
    Spec A (fun v => v = w) (putIndexed ord key value ix ttl)
      (fun _ v => Stamped w key ttl v) (fun _ _ => True) := by
  refine (putIndexed_idx w ord key value ix ttl).post (fun _ v hv e he => ?_) fun _ _ _ => trivial
  obtain ⟨exp, ixv, off, n, hexp, _, _, hidx⟩ := hv
  rw [hidx] at he
  rw [get_put_exp (Indexes.get_of_enforce he)]
  exact hexp

/-- No record of the key is alive. -/
def Absent (w : World) (key : Bytes) : Prop :=
  ∀ e, w.db.idx.pk.get key = some e → e.expiredAt w.now.ms = true

/-- A key that is not alive is gone once the counter has been looked up. -/
theorem liveCounter_absent {key : Bytes} (h : Absent w key) :
    Spec A (fun v => v = w) (liveCounter key) (fun r v => r = none ∧ v.db.idx.pk.get key = none)
      (fun _ _ => True) := by
  unfold liveCounter
  refine Spec.bind_getWorld ?_
  rintro w rfl
  cases hget : w.db.idx.pk.get key with
  | none =>
      refine Spec.pure ?_
      rintro v rfl
      exact ⟨rfl, hget⟩
  | some e =>
      refine Spec.ite (fun _ => ?_) fun hlive => absurd (h e hget) hlive
      refine Spec.bind (deleteLocked_exact w key) fun _ => Spec.pure ?_
      rintro v ⟨_, hidx⟩
      refine ⟨rfl, ?_⟩
      rw [hidx, Indexes.delete_pk, PkIndex.get_remove, if_pos rfl]

theorem incrAppend_expiry (key : Bytes) (next exp : Int64) :
    Spec A (fun _ => True) (incrAppend key next exp)
      (fun _ v => ∀ e, v.db.idx.pk.get key = some e → e.exp = exp) (fun _ _ => True) := by
  unfold incrAppend
  refine Spec.of_world fun w _ => Spec.bind_getWorld ?_
  rintro w rfl
  refine Spec.bind ((appendRecord_idx (w := w) key (formatCounter next) Tree.empty exp
    w.db.opts.syncEveryWrite true).conseq (fun v hv => congrArg (fun v : World => v.db.idx) hv)
    (fun _ _ hv => hv) fun _ _ _ => trivial) fun _ => Spec.of_world ?_
  rintro u ⟨_, off, n, hput⟩
  refine (countAndHint_idx u 1).conseq (fun z hz => congrArg (fun v : World => v.db.idx) hz)
    (fun _ z hz e he => ?_) fun _ _ _ => trivial
  rw [hz, hput] at he
  exact get_put_exp he

/-- A counter that is created gets the expiry of the call. -/
theorem counterOp_expiry {β : Type} {key : Bytes} (h : Absent w key) (ttl : List Int64)
    (step : Int64 → Except Err (Option Int64 × β)) :
    Spec A (fun v => v = w) (counterOp key ttl step)
      (fun _ v => Stamped w key ttl v) (fun _ _ => True) := by
  unfold counterOp counterUpdate
  refine Spec.bind_getWorld ?_
  rintro w rfl
  refine Spec.bind_ofExcept (fun _ _ _ _ => trivial) fun exp hexp => ?_
  refine Spec.bind_requireOpen (fun _ => trivial) fun _ => ?_
  refine Spec.bind (Q := fun _ v => ∀ e, v.db.idx.pk.get key = some e → e.exp = exp) ?_
    fun _ => Spec.pure fun v hv e he => ?_
  · refine Spec.bind (liveCounter_absent h) fun r => Spec.of_world ?_
    rintro u ⟨rfl, hgone⟩
    have habsent : ∀ v, v = u → ∀ e, v.db.idx.pk.get key = some e → e.exp = exp := by
      rintro v rfl e he
      rw [hgone] at he
      cases he
    refine Spec.bind_ofExcept (fun _ _ _ _ => trivial) fun r _ => ?_
    cases hnext : r.1 with
    | none => exact Spec.pure habsent
    | some next =>
        exact Spec.bind ((incrAppend_expiry key next exp).conseq (fun _ _ => trivial)
          (fun _ _ hv => hv) fun _ _ _ => trivial) fun _ => Spec.pure fun _ hv => hv
  · rw [hv e he]
    exact hexp

theorem incr_expiry {key : Bytes} (h : Absent w key) (delta : Int64) (ttl : List Int64) :
    Spec A (fun v => v = w) (incr key delta ttl)
      (fun _ v => Stamped w key ttl v) (fun _ _ => True) := counterOp_expiry h ttl _

theorem topup_expiry {key : Bytes} (h : Absent w key) (amount max : Int64) (ttl : List Int64) :
    Spec A (fun v => v = w) (topup key amount max ttl)
      (fun _ v => Stamped w key ttl v) (fun _ _ => True) :=
  Spec.bind_require (fun _ _ _ => trivial) fun _ => counterOp_expiry h ttl _

theorem take_expiry {key : Bytes} (h : Absent w key) (amount left : Int64) (ttl : List Int64) :
    Spec A (fun v => v = w) (take key amount left ttl)
      (fun _ v => Stamped w key ttl v) (fun _ _ => True) :=
  Spec.bind_require (fun _ _ _ => trivial) fun _ => counterOp_expiry h ttl _

end Expiry

/-! ## The commands -/

/-- The key and the TTL token of a command that has one. -/
def ttlToken : Word → List Bytes → Option (Bytes × Bytes)
  | .putex, [key, tok, _] => some (key, tok)
  | .putx, [key, _, _, tok] => some (key, tok)
  | .line .incr, [key, _, tok] => some (key, tok)
  | .line .decr, [key, _, tok] => some (key, tok)
  | .line .topup, [key, _, _, tok] => some (key, tok)
  | .line .take, [key, _, _, tok] => some (key, tok)
  | _, _ => none

section Commands

variable {s : Server AnyMap} {ord : MapOrder} {msg : Err → String}
  {rest : Database (Env World) AnyMap} {key tok : Bytes}

theorem parseTTLMillis_ok {cmd : String} {d : Int64} (h : s.parseTTLMillis cmd tok = .ok d) :
    ∃ ms, parseInt64 tok = some ms ∧ 0 < ms ∧ d = Int64.ofInt ms * 1000000 := by
  rw [Server.parseTTLMillis] at h
  cases hms : parseInt64 tok with
  | none => rw [hms] at h; cases h
  | some ms =>
      rw [hms] at h
      dsimp only at h
      split at h
      · next hpos => exact ⟨ms, rfl, hpos, (Except.ok.inj h).symm⟩
      · cases h

theorem optTTL_ok {cmd : String} {ttl : Option Int64} (h : s.optTTL cmd [tok] = .ok ttl) :
    ∃ ms, parseInt64 tok = some ms ∧ 0 < ms ∧ ttl = some (Int64.ofInt ms * 1000000) := by
  rw [Server.optTTL] at h
  cases hd : s.parseTTLMillis cmd tok with
  | error e => rw [hd] at h; cases h
  | ok d =>
      rw [hd] at h
      obtain ⟨ms, hms, hpos, rfl⟩ := parseTTLMillis_ok hd
      exact ⟨ms, hms, hpos, (Except.ok.inj h).symm⟩

theorem counterArgs_ok {cmd : String} {negate : Bool} {deltaTok k : Bytes} {delta : Int}
    {ttl : Option Int64} (h : s.counterArgs cmd negate [key, deltaTok, tok] = .ok (k, delta, ttl)) :
    k = key ∧ ∃ ms, parseInt64 tok = some ms ∧ 0 < ms ∧ ttl = some (Int64.ofInt ms * 1000000) := by
  simp only [Server.counterArgs, bind, Except.bind] at h
  cases hdelta : s.intArg cmd "delta" deltaTok with
  | error e => simp [hdelta] at h
  | ok n =>
      cases hopt : s.optTTL cmd [tok] with
      | error e => simp [hdelta, hopt] at h
      | ok t =>
          obtain ⟨ms, hms, hpos, rfl⟩ := optTTL_ok hopt
          cases negate with
          | false =>
              simp [hdelta, hopt] at h
              exact ⟨h.1.symm, ms, hms, hpos, h.2.2.symm⟩
          | true =>
              simp [hdelta, hopt] at h
              split at h
              · cases h
              · cases h
                exact ⟨rfl, ms, hms, hpos, rfl⟩

theorem boundedArgs_ok {cmd bound : String} {amountTok limitTok k : Bytes} {amount limit : Int}
    {ttl : Option Int64}
    (h : s.boundedArgs cmd bound [key, amountTok, limitTok, tok] = .ok (k, amount, limit, ttl)) :
    k = key ∧ ∃ ms, parseInt64 tok = some ms ∧ 0 < ms ∧ ttl = some (Int64.ofInt ms * 1000000) := by
  simp only [Server.boundedArgs, bind, Except.bind] at h
  cases hamount : s.intArg cmd "amount" amountTok with
  | error e => simp [hamount] at h
  | ok n =>
      cases hlimit : s.intArg cmd bound limitTok with
      | error e => simp [hamount, hlimit] at h
      | ok l =>
          cases hopt : s.optTTL cmd [tok] with
          | error e => simp [hamount, hlimit, hopt] at h
          | ok t =>
              obtain ⟨ms, hms, hpos, rfl⟩ := optTTL_ok hopt
              simp [hamount, hlimit, hopt, pure, Except.pure] at h
              exact ⟨h.1.symm, ms, hms, hpos, h.2.2.2.symm⟩

theorem parseInt64_lt {ms : Int} (h : parseInt64 tok = some ms) : ms < 2 ^ 63 := by
  simp only [parseInt64] at h
  split at h
  · cases h
  split at h
  · split at h
    · rw [← Option.some.inj h]
      omega
    · cases h
  · split at h
    · rw [← Option.some.inj h]
      omega
    · cases h

/-- A call of the store that succeeded is a run of its program that did. -/
theorem perform_ok {α : Type} {c : StoreM α} {x y : Env World} {a : α}
    (h : perform msg c x = (.ok a, y)) : c x = (.ok a, ⟨y.world, y.plan⟩) := by
  rw [perform] at h
  cases hrun : c x with
  | mk out z =>
      rw [hrun] at h
      cases out with
      | error e => cases h
      | ok b => cases h; rfl

theorem map_perform_ok {α β : Type} {c : StoreM α} {f : α → β} {x y : Env World} {b : β}
    (h : ((perform msg c x).1.map f, (perform msg c x).2) = (.ok b, y)) :
    ∃ a, c x = (.ok a, ⟨y.world, y.plan⟩) := by
  rw [perform] at h
  cases hrun : c x with
  | mk out z =>
      rw [hrun] at h
      cases out with
      | error e => cases h
      | ok a => cases h; exact ⟨a, rfl⟩

theorem answers_all (plan : List Answer) : Answers (fun _ => True) plan := fun _ _ => trivial

/-- What a command left under its key has the expiry that the store computed from the token. -/
structure TTLKept (tok : Bytes) (x y : Env World) (key : Bytes) : Prop where
  entry : ∀ e, y.world.db.idx.pk.get key = some e → ∃ ms, parseInt64 tok = some ms ∧ 0 < ms ∧
    resolveTTL x.world.now [Int64.ofInt ms * 1000000] = .ok e.exp

theorem ttlToken_line {cmd : LineCmd} {args : List Bytes}
    (h : ttlToken (.line cmd) args = some (key, tok)) :
    (∃ d, args = [key, d, tok] ∧ (cmd = .incr ∨ cmd = .decr)) ∨
      ∃ a l, args = [key, a, l, tok] ∧ (cmd = .topup ∨ cmd = .take) := by
  unfold ttlToken at h
  split at h <;> simp_all

section Counters

variable {x : Session (Env World)} (habsent : Absent x.db.world key)

include habsent

theorem counter_ttl {cmd : String} {negate : Bool} {deltaTok : Bytes}
    (hok : (requireAuth (withArgs (s.counterArgs cmd negate [key, deltaTok, tok])
      fun (key, delta, ttl) => call ((Database.overStore ord msg rest).incr key delta ttl)
        fun v => Reply.okay (.int v)) x).1.Succeeded) :
    TTLKept tok x.db (requireAuth (withArgs (s.counterArgs cmd negate [key, deltaTok, tok])
      fun (key, delta, ttl) => call ((Database.overStore ord msg rest).incr key delta ttl)
        fun v => Reply.okay (.int v)) x).2.db key := by
  obtain ⟨⟨k, delta, ttl⟩, hargs, heq⟩ := guarded_succeeded hok
  rw [heq] at hok ⊢
  obtain ⟨rfl, ms, hms, hpos, rfl⟩ := counterArgs_ok hargs
  obtain ⟨v, hcall⟩ := call_succeeded hok
  obtain ⟨n, hrun⟩ := map_perform_ok hcall
  exact ⟨fun e he => ⟨ms, hms, hpos,
    (incr_expiry habsent _ _).ok rfl (answers_all _) hrun e he⟩⟩

theorem topup_ttl {cmd bound : String} {amountTok limitTok : Bytes}
    (hok : (requireAuth (withArgs (s.boundedArgs cmd bound [key, amountTok, limitTok, tok])
      fun (key, amount, limit, ttl) =>
        call ((Database.overStore ord msg rest).topup key amount limit ttl)
          fun v => Reply.okay (.int v)) x).1.Succeeded) :
    TTLKept tok x.db
    (requireAuth (withArgs (s.boundedArgs cmd bound [key, amountTok, limitTok, tok])
      fun (key, amount, limit, ttl) =>
        call ((Database.overStore ord msg rest).topup key amount limit ttl)
          fun v => Reply.okay (.int v)) x).2.db key := by
  obtain ⟨⟨k, amount, limit, ttl⟩, hargs, heq⟩ := guarded_succeeded hok
  rw [heq] at hok ⊢
  obtain ⟨rfl, ms, hms, hpos, rfl⟩ := boundedArgs_ok hargs
  obtain ⟨v, hcall⟩ := call_succeeded hok
  obtain ⟨n, hrun⟩ := map_perform_ok hcall
  exact ⟨fun e he => ⟨ms, hms, hpos,
    (topup_expiry habsent _ _ _).ok rfl (answers_all _) hrun e he⟩⟩

theorem take_ttl {cmd bound : String} {amountTok limitTok : Bytes}
    (hok : (requireAuth (withArgs (s.boundedArgs cmd bound [key, amountTok, limitTok, tok])
      fun (key, amount, limit, ttl) =>
        call ((Database.overStore ord msg rest).take key amount limit ttl)
          fun b => Reply.okay (.bool b)) x).1.Succeeded) :
    TTLKept tok x.db
    (requireAuth (withArgs (s.boundedArgs cmd bound [key, amountTok, limitTok, tok])
      fun (key, amount, limit, ttl) =>
        call ((Database.overStore ord msg rest).take key amount limit ttl)
          fun b => Reply.okay (.bool b)) x).2.db key := by
  obtain ⟨⟨k, amount, limit, ttl⟩, hargs, heq⟩ := guarded_succeeded hok
  rw [heq] at hok ⊢
  obtain ⟨rfl, ms, hms, hpos, rfl⟩ := boundedArgs_ok hargs
  obtain ⟨v, hcall⟩ := call_succeeded hok
  exact ⟨fun e he => ⟨ms, hms, hpos,
    (take_expiry habsent _ _ _).ok rfl (answers_all _) (perform_ok hcall) e he⟩⟩

/-- A line command that has a TTL token. -/
theorem lineCommand_ttl {cmd : LineCmd} {args : List Bytes}
    (htok : ttlToken (.line cmd) args = some (key, tok))
    (hok : (s.lineCommand (.overStore ord msg rest) cmd args x).1.Succeeded) :
    TTLKept tok x.db (s.lineCommand (.overStore ord msg rest) cmd args x).2.db key := by
  rcases ttlToken_line htok with ⟨d, rfl, rfl | rfl⟩ | ⟨a, l, rfl, rfl | rfl⟩
  · exact counter_ttl habsent hok
  · exact counter_ttl habsent hok
  · exact topup_ttl habsent hok
  · exact take_ttl habsent hok

end Counters

section Frames

variable {args : List Bytes} {c : Conn (Env World)}

theorem putex_ttl (htok : ttlToken .putex args = some (key, tok))
    (hok : (s.putexCommand (.overStore ord msg rest) args c).1.Succeeded) :
    TTLKept tok c.sess.db (s.putexCommand (.overStore ord msg rest) args c).2.sess.db key := by
  obtain ⟨n, rfl⟩ : ∃ n, args = [key, tok, n] := by
    unfold ttlToken at htok
    split at htok <;> simp_all
  simp only [Server.putexCommand] at hok ⊢
  cases hn : parseInt64 n with
  | none =>
      simp only [hn] at hok
      exact absurd hok not_succeeded_run_refuse
  | some len =>
      cases hread : readData len s.maxValue c.reader with
      | error e =>
          simp only [hn, hread] at hok
          exact absurd hok not_succeeded_fatal
      | ok block =>
          simp only [hn, hread] at hok ⊢
          rw [run_effect] at hok
          rw [run_sess]
          obtain ⟨d, hd, heq⟩ := withArgs_succeeded hok
          rw [heq] at hok ⊢
          obtain ⟨ms, hms, hpos, rfl⟩ := parseTTLMillis_ok hd
          obtain ⟨_, hcall⟩ := call_succeeded hok
          exact ⟨fun e he => ⟨ms, hms, hpos,
            (putIndexed_expiry ord key _ _ _).ok rfl (answers_all _) (perform_ok hcall) e he⟩⟩

theorem putx_ttl (htok : ttlToken .putx args = some (key, tok))
    (hok : (s.putxCommand (.overStore ord msg rest) args c).1.Succeeded) :
    TTLKept tok c.sess.db (s.putxCommand (.overStore ord msg rest) args c).2.sess.db key := by
  obtain ⟨ixTok, n, rfl⟩ : ∃ ixTok n, args = [key, ixTok, n, tok] := by
    unfold ttlToken at htok
    split at htok <;> simp_all
  have hone : ¬ 1 < [tok].length := by simp
  simp only [Server.putxCommand, if_neg hone] at hok ⊢
  cases hix : parseInt64 ixTok with
  | none =>
      simp only [hix] at hok
      exact absurd hok not_succeeded_run_refuse
  | some ixLen =>
      cases hn : parseInt64 n with
      | none =>
          simp only [hix, hn] at hok
          exact absurd hok not_succeeded_run_refuse
      | some len =>
          cases hread : readData ixLen s.maxValue c.reader with
          | error e =>
              simp only [hix, hn, hread] at hok
              exact absurd hok not_succeeded_fatal
          | ok ixBlock =>
              cases hread' : readData len s.maxValue ixBlock.2 with
              | error e =>
                  simp only [hix, hn, hread, hread'] at hok
                  exact absurd hok not_succeeded_fatal
              | ok block =>
                  simp only [hix, hn, hread, hread'] at hok ⊢
                  rw [run_effect, Server.storeIndexed] at hok
                  rw [run_sess, Server.storeIndexed]
                  obtain ⟨ttl, hopt, heq⟩ := withArgs_succeeded hok
                  rw [heq] at hok ⊢
                  obtain ⟨ms, hms, hpos, rfl⟩ := optTTL_ok hopt
                  obtain ⟨ix, _, heq'⟩ := withArgs_succeeded hok
                  rw [heq'] at hok ⊢
                  obtain ⟨_, hcall⟩ := call_succeeded hok
                  exact ⟨fun e he => ⟨ms, hms, hpos,
                    (putIndexed_expiry ord key _ _ _).ok rfl (answers_all _)
                    (perform_ok hcall) e he⟩⟩

end Frames

/-- A command that has a TTL token, at the level of `dispatch`. -/
theorem dispatch_ttl {line : Bytes} {c : Conn (Env World)} {cmd : Word}
    (hcmd : Word.parse (splitCommand line).1 = some cmd)
    (htok : ttlToken cmd (splitCommand line).2 = some (key, tok))
    (hok : (s.dispatch (.overStore ord msg rest) line c).1.Succeeded)
    (hcreate : ∀ lineCmd, cmd = .line lineCmd → Absent c.sess.db.world key) :
    TTLKept tok c.sess.db (s.dispatch (.overStore ord msg rest) line c).2.sess.db key := by
  cases cmd with
  | line lineCmd =>
      simp only [Server.dispatch, hcmd] at hok ⊢
      exact lineCommand_ttl (hcreate lineCmd rfl) htok hok
  | put => cases htok
  | putex =>
      simp only [Server.dispatch, hcmd] at hok ⊢
      split at hok
      · exact absurd hok not_succeeded_run_refuse
      · next hauth =>
          rw [if_neg hauth]
          exact putex_ttl htok hok
  | putx =>
      simp only [Server.dispatch, hcmd] at hok ⊢
      split at hok
      · exact absurd hok not_succeeded_run_refuse
      · next hauth =>
          rw [if_neg hauth]
          exact putx_ttl htok hok

end Commands

/-- A command that answered `ok` and left a record under its key, one that it created in the case
of a counter, gave it the expiry that its TTL token says if and only if that many milliseconds are
fewer than `2 ^ 63` nanoseconds. -/
theorem wire_ttl_exact_iff (s : Server AnyMap) (ord : MapOrder) (msg : Err → String)
    (rest : Database (Env World) AnyMap) {line : Bytes} {c : Conn (Env World)} {cmd : Word}
    {key tok : Bytes} {ms : Int} {e : PkEntry} (hnow : c.sess.db.world.now.ms.toInt ≤ 2 ^ 42)
    (hcmd : Word.parse (splitCommand line).1 = some cmd)
    (htok : ttlToken cmd (splitCommand line).2 = some (key, tok)) (hms : parseInt64 tok = some ms)
    (hok : (s.dispatch (.overStore ord msg rest) line c).1.Succeeded)
    (hcreate : ∀ lineCmd, cmd = .line lineCmd → Absent c.sess.db.world key)
    (hwritten : (s.dispatch (.overStore ord msg rest) line c).2.sess.db.world.db.idx.pk.get key
      = some e) :
    e.exp.toInt = c.sess.db.world.now.ms.toInt + ms ↔ ms * 1000000 < 2 ^ 63 := by
  obtain ⟨ms', hms', hpos, hexp⟩ := (dispatch_ttl hcmd htok hok hcreate).entry e hwritten
  cases Option.some.inj (hms.symm.trans hms')
  exact resolveTTL_exact_iff hnow hpos (parseInt64_lt hms) hexp

/-! ## A TTL that fits and one that does not -/

/-- A connection of a user to a new store, at the time 1000. -/
def connected : Conn (Env World) :=
  ⟨⟨[], []⟩, ⟨true, .user⟩, ⟨1, 1, 0, 0, 0⟩,
    ⟨runEvents { now := ⟨1000, by decide⟩ } [.openStore {} []], []⟩⟩

/-- A server without auth or indexes. -/
def plainServer : Server AnyMap where
  maxLine := 128
  maxValue := 128
  auth := .none
  schema := []
  codec := ⟨fun _ => "", fun _ => "", fun _ => "", fun _ => none, fun _ => .ok Tree.empty⟩
  maxValueInt := by decide

/-- `incr c 1` with a TTL. -/
def incrWith (ttl : List Char) : Bytes :=
  ascii (['i', 'n', 'c', 'r', ' ', 'c', ' ', '1', ' '] ++ ttl)

/-- What the command leads to. -/
def incremented (ttl : List Char) : Effect × Conn (Env World) :=
  plainServer.dispatch (.overStore .sorted (fun _ => "") .inert) (incrWith ttl) connected

theorem incremented_five : (incremented ['5']).1.Succeeded ∧
    (((incremented ['5']).2.sess.db.world.db.idx.pk.get [0x63]).map PkEntry.exp) = some 1005 := by
  decide +kernel

/-- A counter that is created with a TTL of five milliseconds. -/
theorem five_milliseconds_kept :
    ∃ e, (incremented ['5']).2.sess.db.world.db.idx.pk.get [0x63] = some e ∧
    (e.exp.toInt = connected.sess.db.world.now.ms.toInt + 5 ↔ (5 : Int) * 1000000 < 2 ^ 63) := by
  have hnone : connected.sess.db.world.db.idx.pk.get [0x63] = none := by decide +kernel
  have hfive := incremented_five
  unfold incremented at hfive ⊢
  obtain ⟨e, he, _⟩ := Option.map_eq_some_iff.mp hfive.2
  refine ⟨e, he, @wire_ttl_exact_iff plainServer .sorted (fun _ => "") .inert
    (incrWith ['5']) connected (.line .incr) [0x63] (ascii ['5']) 5 e ?_ ?_ ?_ ?_ hfive.1 ?_ he⟩
  · decide +kernel
  · decide +kernel
  · decide +kernel
  · decide +kernel
  · intro _ _ e he
    rw [hnone] at he
    cases he

/-- A TTL of more than five hundred years is accepted, and the counter expires at once. -/
theorem long_ttl_expires_at_once :
    parseInt64 (ascii ['1', '8', '4', '4', '6', '7', '4', '4', '0', '7', '3', '7', '1', '0'])
      = some 18446744073710 ∧
      (incremented ['1', '8', '4', '4', '6', '7', '4', '4', '0', '7', '3', '7', '1',
        '0']).1.Succeeded ∧
      ((incremented ['1', '8', '4', '4', '6', '7', '4', '4', '0', '7', '3', '7', '1', '0']
        ).2.sess.db.world.db.idx.pk.get [0x63]).map PkEntry.exp = some 1000 := by
  decide +kernel

end NteeDb.Properties.WireTTL
