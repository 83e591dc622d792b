import NteeDb.Core.Carried
import NteeDb.Core.Write
import NteeDb.Invariants.Scan

/-!
# The index values of a write

What `buildIndexValues` returns: values that were passed or extracted, each of
which its index can read.  Once the record that carries them has been written they
are scalars, and they survive JSON if the names and the strings were valid UTF-8.
-/

namespace NteeDb.Core

open NteeDb.Verified
open BinaryFloat OrderedTree JsonCodec

/-- A declared index can read the value. -/
def Accepted (secs : SecIndexes) (nv : Bytes × AnyValue) : Prop :=
  ∃ si, secs.get nv.1 = some si ∧ ∀ pk, ∃ e, si.makeEntry nv.2 pk = .ok e

/-- The value is the one that a declared index extracts. -/
def Extracted (defs : List IndexDef) (key value : Bytes) (nv : Bytes × AnyValue) : Prop :=
  ∃ d ∈ defs, d.name = nv.1 ∧ d.extract.bind (fun f => f key value) = some nv.2

theorem accepted_of_makeEntry {secs : SecIndexes} {name : Bytes} {val : AnyValue} {si : SecIndex}
    {pk : Bytes} {e : SecEntry} (hsi : secs.get name = some si)
    (he : si.makeEntry val pk = .ok e) : Accepted secs (name, val) :=
  ⟨si, hsi, fun pk' => ⟨_, (SecIndex.makeEntry_ok he).2 pk'⟩⟩

theorem mem_set_cases {m : AnyMap} {nv nv' : Bytes × AnyValue} (h : nv ∈ m.set nv') :
    nv = nv' ∨ nv ∈ m := (Tree.mem_set_key.mp h).imp_right And.left

/-! ## The loops over index values -/

section Collect

variable {α : Type} {secs : SecIndexes} {key : Bytes} {name : α → Bytes}
  {val : α → Option AnyValue → Option AnyValue} {missing : α → Err} {items : List α}
  {out out' : AnyMap}

/-- What the loops over index values have in common: an item may give a value, by the one that its
name has so far, and its index has to read it. -/
def collect (secs : SecIndexes) (key : Bytes) (name : α → Bytes)
    (val : α → Option AnyValue → Option AnyValue) (missing : α → Err) :
    List α → AnyMap → Except Err AnyMap
  | [], out => .ok out
  | a :: rest, out =>
      match val a (out.get (name a)) with
      | none => collect secs key name val missing rest out
      | some v =>
          match secs.get (name a) with
          | none => .error (missing a)
          | some si =>
              match si.makeEntry v key with
              | .error e => .error e
              | .ok _ => collect secs key name val missing rest (out.set (name a, v))

theorem collect_mem (h : collect secs key name val missing items out = .ok out') :
    ∀ nv ∈ out', nv ∈ out ∨
      (∃ a ∈ items, name a = nv.1 ∧ ∃ cur, val a cur = some nv.2) ∧ Accepted secs nv := by
  induction items generalizing out with
  | nil =>
      cases h
      exact fun nv hnv => Or.inl hnv
  | cons a rest ih =>
      have hrest : ∀ nv : Bytes × AnyValue, (∃ a ∈ rest, name a = nv.1 ∧
          ∃ cur, val a cur = some nv.2) → ∃ b ∈ a :: rest, name b = nv.1 ∧
          ∃ cur, val b cur = some nv.2 := by
        rintro nv ⟨b, hb, hx⟩
        exact ⟨b, List.mem_cons_of_mem a hb, hx⟩
      intro nv hnv
      unfold collect at h
      split at h
      · exact (ih h nv hnv).imp_right fun hx => ⟨hrest nv hx.1, hx.2⟩
      · next v hv =>
          split at h
          · cases h
          · next si hsi =>
              split at h
              · cases h
              · next e he =>
                  rcases ih h nv hnv with hmem | hx
                  · rcases mem_set_cases hmem with rfl | hmem
                    · exact Or.inr ⟨⟨a, List.mem_cons_self .., rfl, _, hv⟩,
                        accepted_of_makeEntry hsi he⟩
                    · exact Or.inl hmem
                  · exact Or.inr ⟨hrest nv hx.1, hx.2⟩

/-- What such a loop leaves: the value that an item gives, or the one its name had. -/
theorem collect_get (hnames : (items.map name).Nodup)
    (h : collect secs key name val missing items out = .ok out') :
    (∀ a ∈ items, out'.get (name a) = (val a (out.get (name a))).or (out.get (name a))) ∧
      ∀ n, n ∉ items.map name → out'.get n = out.get n := by
  induction items generalizing out with
  | nil =>
      cases h
      exact ⟨by simp, fun _ _ => rfl⟩
  | cons a rest ih =>
      rw [List.map_cons, List.nodup_cons] at hnames
      unfold collect at h
      split at h
      · next hv =>
          obtain ⟨hitems, hothers⟩ := ih hnames.2 h
          refine ⟨List.forall_mem_cons.mpr ⟨?_, hitems⟩, fun n hn =>
            hothers n fun hmem => hn (List.mem_cons_of_mem _ hmem)⟩
          rw [hothers (name a) hnames.1, hv, Option.none_or]
      · next v hv =>
          split at h
          · cases h
          · split at h
            · cases h
            · obtain ⟨hitems, hothers⟩ := ih hnames.2 h
              refine ⟨List.forall_mem_cons.mpr ⟨?_, fun b hb => ?_⟩, fun n hn => ?_⟩
              · rw [hothers (name a) hnames.1, AnyMap.get_set, if_pos rfl, hv, Option.some_or]
              · have hne : name b ≠ name a := fun heq => hnames.1 (heq ▸ List.mem_map_of_mem hb)
                rw [hitems b hb, AnyMap.get_set, if_neg hne]
              · have hne : n ≠ name a := fun heq => hn (heq ▸ List.mem_cons_self)
                rw [hothers n fun hmem => hn (List.mem_cons_of_mem _ hmem), AnyMap.get_set,
                  if_neg hne]

end Collect

theorem addExplicit_eq (secs : SecIndexes) (key : Bytes) (items : List (Bytes × AnyValue))
    (out : AnyMap) : addExplicit secs key items out
      = collect secs key Prod.fst (fun nv _ => some nv.2) (fun nv => .unknownIndex nv.1)
          items out := by
  fun_induction addExplicit secs key items out with
  | case1 => rfl
  | case2 out name val rest hsi => simp [collect, hsi]
  | case3 out name val rest si hsi e he => simp [collect, hsi, he]
  | case4 out name val rest si hsi e he ih => simp [collect, hsi, he, ih]

/-- The value that an index extracts, unless it has one. -/
def extractNew (key value : Bytes) (d : IndexDef) (cur : Option AnyValue) : Option AnyValue :=
  d.extract.bind fun f => if cur.isSome then none else f key value

theorem extractNew_eq_some {key value : Bytes} {d : IndexDef} {cur : Option AnyValue}
    {v : AnyValue} (h : extractNew key value d cur = some v) :
    d.extract.bind (fun f => f key value) = some v := by
  obtain ⟨f, hf, hval⟩ := Option.bind_eq_some_iff.mp h
  rw [hf]
  split at hval
  · cases hval
  · exact hval

theorem addExtracted_eq (secs : SecIndexes) (key value : Bytes) (defs : List IndexDef)
    (out : AnyMap) : addExtracted secs key value defs out
      = collect secs key IndexDef.name (extractNew key value) (fun _ => .panic) defs out := by
  fun_induction addExtracted secs key value defs out with
  | case1 => rfl
  | case2 out d rest hv ih => simp [collect, extractNew, hv, ih]
  | case3 out d rest v hv hsi => simp [collect, extractNew, hv, hsi]
  | case4 out d rest v hv si hsi e he => simp [collect, extractNew, hv, hsi, he]
  | case5 out d rest v hv si hsi e he ih => simp [collect, extractNew, hv, hsi, he, ih]

theorem addExplicit_mem {secs : SecIndexes} {key : Bytes} {items : List (Bytes × AnyValue)}
    {out out' : AnyMap} (h : addExplicit secs key items out = .ok out') :
    ∀ nv ∈ out', nv ∈ out ∨ nv ∈ items ∧ Accepted secs nv := by
  rw [addExplicit_eq] at h
  intro nv hnv
  rcases collect_mem h nv hnv with hout | ⟨⟨item, hmem, hname, _, hval⟩, hacc⟩
  · exact Or.inl hout
  · exact Or.inr ⟨(Prod.ext hname (Option.some.inj hval) : item = nv) ▸ hmem, hacc⟩

theorem addExtracted_mem {secs : SecIndexes} {key value : Bytes} {defs : List IndexDef}
    {out out' : AnyMap} (h : addExtracted secs key value defs out = .ok out') :
    ∀ nv ∈ out', nv ∈ out ∨ Extracted defs key value nv ∧ Accepted secs nv := by
  rw [addExtracted_eq] at h
  intro nv hnv
  rcases collect_mem h nv hnv with hout | ⟨⟨d, hd, hname, _, hval⟩, hacc⟩
  · exact Or.inl hout
  · exact Or.inr ⟨⟨d, hd, hname, extractNew_eq_some hval⟩, hacc⟩

/-- Every index value of a write was passed or extracted, and its index reads it. -/
theorem buildIndexValues_mem {db : DB} {ord : MapOrder} {key value : Bytes} {explicit ix : AnyMap}
    (h : db.buildIndexValues ord key value explicit = .ok ix) :
    ∀ nv ∈ ix, (nv ∈ explicit ∨ Extracted db.opts.indexes key value nv) ∧
      Accepted db.idx.secs nv := by
  have hempty : ∀ nv, nv ∉ (Tree.empty : AnyMap) := fun nv => Tree.not_mem_empty nv
  rw [DB.buildIndexValues] at h
  split at h
  · cases h
    exact fun nv hnv => absurd hnv (hempty nv)
  · split at h
    · cases hexp : addExplicit db.idx.secs key (ord.items explicit) Tree.empty with
      | error e =>
          rw [hexp] at h
          cases h
      | ok out =>
          rw [hexp] at h
          intro nv hnv
          rcases addExtracted_mem h nv hnv with hout | hx
          · rcases addExplicit_mem hexp nv hout with hbad | ⟨hmem, hacc⟩
            · exact absurd hbad (hempty nv)
            · exact ⟨Or.inl ((ord.perm explicit).mem_iff.mp hmem), hacc⟩
          · exact ⟨Or.inr hx.1, hx.2⟩
    · split at h
      · cases h
        exact fun nv hnv => absurd hnv (hempty nv)
      · cases h

theorem addExtracted_keeps {secs : SecIndexes} {key value : Bytes} {defs : List IndexDef}
    {out out' : AnyMap} (h : addExtracted secs key value defs out = .ok out')
    {nv : Bytes × AnyValue} (hnv : nv ∈ out) : nv ∈ out' := by
  induction defs generalizing out with
  | nil =>
      cases h
      exact hnv
  | cons d rest ih =>
      unfold addExtracted at h
      split at h
      · exact ih h hnv
      · next v hv =>
          split at h
          · cases h
          · split at h
            · cases h
            · refine ih h (Tree.mem_set_key.mpr (Or.inr ⟨hnv, fun hname => ?_⟩))
              -- a name that has a value is not extracted
              obtain ⟨f, _, hval⟩ := Option.bind_eq_some_iff.mp hv
              have hget : out.get d.name = some nv.2 :=
                AnyMap.get_eq_some.mpr ((show nv.1 = d.name from hname) ▸ hnv)
              rw [hget] at hval
              cases hval

/-- What the loop over the declared indexes leaves: an index that has no value yet gets the one it
extracts. -/
theorem addExtracted_get {secs : SecIndexes} {key value : Bytes} {defs : List IndexDef}
    {out out' : AnyMap} (hnames : (defs.map IndexDef.name).Nodup)
    (h : addExtracted secs key value defs out = .ok out') :
    (∀ d ∈ defs, out'.get d.name = (out.get d.name).or (d.extract.bind fun f => f key value)) ∧
      ∀ name, name ∉ defs.map IndexDef.name → out'.get name = out.get name := by
  rw [addExtracted_eq] at h
  obtain ⟨hdefs, hothers⟩ := collect_get hnames h
  refine ⟨fun d hd => ?_, hothers⟩
  rw [hdefs d hd, extractNew]
  cases out.get d.name with
  | none => exact Option.or_none
  | some v => cases d.extract <;> rfl

/-! ## The order of the explicit values -/

theorem addExplicit_ok {secs : SecIndexes} {key : Bytes} {items : List (Bytes × AnyValue)}
    {out out' : AnyMap} (h : addExplicit secs key items out = .ok out') :
    out' = out.setAll items := by
  induction items generalizing out with
  | nil =>
      cases h
      rfl
  | cons item rest ih =>
      unfold addExplicit at h
      split at h
      · cases h
      · split at h
        · cases h
        · exact ih h

/-- A map is rebuilt from its entries in any order. -/
theorem MapOrder.setAll_items (ord : MapOrder) (m : AnyMap) :
    Tree.empty.setAll (ord.items m) = m := by
  have hkeys : (ord.items m).Pairwise fun a b => a.1 ≠ b.1 :=
    (ord.perm m).symm.pairwise m.keys_ne fun hab => hab.symm
  refine Tree.ext_mem fun nv => ?_
  rw [Tree.mem_setAll_key hkeys, (ord.perm m).mem_iff]
  simp [Tree.mem_def, Tree.empty]

/-- The explicit values of a write are among its index values. -/
theorem explicit_mem {db : DB} {ord : MapOrder} {key value : Bytes} {explicit ix : AnyMap}
    (h : db.buildIndexValues ord key value explicit = .ok ix) {nv : Bytes × AnyValue}
    (hnv : nv ∈ explicit) : nv ∈ ix := by
  have hsome : explicit.items ≠ [] := List.ne_nil_of_mem hnv
  rw [DB.buildIndexValues, if_neg fun hnone => hsome hnone.2] at h
  split at h
  · cases hadd : addExplicit db.idx.secs key (ord.items explicit) Tree.empty with
    | error e =>
        rw [hadd] at h
        cases h
    | ok out =>
        rw [hadd] at h
        refine addExtracted_keeps h ?_
        rwa [addExplicit_ok hadd, ord.setAll_items]
  · cases h

/-- The index values of a write do not depend on the order in which the explicit ones are
visited. -/
theorem buildIndexValues_order {db : DB} {ord ord' : MapOrder} {key value : Bytes}
    {explicit ix ix' : AnyMap} (h : db.buildIndexValues ord key value explicit = .ok ix)
    (h' : db.buildIndexValues ord' key value explicit = .ok ix') : ix = ix' := by
  have hexplicit : ∀ (ord : MapOrder) (ix : AnyMap),
      (addExplicit db.idx.secs key (ord.items explicit) Tree.empty).bind
        (addExtracted db.idx.secs key value db.opts.indexes) = .ok ix →
      addExtracted db.idx.secs key value db.opts.indexes explicit = .ok ix := by
    intro ord ix hix
    cases hadd : addExplicit db.idx.secs key (ord.items explicit) Tree.empty with
    | error e =>
        rw [hadd] at hix
        cases hix
    | ok out =>
        rw [hadd] at hix
        rwa [addExplicit_ok hadd, ord.setAll_items] at hix
  rw [DB.buildIndexValues] at h h'
  split at h
  · next hnone =>
      rw [if_pos hnone] at h'
      cases h
      cases h'
      rfl
  · next hsome =>
      rw [if_neg hsome] at h'
      split at h
      · next hobject =>
          rw [if_pos hobject] at h'
          have heq := (hexplicit ord ix h).symm.trans (hexplicit ord' ix' h')
          exact Except.ok.inj heq
      · next hobject =>
          rw [if_neg hobject] at h'
          exact Except.ok.inj (h.symm.trans h')

/-! ## Values that can be stored -/

/-- A value that an index reads and the encoder writes is a scalar. -/
theorem scalar_of_accepted {secs : SecIndexes} {nv : Bytes × AnyValue} (h : Accepted secs nv)
    (henc : nv.2.encode ≠ none) : nv.2.Scalar := by
  obtain ⟨si, _, hentry⟩ := h
  obtain ⟨e, he⟩ := hentry []
  have hread : toFloat nv.2 ≠ none ∨ toStr nv.2 ≠ none := by
    unfold SecIndex.makeEntry at he
    split at he
    · refine Or.inl fun hnone => ?_
      rw [hnone] at he
      cases he
    · refine Or.inr fun hnone => ?_
      rw [hnone] at he
      cases he
  cases hv : nv.2 with
  | null => simp [hv, toFloat, toStr] at hread
  | bool b => simp [hv, toFloat, toStr] at hread
  | compound j => simp [hv, toFloat, toStr] at hread
  | str s => trivial
  | f64 x =>
      by_contra hfin
      rw [hv] at henc
      exact henc (if_neg hfin)
  | f32 x =>
      by_contra hfin
      rw [hv] at henc
      exact henc (if_neg hfin)
  | int i => trivial
  | number lit hlit =>
      rw [hv] at hread
      rcases hread with hf | hs
      · exact Option.isSome_iff_ne_none.mpr hf
      · exact absurd rfl hs

/-- Every value of the map is one that its index reads. -/
def AcceptedMap (secs : SecIndexes) (ix : AnyMap) : Prop := ∀ nv ∈ ix, Accepted secs nv

theorem acceptedMap_empty (secs : SecIndexes) : AcceptedMap secs Tree.empty :=
  fun nv h => absurd h (Tree.not_mem_empty nv)

/-- The values of a record that was marshalled are scalars. -/
theorem scalar_of_marshal {secs : SecIndexes} {r : Record} {line : Bytes}
    (hacc : AcceptedMap secs r.ix) (h : marshalRecord r = some line) : r.ix.Scalar := by
  have hix : r.toWire.ix = r.ix := by
    simp only [Record.toWire]
    split <;> rfl
  obtain ⟨js, hjs, _⟩ := Option.map_eq_some_iff.mp (show r.toWire.marshal = some line from h)
  rw [hix] at hjs
  exact fun nv hnv => scalar_of_accepted (hacc nv hnv)
    (AnyMap.encodable_of_encodeMembers hjs nv hnv)

/-- Names of the declared indexes survive JSON, and so do the values that are extracted under
keys that do. -/
def CarriedDefs (defs : List IndexDef) : Prop :=
  ∀ d ∈ defs, Utf8.valid d.name = true ∧ ∀ key value v, Utf8.valid key = true →
    d.extract.bind (fun f => f key value) = some v → CarriedValue v

theorem carried_buildIndexValues {db : DB} {ord : MapOrder} {key value : Bytes}
    {explicit ix : AnyMap} (hdefs : CarriedDefs db.opts.indexes) (hkey : Utf8.valid key = true)
    (hexp : CarriedMap explicit) (h : db.buildIndexValues ord key value explicit = .ok ix) :
    CarriedMap ix := by
  intro nv hnv
  rcases (buildIndexValues_mem h nv hnv).1 with hmem | ⟨d, hd, hname, hval⟩
  · exact hexp nv hmem
  · exact ⟨hname ▸ (hdefs d hd).1, (hdefs d hd).2 key value nv.2 hkey hval⟩

theorem Storable.of_carried {m : AnyMap} (hs : m.Scalar) (hc : CarriedMap m) : Storable m :=
  fun nv hnv => ⟨hs nv hnv, hc nv hnv⟩

/-! ## The items of a batch -/

/-- What the checks on an item say of it. -/
theorem checkItem_ok {db : DB} {now : Millis} {ord : MapOrder} {i : Nat} {it : PutItem}
    {c : CheckedItem} (h : db.checkItem now ord i it = .ok c) :
    c.item = it ∧ db.buildIndexValues ord it.key it.value it.ix = .ok c.ix ∧
      db.checkSelfEviction ord it.key c.ix = .ok () ∧ ¬ it.ttl < 0 ∧
      c.exp = if 0 < it.ttl then now.ms + it.ttl / 1000000 else 0 := by
  unfold DB.checkItem at h
  split at h
  · cases h
  · next ix hix =>
      split at h
      · cases h
      · next hkept =>
          split at h
          · cases h
          · next httl =>
              cases h
              exact ⟨rfl, hix, hkept, httl, rfl⟩

theorem checkItem_error {db : DB} {now : Millis} {ord : MapOrder} {i : Nat} {it : PutItem} {e : Err}
    (h : db.checkItem now ord i it = .error e) : ∃ key cause, e = .batchItem i key cause := by
  unfold DB.checkItem at h
  split at h
  · cases h
    exact ⟨_, _, rfl⟩
  · split at h
    · cases h
      exact ⟨_, _, rfl⟩
    · split at h
      · cases h
        exact ⟨_, _, rfl⟩
      · cases h

theorem checkItems_cons {db : DB} {now : Millis} {ords : Nat → MapOrder} {i : Nat} {it : PutItem}
    {rest : List PutItem} : db.checkItems now ords i (it :: rest)
      = (db.checkItem now (ords i) i it).bind fun c =>
          (db.checkItems now ords (i + 1) rest).bind fun cs => .ok (c :: cs) := rfl

theorem checkItems_cons_ok {db : DB} {now : Millis} {ords : Nat → MapOrder} {i : Nat} {it : PutItem}
    {rest : List PutItem} {cs : List CheckedItem}
    (h : db.checkItems now ords i (it :: rest) = .ok cs) :
    ∃ c cs', db.checkItem now (ords i) i it = .ok c ∧
      db.checkItems now ords (i + 1) rest = .ok cs' ∧ cs = c :: cs' := by
  rw [checkItems_cons] at h
  cases hc : db.checkItem now (ords i) i it with
  | error e =>
      rw [hc] at h
      cases h
  | ok c =>
      cases hrest : db.checkItems now ords (i + 1) rest with
      | error e =>
          rw [hc, hrest] at h
          cases h
      | ok cs' =>
          rw [hc, hrest] at h
          cases h
          exact ⟨c, cs', rfl, rfl, rfl⟩

/-- A checked batch is the batch, each item with its checks passed. -/
theorem checkItems_ok {db : DB} {now : Millis} {ords : Nat → MapOrder} {i : Nat}
    {items : List PutItem} {cs : List CheckedItem} (h : db.checkItems now ords i items = .ok cs) :
    cs.map CheckedItem.item = items ∧
      ∀ c ∈ cs, ∃ j, db.checkItem now (ords j) j c.item = .ok c := by
  induction items generalizing i cs with
  | nil =>
      cases h
      simp
  | cons it rest ih =>
      obtain ⟨c, cs', hc, hrest, rfl⟩ := checkItems_cons_ok h
      obtain ⟨hmap, hall⟩ := ih hrest
      have hitem := (checkItem_ok hc).1
      refine ⟨by rw [List.map_cons, hitem, hmap], List.forall_mem_cons.mpr ⟨⟨i, ?_⟩, hall⟩⟩
      rw [hitem]
      exact hc

theorem checkItems_error {db : DB} {now : Millis} {ords : Nat → MapOrder} {i : Nat}
    {items : List PutItem} {e : Err} (h : db.checkItems now ords i items = .error e) :
    ∃ j key cause, e = .batchItem j key cause := by
  induction items generalizing i with
  | nil => cases h
  | cons it rest ih =>
      rw [checkItems_cons] at h
      cases hc : db.checkItem now (ords i) i it with
      | error e' =>
          rw [hc] at h
          cases h
          exact ⟨i, checkItem_error hc⟩
      | ok c =>
          rw [hc] at h
          cases hrest : db.checkItems now ords (i + 1) rest with
          | error e' =>
              rw [hrest] at h
              cases h
              exact ih hrest
          | ok cs =>
              rw [hrest] at h
              cases h

theorem checkItem_order {db : DB} {now : Millis} {ord ord' : MapOrder} {i : Nat} {it : PutItem}
    {c c' : CheckedItem} (h : db.checkItem now ord i it = .ok c)
    (h' : db.checkItem now ord' i it = .ok c') : c = c' := by
  obtain ⟨hitem, hbuilt, _, _, hexp⟩ := checkItem_ok h
  obtain ⟨hitem', hbuilt', _, _, hexp'⟩ := checkItem_ok h'
  obtain ⟨item, ix, exp⟩ := c
  obtain ⟨item', ix', exp'⟩ := c'
  cases hitem.trans hitem'.symm
  cases buildIndexValues_order hbuilt hbuilt'
  cases hexp.trans hexp'.symm
  rfl

/-- What pass 1 of a batch finds does not depend on the orders in which maps are visited. -/
theorem checkItems_order {db : DB} {now : Millis} {ords ords' : Nat → MapOrder} {i : Nat}
    {items : List PutItem} {cs cs' : List CheckedItem} (h : db.checkItems now ords i items = .ok cs)
    (h' : db.checkItems now ords' i items = .ok cs') : cs = cs' := by
  induction items generalizing i cs cs' with
  | nil =>
      cases h
      cases h'
      rfl
  | cons it rest ih =>
      obtain ⟨c, rest₁, hc, hrest, rfl⟩ := checkItems_cons_ok h
      obtain ⟨c', rest₂, hc', hrest', rfl⟩ := checkItems_cons_ok h'
      rw [checkItem_order hc hc', ih hrest hrest']

theorem checkItems_accepted {db : DB} {now : Millis} {ords : Nat → MapOrder} {i : Nat}
    {items : List PutItem} {cs : List CheckedItem} (h : db.checkItems now ords i items = .ok cs) :
    ∀ c ∈ cs, AcceptedMap db.idx.secs c.ix := by
  intro c hc
  obtain ⟨j, hj⟩ := (checkItems_ok h).2 c hc
  exact fun nv hnv => (buildIndexValues_mem (checkItem_ok hj).2.1 nv hnv).2

end NteeDb.Core
