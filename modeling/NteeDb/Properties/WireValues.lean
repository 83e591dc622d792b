import NteeDb.Server.Values

/-!
# Stored bytes over the wire

What the JS client makes of the server's answer to `get`: the value of a text that is JSON, the
bytes of any other one.  `json.Valid` does not look at the UTF-8 inside strings, so that a value
that is JSON on bytes but not UTF-8 is embedded, and the client's decoding replaces its bytes.
-/

namespace NteeDb.Properties.WireValues

open NteeDb.Verified NteeDb.Verified.Json NteeDb.Verified.JsonTokens
open NteeDb.Verified.TextDecoder
  (Leads leads_ascii leads_of_valid decode_eq ascii_of_all decode_ascii_append)
open NteeDb.Verified.Lines (newline)
open NteeDb.Net

/-- The value is JSON text in UTF-8. -/
def isJsonText (value : Bytes) : Bool := jsonValid value && Utf8.valid value

/-! ## Lines of tokens -/

theorem printAll_append (ts ts' : List JsonTokens.Token) :
    printAll (ts ++ ts') = printAll ts ++ printAll ts' := List.flatMap_append

theorem foundHead_wf : ∀ t ∈ foundHead, t.WF := by decide

theorem foundHead_run : foundHead.foldlM step (.value false, []) = some (.value false,
    [.member [(nameUnits ['o', 'k'], .bool true),
      (nameUnits ['f', 'o', 'u', 'n', 'd'], .bool true)]
      (nameUnits ['r', 'e', 's', 'u', 'l', 't'])]) := rfl

/-- A line whose result is printed from the tokens of a value. -/
theorem receiveGet_printed {value : Bytes} {ts : List JsonTokens.Token} {v : Tree}
    (hprinted : jsonValue value = printAll ts) (hwf : ∀ t ∈ ts, t.WF) (hbuild : build ts = some v)
    (hleads : Leads .start (printAll ts) .start) :
    receiveGet (foundLine value) = some (decodeValue v) := by
  have hline : foundLine value = printAll (foundHead ++ ts ++ [.rbrace]) := by
    rw [foundLine, hprinted, printAll_append, printAll_append]
  have hall : ∀ t ∈ foundHead ++ ts ++ [.rbrace], t.WF := by
    simp only [List.forall_mem_append]
    exact ⟨⟨foundHead_wf, hwf⟩, fun t ht => by cases List.mem_singleton.mp ht; trivial⟩
  have htext : Leads .start (foundLine value) .start := by
    rw [foundLine, hprinted]
    exact ((leads_ascii (ascii_of_all rfl)).append hleads).append (leads_ascii (ascii_of_all rfl))
  have hobj := build_member foundHead foundHead_run hbuild
  rw [receiveGet, parseText, decode_eq htext, hline, parse_printAll hall hobj]
  rfl

theorem newline_not_mem_printed {value : Bytes} {ts : List JsonTokens.Token}
    (hprinted : jsonValue value = printAll ts) (hwf : ∀ t ∈ ts, t.WF) :
    newline ∉ foundLine value := by
  intro hmem
  rw [foundLine, hprinted, List.mem_append, List.mem_append] at hmem
  rcases hmem with (hmem | hmem) | hmem
  · exact absurd hmem (by decide)
  · exact absurd (printAll_ge hwf newline hmem) (by decide)
  · exact absurd hmem (by decide)

/-! ## Wrapped values -/

/-- The tokens of a wrapped value. -/
def wrappedTokens (value : Bytes) : List JsonTokens.Token :=
  [.lbrace, nameToken ['b', 'a', 's', 'e', '6', '4'], .colon,
    .str ((Base64.encode value).map .byte), .comma, nameToken ['b', 'i', 'n'], .colon, .bool true,
    .rbrace]

/-- Base64 needs no escapes. -/
theorem encode_safe (value : Bytes) : ∀ b ∈ Base64.encode value, safe b = true ∧ b < 0x80 := by
  have hall : ∀ n : Fin 64, safe (Base64.symbol n.val) = true ∧ Base64.symbol n.val < 0x80 := by
    decide
  exact Base64.encode_forall (fun n hn => hall ⟨n, hn⟩) (by decide) value

theorem wrapped_eq (value : Bytes) : wrapped value = printAll (wrappedTokens value) := by
  have hstr : printStr (Base64.encode value)
      = Token.print (.str ((Base64.encode value).map .byte)) := by
    rw [printStr, escape_of_safe (encode_safe value), Token.print, printPieces_bytes]
  rw [wrapped, hstr]
  simp [printAll, wrappedTokens]

theorem wrappedTokens_wf (value : Bytes) : ∀ t ∈ wrappedTokens value, t.WF := by
  have hbytes : Token.WF (.str ((Base64.encode value).map .byte)) := by
    intro p hp
    obtain ⟨b, hb, rfl⟩ := List.mem_map.mp hp
    have hall : ∀ b : UInt8, safe b = true → Piece.WF (.byte b) :=
      forall_byte (by set_option maxRecDepth 2000 in decide)
    exact hall b (encode_safe value b hb).1
  simp only [wrappedTokens, List.forall_mem_cons]
  exact ⟨trivial, by decide, trivial, hbytes, trivial, by decide, trivial, trivial,
    trivial, by simp⟩

theorem leads_wrapped (value : Bytes) :
    Leads .start (printAll (wrappedTokens value)) .start := by
  rw [← wrapped_eq]
  refine leads_ascii ?_
  rw [wrapped, printStr, escape_of_safe (encode_safe value)]
  simp only [List.forall_mem_append, List.forall_mem_cons]
  exact ⟨⟨ascii_of_all rfl, by decide, fun b hb => (encode_safe value b hb).2, by decide, by simp⟩,
    ascii_of_all rfl⟩

/-- A wrapped value is unwrapped. -/
theorem receiveGet_wrapped {value : Bytes} (h : jsonValid value = false) :
    receiveGet (foundLine value) = some (.buffer value) := by
  have hprinted : jsonValue value = printAll (wrappedTokens value) := by
    rw [jsonValue, h, ← wrapped_eq]
    rfl
  have hbuild : build (wrappedTokens value) = some (.obj
      [(nameUnits ['b', 'a', 's', 'e', '6', '4'], .str (units ((Base64.encode value).map .byte))),
        (nameUnits ['b', 'i', 'n'], .bool true)]) := rfl
  rw [receiveGet_printed hprinted (wrappedTokens_wf value) hbuild (leads_wrapped value),
    units_ascii fun b hb => (encode_safe value b hb).2]
  have hunwrap := bufferFrom_encode value
  exact congrArg (fun bytes => some (Decoded.buffer bytes)) hunwrap

/-! ## Embedded values -/

theorem jsonValue_embedded {value : Bytes} {ts : List JsonTokens.Token} {v : Tree}
    (hlex : lex value = some ts) (hbuild : build ts = some v) :
    jsonValue value = printAll (ts.map Token.escape) := by
  have hvalid : jsonValid value = true := by
    rw [jsonValid, JsonTokens.parse, hlex, Option.bind_some, hbuild]
    rfl
  rw [jsonValue, if_pos hvalid, compact, hlex]
  rfl

theorem escaped_wf {value : Bytes} {ts : List JsonTokens.Token} (hlex : lex value = some ts) :
    ∀ t ∈ ts.map Token.escape, t.WF := by
  intro t ht
  obtain ⟨t', ht', rfl⟩ := List.mem_map.mp ht
  exact ((lexFrom_spec hlex).2 t' ht').escape

/-- An embedded value in UTF-8 arrives as its own parse. -/
theorem receiveGet_embedded {value : Bytes} {v : Tree} (hutf8 : Utf8.valid value = true)
    (h : JsonTokens.parse value = some v) :
    receiveGet (foundLine value) = some (decodeValue v) := by
  obtain ⟨ts, hlex, hbuild⟩ := Option.bind_eq_some_iff.mp h
  have hleads : Leads .start (printAll (ts.map Token.escape)) .start :=
    leads_compact (Option.map_eq_some_iff.mpr ⟨ts, hlex, rfl⟩) (leads_of_valid hutf8)
  exact receiveGet_printed (jsonValue_embedded hlex hbuild) (escaped_wf hlex)
    ((build_escape ts).trans hbuild) hleads

/-- The bytes that a value is unwrapped to come from one of its strings. -/
theorem decodeGet_buffer {P : List Nat → Prop} {tree : Tree} (hstrings : Strings P tree)
    {bytes : Bytes} (h : decodeGet tree = some (.buffer bytes)) :
    ∃ s, P s ∧ bytes = bufferFrom s := by
  unfold decodeGet at h
  split at h
  · next env =>
      cases hstrings with
      | obj henv =>
          split at h
          · cases h
          split at h
          · obtain ⟨v, hv, hbuf⟩ := Option.map_eq_some_iff.mp h
            have hmember := strings_getMember henv hv
            unfold decodeValue at hbuf
            split at hbuf
            · next s hs =>
                cases hbuf
                unfold wrappedText at hs
                split at hs
                · split at hs
                  · next hbase =>
                      cases hmember with
                      | obj hms =>
                          cases strings_getMember hms hbase with
                          | str hP =>
                              split at hs
                              · cases hs
                                exact ⟨_, hP, rfl⟩
                              · cases hs
                  · cases hs
                · cases hs
            · cases hbuf
          · cases h
  · cases h

/-- An embedded value that is unwrapped gives fewer bytes than it has, whatever decoding has made
of its strings. -/
theorem embedded_shorter {value : Bytes} (hjson : jsonValid value = true) {bytes : Bytes}
    (h : receiveGet (foundLine value) = some (.buffer bytes)) :
    4 * bytes.length ≤ 3 * value.length := by
  obtain ⟨v, hv⟩ := Option.isSome_iff_exists.mp hjson
  obtain ⟨ts, hlex, hbuild⟩ := Option.bind_eq_some_iff.mp hv
  have hwf : ∀ t ∈ ts.map Token.escape ++ [.rbrace], t.WF :=
    List.forall_mem_append.mpr ⟨escaped_wf hlex, List.forall_mem_singleton.mpr trivial⟩
  obtain ⟨rest, hrel, hdecode⟩ := decode_printAll hwf
  have htext : TextDecoder.decode (foundLine value) = printAll (foundHead ++ rest) := by
    rw [foundLine, jsonValue_embedded hlex hbuild, List.append_assoc, ← printAll_append,
      decode_ascii_append (ascii_of_all rfl), hdecode, printAll_append]
  have hsep : Separate (foundHead ++ (ts.map Token.escape ++ [.rbrace])) := by
    have hobj := build_member foundHead foundHead_run ((build_escape ts).trans hbuild)
    rw [List.append_assoc] at hobj
    exact separate_of_run (build_eq_some.mp hobj)
  have hread : lex (printAll (foundHead ++ rest)) = some (foundHead ++ rest) :=
    lex_redecoded (List.rel_append (List.forall₂_same.mpr fun t _ => .same t) hrel)
      (List.forall_mem_append.mpr ⟨foundHead_wf, hwf⟩) hsep
  rw [receiveGet, parseText, htext, JsonTokens.parse, hread, Option.bind_some] at h
  obtain ⟨tree, htree, hget⟩ := Option.bind_eq_some_iff.mp h
  -- the strings of the tree are literals of the value, decoded
  have hliterals : ∀ t ∈ rest, t.Strings fun s =>
      (s.countP fun u => (sextet u).isSome) ≤ value.length := by
    refine strings_redecoded hrel fun ps hps ps' hle => ?_
    have hmem : Token.str ps ∈ ts.map Token.escape := by simpa using hps
    obtain ⟨t, ht, hescape⟩ := List.mem_map.mp hmem
    cases t with
    | str qs =>
        cases hescape
        calc (units ps').countP (fun u => (sextet u).isSome)
            ≤ ps'.countP Piece.starts :=
              count_units (fun u hu => (sextet_lt hu).trans (by decide)) ps'
          _ ≤ (escapeFrom 0 qs).length := hle
          _ ≤ qs.length := length_escapeFrom_le 0 qs
          _ ≤ value.length := length_pieces_le hlex ht
    | _ => cases hescape
  have hrun := build_eq_some.mp htree
  rw [List.foldlM_append, foundHead_run] at hrun
  have hstrings : Strings (fun s => (s.countP fun u => (sextet u).isSome) ≤ value.length) tree := by
    refine strings_run hliterals ?_ ?_ hrun
    · trivial
    · exact List.forall_mem_singleton.mpr
        (List.forall_mem_cons.mpr ⟨.bool true, List.forall_mem_singleton.mpr (.bool true)⟩)
  obtain ⟨s, hs, rfl⟩ := decodeGet_buffer hstrings hget
  have hlength := length_bufferFrom_le s
  omega

/-- A response is one line. -/
theorem newline_not_mem_foundLine (value : Bytes) : newline ∉ foundLine value := by
  cases h : JsonTokens.parse value with
  | some v =>
      obtain ⟨ts, hlex, hbuild⟩ := Option.bind_eq_some_iff.mp h
      exact newline_not_mem_printed (jsonValue_embedded hlex hbuild) (escaped_wf hlex)
  | none =>
      have hprinted : jsonValue value = printAll (wrappedTokens value) := by
        rw [jsonValue, jsonValid, h, ← wrapped_eq]
        rfl
      exact newline_not_mem_printed hprinted (wrappedTokens_wf value)

/-- **Stored bytes come back over the wire.**  The response to `get` is one line, and the client's
decoding of it gives the bytes of a value that is not JSON text in UTF-8, and the parse of one that
is, unless it has the shape of a wrapped value.  This holds of a stored value exactly if it is
UTF-8, or not JSON on bytes either. -/
theorem stored_bytes_come_back (value : Bytes) :
    (newline ∉ foundLine value ∧
      (isJsonText value = false → receiveGet (foundLine value) = some (.buffer value)) ∧
      (isJsonText value = true → ∃ v, parseText value = some v ∧
        (wrappedText v = none → receiveGet (foundLine value) = some (.value v)))) ↔
    (Utf8.valid value = true ∨ jsonValid value = false) := by
  constructor
  · rintro ⟨_, hbytes, _⟩
    by_contra hneither
    obtain ⟨hutf8, hjson⟩ := not_or.mp hneither
    rw [Bool.not_eq_true] at hutf8
    rw [Bool.not_eq_false] at hjson
    -- the bytes would be fewer than they are, and no bytes are UTF-8
    have hlength := embedded_shorter hjson (hbytes (by rw [isJsonText, hutf8, Bool.and_false]))
    have hnil : value = [] := List.length_eq_zero_iff.mp (by omega)
    rw [hnil] at hutf8
    exact absurd hutf8 (by decide)
  · intro h
    refine ⟨newline_not_mem_foundLine value, fun hnot => ?_, fun htext => ?_⟩
    · have hinvalid : jsonValid value = false := by
        rcases h with hutf8 | hinvalid
        · rwa [isJsonText, hutf8, Bool.and_true] at hnot
        · exact hinvalid
      exact receiveGet_wrapped hinvalid
    · obtain ⟨hjson, hutf8⟩ := Bool.and_eq_true_iff.mp htext
      obtain ⟨v, hv⟩ := Option.isSome_iff_exists.mp hjson
      refine ⟨v, ?_, fun hshape => ?_⟩
      · rw [parseText, decode_eq (leads_of_valid hutf8), hv]
      · rw [receiveGet_embedded hutf8 hv, decodeValue, hshape]

/-- The value is a string of one byte `FF`: JSON to the server, not UTF-8. -/
theorem invalid_utf8_comes_back_as_string :
    isJsonText [0x22, 0xFF, 0x22] = false ∧
      receiveGet (foundLine [0x22, 0xFF, 0x22]) = some (.value (.str [0xFFFD])) := by
  exact ⟨by decide, rfl⟩

/-- An object with white space, and a text that is not JSON. -/
theorem object_and_text_come_back :
    receiveGet (foundLine [0x7B, 0x20, 0x22, 0x3C, 0x22, 0x3A, 0x0A, 0x31, 0x7D])
      = some (.value (.obj [([0x3C], .num [0x31])])) ∧
    receiveGet (foundLine [0x68, 0x69, 0x0A]) = some (.buffer [0x68, 0x69, 0x0A]) := by
  obtain ⟨_, _, hjson⟩ := (stored_bytes_come_back
    [0x7B, 0x20, 0x22, 0x3C, 0x22, 0x3A, 0x0A, 0x31, 0x7D]).mpr (Or.inl (by decide))
  obtain ⟨_, hother, _⟩ :=
    (stored_bytes_come_back [0x68, 0x69, 0x0A]).mpr (Or.inl (by decide))
  obtain ⟨v, hv, hgot⟩ := hjson (by decide)
  cases hv
  exact ⟨hgot rfl, hother (by decide)⟩

end NteeDb.Properties.WireValues
