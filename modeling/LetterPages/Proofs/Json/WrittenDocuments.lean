import LetterPages.Proofs.Json.DocumentText
import LetterPages.Proofs.Json.Punctuation

/-!
# The written documents

The tokens of a chunk file and of the metadata. A chunk file is one line without spaces outside of
literals; its records keep the order of their fields, and the files of two chunks are joined at
their brackets. The spaced form of the metadata is the compact form with a space behind each comma
and each colon outside of literals.
-/

namespace LetterPages

open Json

/-! ## Tokens of the documents -/

/-- The names and values of a record as they stand in its text. -/
def Record.texts (r : Record) : List String :=
  r.fields.flatMap fun f => [f.1, f.2]

def Record.written (r : Record) : List Token :=
  objectTokens (r.fields.map fun f => (f.1, [.ofText f.2]))

def Chunk.written (c : Chunk) : List Token :=
  arrayTokens (c.records.map Record.written)

def Metadata.written (m : Metadata) : List Token :=
  objectTokens [
    ("total_letters", (numeral m.totalLetters).map .mark),
    ("chunks", (numeral m.chunks).map .mark),
    ("chunk_size", (numeral m.chunkSize).map .mark),
    ("fields", arrayTokens (m.fields.map fun v => [.ofText v]))]

theorem Record.laid (r : Record) : Laid [] (r.json .compact) r.written := by
  refine laid_object (fun c hc => by cases hc) ?_
  rw [List.forall₂_map_left_iff, List.forall₂_map_right_iff, List.forall₂_same]
  exact fun f _ => ⟨rfl, laid_quoted f.2.toList⟩

theorem Chunk.laid (c : Chunk) : Laid [] c.json c.written := by
  refine laid_array (fun c hc => by cases hc) ?_
  rw [List.forall₂_map_left_iff, List.forall₂_map_right_iff, List.forall₂_same]
  exact fun r _ => r.laid

namespace Json

theorem isDigit_of_mem_numeral {n : UInt64} {c : Char} (h : c ∈ numeral n) : c.isDigit = true := by
  rw [numeral, Nat.toString_eq_repr, Nat.toList_repr] at h
  exact Nat.isDigit_of_mem_toDigits (by decide) (by decide) h

theorem laid_numeral {gap : List Char} (n : UInt64) :
    Laid gap (numeral n) ((numeral n).map .mark) := by
  refine laid_marks fun c hc => ?_
  have hdigit := isDigit_of_mem_numeral hc
  refine ⟨?_, ?_, ?_⟩ <;>
    · rintro rfl
      exact absurd hdigit (by decide)

end Json

theorem Metadata.laid {gap : List Char} (hgap : ∀ c ∈ gap, c = ' ') (m : Metadata) :
    Laid gap (m.json (.withGap gap)) m.written :=
  laid_object hgap (.cons ⟨rfl, laid_numeral _⟩ (.cons ⟨rfl, laid_numeral _⟩
    (.cons ⟨rfl, laid_numeral _⟩ (.cons ⟨rfl, laid_strings hgap _⟩ .nil))))

/-! ## Chunk files -/

namespace Json

theorem separated_append {separator : List Char} {s t : List (List Char)} (hs : s ≠ [])
    (ht : t ≠ []) : separated separator (s ++ t) =
      separated separator s ++ separator ++ separated separator t := by
  cases t with
  | nil => exact absurd rfl ht
  | cons first t =>
    induction s with
    | nil => exact absurd rfl hs
    | cons item s ih =>
      cases s with
      | nil => rfl
      | cons next s =>
        have hrest := ih (List.cons_ne_nil _ _)
        calc separated separator (item :: (next :: s ++ first :: t))
            = item ++ separator ++ separated separator (next :: s ++ first :: t) := rfl
          _ = item ++ separator ++ separated separator (next :: s) ++ separator ++
              separated separator (first :: t) := by
            rw [hrest]
            simp only [List.append_assoc]

end Json

theorem Record.literals_written (r : Record) :
    literals r.written = r.texts.map fun s => s.toList.flatMap escaped := by
  rw [Record.written, literals_objectTokens, List.flatMap_map, Record.texts, List.map_flatMap]
  rfl

theorem Record.objects_written (r : Record) (rest : List Token) :
    objects (r.written ++ rest) =
      (r.names.map fun s => s.toList.flatMap escaped) :: objects rest := by
  rw [Record.written, objects_object, Record.names, List.map_map, List.map_map]
  · rfl
  · intro m hm
    obtain ⟨f, -, rfl⟩ := List.mem_map.mp hm
    refine ⟨nameless_literal _, fun t ht => ?_⟩
    rw [List.mem_singleton.mp ht]
    exact ⟨nofun, nofun⟩

theorem Record.mark_mem_written {r : Record} {c : Char} (h : .mark c ∈ r.written) :
    c ∈ punctuation := by
  rcases mark_mem_objectTokens h with h | ⟨m, hm, h⟩
  · exact h
  · obtain ⟨f, -, rfl⟩ := List.mem_map.mp hm
    cases List.mem_singleton.mp h

theorem Chunk.literals_written (c : Chunk) : literals c.written =
    (c.records.flatMap Record.texts).map fun s => s.toList.flatMap escaped := by
  rw [Chunk.written, literals_arrayTokens, List.flatMap_map, List.map_flatMap]
  exact List.flatMap_congr fun r _ => r.literals_written

theorem Chunk.mark_mem_written {c : Chunk} {x : Char} (h : .mark x ∈ c.written) :
    x ∈ punctuation := by
  rcases mark_mem_arrayTokens h with h | ⟨ts, hts, h⟩
  · exact h
  · obtain ⟨r, -, rfl⟩ := List.mem_map.mp hts
    exact r.mark_mem_written h

/-- What stands between the brackets of a chunk file. -/
def Chunk.line (c : Chunk) : List Char :=
  separated [','] (c.records.map (Record.json .compact))

theorem Chunk.encode_eq (c : Chunk) : c.encode = 0x5B :: (Utf8.encode c.line ++ [0x5D]) :=
  (Utf8.encode_append ('[' :: c.line) [']']).trans rfl

theorem Chunk.line_append {c d e : Chunk} (hc : c.records ≠ []) (hd : d.records ≠ [])
    (h : e.records = c.records ++ d.records) : e.line = c.line ++ [','] ++ d.line := by
  rw [Chunk.line, h, List.map_append]
  exact separated_append (mt List.map_eq_nil_iff.mp hc) (mt List.map_eq_nil_iff.mp hd)

theorem Chunk.encode_append {c d e : Chunk} (hc : c.records ≠ []) (hd : d.records ≠ [])
    (h : e.records = c.records ++ d.records) :
    ∃ s t, c.encode = s ++ [0x5D] ∧ d.encode = 0x5B :: t ∧ e.encode = s ++ 0x2C :: t := by
  refine ⟨0x5B :: Utf8.encode c.line, Utf8.encode d.line ++ [0x5D], c.encode_eq, d.encode_eq, ?_⟩
  rw [e.encode_eq, Chunk.line_append hc hd h, Utf8.encode_append, Utf8.encode_append,
    List.append_assoc, List.append_assoc]
  rfl

/-- A chunk file is one line of text. No mark outside of its literals is a space, each character in
a literal has one form, the names of an object stand in the order of the record's fields, and the
files of two chunks are joined by a comma in place of their inner brackets. -/
theorem Chunk.encode_shape (c : Chunk) :
    ∃ text, Utf8.decode? c.encode = some text ∧ (∀ b ∈ c.encode, 0x20 ≤ b) ∧
      (tokens text).flatMap Token.text = text ∧
      (∀ x, .mark x ∈ tokens text → x ∈ punctuation) ∧
      List.Forall₂ (fun raw s => WritesText raw s.toList) (literals (tokens text))
        (c.records.flatMap Record.texts) ∧
      List.Forall₂ (List.Forall₂ fun raw s => WritesText raw s.toList) (objects (tokens text))
        (c.records.map Record.names) ∧
      ∀ d e : Chunk, c.records ≠ [] → d.records ≠ [] → e.records = c.records ++ d.records →
        ∃ s t, c.encode = s ++ [0x5D] ∧ d.encode = 0x5B :: t ∧ e.encode = s ++ 0x2C :: t := by
  have htokens : tokens c.json = c.written := c.laid.tokens_compact
  have hmarks : ∀ x, .mark x ∈ tokens c.json → x ∈ punctuation := by
    intro x hx
    exact mark_mem_written (htokens ▸ hx)
  have hliterals : List.Forall₂ (fun raw s => WritesText raw s.toList) (literals (tokens c.json))
      (c.records.flatMap Record.texts) := by
    rw [htokens, c.literals_written, List.forall₂_map_left_iff, List.forall₂_same]
    exact fun s _ => writesText_escaped s.toList
  refine ⟨c.json, Utf8.decode?_encode _, ?_, c.laid.text_tokens, hmarks, hliterals, ?_,
    fun d e => Chunk.encode_append⟩
  · have hline : ∀ x ∈ (tokens c.json).flatMap Token.text, 0x20 ≤ x.toNat := by
      refine text_not_control (fun x hx => punctuation_not_control x (hmarks x hx))
        fun raw hraw => ?_
      exact exists_writesText c.literals_written (htokens ▸ hraw)
    rw [c.laid.text_tokens] at hline
    exact encode_not_control hline
  · rw [htokens, Chunk.written, objects_array fun r rest => r.objects_written rest]
    rw [List.forall₂_map_left_iff, List.forall₂_map_right_iff, List.forall₂_same]
    intro r _
    rw [List.forall₂_map_left_iff, List.forall₂_same]
    exact fun s _ => writesText_escaped s.toList

def greeting : Record :=
  ⟨[("id", "1"), ("text", "a\n\"é\"")]⟩

def reply : Record :=
  ⟨[("id", "2"), ("text", "")]⟩

/-- The record of the second chunk comes behind that of the first. -/
theorem Chunk.encode_shape_joined : ∃ s t, (Chunk.mk 0 [greeting]).encode = s ++ [0x5D] ∧
    (Chunk.mk 1 [reply]).encode = 0x5B :: t ∧
    (Chunk.mk 0 [greeting, reply]).encode = s ++ 0x2C :: t := by
  obtain ⟨_, _, _, _, _, _, _, hjoined⟩ := Chunk.encode_shape ⟨0, [greeting]⟩
  exact hjoined ⟨1, [reply]⟩ ⟨0, [greeting, reply]⟩ (by decide) (by decide) rfl

/-! ## The metadata -/

namespace Json

theorem nameless_numeral (n : UInt64) : Nameless ((numeral n).map .mark) ∧
    ∀ t ∈ (numeral n).map Token.mark, t ≠ .mark '{' ∧ t ≠ .mark '}' := by
  refine ⟨nameless_marks _, fun t ht => ?_⟩
  obtain ⟨c, hc, rfl⟩ := List.mem_map.mp ht
  have hdigit := isDigit_of_mem_numeral hc
  refine ⟨?_, ?_⟩ <;>
    · intro heq
      cases heq
      exact absurd hdigit (by decide)

theorem nameless_strings (values : List String) :
    Nameless (arrayTokens (values.map fun v => [.ofText v])) ∧
      ∀ t ∈ arrayTokens (values.map fun v => [.ofText v]), t ≠ .mark '{' ∧ t ≠ .mark '}' := by
  constructor
  · refine nameless_array fun ts hts => ?_
    obtain ⟨v, -, rfl⟩ := List.mem_map.mp hts
    exact nameless_literal _
  · intro t ht
    have hmarks : ∀ c ∈ ['[', ']', ','], Token.mark c ≠ .mark '{' ∧ Token.mark c ≠ .mark '}' :=
      forall_of_all (by decide)
    rcases mem_arrayTokens ht with ⟨c, hc, rfl⟩ | ⟨ts, hts, ht⟩
    · exact hmarks c hc
    · obtain ⟨v, -, rfl⟩ := List.mem_map.mp hts
      rw [List.mem_singleton.mp ht]
      exact ⟨nofun, nofun⟩

end Json

theorem Metadata.objects_written (m : Metadata) : objects m.written =
    [["total_letters".toList, "chunks".toList, "chunk_size".toList, "fields".toList]] := by
  have hkeys : (["total_letters", "chunks", "chunk_size", "fields"].map fun s =>
      s.toList.flatMap escaped) =
        ["total_letters".toList, "chunks".toList, "chunk_size".toList, "fields".toList] := by
    decide
  rw [← List.append_nil m.written, Metadata.written, objects_object]
  · exact congrArg (· :: []) hkeys
  · simp only [List.forall_mem_cons]
    exact ⟨nameless_numeral _, nameless_numeral _, nameless_numeral _, nameless_strings _,
      fun _ h => by cases h⟩

theorem Metadata.literals_written (m : Metadata) : literals m.written =
    ("total_letters" :: "chunks" :: "chunk_size" :: "fields" :: m.fields).map
      fun s => s.toList.flatMap escaped := by
  have hfields : literals (arrayTokens (m.fields.map fun v => [.ofText v])) =
      m.fields.map fun s => s.toList.flatMap escaped := by
    rw [literals_arrayTokens, List.flatMap_map, List.map_eq_flatMap]
    rfl
  rw [Metadata.written, literals_objectTokens]
  simp only [List.flatMap_cons, List.flatMap_nil, literals_marks, hfields, List.map_cons,
    List.cons_append, List.nil_append, List.append_nil]

theorem Metadata.mark_mem_written {m : Metadata} {c : Char} (h : .mark c ∈ m.written) :
    c.isDigit = true ∨ c ∈ punctuation := by
  have hdigits : ∀ n : UInt64, .mark c ∈ (numeral n).map Token.mark → c.isDigit = true := by
    intro n hn
    obtain ⟨x, hx, heq⟩ := List.mem_map.mp hn
    cases heq
    exact isDigit_of_mem_numeral hx
  rcases mark_mem_objectTokens h with h | ⟨f, hf, h⟩
  · exact .inr h
  · simp only [List.mem_cons, List.not_mem_nil, or_false] at hf
    rcases hf with rfl | rfl | rfl | rfl
    · exact .inl (hdigits _ h)
    · exact .inl (hdigits _ h)
    · exact .inl (hdigits _ h)
    · rcases mark_mem_arrayTokens h with h | ⟨ts, hts, h⟩
      · exact .inr h
      · obtain ⟨v, -, rfl⟩ := List.mem_map.mp hts
        cases List.mem_singleton.mp h

/-- Both forms of the metadata are read back as the metadata and name its members in the same
order. The form of the file is on one line with a space behind each comma and each colon outside of
literals and no other space there; without those spaces it is the compact form. -/
theorem Metadata.json_spacing (m : Metadata) :
    let spaced := m.json .spaced
    let compact := m.json .compact
    m.encode = Utf8.encode spaced ∧
      decodeMetadata (Utf8.encode spaced) = .ok m ∧ decodeMetadata (Utf8.encode compact) = .ok m ∧
      (∀ text ∈ [spaced, compact], (tokens text).flatMap Token.text = text ∧ objects (tokens text) =
        [["total_letters".toList, "chunks".toList, "chunk_size".toList, "fields".toList]]) ∧
      IsSpaced (tokens spaced) ∧
      (∀ c, .mark c ∈ tokens spaced → c = ' ' ∨ c.isDigit = true ∨ c ∈ punctuation) ∧
      (∀ c ∈ spaced, 0x20 ≤ c.toNat) ∧
      ((tokens spaced).filter (· ≠ .mark ' ')).flatMap Token.text = compact := by
  intro spaced compact
  have hgap : ∀ c ∈ [' '], c = ' ' := fun c hc => List.mem_singleton.mp hc
  have hspaced : Laid [' '] spaced m.written := m.laid hgap
  have hcompact : Laid [] compact m.written := m.laid (fun c hc => by cases hc)
  have hspace : .mark ' ' ∉ m.written := by
    intro h
    rcases Metadata.mark_mem_written h with h | h
    · exact absurd h (by decide)
    · exact absurd h (by decide)
  have hmarks : ∀ c, .mark c ∈ tokens spaced → c = ' ' ∨ c.isDigit = true ∨ c ∈ punctuation := by
    intro c hc
    rw [hspaced.tokens_eq] at hc
    rcases mem_spread hc with hc | ⟨x, hx, heq⟩
    · exact .inr (Metadata.mark_mem_written hc)
    · cases heq
      exact .inl (hgap c hx)
  have hline : ∀ c ∈ (tokens spaced).flatMap Token.text, 0x20 ≤ c.toNat := by
    refine text_not_control (fun c hc => ?_) fun raw hraw => ?_
    · rcases hmarks c hc with rfl | hdigit | hmark
      · decide
      · exact Nat.le_trans (by decide) (bounds_of_isDigit hdigit).1
      · exact punctuation_not_control c hmark
    · rw [hspaced.tokens_eq] at hraw
      rcases mem_spread hraw with hraw | ⟨x, -, heq⟩
      · exact exists_writesText m.literals_written hraw
      · cases heq
  refine ⟨rfl, decodeMetadata_encode m, decodeMetadata_json Layout.compact_tidy m, ?_,
    hspaced.tokens_eq ▸ isSpaced_spread hspace, hmarks, hspaced.text_tokens ▸ hline, ?_⟩
  · intro text htext
    rw [List.mem_cons, List.mem_singleton] at htext
    rcases htext with rfl | rfl
    · exact ⟨hspaced.text_tokens, by
        rw [hspaced.tokens_eq, objects_spread hgap, m.objects_written]⟩
    · exact ⟨hcompact.text_tokens, by rw [hcompact.tokens_compact, m.objects_written]⟩
  · rw [hspaced.tokens_eq, filter_spread hspace, ← hcompact.tokens_compact, hcompact.text_tokens]

end LetterPages
