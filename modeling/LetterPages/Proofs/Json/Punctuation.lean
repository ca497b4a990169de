import LetterPages.Proofs.Json.ObjectNames

/-!
# Punctuation

What stands outside of the literals of a text, and which literals it has: the marks of arrays and
objects, the spaces behind commas and colons, and that no control character is among them.
-/

namespace LetterPages.Json

/-! ## Marks and literals -/

def literals (ts : List Token) : List (List Char) :=
  ts.filterMap fun
    | .literal raw => some raw
    | .mark _ => none

theorem mem_literals {ts : List Token} {raw : List Char} :
    raw ∈ literals ts ↔ .literal raw ∈ ts := by
  rw [literals, List.mem_filterMap]
  constructor
  · rintro ⟨t, ht, hraw⟩
    cases t with
    | literal raw' => exact Option.some.inj hraw ▸ ht
    | mark c => cases hraw
  · exact fun h => ⟨_, h, rfl⟩

theorem literals_append (us vs : List Token) : literals (us ++ vs) = literals us ++ literals vs :=
  List.filterMap_append

theorem literals_marks (w : List Char) : literals (w.map .mark) = [] := by
  induction w with
  | nil => rfl
  | cons c w ih => exact ih

theorem literals_intercalate (tss : List (List Token)) :
    literals ([Token.mark ','].intercalate tss) = tss.flatMap literals := by
  induction tss with
  | nil => rfl
  | cons ts tss ih =>
    cases tss with
    | nil =>
      rw [List.intercalate_singleton, List.flatMap_singleton]
    | cons us tss =>
      rw [List.intercalate_cons_cons, literals_append, literals_append, ih, List.append_assoc]
      rfl

theorem literals_arrayTokens (tss : List (List Token)) :
    literals (arrayTokens tss) = tss.flatMap literals := by
  rw [arrayTokens, literals_append]
  exact (List.append_nil _).trans (literals_intercalate tss)

theorem literals_objectTokens (members : List (String × List Token)) :
    literals (objectTokens members) =
      members.flatMap fun m => m.1.toList.flatMap escaped :: literals m.2 := by
  rw [objectTokens, literals_append]
  exact (List.append_nil _).trans ((literals_intercalate _).trans (List.flatMap_map ..))

def punctuation : List Char :=
  ['{', '}', '[', ']', ',', ':']

theorem punctuation_not_control : ∀ c ∈ punctuation, 0x20 ≤ c.toNat :=
  forall_of_all (by decide)

theorem mem_arrayTokens {tss : List (List Token)} {t : Token} (h : t ∈ arrayTokens tss) :
    (∃ c ∈ ['[', ']', ','], t = .mark c) ∨ ∃ ts ∈ tss, t ∈ ts := by
  rw [arrayTokens, List.cons_append, List.mem_cons, List.mem_append, List.mem_singleton] at h
  rcases h with h | h | h
  · exact .inl ⟨'[', by decide, h⟩
  · rcases mem_intercalate h with hcomma | hitem
    · exact .inl ⟨',', by decide, List.mem_singleton.mp hcomma⟩
    · exact .inr hitem
  · exact .inl ⟨']', by decide, h⟩

theorem mark_mem_arrayTokens {tss : List (List Token)} {c : Char}
    (h : .mark c ∈ arrayTokens tss) : c ∈ punctuation ∨ ∃ ts ∈ tss, .mark c ∈ ts := by
  have hsubset : ['[', ']', ','] ⊆ punctuation := by decide
  rcases mem_arrayTokens h with ⟨x, hx, heq⟩ | hitem
  · cases heq
    exact .inl (hsubset hx)
  · exact .inr hitem

theorem mark_mem_objectTokens {members : List (String × List Token)} {c : Char}
    (h : .mark c ∈ objectTokens members) :
    c ∈ punctuation ∨ ∃ m ∈ members, .mark c ∈ m.2 := by
  rw [objectTokens, List.cons_append, List.mem_cons, List.mem_append, List.mem_singleton] at h
  rcases h with h | h | h
  · cases h
    exact .inl (by decide)
  · rcases mem_intercalate h with hcomma | ⟨ts, hts, hmark⟩
    · cases List.mem_singleton.mp hcomma
      exact .inl (by decide)
    · obtain ⟨m, hm, rfl⟩ := List.mem_map.mp hts
      rw [memberTokens, Token.ofText, List.mem_cons, List.mem_cons] at hmark
      rcases hmark with hmark | hmark | hmark
      · cases hmark
      · cases hmark
        exact .inl (by decide)
      · exact .inr ⟨m, hm, hmark⟩
  · cases h
    exact .inl (by decide)

/-! ## Spaces -/

/-- A space stands behind each comma and each colon, and nowhere else. -/
def IsSpaced (ts : List Token) : Prop :=
  ts.head? ≠ some (.mark ' ') ∧ ∀ i, ts[i + 1]? = some (.mark ' ') ↔
    ts[i]? = some (.mark ',') ∨ ts[i]? = some (.mark ':')

theorem spread_nil (t : Token) : t.spread [] = [t] := by
  unfold Token.spread
  split <;> rfl

theorem flatMap_spread_nil (ts : List Token) : ts.flatMap (Token.spread []) = ts := by
  rw [funext spread_nil]
  exact List.flatMap_singleton' ts

theorem Laid.tokens_compact {s : List Char} {us : List Token} (h : Laid [] s us) :
    tokens s = us := by
  rw [h.tokens_eq, flatMap_spread_nil]

theorem Laid.text_tokens {gap s : List Char} {us : List Token} (h : Laid gap s us) :
    (tokens s).flatMap Token.text = s := by
  rw [h.tokens_eq, h.text_eq]

theorem isSpaced_spread {ts : List Token} (h : .mark ' ' ∉ ts) :
    IsSpaced (ts.flatMap (Token.spread [' '])) := by
  induction ts with
  | nil => exact ⟨by simp, by simp⟩
  | cons t ts ih =>
    rw [List.mem_cons, not_or] at h
    obtain ⟨hhead, hnext⟩ := ih h.2
    rw [List.flatMap_cons]
    generalize ts.flatMap (Token.spread [' ']) = us at hhead hnext
    rw [List.head?_eq_getElem?] at hhead
    unfold Token.spread
    split
    next ht =>
      -- the added space stands at 1, and what comes after it does not begin with another one
      refine ⟨fun heq => h.1 (Option.some.inj heq).symm, fun i => ?_⟩
      match i with
      | 0 => simpa using ht
      | 1 => simpa using hhead
      | i + 2 => exact hnext i
    next ht =>
      refine ⟨fun heq => h.1 (Option.some.inj heq).symm, fun i => ?_⟩
      match i with
      | 0 => simpa using iff_of_false hhead ht
      | i + 1 => exact hnext i

theorem filter_spread {ts : List Token} (h : .mark ' ' ∉ ts) :
    (ts.flatMap (Token.spread [' '])).filter (· ≠ .mark ' ') = ts := by
  induction ts with
  | nil => rfl
  | cons t ts ih =>
    rw [List.mem_cons, not_or] at h
    have hkept : (t.spread [' ']).filter (· ≠ .mark ' ') = [t] := by
      unfold Token.spread
      split
      all_goals simp [Ne.symm h.1]
    rw [List.flatMap_cons, List.filter_append, hkept, ih h.2]
    rfl

theorem mem_spread {gap : List Char} {ts : List Token} {u : Token}
    (h : u ∈ ts.flatMap (Token.spread gap)) : u ∈ ts ∨ ∃ c ∈ gap, u = .mark c := by
  obtain ⟨t, ht, hu⟩ := List.mem_flatMap.mp h
  obtain ⟨w, hw, hgap⟩ := exists_spread gap t
  rw [hw, List.mem_cons, List.mem_map] at hu
  rcases hu with rfl | ⟨c, hc, rfl⟩
  · exact .inl ht
  · exact .inr ⟨c, hgap c hc, rfl⟩

/-! ## Control characters -/

theorem exists_writesText {ts : List Token} {texts : List String}
    (h : literals ts = texts.map fun s => s.toList.flatMap escaped) {raw : List Char}
    (hraw : .literal raw ∈ ts) : ∃ text, WritesText raw text := by
  rw [← mem_literals, h, List.mem_map] at hraw
  obtain ⟨s, -, rfl⟩ := hraw
  exact ⟨s.toList, writesText_escaped s.toList⟩

theorem text_not_control {ts : List Token} (hmarks : ∀ c, .mark c ∈ ts → 0x20 ≤ c.toNat)
    (hliterals : ∀ raw, .literal raw ∈ ts → ∃ text, WritesText raw text) :
    ∀ c ∈ ts.flatMap Token.text, 0x20 ≤ c.toNat := by
  intro c hc
  obtain ⟨t, ht, hc⟩ := List.mem_flatMap.mp hc
  cases t with
  | mark d =>
    cases List.mem_singleton.mp hc
    exact hmarks c ht
  | literal raw =>
    obtain ⟨text, htext⟩ := hliterals raw ht
    have hquote : 0x20 ≤ '"'.toNat := by decide
    rw [Token.text, List.mem_cons, List.mem_append, List.mem_singleton] at hc
    rcases hc with rfl | hc | rfl
    · exact hquote
    · exact htext.not_control c hc
    · exact hquote

theorem encode_not_control {text : List Char} (h : ∀ c ∈ text, 0x20 ≤ c.toNat) :
    ∀ b ∈ Utf8.encode text, 0x20 ≤ b := by
  intro b hb
  obtain ⟨c, hc, hb⟩ := List.mem_flatMap.mp hb
  have hbound := h c hc
  rw [UInt8.le_iff_toNat_le]
  rcases Utf8.toNat_of_mem_encodeChar hb with ⟨hsame, -⟩ | ⟨hlarge, -⟩
  · exact hsame ▸ hbound
  · exact Nat.le_trans (by decide) hlarge

end LetterPages.Json
