import Mathlib.Data.List.Forall2
import LetterPages.Proofs.Toml.Places
import LetterPages.Proofs.Toml.SpelledNumbers

/-!
# Spelled strings

The many ways to write a string, on one line or between tripled marks, each as a relation between
what is written and its text. The readers find what is spelled, whatever follows.
-/

namespace LetterPages.Toml

/-! ## Blanks and breaks -/

def IsBlanks (s : List Char) : Prop :=
  ∀ c ∈ s, isBlank c = true

inductive IsBreak : List Char → Prop
  | lineFeed : IsBreak ['\n']
  | carriageReturn : IsBreak ['\r', '\n']

inductive IsLines : List Char → Prop
  | nil : IsLines []
  | blank {c : Char} {s : List Char} (hc : isBlank c = true) (h : IsLines s) : IsLines (c :: s)
  | lineBreak {b s : List Char} (hb : IsBreak b) (h : IsLines s) : IsLines (b ++ s)

/-- A character that is no blank and of no break. -/
def EndsLines (c : Char) : Prop :=
  c ∉ [' ', '\t', '\r', '\n']

instance (c : Char) : Decidable (EndsLines c) :=
  inferInstanceAs (Decidable (¬ _))

theorem isBlank_iff {c : Char} : isBlank c = true ↔ c = ' ' ∨ c = '\t' := by
  rw [isBlank, Bool.or_eq_true, beq_iff_eq, beq_iff_eq]

theorem EndsLines.not_isBlank {c : Char} (h : EndsLines c) : isBlank c = false := by
  rw [← Bool.not_eq_true, isBlank_iff]
  rintro (rfl | rfl) <;> exact h (by simp)

theorem afterBreak?_eq_none {c : Char} (hc : c ∉ ['\r', '\n']) (r : List Char) :
    afterBreak? (c :: r) = none := by
  rw [afterBreak?.eq_3]
  all_goals
    intro s heq
    cases heq
    exact hc (by simp)

theorem EndsLines.afterBreak?_eq_none {c : Char} (h : EndsLines c) (r : List Char) :
    afterBreak? (c :: r) = none :=
  Toml.afterBreak?_eq_none (fun hc => h (List.mem_append_right [' ', '\t'] hc)) r

theorem skipBlanks_of_isBlank {c : Char} (hc : isBlank c = true) (r : List Char) :
    skipBlanks (c :: r) = skipBlanks r := by
  rw [skipBlanks, List.dropWhile_cons_of_pos hc, skipBlanks]

theorem skipBlanks_of_not_isBlank {c : Char} (hc : isBlank c = false) (r : List Char) :
    skipBlanks (c :: r) = c :: r := by
  rw [skipBlanks, List.dropWhile_cons_of_neg (by simp [hc])]

theorem skipBlanks_append {b : List Char} (h : IsBlanks b) (r : List Char) :
    skipBlanks (b ++ r) = skipBlanks r :=
  List.dropWhile_append_of_pos h

theorem skipBlanks_break {b : List Char} (h : IsBreak b) (r : List Char) :
    skipBlanks (b ++ r) = b ++ r := by
  cases h <;> rfl

theorem afterBreak?_break {b : List Char} (h : IsBreak b) (r : List Char) :
    afterBreak? (b ++ r) = some r := by
  cases h <;> rfl

theorem skipLines_break {b : List Char} (h : IsBreak b) (r : List Char) :
    skipLines (b ++ r) = skipLines r := by
  cases h with
  | lineFeed => exact skipLines_of_break (by decide) rfl
  | carriageReturn => exact skipLines_of_break (by decide) rfl

theorem IsLines.skipLines_append {g : List Char} (h : IsLines g) {c : Char} (hc : EndsLines c)
    (r : List Char) : skipLines (g ++ c :: r) = c :: r := by
  induction h with
  | nil => exact skipLines_of_stop (by simp [hc.not_isBlank]) (hc.afterBreak?_eq_none r)
  | blank hblank _ ih => rw [List.cons_append, skipLines, if_pos hblank, ih]
  | lineBreak hb _ ih => rw [List.append_assoc, skipLines_break hb, ih]

/-- A backslash at the end of a line takes the blanks and breaks that follow away. -/
theorem continuation?_spelled {s b g : List Char} (hs : IsBlanks s) (hb : IsBreak b)
    (hg : IsLines g) {c : Char} (hc : EndsLines c) (r : List Char) :
    continuation? (s ++ (b ++ (g ++ c :: r))) = some (c :: r) := by
  rw [continuation?, skipBlanks_append hs, skipBlanks_break hb, afterBreak?_break hb]
  exact congrArg some (hg.skipLines_append hc r)

theorem continuation?_of_endsLines {c : Char} (hc : EndsLines c) (r : List Char) :
    continuation? (c :: r) = none := by
  rw [continuation?, skipBlanks_of_not_isBlank hc.not_isBlank, hc.afterBreak?_eq_none]

/-! ## Strings on one line -/

/-- What a backslash may be followed by, and the character this stands for. -/
inductive SpellsEscape : List Char → Char → Prop
  | backspace : SpellsEscape ['b'] '\x08'
  | tab : SpellsEscape ['t'] '\t'
  | lineFeed : SpellsEscape ['n'] '\n'
  | formFeed : SpellsEscape ['f'] '\x0c'
  | carriageReturn : SpellsEscape ['r'] '\r'
  | escape : SpellsEscape ['e'] '\x1b'
  | quote : SpellsEscape ['"'] '"'
  | backslash : SpellsEscape ['\\'] '\\'
  | code {mark c : Char} {s : List Char} {ds : List Nat}
      (hmark : (mark, s.length) ∈ [('x', 2), ('u', 4), ('U', 8)])
      (h : List.Forall₂ (IsDigit 16) s ds) (hc : ofDigits 16 ds = c.toNat) :
      SpellsEscape (mark :: s) c

/-- What stands between the quotes of a basic string, and its text. -/
inductive SpellsText : List Char → List Char → Prop
  | nil : SpellsText [] []
  | verbatim {c : Char} {s text : List Char} (hc : IsVerbatim c) (h : SpellsText s text) :
      SpellsText (c :: s) (c :: text)
  | escape {c : Char} {e s text : List Char} (he : SpellsEscape e c) (h : SpellsText s text) :
      SpellsText ('\\' :: (e ++ s)) (c :: text)

/-- A string on one line: basic or, where its characters allow it, literal. -/
inductive SpellsString : List Char → List Char → Prop
  | basic {s text : List Char} (h : SpellsText s text) :
      SpellsString ('"' :: (s ++ ['"'])) text
  | literal {text : List Char} (h : ∀ c ∈ text, isPlain c = true ∧ c ≠ '\x27') :
      SpellsString ('\x27' :: (text ++ ['\x27'])) text

theorem hexNumber_spelled {s : List Char} {ds : List Nat} (h : List.Forall₂ (IsDigit 16) s ds)
    (n : Nat) (rest : List Char) :
    hexNumber s.length n (s ++ rest) = some (ds.foldl (fun n d => n * 16 + d) n, rest) := by
  induction h generalizing n with
  | nil => rfl
  | @cons c d s ds hc _ ih =>
    rw [List.length_cons, List.cons_append, hexNumber, hexValue?_of_isDigit (Nat.le_refl _) hc]
    exact ih (n * 16 + d)

theorem hexScalar_spelled {s : List Char} {ds : List Nat} {c : Char}
    (h : List.Forall₂ (IsDigit 16) s ds) (hc : ofDigits 16 ds = c.toNat) (rest : List Char) :
    hexScalar s.length (s ++ rest) = some (c, rest) := by
  rw [ofDigits] at hc
  have hvalid : c.toNat.isValidChar := c.valid
  simp only [hexScalar, hexNumber_spelled h, hc, if_pos hvalid, Char.ofNat_toNat]

theorem escape_spelled {e : List Char} {c : Char} (h : SpellsEscape e c) (rest : List Char) :
    escape (e ++ rest) = some (c, rest) := by
  cases h with
  | @code mark c s ds hmark h hc =>
    have hscalar := hexScalar_spelled h hc rest
    rw [List.cons_append, escape_cons]
    simp only [List.mem_cons, Prod.mk.injEq, List.not_mem_nil, or_false] at hmark
    rcases hmark with ⟨rfl, hlength⟩ | ⟨rfl, hlength⟩ | ⟨rfl, hlength⟩ <;>
      simpa [hlength] using hscalar
  | _ => rfl

theorem basic_spelled {s text : List Char} (h : SpellsText s text) (rest : List Char) :
    basic (s ++ '"' :: rest) = some (text, rest) := by
  induction h with
  | nil => exact basic_quote rest
  | verbatim hc _ ih =>
    obtain ⟨hplain, hquote, hescape⟩ := hc
    rw [List.cons_append, basic_plain hquote hescape hplain, ih]
    rfl
  | escape he _ ih =>
    rw [List.cons_append, List.append_assoc, basic_escape (escape_spelled he _), ih]
    rfl

theorem literal_spelled {text : List Char} (h : ∀ c ∈ text, isPlain c = true ∧ c ≠ '\x27')
    (rest : List Char) : literal (text ++ '\x27' :: rest) = some (text, rest) := by
  induction text with
  | nil => rfl
  | cons c text ih =>
    obtain ⟨hplain, hmark⟩ := h c List.mem_cons_self
    rw [List.cons_append, literal, if_neg hmark, if_pos hplain,
      ih fun c hc => h c (List.mem_cons_of_mem _ hc)]
    rfl

/-- A string is read to its end, unless another mark makes it the opening of a long one. -/
theorem stringFrom_spelled {s text rest : List Char} (h : SpellsString s text)
    (hrest : ∀ c ∈ rest.head?, c ≠ '"' ∧ c ≠ '\x27') :
    stringFrom (s ++ rest) = some (text, rest) := by
  cases h with
  | @basic s text h =>
    have hread := basic_spelled h rest
    rw [List.cons_append, List.append_assoc, List.singleton_append, stringFrom.eq_2 _ _, hread]
    rintro r heq
    cases h with
    | nil =>
      cases heq
      exact (hrest '"' rfl).1 rfl
    | verbatim hc h =>
      obtain ⟨rfl, -⟩ := List.cons.inj heq
      exact hc.2.1 rfl
    | escape => cases heq
  | literal h =>
    have hread := literal_spelled h rest
    rw [List.cons_append, List.append_assoc, List.singleton_append, stringFrom.eq_4 _ _, hread]
    rintro r heq
    cases text with
    | nil =>
      cases heq
      exact (hrest '\x27' rfl).2 rfl
    | cons c text =>
      obtain ⟨rfl, -⟩ := List.cons.inj heq
      exact (h '\x27' List.mem_cons_self).2 rfl

/-! ## Long strings -/

/-- A piece of a long string that is no mark, and the characters it stands for. -/
inductive SpellsPiece (mark : Char) : List Char → List Char → Prop
  | plain {c : Char} (hplain : isPlain c = true) (hmark : c ≠ mark)
      (hescape : mark = '"' → c ≠ '\\') : SpellsPiece mark [c] [c]
  | lineBreak {b : List Char} (hb : IsBreak b) : SpellsPiece mark b b
  | escape {e : List Char} {c : Char} (hmark : mark = '"') (he : SpellsEscape e c) :
      SpellsPiece mark ('\\' :: e) [c]

/-- What stands between the tripled marks of a long string, and its text. Not more than two marks
stand together in it. A basic one may break a line behind a backslash, up to what is no blank. -/
inductive SpellsLong (mark : Char) : List Char → List Char → Prop
  | marks {n : Nat} (hn : n ≤ 2) : SpellsLong mark (.replicate n mark) (.replicate n mark)
  | piece {n : Nat} {e t s text : List Char} (hn : n ≤ 2) (he : SpellsPiece mark e t)
      (h : SpellsLong mark s text) :
      SpellsLong mark (.replicate n mark ++ (e ++ s)) (.replicate n mark ++ (t ++ text))
  | continuation {n : Nat} {blanks b g s text : List Char} (hn : n ≤ 2) (hmark : mark = '"')
      (hblanks : IsBlanks blanks) (hb : IsBreak b) (hg : IsLines g)
      (hs : ∀ c ∈ s.head?, EndsLines c) (h : SpellsLong mark s text) :
      SpellsLong mark (.replicate n mark ++ '\\' :: (blanks ++ (b ++ (g ++ s))))
        (.replicate n mark ++ text)

/-- A string between tripled marks. A break right behind the first ones is not of its text, so that
one that is follows another. -/
inductive SpellsLongString : List Char → List Char → Prop
  | mk {mark : Char} {first s text : List Char} (hmark : mark = '"' ∨ mark = '\x27')
      (hfirst : IsBreak first ∨ first = [] ∧ ∀ c ∈ s.head?, c ∉ ['\r', '\n'])
      (h : SpellsLong mark s text) :
      SpellsLongString (mark :: mark :: mark :: (first ++ (s ++ [mark, mark, mark]))) text

theorem SpellsEscape.exists_cons {e : List Char} {c : Char} (h : SpellsEscape e c) :
    ∃ d r, e = d :: r ∧ EndsLines d := by
  cases h with
  | code hmark =>
    simp only [List.mem_cons, Prod.mk.injEq, List.not_mem_nil, or_false] at hmark
    rcases hmark with ⟨rfl, -⟩ | ⟨rfl, -⟩ | ⟨rfl, -⟩ <;> exact ⟨_, _, rfl, by decide⟩
  | _ => exact ⟨_, _, rfl, by decide⟩

theorem after_nil (o : Option (List Char × List Char)) : after [] o = o := by
  cases o <;> rfl

theorem after_append (cs ds : List Char) (o : Option (List Char × List Char)) :
    after (cs ++ ds) o = after cs (after ds o) := by
  cases o <;> simp [after]

theorem marks_replicate {mark : Char} {n k : Nat} (hn : n ≤ k) {r : List Char}
    (hr : ∀ c ∈ r.head?, c ≠ mark) : marks mark k (.replicate n mark ++ r) = n := by
  induction n generalizing k with
  | zero =>
    cases r with
    | nil => simp [marks]
    | cons c r => exact marks_cons_of_ne (hr c rfl) k r
  | succ n ih =>
    obtain ⟨k, rfl⟩ := Nat.exists_eq_add_of_le' (Nat.lt_of_lt_of_le n.succ_pos hn)
    rw [List.replicate_succ, List.cons_append, marks_cons_self, ih (by omega)]

theorem closing?_eq_none {mark : Char} {n : Nat} (hn : n ≤ 2) {r : List Char}
    (hr : ∀ c ∈ r.head?, c ≠ mark) : closing? mark (.replicate n mark ++ r) = none := by
  rw [closing?_eq, marks_replicate (by omega) hr]
  exact if_neg (by omega)

theorem closing?_eq_some {mark : Char} {n : Nat} (hn : n ≤ 2) {rest : List Char}
    (hrest : ∀ c ∈ rest.head?, c ≠ mark) :
    closing? mark (.replicate n mark ++ mark :: mark :: mark :: rest) =
      some (.replicate n mark, rest) := by
  have hmarks : List.replicate n mark ++ mark :: mark :: mark :: rest =
      List.replicate (n + 3) mark ++ rest := by
    rw [List.replicate_add, List.append_assoc]
    rfl
  rw [hmarks, closing?_eq, marks_replicate (by omega) hrest, if_pos (by omega),
    Nat.add_sub_cancel, List.drop_left' List.length_replicate]

/-- How a reader of one of the long forms goes on from piece to piece. -/
structure ReadsLong (mark : Char) (read : List Char → Option (List Char × List Char)) : Prop where
  isMark : isPlain mark = true ∧ mark ≠ '\\'
  closing : ∀ {s text rest : List Char}, closing? mark s = some (text, rest) →
    read s = some (text, rest)
  verbatim : ∀ {c : Char} {r cs rest : List Char}, closing? mark (c :: r) = none →
    (mark = '"' → c ≠ '\\') → verbatim? (c :: r) = some (cs, rest) →
    read (c :: r) = after cs (read rest)
  escape : mark = '"' → ∀ {r rest : List Char} {e : Char}, continuation? r = none →
    escape r = some (e, rest) → read ('\\' :: r) = after [e] (read rest)
  continuation : mark = '"' → ∀ {r rest : List Char}, continuation? r = some rest →
    read ('\\' :: r) = read rest

theorem readsLong_basic : ReadsLong '"' longBasic := by
  have hclosing : ∀ r, closing? '"' ('\\' :: r) = none :=
    fun r => closing?_eq_none (Nat.zero_le 2) (r := '\\' :: r) (by simp)
  exact {
    isMark := by decide
    closing := longBasic_of_closing
    verbatim := fun hclosing hc h => longBasic_of_verbatim hclosing (hc rfl) h
    escape := fun _ _ _ _ => longBasic_of_escape (hclosing _)
    continuation := fun _ _ _ => longBasic_of_continuation (hclosing _) }

theorem readsLong_literal : ReadsLong '\x27' longLiteral where
  isMark := by decide
  closing := longLiteral_of_closing
  verbatim hclosing _ h := longLiteral_of_verbatim hclosing h
  escape hmark := absurd hmark (by decide)
  continuation hmark := absurd hmark (by decide)

namespace ReadsLong

variable {mark : Char} {read : List Char → Option (List Char × List Char)}
  (hread : ReadsLong mark read)

include hread

theorem marks {n : Nat} (hn : n ≤ 2) {c : Char} (hc : c ≠ mark) (r : List Char) :
    read (.replicate n mark ++ c :: r) = after (.replicate n mark) (read (c :: r)) := by
  induction n with
  | zero => exact (after_nil _).symm
  | succ n ih =>
    have hclosing : closing? mark (.replicate (n + 1) mark ++ c :: r) = none :=
      closing?_eq_none hn (by simpa using hc)
    rw [List.replicate_succ, List.cons_append] at hclosing ⊢
    rw [hread.verbatim hclosing (fun _ => hread.isMark.2) (verbatim?_plain hread.isMark.1 _),
      ih (by omega), ← after_append, List.singleton_append]

theorem piece {e t : List Char} (he : SpellsPiece mark e t) {n : Nat} (hn : n ≤ 2)
    (r : List Char) :
    read (.replicate n mark ++ (e ++ r)) = after (.replicate n mark) (after t (read r)) := by
  have hclosing : ∀ {c : Char} {r : List Char}, c ≠ mark → closing? mark (c :: r) = none :=
    fun {c r} hc => closing?_eq_none (Nat.zero_le 2) (r := c :: r) (by simpa using hc)
  have hmark : ∀ {c : Char}, isPlain c = false → c ≠ mark := by
    rintro c hc rfl
    cases hc.symm.trans hread.isMark.1
  cases he with
  | @plain c hplain hne hescape =>
    rw [List.singleton_append, hread.marks hn hne,
      hread.verbatim (hclosing hne) hescape (verbatim?_plain hplain r)]
  | lineBreak hb =>
    cases hb with
    | lineFeed =>
      have hne : '\n' ≠ mark := hmark (by decide)
      rw [List.singleton_append, hread.marks hn hne,
        hread.verbatim (hclosing hne) (fun _ => by decide) rfl]
    | carriageReturn =>
      have hne : '\r' ≠ mark := hmark (by decide)
      rw [List.cons_append, List.singleton_append, hread.marks hn hne,
        hread.verbatim (hclosing hne) (fun _ => by decide) rfl]
  | escape hquote he =>
    have hspelled := escape_spelled he r
    obtain ⟨d, e, rfl, hd⟩ := he.exists_cons
    have hline : continuation? (d :: e ++ r) = none := continuation?_of_endsLines hd _
    rw [List.cons_append, hread.marks hn hread.isMark.2.symm, hread.escape hquote hline hspelled]

theorem spelled {s text : List Char} (h : SpellsLong mark s text) {rest : List Char}
    (hrest : ∀ c ∈ rest.head?, c ≠ mark) :
    read (s ++ mark :: mark :: mark :: rest) = some (text, rest) := by
  induction h with
  | marks hn => exact hread.closing (closing?_eq_some hn hrest)
  | piece hn he _ ih =>
    rw [List.append_assoc, List.append_assoc, hread.piece he hn, ih]
    simp [after]
  | @continuation n blanks b g s text hn hmark hblanks hb hg hs _ ih =>
    obtain ⟨c, r, hnext, hc⟩ : ∃ c r, s ++ mark :: mark :: mark :: rest = c :: r ∧ EndsLines c := by
      cases s with
      | nil => exact ⟨mark, _, rfl, by rw [hmark]; decide⟩
      | cons c s => exact ⟨c, _, rfl, hs c rfl⟩
    have hskip := continuation?_spelled hblanks hb hg hc r
    rw [← hnext] at hskip
    rw [List.append_assoc, List.cons_append, hread.marks hn hread.isMark.2.symm]
    simp only [List.append_assoc]
    rw [hread.continuation hmark hskip, ih]
    rfl

end ReadsLong

theorem trimBreak_break {b : List Char} (h : IsBreak b) (r : List Char) :
    trimBreak (b ++ r) = r := by
  rw [trimBreak, afterBreak?_break h, Option.getD_some]

theorem trimBreak_of_not_mem {c : Char} (hc : c ∉ ['\r', '\n']) (r : List Char) :
    trimBreak (c :: r) = c :: r := by
  rw [trimBreak, afterBreak?_eq_none hc, Option.getD_none]

theorem stringFrom_long {s text rest : List Char} (h : SpellsLongString s text)
    (hrest : ∀ c ∈ rest.head?, c ≠ '"' ∧ c ≠ '\x27') :
    stringFrom (s ++ rest) = some (text, rest) := by
  obtain @⟨mark, first, s, text, hmark, hfirst, h⟩ := h
  have htrim : trimBreak (first ++ (s ++ mark :: mark :: mark :: rest)) =
      s ++ mark :: mark :: mark :: rest := by
    rcases hfirst with hb | ⟨rfl, hs⟩
    · exact trimBreak_break hb _
    · cases s with
      | nil => exact trimBreak_of_not_mem (by rcases hmark with rfl | rfl <;> decide) _
      | cons c s => exact trimBreak_of_not_mem (hs c rfl) _
  have hlong : ∀ {read}, ReadsLong mark read →
      read (s ++ mark :: mark :: mark :: rest) = some (text, rest) := by
    intro read hread
    refine hread.spelled h fun c hc => ?_
    rcases hmark with rfl | rfl
    · exact (hrest c hc).1
    · exact (hrest c hc).2
  simp only [List.cons_append, List.append_assoc, List.nil_append]
  rcases hmark with rfl | rfl
  · rw [stringFrom, htrim, hlong readsLong_basic]
  · rw [stringFrom, htrim, hlong readsLong_literal]

end LetterPages.Toml
