import Mathlib.Data.List.Forall2
import LetterPages.Json.Document
import LetterPages.Proofs.Json.SpelledStrings

/-!
# Tokens of a JSON text

A text is taken apart into its string literals and the single characters outside of them, without
regard to what they mean. In a text on one line all punctuation stands outside of literals, the
layout adds spaces behind commas and colons there, and in a literal each character has one form.
-/

namespace LetterPages.Json

/-! ## Taking a text apart -/

/-- A string literal as it stands between its quotes, or a character outside of literals. -/
inductive Token where
  | literal (raw : List Char)
  | mark (c : Char)
  deriving DecidableEq, Repr

def Token.text : Token → List Char
  | literal raw => '"' :: (raw ++ ['"'])
  | mark c => [c]

/-- Where a reading stands: outside of literals, in one of which it has read a part, or behind a
backslash in one. -/
inductive Spot where
  | outside
  | inside (raw : List Char)
  | escaped (raw : List Char)
  deriving DecidableEq, Repr

def Spot.tokens : Spot → List Char → List Token
  | _, [] => []
  | outside, c :: s => if c = '"' then (inside []).tokens s else .mark c :: outside.tokens s
  | inside raw, c :: s =>
    if c = '"' then .literal raw :: outside.tokens s
    else if c = '\\' then (escaped (raw ++ [c])).tokens s
    else (inside (raw ++ [c])).tokens s
  | escaped raw, c :: s => (inside (raw ++ [c])).tokens s

def tokens (text : List Char) : List Token :=
  Spot.outside.tokens text

theorem tokens_nil : tokens [] = [] :=
  rfl

theorem tokens_cons {c : Char} (h : c ≠ '"') (s : List Char) :
    tokens (c :: s) = .mark c :: tokens s :=
  if_neg h

theorem tokens_inside {w : List Char} (h : ∀ c ∈ w, c ≠ '"' ∧ c ≠ '\\') (raw s : List Char) :
    (Spot.inside raw).tokens (w ++ s) = (Spot.inside (raw ++ w)).tokens s := by
  induction w generalizing raw with
  | nil => rw [List.append_nil, List.nil_append]
  | cons c w ih =>
    obtain ⟨⟨hquote, hslash⟩, hw⟩ := List.forall_mem_cons.mp h
    rw [List.cons_append, Spot.tokens, if_neg hquote, if_neg hslash, ih hw, List.append_assoc]
    rfl

/-! ## Literals as they are written -/

/-- The form of a character in a literal. What cannot stand there as it is has a letter of its own
or else two digits, in lower case. -/
inductive Writes : List Char → Char → Prop
  | verbatim {c : Char} (h : IsVerbatim c) : Writes [c] c
  | letter {mark c : Char} (hc : ¬ IsVerbatim c) (h : (mark, c) ∈ letterEscapes) :
      Writes ['\\', mark] c
  | digits {x y c : Char} (hc : ¬ IsVerbatim c) (hletter : ∀ mark, (mark, c) ∉ letterEscapes)
      (h : SpellsUnit ['0', '0', x, y] c.toNat) (hlower : x.isUpper = false ∧ y.isUpper = false) :
      Writes ['\\', 'u', '0', '0', x, y] c

/-- What stands between the quotes of a literal, and its text. -/
inductive WritesText : List Char → List Char → Prop
  | nil : WritesText [] []
  | cons {w raw text : List Char} {c : Char} (h : Writes w c) (hrest : WritesText raw text) :
      WritesText (w ++ raw) (c :: text)

theorem isVerbatim_digitChar : ∀ n < 16, IsVerbatim n.digitChar ∧
    IsVerbatim n.digitChar.toUpper ∧ n.digitChar.isUpper = false := by
  unfold IsVerbatim
  decide

theorem IsHexDigit.isVerbatim {c : Char} {d : Nat} (h : IsHexDigit c d) : IsVerbatim c := by
  obtain ⟨hd, rfl | rfl⟩ := h
  · exact (isVerbatim_digitChar d hd).1
  · exact (isVerbatim_digitChar d hd).2.1

theorem SpellsUnit.isVerbatim {s : List Char} {n : Nat} (h : SpellsUnit s n) :
    ∀ c ∈ s, IsVerbatim c := by
  obtain ⟨h₁, h₂, h₃, h₄⟩ := h
  simp only [List.forall_mem_cons]
  exact ⟨h₁.isVerbatim, h₂.isVerbatim, h₃.isVerbatim, h₄.isVerbatim, fun _ hc => by cases hc⟩

theorem spellsUnit_control {n : Nat} (h : n < 256) :
    SpellsUnit ['0', '0', (n / 16).digitChar, (n % 16).digitChar] n := by
  have hunit : SpellsUnit ['0', '0', (n / 16).digitChar, (n % 16).digitChar]
      (0 * 4096 + 0 * 256 + n / 16 * 16 + n % 16) :=
    .digits ⟨by decide, .inl rfl⟩ ⟨by decide, .inl rfl⟩ ⟨by omega, .inl rfl⟩ ⟨by omega, .inl rfl⟩
  have hvalue : 0 * 4096 + 0 * 256 + n / 16 * 16 + n % 16 = n := by omega
  rwa [hvalue] at hunit

theorem writes_escaped (c : Char) : Writes (escaped c) c := by
  unfold escaped
  repeat
    split
    · rename_i h
      subst h
      exact .letter (by unfold IsVerbatim; decide) (by decide)
  split
  next hquote hslash hb ht hn hf hr hcontrol =>
    have hsolidus : c ≠ '/' := by
      rintro rfl
      exact absurd hcontrol (by decide)
    have hletter : ∀ mark, (mark, c) ∉ letterEscapes := by
      intro mark hmark
      simp only [letterEscapes, List.mem_cons, Prod.mk.injEq, List.not_mem_nil, or_false] at hmark
      rcases hmark with ⟨-, h⟩ | ⟨-, h⟩ | ⟨-, h⟩ | ⟨-, h⟩ | ⟨-, h⟩ | ⟨-, h⟩ | ⟨-, h⟩ | ⟨-, h⟩ <;>
        contradiction
    exact .digits (fun h => absurd hcontrol (Nat.not_lt.mpr h.2.2)) hletter
      (spellsUnit_control (by omega))
      ⟨(isVerbatim_digitChar _ (by omega)).2.2, (isVerbatim_digitChar _ (by omega)).2.2⟩
  next hquote hslash _ _ _ _ _ hcontrol => exact .verbatim ⟨hquote, hslash, Nat.not_lt.mp hcontrol⟩

theorem writesText_escaped (text : List Char) : WritesText (text.flatMap escaped) text := by
  induction text with
  | nil => exact .nil
  | cons c text ih => exact .cons (writes_escaped c) ih

theorem letterEscapes_marks : ∀ e ∈ letterEscapes, 0x20 ≤ e.1.toNat := by
  decide

theorem Writes.not_control {w : List Char} {c : Char} (h : Writes w c) :
    ∀ x ∈ w, 0x20 ≤ x.toNat := by
  have hslash : 0x20 ≤ '\\'.toNat := by decide
  cases h with
  | verbatim h =>
    rw [List.forall_mem_singleton]
    exact h.2.2
  | letter hc h =>
    rw [List.forall_mem_cons, List.forall_mem_singleton]
    exact ⟨hslash, letterEscapes_marks _ h⟩
  | digits hc hletter h hlower =>
    rw [List.forall_mem_cons, List.forall_mem_cons]
    exact ⟨hslash, by decide, fun x hx => (h.isVerbatim x hx).2.2⟩

theorem WritesText.not_control {raw text : List Char} (h : WritesText raw text) :
    ∀ x ∈ raw, 0x20 ≤ x.toNat := by
  induction h with
  | nil => exact fun x hx => by cases hx
  | cons h _ ih => exact List.forall_mem_append.mpr ⟨h.not_control, ih⟩

theorem Writes.tokens_eq {w : List Char} {c : Char} (h : Writes w c) (raw s : List Char) :
    (Spot.inside raw).tokens (w ++ s) = (Spot.inside (raw ++ w)).tokens s := by
  have hescape : ∀ x s, (Spot.inside raw).tokens ('\\' :: x :: s) =
      (Spot.inside (raw ++ ['\\', x])).tokens s := by
    intro x s
    rw [Spot.tokens, if_neg (by decide), if_pos rfl, Spot.tokens, List.append_assoc]
    rfl
  cases h with
  | verbatim h =>
    refine tokens_inside ?_ raw s
    rw [List.forall_mem_singleton]
    exact ⟨h.1, h.2.1⟩
  | letter => exact hescape _ s
  | digits hc hletter h hlower =>
    rw [List.cons_append, List.cons_append, hescape,
      tokens_inside fun x hx => ⟨(h.isVerbatim x hx).1, (h.isVerbatim x hx).2.1⟩, List.append_assoc]
    rfl

theorem WritesText.tokens_eq {w text : List Char} (h : WritesText w text) (raw s : List Char) :
    (Spot.inside raw).tokens (w ++ '"' :: s) = .literal (raw ++ w) :: tokens s := by
  induction h generalizing raw with
  | nil =>
    rw [List.nil_append, List.append_nil, Spot.tokens, if_pos rfl]
    rfl
  | cons h _ ih => rw [List.append_assoc, h.tokens_eq, ih, List.append_assoc]

/-! ## Texts on one line -/

/-- A token, with a gap behind it if it is a comma or a colon. -/
def Token.spread (gap : List Char) (t : Token) : List Token :=
  if t = .mark ',' ∨ t = .mark ':' then t :: gap.map .mark else [t]

/-- The text has these tokens, each with its gap, whatever follows it. -/
structure Laid (gap text : List Char) (ts : List Token) : Prop where
  tokens_append : ∀ rest, tokens (text ++ rest) = ts.flatMap (Token.spread gap) ++ tokens rest
  text_eq : (ts.flatMap (Token.spread gap)).flatMap Token.text = text

section

variable {gap s t : List Char} {us vs : List Token}

theorem Laid.tokens_eq (h : Laid gap s us) : tokens s = us.flatMap (Token.spread gap) := by
  have htokens := h.tokens_append []
  rwa [List.append_nil, tokens_nil, List.append_nil] at htokens

theorem laid_nil : Laid gap [] [] :=
  ⟨fun _ => rfl, rfl⟩

theorem Laid.append (hs : Laid gap s us) (ht : Laid gap t vs) :
    Laid gap (s ++ t) (us ++ vs) where
  tokens_append rest := by
    rw [List.append_assoc, hs.tokens_append, ht.tokens_append, List.flatMap_append,
      List.append_assoc]
  text_eq := by
    rw [List.flatMap_append, List.flatMap_append, hs.text_eq, ht.text_eq]

/-- A character that is no punctuation with a gap. -/
theorem laid_mark {c : Char} (h : c ≠ '"' ∧ c ≠ ',' ∧ c ≠ ':') : Laid gap [c] [.mark c] := by
  have hspread : Token.spread gap (.mark c) = [.mark c] := by
    refine if_neg ?_
    rintro (heq | heq)
    · exact h.2.1 (Token.mark.inj heq)
    · exact h.2.2 (Token.mark.inj heq)
  constructor
  · intro rest
    rw [List.flatMap_cons, hspread]
    exact tokens_cons h.1 rest
  · rw [List.flatMap_cons, hspread]
    rfl

theorem laid_marks {w : List Char} (h : ∀ c ∈ w, c ≠ '"' ∧ c ≠ ',' ∧ c ≠ ':') :
    Laid gap w (w.map .mark) := by
  induction w with
  | nil => exact laid_nil
  | cons c w ih =>
    obtain ⟨hc, hw⟩ := List.forall_mem_cons.mp h
    exact (laid_mark hc).append (ih hw)

theorem tokens_marks {w : List Char} (h : ∀ c ∈ w, c ≠ '"') (s : List Char) :
    tokens (w ++ s) = w.map .mark ++ tokens s := by
  induction w with
  | nil => rfl
  | cons c w ih =>
    obtain ⟨hc, hw⟩ := List.forall_mem_cons.mp h
    rw [List.cons_append, tokens_cons hc, ih hw]
    rfl

theorem flatMap_text_marks (w : List Char) : (w.map Token.mark).flatMap Token.text = w := by
  rw [List.flatMap_map]
  exact List.flatMap_singleton' w

theorem laid_gap (hgap : ∀ c ∈ gap, c ≠ '"') {c : Char} (hc : c = ',' ∨ c = ':') :
    Laid gap (c :: gap) [.mark c] := by
  have hspread : Token.spread gap (.mark c) = (c :: gap).map .mark := by
    refine if_pos ?_
    rcases hc with rfl | rfl
    · exact .inl rfl
    · exact .inr rfl
  have hquote : c ≠ '"' := by rcases hc with rfl | rfl <;> decide
  constructor
  · intro rest
    rw [List.flatMap_singleton, hspread, tokens_marks (List.forall_mem_cons.mpr ⟨hquote, hgap⟩)]
  · rw [List.flatMap_singleton, hspread, flatMap_text_marks]

theorem laid_quoted (text : List Char) :
    Laid gap (quoted text) [.literal (text.flatMap escaped)] where
  tokens_append rest := by
    rw [quoted, List.append_assoc]
    exact (writesText_escaped text).tokens_eq [] rest
  text_eq := List.append_nil _

end

/-! ## Arrays and objects -/

def Layout.withGap (gap : List Char) : Layout :=
  ⟨',' :: gap, ':' :: gap⟩

def Token.ofText (text : String) : Token :=
  .literal (text.toList.flatMap escaped)

def arrayTokens (items : List (List Token)) : List Token :=
  .mark '[' :: [Token.mark ','].intercalate items ++ [.mark ']']

def memberTokens (name : String) (value : List Token) : List Token :=
  .ofText name :: .mark ':' :: value

def objectTokens (members : List (String × List Token)) : List Token :=
  .mark '{' :: [Token.mark ','].intercalate (members.map fun m => memberTokens m.1 m.2) ++
    [.mark '}']

section

variable {gap : List Char} (hgap : ∀ c ∈ gap, c = ' ')

include hgap

theorem laid_comma : Laid gap (',' :: gap) [.mark ','] :=
  laid_gap (fun c hc => by rw [hgap c hc]; decide) (.inl rfl)

theorem laid_separated {items : List (List Char)} {tss : List (List Token)}
    (h : List.Forall₂ (Laid gap) items tss) :
    Laid gap (separated (',' :: gap) items) ([Token.mark ','].intercalate tss) := by
  induction h with
  | nil => exact laid_nil
  | cons hitem hmore ih =>
    cases hmore with
    | nil =>
      rw [List.intercalate_singleton]
      exact hitem
    | cons _ _ =>
      rw [List.intercalate_cons_cons]
      exact (hitem.append (laid_comma hgap)).append ih

theorem laid_array {items : List (List Char)} {tss : List (List Token)}
    (h : List.Forall₂ (Laid gap) items tss) :
    Laid gap ((Layout.withGap gap).array items) (arrayTokens tss) :=
  ((laid_mark (by decide)).append (laid_separated hgap h)).append (laid_mark (by decide))

theorem laid_member {name : String} {value : List Char} {ts : List Token} (h : Laid gap value ts) :
    Laid gap ((Layout.withGap gap).member name value) (memberTokens name ts) :=
  ((laid_quoted name.toList).append
    (laid_gap (fun c hc => by rw [hgap c hc]; decide) (.inr rfl))).append h

theorem laid_object {members : List (String × List Char)} {tss : List (String × List Token)}
    (h : List.Forall₂ (fun m ts => m.1 = ts.1 ∧ Laid gap m.2 ts.2) members tss) :
    Laid gap ((Layout.withGap gap).object members) (objectTokens tss) := by
  refine ((laid_mark (by decide)).append (laid_separated hgap ?_)).append (laid_mark (by decide))
  rw [List.forall₂_map_left_iff, List.forall₂_map_right_iff]
  refine h.imp fun m ts hm => ?_
  rw [hm.1]
  exact laid_member hgap hm.2

theorem laid_strings (values : List String) : Laid gap ((Layout.withGap gap).strings values)
    (arrayTokens (values.map fun v => [.ofText v])) := by
  refine laid_array hgap ?_
  rw [List.forall₂_map_left_iff, List.forall₂_map_right_iff, List.forall₂_same]
  exact fun v _ => laid_quoted v.toList

end

end LetterPages.Json
