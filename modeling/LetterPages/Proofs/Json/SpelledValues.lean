import LetterPages.Json.Skipped
import LetterPages.Proofs.Json.SpelledRecords

/-!
# Spelled values

Every way to write a JSON value, and that a value which nobody wants is passed over to its end, not
less and not more, however deep it nests.
-/

namespace LetterPages.Json

/-! ## The grammar -/

def IsDigits (w : List Char) : Prop :=
  w ≠ [] ∧ ∀ c ∈ w, c.isDigit = true

/-- Digits that begin with a zero only if this is the only one. -/
def IsWhole (w : List Char) : Prop :=
  IsDigits w ∧ (w.head? = some '0' → w = ['0'])

inductive IsFraction : List Char → Prop
  | none : IsFraction []
  | digits {w : List Char} (h : IsDigits w) : IsFraction ('.' :: w)

inductive IsExponent : List Char → Prop
  | none : IsExponent []
  | digits {letter : Char} {sign w : List Char} (hletter : letter = 'e' ∨ letter = 'E')
      (hsign : sign = [] ∨ sign = ['+'] ∨ sign = ['-']) (h : IsDigits w) :
      IsExponent (letter :: (sign ++ w))

inductive IsNumber : List Char → Prop
  | parts {sign w f e : List Char} (hsign : sign = [] ∨ sign = ['-']) (hw : IsWhole w)
      (hf : IsFraction f) (he : IsExponent e) : IsNumber (sign ++ (w ++ (f ++ e)))

/-- What stands between the quotes of a string, whether or not its units make up characters. -/
inductive IsOutline : List Char → Prop
  | nil : IsOutline []
  | verbatim {c : Char} {s : List Char} (hc : IsVerbatim c) (h : IsOutline s) : IsOutline (c :: s)
  | letter {mark c : Char} {s : List Char} (hmark : (mark, c) ∈ letterEscapes) (h : IsOutline s) :
      IsOutline ('\\' :: mark :: s)
  | unit {u s : List Char} {n : Nat} (hu : SpellsUnit u n) (h : IsOutline s) :
      IsOutline ('\\' :: 'u' :: (u ++ s))

def Frame.left : Frame → Char
  | list => '['
  | map => '\x7b'

def Frame.right : Frame → Char
  | list => ']'
  | map => '\x7d'

/-- The parts of a JSON text: a value, an entry of an array or an object, all the entries between
its brackets, and those that follow another one. -/
inductive Part where
  | value
  | entry (frame : Frame)
  | entries (frame : Frame)
  | more (frame : Frame)

inductive IsPart : Part → List Char → Prop
  | word {w : String} (h : w ∈ ["null", "true", "false"]) : IsPart .value w.toList
  | number {w : List Char} (h : IsNumber w) : IsPart .value w
  | string {s : List Char} (h : IsOutline s) : IsPart .value ('"' :: (s ++ ['"']))
  | nested {frame : Frame} {s : List Char} (h : IsPart (.entries frame) s) :
      IsPart .value (frame.left :: (s ++ [frame.right]))
  | item {s : List Char} (h : IsPart .value s) : IsPart (.entry .list) s
  | member {n b b' v : List Char} (hn : IsOutline n) (hb : IsBlanks b) (hb' : IsBlanks b')
      (h : IsPart .value v) :
      IsPart (.entry .map) ('"' :: (n ++ '"' :: (b ++ ':' :: (b' ++ v))))
  | none {frame : Frame} {b : List Char} (hb : IsBlanks b) : IsPart (.entries frame) b
  | entries {frame : Frame} {b s t : List Char} (hb : IsBlanks b) (h : IsPart (.entry frame) s)
      (hmore : IsPart (.more frame) t) : IsPart (.entries frame) (b ++ (s ++ t))
  | done {frame : Frame} {b : List Char} (hb : IsBlanks b) : IsPart (.more frame) b
  | another {frame : Frame} {b b' s t : List Char} (hb : IsBlanks b) (hb' : IsBlanks b')
      (h : IsPart (.entry frame) s) (hmore : IsPart (.more frame) t) :
      IsPart (.more frame) (b ++ ',' :: (b' ++ (s ++ t)))

abbrev IsValue : List Char → Prop :=
  IsPart .value

/-! ## Steps of the skipping -/

theorem skipping_scalar {frames : List Frame} {s r rest : Bytes} {b : UInt8}
    (hskip : skipBlanks s = b :: r) (hb : b ≠ 0x5B ∧ b ≠ 0x7B)
    (hscalar : skippedScalar b r = .ok rest) :
    skipping .value frames s = skipping .after frames rest := by
  rw [skipping]
  split <;> rename_i heq <;> rw [hskip] at heq <;> cases heq
  rw [if_neg (not_or.mpr hb)]
  split <;> rename_i heq <;> rw [hscalar] at heq <;> cases heq
  rfl

/-- The first byte of an array or an object. -/
def Frame.opening : Frame → UInt8
  | list => 0x5B
  | map => 0x7B

theorem skipping_empty (frame : Frame) {frames : List Frame} {s r rest : Bytes}
    (hskip : skipBlanks s = frame.opening :: r) (hclose : skipBlanks r = frame.closing :: rest) :
    skipping .value frames s = skipping .after frames rest := by
  rw [skipping]
  split <;> rename_i heq <;> rw [hskip] at heq <;> cases heq
  cases frame <;>
    · rw [if_pos (by decide)]
      dsimp only
      split <;> rename_i heq <;> rw [hclose] at heq <;> cases heq
      exact if_pos rfl

theorem skipping_entries (frame : Frame) {frames : List Frame} {s r t : Bytes} {b : UInt8}
    (hskip : skipBlanks s = frame.opening :: r) (hopen : skipBlanks r = b :: t)
    (hb : b ≠ frame.closing) :
    skipping .value frames s = skipping frame.entry (frame :: frames) r := by
  rw [skipping]
  split <;> rename_i heq <;> rw [hskip] at heq <;> cases heq
  cases frame <;>
    · rw [if_pos (by decide)]
      dsimp only
      split <;> rename_i heq <;> rw [hopen] at heq <;> cases heq
      exact if_neg hb

theorem skipping_name {frames : List Frame} {s r r' rest : Bytes}
    (hskip : skipBlanks s = 0x22 :: r) (hname : skippedString r = .ok r')
    (hcolon : colon r' = .ok rest) :
    skipping .name frames s = skipping .value frames rest := by
  rw [skipping]
  split <;> rename_i heq <;> rw [hskip] at heq <;> cases heq
  rw [if_pos rfl]
  split <;> rename_i heq <;> rw [hname] at heq <;> cases heq
  split <;> rename_i heq <;> rw [hcolon] at heq <;> cases heq
  rfl

theorem skipping_comma (frame : Frame) {frames : List Frame} {s r : Bytes}
    (hskip : skipBlanks s = 0x2C :: r) :
    skipping .after (frame :: frames) s = skipping frame.entry (frame :: frames) r := by
  rw [skipping]
  split <;> rename_i heq <;> rw [hskip] at heq <;> cases heq
  exact if_pos rfl

theorem skipping_close (frame : Frame) {frames : List Frame} {s r : Bytes}
    (hskip : skipBlanks s = frame.closing :: r) :
    skipping .after (frame :: frames) s = skipping .after frames r := by
  rw [skipping]
  split <;> rename_i heq <;> rw [hskip] at heq <;> cases heq
  cases frame <;> rfl

/-! ## Values without entries -/

theorem word_append (w rest : Bytes) : word w (w ++ rest) = .ok rest := by
  induction w with
  | nil => rfl
  | cons b w ih => rw [List.cons_append, word, if_pos rfl, ih]

theorem skippedString_literals {t : Bytes} (h : ∀ b ∈ t, IsLiteral b) (s : Bytes) :
    skippedString (t ++ s) = skippedString s := by
  induction t with
  | nil => rfl
  | cons b t ih =>
    obtain ⟨hb, ht⟩ := List.forall_mem_cons.mp h
    rw [List.cons_append, skippedString, if_neg hb.1, if_neg hb.2.1, if_neg hb.2.2, ih ht]

theorem skippedString_escape {r rest : Bytes} (h : skippedEscape r = .ok rest) :
    skippedString (0x5C :: r) = skippedString rest := by
  rw [skippedString, if_neg (by decide), if_pos rfl]
  split <;> rename_i heq <;> rw [h] at heq <;> cases heq
  rfl

theorem skippedEscape_letter {mark c : Char} (h : (mark, c) ∈ letterEscapes) (rest : Bytes) :
    skippedEscape (Utf8.encode [mark] ++ rest) = .ok rest := by
  simp only [letterEscapes, List.mem_cons, Prod.mk.injEq, List.not_mem_nil, or_false] at h
  rcases h with ⟨rfl, rfl⟩ | ⟨rfl, rfl⟩ | ⟨rfl, rfl⟩ | ⟨rfl, rfl⟩ | ⟨rfl, rfl⟩ | ⟨rfl, rfl⟩ |
    ⟨rfl, rfl⟩ | ⟨rfl, rfl⟩ <;> rfl

theorem skippedEscape_unit {u : List Char} {n : Nat} (h : SpellsUnit u n) (rest : Bytes) :
    skippedEscape (Utf8.encode ('u' :: u) ++ rest) = .ok rest := by
  have hunit : skippedEscape (Utf8.encode ('u' :: u) ++ rest) =
      (hexUnit (Utf8.encode u ++ rest)).map Prod.snd := rfl
  rw [hunit, hexUnit_spelled h]
  rfl

theorem skippedString_outline {s : List Char} (h : IsOutline s) (rest : Bytes) :
    skippedString (Utf8.encode s ++ 0x22 :: rest) = .ok rest := by
  induction h with
  | nil => rw [Utf8.encode_nil, List.nil_append, skippedString, if_pos rfl]
  | verbatim hc _ ih =>
    rw [Utf8.encode_cons, List.append_assoc, skippedString_literals (isLiteral_of_isVerbatim hc),
      ih]
  | @letter mark c s hmark _ ih =>
    have hescape := skippedEscape_letter hmark (Utf8.encode s ++ 0x22 :: rest)
    rw [← List.append_assoc, ← Utf8.encode_append] at hescape
    exact (skippedString_escape hescape).trans ih
  | @unit u s n hu _ ih =>
    have hescape := skippedEscape_unit hu (Utf8.encode s ++ 0x22 :: rest)
    rw [← List.append_assoc, ← Utf8.encode_append] at hescape
    exact (skippedString_escape hescape).trans ih

theorem encode_isDigits {w : List Char} (h : IsDigits w) :
    ∃ b t, Utf8.encode w = b :: t ∧ isDigit b = true := by
  obtain ⟨hne, hdigits⟩ := h
  rw [encode_digits hdigits]
  cases w with
  | nil => exact absurd rfl hne
  | cons c w => exact ⟨_, _, rfl, isDigit_digitByte (hdigits c List.mem_cons_self)⟩

/-- Digits are read to their end, whatever comes next but another digit. -/
theorem skipDigits_isDigits {w : List Char} (h : IsDigits w) {rest : Bytes}
    (hrest : startsWithDigit rest = false) :
    startsWithDigit (Utf8.encode w ++ rest) = true ∧ skipDigits (Utf8.encode w ++ rest) = rest := by
  constructor
  · obtain ⟨b, t, hbytes, hb⟩ := encode_isDigits h
    rw [hbytes]
    exact hb
  · rw [encode_digits h.2]
    exact skipDigits_digits h.2 hrest

theorem skippedSign_sign {sign w : List Char} (hsign : sign = [] ∨ sign = ['+'] ∨ sign = ['-'])
    (h : IsDigits w) (rest : Bytes) :
    skippedSign (Utf8.encode (sign ++ w) ++ rest) = Utf8.encode w ++ rest := by
  rcases hsign with rfl | rfl | rfl
  · obtain ⟨b, t, hbytes, hb⟩ := encode_isDigits h
    rw [List.nil_append, hbytes]
    unfold skippedSign
    split
    next heq =>
      cases heq
      cases hb
    next heq =>
      cases heq
      cases hb
    next => rfl
  · rfl
  · rfl

theorem skippedExponent_isExponent {e : List Char} (h : IsExponent e) {rest : Bytes}
    (hrest : Ended rest) : skippedExponent (Utf8.encode e ++ rest) = .ok rest := by
  cases h with
  | none =>
    cases rest with
    | nil => rfl
    | cons b rest =>
      rw [Utf8.encode_nil, List.nil_append, skippedExponent, (hrest b rfl).2.2]
      rfl
  | @digits letter sign w hletter hsign hw =>
    have hnext := skippedSign_sign hsign hw rest
    obtain ⟨hstart, hskip⟩ := skipDigits_isDigits hw (startsWithDigit_ended hrest)
    have hbyte : ∃ b, Utf8.encode (letter :: (sign ++ w)) ++ rest =
        b :: (Utf8.encode (sign ++ w) ++ rest) ∧ isExponentLetter b = true := by
      rcases hletter with rfl | rfl
      · exact ⟨0x65, rfl, rfl⟩
      · exact ⟨0x45, rfl, rfl⟩
    obtain ⟨b, hbytes, hb⟩ := hbyte
    rw [hbytes, skippedExponent, if_pos hb, hnext, if_pos hstart, hskip]

/-- What follows the digits of a fraction is neither a digit nor a point. -/
theorem IsExponent.head {e : List Char} (h : IsExponent e) {rest : Bytes} (hrest : Ended rest) :
    ∀ b ∈ (Utf8.encode e ++ rest).head?, isDigit b = false ∧ b ≠ 0x2E := by
  intro b hb
  cases h with
  | none =>
    obtain ⟨hdigit, hpoint, -⟩ := hrest b hb
    exact ⟨hdigit, hpoint⟩
  | digits hletter =>
    rcases hletter with rfl | rfl <;>
      · cases hb
        decide

theorem IsFraction.head {f e : List Char} (hf : IsFraction f) (he : IsExponent e) {rest : Bytes}
    (hrest : Ended rest) : startsWithDigit (Utf8.encode (f ++ e) ++ rest) = false := by
  cases hf with
  | none =>
    have hhead := he.head hrest
    rw [List.nil_append]
    cases hs : Utf8.encode e ++ rest with
    | nil => rfl
    | cons b s => exact (hhead b (by rw [hs]; rfl)).1
  | digits => rfl

theorem skippedFraction_isFraction {f e : List Char} (hf : IsFraction f) (he : IsExponent e)
    {rest : Bytes} (hrest : Ended rest) :
    skippedFraction (Utf8.encode (f ++ e) ++ rest) = .ok rest := by
  have hexponent := skippedExponent_isExponent he hrest
  have hhead := he.head hrest
  cases hf with
  | none =>
    rw [List.nil_append]
    generalize Utf8.encode e ++ rest = s at hexponent hhead
    cases s with
    | nil => exact hexponent
    | cons b s => rwa [skippedFraction, if_neg (hhead b rfl).2]
  | @digits w hw =>
    have hstop := IsFraction.none.head he hrest
    rw [List.nil_append] at hstop
    obtain ⟨hstart, hskip⟩ := skipDigits_isDigits hw hstop
    have hbytes : Utf8.encode ('.' :: w ++ e) ++ rest =
        0x2E :: (Utf8.encode w ++ (Utf8.encode e ++ rest)) := by
      rw [← List.append_assoc, ← Utf8.encode_append]
      rfl
    rw [hbytes, skippedFraction, if_pos rfl, if_pos hstart, hskip, hexponent]

theorem skippedNumber_isWhole {w f e : List Char} (hw : IsWhole w) (hf : IsFraction f)
    (he : IsExponent e) {rest : Bytes} (hrest : Ended rest) :
    skippedNumber (Utf8.encode (w ++ (f ++ e)) ++ rest) = .ok rest := by
  have hfraction := skippedFraction_isFraction hf he hrest
  have hstop := hf.head he hrest
  rw [Utf8.encode_append, List.append_assoc]
  generalize Utf8.encode (f ++ e) ++ rest = s at hfraction hstop
  obtain ⟨⟨hne, hdigits⟩, hzero⟩ := hw
  rw [encode_digits hdigits]
  cases w with
  | nil => exact absurd rfl hne
  | cons c w =>
    have hc : c.isDigit = true := hdigits c List.mem_cons_self
    rw [List.map_cons, List.cons_append, skippedNumber, isDigit_digitByte hc]
    by_cases hbyte : digitByte c = 0x30
    · have hnil : w = [] := by
        rw [eq_zero_of_digitByte hc hbyte] at hzero
        exact (List.cons.inj (hzero rfl)).2
      subst hnil
      rw [List.map_nil, List.nil_append, if_pos hbyte, hstop]
      exact hfraction
    · have hrun : skipDigits (w.map digitByte ++ s) = s :=
        skipDigits_digits (fun d hd => hdigits d (List.mem_cons_of_mem c hd)) hstop
      rw [if_neg hbyte, hrun]
      exact hfraction

/-- The first byte of a value tells it from a blank and from the end of an array. -/
theorem IsPart.opening {w : List Char} (h : IsValue w) :
    ∃ b t, Utf8.encode w = b :: t ∧ IsOpening b := by
  cases h with
  | word h =>
    simp only [List.mem_cons, List.not_mem_nil, or_false] at h
    rcases h with rfl | rfl | rfl
    · exact ⟨0x6E, _, rfl, rfl, by decide⟩
    · exact ⟨0x74, _, rfl, rfl, by decide⟩
    · exact ⟨0x66, _, rfl, rfl, by decide⟩
  | number h =>
    obtain ⟨hsign, ⟨hw, -⟩, -, -⟩ := h
    rcases hsign with rfl | rfl
    · obtain ⟨b, t, hbytes, hb⟩ := encode_isDigits hw
      rw [List.nil_append, Utf8.encode_append, hbytes]
      exact ⟨b, _, rfl, isOpening_of_isDigit hb⟩
    · exact ⟨0x2D, _, rfl, rfl, by decide⟩
  | string h => exact ⟨0x22, _, rfl, rfl, by decide⟩
  | @nested frame s h =>
    cases frame with
    | list => exact ⟨0x5B, _, rfl, rfl, by decide⟩
    | map => exact ⟨0x7B, _, rfl, rfl, by decide⟩

/-! ## Values with entries -/

theorem Frame.encode_left (frame : Frame) (w : List Char) :
    Utf8.encode (frame.left :: w) = frame.opening :: Utf8.encode w := by
  cases frame <;> rfl

theorem Frame.encode_right (frame : Frame) (w : List Char) (rest : Bytes) :
    Utf8.encode (w ++ [frame.right]) ++ rest = Utf8.encode w ++ frame.closing :: rest := by
  rw [encode_concat_append]
  cases frame <;> rfl

theorem Frame.isBlank_opening (frame : Frame) : isBlank frame.opening = false := by
  cases frame <;> rfl

theorem Frame.isBlank_closing (frame : Frame) : isBlank frame.closing = false := by
  cases frame <;> rfl

theorem ended_blanks {b : List Char} (hb : IsBlanks b) {s : Bytes} (hs : Ended s) :
    Ended (Utf8.encode b ++ s) := by
  cases b with
  | nil => exact hs
  | cons c b =>
    intro x hx
    rcases hb c List.mem_cons_self with rfl | rfl | rfl | rfl <;>
      · cases hx
        decide

theorem IsPart.ended {frame : Frame} {t : List Char} (h : IsPart (.more frame) t) (rest : Bytes) :
    Ended (Utf8.encode (t ++ [frame.right]) ++ rest) := by
  rw [frame.encode_right]
  cases h with
  | done hb =>
    refine ended_blanks hb (ended_of_head ?_ rest)
    cases frame
    · exact .inr (.inl rfl)
    · exact .inr (.inr rfl)
  | another hb =>
    rw [Utf8.encode_append, List.append_assoc]
    exact ended_blanks hb (ended_of_head (.inl rfl) _)

theorem IsPart.entry_opening {frame : Frame} {w : List Char} (h : IsPart (.entry frame) w) :
    ∃ b t, Utf8.encode w = b :: t ∧ isBlank b = false ∧ b ≠ frame.closing := by
  cases h with
  | item h =>
    obtain ⟨b, t, hbytes, hb⟩ := h.opening
    exact ⟨b, t, hbytes, hb.1, hb.2⟩
  | member => exact ⟨0x22, _, rfl, rfl, by decide⟩

/-- What the skipping does with a part of a text and what it needs to stand behind it: a value and
an entry end where no number goes on, the entries and what follows one of them at a bracket. -/
def Passes : Part → List Char → Prop
  | .value, w => ∀ {b : List Char} {frames : List Frame} {rest : Bytes}, IsBlanks b → Ended rest →
      skipping .value frames (Utf8.encode (b ++ w) ++ rest) = skipping .after frames rest
  | .entry frame, w => ∀ {b : List Char} {frames : List Frame} {rest : Bytes}, IsBlanks b →
      Ended rest →
      skipping frame.entry frames (Utf8.encode (b ++ w) ++ rest) = skipping .after frames rest
  | .entries frame, w => ∀ {b : List Char} {frames : List Frame} {rest : Bytes}, IsBlanks b →
      skipping .value frames (Utf8.encode (b ++ frame.left :: (w ++ [frame.right])) ++ rest) =
        skipping .after frames rest
  | .more frame, w => ∀ {frames : List Frame} {rest : Bytes},
      skipping .after (frame :: frames) (Utf8.encode (w ++ [frame.right]) ++ rest) =
        skipping .after frames rest

theorem skipping_word {w : String} (h : w ∈ ["null", "true", "false"]) {b : List Char}
    (hb : IsBlanks b) (frames : List Frame) (rest : Bytes) :
    skipping .value frames (Utf8.encode (b ++ w.toList) ++ rest) = skipping .after frames rest := by
  have hword : ∃ x v, Utf8.encode w.toList = x :: v ∧ isBlank x = false ∧ (x ≠ 0x5B ∧ x ≠ 0x7B) ∧
      ∀ r, skippedScalar x r = word v r := by
    simp only [List.mem_cons, List.not_mem_nil, or_false] at h
    rcases h with rfl | rfl | rfl
    · exact ⟨0x6E, letters "ull", rfl, rfl, by decide, fun _ => rfl⟩
    · exact ⟨0x74, letters "rue", rfl, rfl, by decide, fun _ => rfl⟩
    · exact ⟨0x66, letters "alse", rfl, rfl, by decide, fun _ => rfl⟩
  obtain ⟨x, v, hbytes, hblank, hx, hscalar⟩ := hword
  rw [Utf8.encode_append, List.append_assoc, hbytes, List.cons_append]
  exact skipping_scalar (skipBlanks_append hb hblank _) hx ((hscalar _).trans (word_append v rest))

theorem skipping_number {w : List Char} (h : IsNumber w) {b : List Char} (hb : IsBlanks b)
    (frames : List Frame) {rest : Bytes} (hrest : Ended rest) :
    skipping .value frames (Utf8.encode (b ++ w) ++ rest) = skipping .after frames rest := by
  obtain @⟨sign, w, f, e, hsign, hw, hf, he⟩ := h
  have hnumber := skippedNumber_isWhole hw hf he hrest
  rw [Utf8.encode_append, List.append_assoc]
  rcases hsign with rfl | rfl
  · obtain ⟨x, t, hbytes, hx⟩ := encode_isDigits hw.1
    rw [List.nil_append]
    rw [Utf8.encode_append, hbytes, List.append_assoc, List.cons_append] at hnumber ⊢
    have hne : ∀ y, isDigit y = false → x ≠ y := by
      rintro y hy rfl
      rw [hx] at hy
      cases hy
    refine skipping_scalar (skipBlanks_append hb (isOpening_of_isDigit hx).1 _)
      ⟨hne _ rfl, hne _ rfl⟩ ?_
    rw [skippedScalar, if_neg (hne _ rfl), if_neg (hne _ rfl), if_neg (hne _ rfl),
      if_neg (hne _ rfl), if_neg (hne _ rfl)]
    exact hnumber
  · exact skipping_scalar (skipBlanks_append hb rfl _) (by decide) hnumber

theorem IsPart.passes {part : Part} {w : List Char} (h : IsPart part w) : Passes part w := by
  -- Only a number needs to know what ends it. Inside brackets this is always a blank, a comma or
  -- the closing bracket, so the frames need no assumption on the rest.
  induction h with
  | word h => exact fun hb _ => skipping_word h hb _ _
  | number h => exact fun hb hrest => skipping_number h hb _ hrest
  | @string s h =>
    intro b frames rest hb _
    have hstring := skippedString_outline h rest
    rw [Utf8.encode_append, List.append_assoc, Utf8.encode_cons, List.append_assoc,
      encode_concat_append]
    exact skipping_scalar (skipBlanks_append hb rfl _) (by decide) hstring
  | nested _ ih => exact fun hb _ => ih hb
  | item _ ih => exact ih
  | @member n c c' v hn hc hc' _ ih =>
    intro b frames rest hb hrest
    have hname := skippedString_outline hn (Utf8.encode (c ++ [':']) ++
      (Utf8.encode (c' ++ v) ++ rest))
    have hcolon : colon (Utf8.encode (c ++ [':']) ++ (Utf8.encode (c' ++ v) ++ rest)) =
        .ok (Utf8.encode (c' ++ v) ++ rest) := colon_eq_ok_iff.mpr ⟨c, hc, rfl⟩
    have hbytes : Utf8.encode ('"' :: (n ++ '"' :: (c ++ ':' :: (c' ++ v)))) ++ rest =
        0x22 :: (Utf8.encode n ++ 0x22 :: (Utf8.encode (c ++ [':']) ++
          (Utf8.encode (c' ++ v) ++ rest))) := by
      simp only [Utf8.encode_append, Utf8.encode_cons, Utf8.encode_nil, List.append_assoc,
        List.nil_append]
      rfl
    rw [Utf8.encode_append, List.append_assoc, hbytes]
    exact (skipping_name (skipBlanks_append hb rfl _) hname hcolon).trans (ih hc' hrest)
  | @none frame c hc =>
    intro b frames rest hb
    have hclose : skipBlanks (Utf8.encode (c ++ [frame.right]) ++ rest) =
        frame.closing :: rest := by
      rw [frame.encode_right]
      exact skipBlanks_append hc frame.isBlank_closing rest
    rw [Utf8.encode_append, List.append_assoc, frame.encode_left]
    exact skipping_empty frame (skipBlanks_append hb frame.isBlank_opening _) hclose
  | @entries frame c s t hc h hmore ih ihmore =>
    intro b frames rest hb
    obtain ⟨x, r, hbytes, hx, hclose⟩ := h.entry_opening
    have hsplit : Utf8.encode (c ++ (s ++ t) ++ [frame.right]) ++ rest =
        Utf8.encode (c ++ s) ++ (Utf8.encode (t ++ [frame.right]) ++ rest) := by
      simp only [Utf8.encode_append, List.append_assoc]
    have hopen : skipBlanks (Utf8.encode (c ++ s) ++ (Utf8.encode (t ++ [frame.right]) ++ rest)) =
        x :: (r ++ (Utf8.encode (t ++ [frame.right]) ++ rest)) := by
      rw [Utf8.encode_append, List.append_assoc, hbytes]
      exact skipBlanks_append hc hx _
    rw [Utf8.encode_append, List.append_assoc, frame.encode_left, List.cons_append, hsplit,
      skipping_entries frame (skipBlanks_append hb frame.isBlank_opening _) hopen hclose,
      ih hc (hmore.ended rest), ihmore]
  | @done frame b hb =>
    intro frames rest
    rw [frame.encode_right]
    exact skipping_close frame (skipBlanks_append hb frame.isBlank_closing rest)
  | @another frame c c' s t hc hc' _ hmore ih ihmore =>
    intro frames rest
    have hsplit : Utf8.encode (c ++ ',' :: (c' ++ (s ++ t)) ++ [frame.right]) ++ rest =
        Utf8.encode c ++ 0x2C :: (Utf8.encode (c' ++ s) ++
          (Utf8.encode (t ++ [frame.right]) ++ rest)) := by
      simp only [Utf8.encode_append, Utf8.encode_cons, List.append_assoc]
      rfl
    rw [hsplit, skipping_comma frame (skipBlanks_append hc rfl _), ih hc' (hmore.ended rest),
      ihmore]

/-- A value that nobody wants is passed over up to its end. -/
theorem skipped_isValue {b w : List Char} (hb : IsBlanks b) (hw : IsValue w) {rest : Bytes}
    (hrest : Ended rest) : skipped (Utf8.encode (b ++ w) ++ rest) = .ok rest :=
  (hw.passes hb hrest).trans (by rw [skipping])

/-! ## Spelled strings and lists are values -/

theorem SpellsText.isOutline {s text : List Char} (h : SpellsText s text) : IsOutline s := by
  induction h with
  | nil => exact .nil
  | verbatim hc _ ih => exact .verbatim hc ih
  | @escape c e s text he _ ih =>
    cases he with
    | letter hmark => exact .letter hmark ih
    | unit hu => exact .unit hu ih
    | pair hs ht =>
      rw [List.cons_append, List.append_assoc]
      exact .unit hs (.unit ht ih)

theorem SpellsString.isValue {w : List Char} {text : String} (h : SpellsString w text) :
    IsValue w := by
  obtain ⟨h⟩ := h
  exact .string h.isOutline

section

variable {α : Type} {spells : List Char → α → Prop} {frame : Frame}
  (hspells : ∀ {s : List Char} {a : α}, spells s a → IsPart (.entry frame) s)

include hspells

theorem SpellsMore.isPart {t : List Char} {l : List α} (h : SpellsMore spells t l) :
    IsPart (.more frame) t := by
  induction h with
  | done hb => exact .done hb
  | item hb hb' h _ ih => exact .another hb hb' (hspells h) ih

theorem SpellsItems.isPart {s : List Char} {l : List α} (h : SpellsItems spells s l) :
    IsPart (.entries frame) s := by
  cases h with
  | none hb => exact .none hb
  | items hb h hmore => exact .entries hb (hspells h) (hmore.isPart hspells)

end

theorem SpellsArray.isPart {w : List Char} {texts : List String}
    (h : SpellsArray SpellsString w texts) :
    ∃ s, w = Frame.list.left :: (s ++ [Frame.list.right]) ∧ IsPart (.entries .list) s := by
  obtain ⟨h⟩ := h
  exact ⟨_, rfl, h.isPart fun hs => .item hs.isValue⟩

end LetterPages.Json
