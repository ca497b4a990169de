import LetterPages.Basic
import LetterPages.Proofs.FiniteRatios
import LetterPages.Toml.Values

/-!
# Spelled numbers

The many ways to write a whole number or a fraction, each as a relation between what is written and
what it stands for. A word that is so written is read as the number it stands for.
-/

namespace LetterPages.Toml

/-! ## Digits -/

/-- The character is the digit of a value below the radix, in either case. -/
def IsDigit (radix : Nat) (c : Char) (d : Nat) : Prop :=
  d < radix ∧ (c = d.digitChar ∨ c = d.digitChar.toUpper)

instance (radix : Nat) (c : Char) (d : Nat) : Decidable (IsDigit radix c d) :=
  inferInstanceAs (Decidable (_ ∧ _))

/-- Digits, with single underscores between some of them. -/
inductive SpellsDigits (radix : Nat) : List Char → List Nat → Prop
  | single {c : Char} {d : Nat} (hc : IsDigit radix c d) : SpellsDigits radix [c] [d]
  | cons {c : Char} {d : Nat} {s : List Char} {ds : List Nat} (hc : IsDigit radix c d)
      (h : SpellsDigits radix s ds) : SpellsDigits radix (c :: s) (d :: ds)
  | underscore {c : Char} {d : Nat} {s : List Char} {ds : List Nat} (hc : IsDigit radix c d)
      (h : SpellsDigits radix s ds) : SpellsDigits radix (c :: '_' :: s) (d :: ds)

theorem hexValue?_digitChar : ∀ d : Fin 16, hexValue? (Nat.digitChar d) = some d.val ∧
    hexValue? (Nat.digitChar d).toUpper = some d.val := by
  decide

theorem hexValue?_of_isDigit {radix d : Nat} {c : Char} (hradix : radix ≤ 16)
    (h : IsDigit radix c d) : hexValue? c = some d := by
  obtain ⟨hd, rfl | rfl⟩ := h
  · exact (hexValue?_digitChar ⟨d, by omega⟩).1
  · exact (hexValue?_digitChar ⟨d, by omega⟩).2

theorem digitBelow?_of_isDigit {radix d : Nat} {c : Char} (hradix : radix ≤ 16)
    (h : IsDigit radix c d) : digitBelow? radix c = some d := by
  simp [digitBelow?, hexValue?_of_isDigit hradix h, h.1]

theorem isDigitBelow_of_isDigit {radix radix' d : Nat} {c : Char} (hradix : radix ≤ radix')
    (hradix' : radix' ≤ 16) (h : IsDigit radix c d) : isDigitBelow radix' c = true := by
  rw [isDigitBelow, digitBelow?_of_isDigit hradix' ⟨Nat.lt_of_lt_of_le h.1 hradix, h.2⟩]
  rfl

theorem isDecimalDigit_of_isDigit {c : Char} {d : Nat} (h : IsDigit 10 c d) :
    isDecimalDigit c = true :=
  isDigitBelow_of_isDigit (Nat.le_refl _) (by decide) h

theorem ne_underscore_of_isDigit {radix d : Nat} {c : Char} (hradix : radix ≤ 16)
    (h : IsDigit radix c d) : c ≠ '_' := by
  rintro rfl
  cases hexValue?_of_isDigit hradix h

theorem ne_sign_of_isDigit {radix d : Nat} {c : Char} (hradix : radix ≤ 16)
    (h : IsDigit radix c d) : c ≠ '+' ∧ c ≠ '-' := by
  constructor <;>
    (rintro rfl
     cases hexValue?_of_isDigit hradix h)

theorem isWordPart_of_isDigit {radix d : Nat} {c : Char} (hradix : radix ≤ 16)
    (h : IsDigit radix c d) : isWordPart c = true := by
  have hall : ∀ d : Fin 16, isWordPart (Nat.digitChar d) = true ∧
      isWordPart (Nat.digitChar d).toUpper = true := by decide
  obtain ⟨hd, rfl | rfl⟩ := h
  · exact (hall ⟨d, by omega⟩).1
  · exact (hall ⟨d, by omega⟩).2

/-! ## Underscores -/

/-- Every underscore of the text stands between digits. -/
def Joined (isDigit : Char → Bool) (s : List Char) : Prop :=
  areJoined isDigit (parts s) = true

theorem parts_underscore (s : List Char) : parts ('_' :: s) = [] :: parts s := by
  rw [parts, if_pos rfl]

theorem parts_cons {c : Char} (hc : c ≠ '_') {s part : List Char} {rest : List (List Char)}
    (h : parts s = part :: rest) : parts (c :: s) = (c :: part) :: rest := by
  rw [parts, if_neg hc, h]

theorem exists_parts (s : List Char) : ∃ part rest, parts s = part :: rest := by
  cases s with
  | nil => exact ⟨_, _, rfl⟩
  | cons c s =>
    rw [parts]
    split
    · exact ⟨_, _, rfl⟩
    · split <;> exact ⟨_, _, rfl⟩

theorem exists_parts_cons {c : Char} (hc : c ≠ '_') (s : List Char) :
    ∃ part rest, parts (c :: s) = (c :: part) :: rest := by
  obtain ⟨part, rest, h⟩ := exists_parts s
  exact ⟨part, rest, parts_cons hc h⟩

theorem areJoined_cons (isDigit : Char → Bool) (c : Char) {part : List Char}
    (hpart : part ≠ []) (rest : List (List Char)) :
    areJoined isDigit ((c :: part) :: rest) = areJoined isDigit (part :: rest) := by
  cases rest with
  | nil => rfl
  | cons next rest => rw [areJoined, areJoined, List.getLast?_cons_of_ne_nil hpart]

namespace Joined

variable {isDigit : Char → Bool} {s : List Char} {c d : Char}

theorem nil : Joined isDigit [] :=
  rfl

theorem cons (hc : c ≠ '_') (hs : s.head? ≠ some '_') (h : Joined isDigit s) :
    Joined isDigit (c :: s) := by
  cases s with
  | nil =>
    rw [Joined, parts_cons hc rfl]
    rfl
  | cons d r =>
    obtain ⟨part, rest, hparts⟩ := exists_parts_cons (c := d) (fun hd => hs (congrArg some hd)) r
    rw [Joined, hparts] at h
    rw [Joined, parts_cons hc hparts, areJoined_cons isDigit c (List.cons_ne_nil d part), h]

theorem underscore (hc : c ≠ '_') (hd : d ≠ '_') (hcd : isDigit c = true ∧ isDigit d = true)
    (h : Joined isDigit (d :: s)) : Joined isDigit (c :: '_' :: d :: s) := by
  obtain ⟨part, rest, hparts⟩ := exists_parts_cons hd s
  rw [Joined, hparts] at h
  rw [Joined, parts_cons hc (parts_underscore (d :: s)), hparts]
  simp [areJoined, hcd, h]

end Joined

theorem withoutUnderscores_cons {c : Char} (hc : c ≠ '_') (s : List Char) :
    withoutUnderscores (c :: s) = c :: withoutUnderscores s := by
  simp [withoutUnderscores, hc]

namespace SpellsDigits

variable {radix : Nat} {s : List Char} {ds : List Nat}

/-- The digits and underscores of a number. -/
theorem mem (h : SpellsDigits radix s ds) {c : Char} (hc : c ∈ s) :
    c = '_' ∨ ∃ d, IsDigit radix c d := by
  induction h with
  | single hd => exact .inr ⟨_, List.mem_singleton.mp hc ▸ hd⟩
  | cons hd _ ih =>
    rcases List.mem_cons.mp hc with rfl | hc
    · exact .inr ⟨_, hd⟩
    · exact ih hc
  | underscore hd _ ih =>
    rcases List.mem_cons.mp hc with rfl | hc
    · exact .inr ⟨_, hd⟩
    · rcases List.mem_cons.mp hc with rfl | hc
      · exact .inl rfl
      · exact ih hc

theorem exists_cons (h : SpellsDigits radix s ds) :
    ∃ c d r, s = c :: r ∧ IsDigit radix c d := by
  cases h with
  | single hc | cons hc | underscore hc => exact ⟨_, _, _, rfl, hc⟩

theorem isWordPart (h : SpellsDigits radix s ds) (hradix : radix ≤ 16) :
    ∀ c ∈ s, Toml.isWordPart c = true := by
  intro c hc
  rcases h.mem hc with rfl | ⟨d, hd⟩
  · rfl
  · exact isWordPart_of_isDigit hradix hd

theorem head?_append_ne (h : SpellsDigits radix s ds) (hradix : radix ≤ 16) (r : List Char) :
    (s ++ r).head? ≠ some '_' := by
  obtain ⟨c, d, t, rfl, hc⟩ := h.exists_cons
  exact fun heq => ne_underscore_of_isDigit hradix hc (Option.some.inj heq)

theorem head?_ne (h : SpellsDigits radix s ds) (hradix : radix ≤ 16) : s.head? ≠ some '_' := by
  have happ := h.head?_append_ne hradix []
  rwa [List.append_nil] at happ

/-- Digits go on where every underscore of the rest stands between digits as well. -/
theorem joined_append {isDigit : Char → Bool} (h : SpellsDigits radix s ds) (hradix : radix ≤ 16)
    (hdigit : ∀ c d, IsDigit radix c d → isDigit c = true) {r : List Char}
    (hhead : r.head? ≠ some '_') (hr : Joined isDigit r) : Joined isDigit (s ++ r) := by
  induction h with
  | single hc => exact hr.cons (ne_underscore_of_isDigit hradix hc) hhead
  | cons hc h ih =>
    exact ih.cons (ne_underscore_of_isDigit hradix hc) (h.head?_append_ne hradix r)
  | underscore hc h ih =>
    obtain ⟨c', d', t, rfl, hc'⟩ := h.exists_cons
    exact ih.underscore (ne_underscore_of_isDigit hradix hc) (ne_underscore_of_isDigit hradix hc')
      ⟨hdigit _ _ hc, hdigit _ _ hc'⟩

theorem joined {isDigit : Char → Bool} (h : SpellsDigits radix s ds) (hradix : radix ≤ 16)
    (hdigit : ∀ c d, IsDigit radix c d → isDigit c = true) : Joined isDigit s := by
  have happ := h.joined_append hradix hdigit (r := []) nofun .nil
  rwa [List.append_nil] at happ

theorem lt (h : SpellsDigits radix s ds) : ∀ d ∈ ds, d < radix := by
  induction h with
  | single hc => simpa using hc.1
  | cons hc _ ih | underscore hc _ ih => exact List.forall_mem_cons.mpr ⟨hc.1, ih⟩

theorem natural?_eq (h : SpellsDigits radix s ds) (hradix : radix ≤ 16) :
    natural? radix (withoutUnderscores s) = some (ofDigits radix ds) := by
  have hread : withoutUnderscores s ≠ [] ∧
      (withoutUnderscores s).mapM (digitBelow? radix) = some ds := by
    induction h with
    | @single c d hc | @cons c d s ds hc _ ih | @underscore c d s ds hc _ ih =>
      have hne := ne_underscore_of_isDigit hradix hc
      have hvalue := digitBelow?_of_isDigit hradix hc
      simp_all [withoutUnderscores]
  rw [natural?, if_neg hread.1, hread.2, Option.map_some]

end SpellsDigits

/-! ## Whole numbers -/

def IsSign (s : List Char) : Prop :=
  s ∈ [[], ['+'], ['-']]

/-- A sign in front of the digits of a number, or none. -/
inductive SpellsSign (n : Nat) : List Char → Int → Prop
  | none : SpellsSign n [] n
  | plus : SpellsSign n ['+'] n
  | minus : SpellsSign n ['-'] (-n)

/-- A decimal has no leading zero and may have a sign; the other radices have a mark instead. -/
inductive SpellsInteger : List Char → Int → Prop
  | decimal {sign s : List Char} {ds : List Nat} {n : Int}
      (hsign : SpellsSign (ofDigits 10 ds) sign n) (h : SpellsDigits 10 s ds)
      (hzero : s.head? = some '0' → s = ['0']) : SpellsInteger (sign ++ s) n
  | marked {mark : Char} {radix : Nat} {s : List Char} {ds : List Nat}
      (hmark : (mark, radix) ∈ [('x', 16), ('o', 8), ('b', 2)]) (h : SpellsDigits radix s ds) :
      SpellsInteger ('0' :: mark :: s) (ofDigits radix ds)

theorem SpellsSign.isSign {n : Nat} {sign : List Char} {m : Int} (h : SpellsSign n sign m) :
    IsSign sign := by
  cases h <;> simp [IsSign]

theorem IsSign.isWordPart {sign : List Char} (h : IsSign sign) :
    ∀ c ∈ sign, Toml.isWordPart c = true := by
  simp only [IsSign, List.mem_cons, List.not_mem_nil, or_false] at h
  rcases h with rfl | rfl | rfl <;> exact forall_of_all (by decide)

theorem Joined.signed {isDigit : Char → Bool} {sign s : List Char} (hsign : IsSign sign)
    (hs : s.head? ≠ some '_') (h : Joined isDigit s) : Joined isDigit (sign ++ s) := by
  simp only [IsSign, List.mem_cons, List.not_mem_nil, or_false] at hsign
  rcases hsign with rfl | rfl | rfl
  · exact h
  · exact h.cons (by decide) hs
  · exact h.cons (by decide) hs

theorem forall_isWordPart_append {s r : List Char} (hs : ∀ c ∈ s, isWordPart c = true)
    (hr : ∀ c ∈ r, isWordPart c = true) : ∀ c ∈ s ++ r, isWordPart c = true := by
  intro c hc
  exact (List.mem_append.mp hc).elim (hs c) (hr c)

namespace SpellsDigits

variable {radix : Nat} {s : List Char} {ds : List Nat}

theorem marked?_eq (h : SpellsDigits radix s ds) (hradix : radix ≤ 16) :
    marked? radix s = some (some (ofDigits radix ds : Int)) := by
  have hdigit : ∀ c d, IsDigit radix c d → isDigitBelow radix c = true :=
    fun c d => isDigitBelow_of_isDigit (Nat.le_refl _) hradix
  have hall : s.all (fun c => c == '_' || isDigitBelow radix c) = true := by
    rw [List.all_eq_true]
    intro c hc
    rcases h.mem hc with rfl | ⟨d, hd⟩
    · rfl
    · simp [hdigit c d hd]
  have hjoined : areJoined (isDigitBelow radix) (parts s) = true := h.joined hradix hdigit
  simp [marked?, hall, hjoined, h.natural?_eq hradix]

theorem decimal?_eq {sign : List Char} {n : Int} (hsign : SpellsSign (ofDigits 10 ds) sign n)
    (h : SpellsDigits 10 s ds) : decimal? (sign ++ s) = some (some n) := by
  have hnatural := h.natural?_eq (by decide)
  have hjoined : areJoined (isDigitBelow 16) (parts (sign ++ s)) = true :=
    (h.joined (by decide) fun c d => isDigitBelow_of_isDigit (by decide) (by decide)).signed
      hsign.isSign (h.head?_ne (by decide))
  cases hsign with
  | none =>
    obtain ⟨first, d, r, rfl, hd⟩ := h.exists_cons
    have hne := ne_underscore_of_isDigit (by decide) hd
    have hplus := ne_sign_of_isDigit (by decide) hd
    rw [withoutUnderscores_cons hne] at hnatural
    rw [decimal?, if_pos hjoined, List.nil_append, withoutUnderscores_cons hne,
      signed?.eq_3 _ (by simp [hplus]) (by simp [hplus]), hnatural]
    rfl
  | plus | minus =>
    rw [decimal?, if_pos hjoined, List.singleton_append, withoutUnderscores_cons (by decide),
      signed?, hnatural]
    rfl

/-- After the first digits of a number comes nothing or an underscore. -/
theorem dropWhile_eq (h : SpellsDigits 10 s ds) :
    s.dropWhile isDecimalDigit = [] ∨ ∃ r, s.dropWhile isDecimalDigit = '_' :: r := by
  have hfirst := List.head?_dropWhile_not isDecimalDigit s
  cases hdrop : s.dropWhile isDecimalDigit with
  | nil => exact .inl rfl
  | cons c r =>
    have hmem : c ∈ s := (List.dropWhile_sublist _).subset (hdrop ▸ List.mem_cons_self)
    rw [hdrop] at hfirst
    rcases h.mem hmem with rfl | ⟨d, hd⟩
    · exact .inr ⟨r, rfl⟩
    · cases (isDecimalDigit_of_isDigit hd).symm.trans hfirst

theorem ofNumeral?_eq (h : SpellsDigits 10 s ds) (hzero : s.head? = some '0' → s = ['0'])
    (w : List Char) : Scalar.ofNumeral? w s = (decimal? w).map .integer := by
  have hother : ∀ c ∈ s.dropWhile isDecimalDigit, c = '_' ∨ isDecimalDigit c = true := by
    intro c hc
    exact (h.mem ((List.dropWhile_sublist _).subset hc)).imp_right fun ⟨_, hd⟩ =>
      isDecimalDigit_of_isDigit hd
  rw [Scalar.ofNumeral?]
  rcases h.dropWhile_eq with hdrop | ⟨r, hdrop⟩
  · have hlength : ¬ (s.head? = some '0' ∧ 1 < s.length) := by
      rintro ⟨hhead, hlength⟩
      rw [hzero hhead] at hlength
      exact absurd hlength (by decide)
    simp only [hdrop, if_pos, if_neg hlength]
  · rw [hdrop] at hother
    have hfree : ∀ c, c ≠ '_' → isDecimalDigit c = false → c ∉ '_' :: r := by
      intro c hunderscore hdigit hmem
      rcases hother c hmem with heq | hc
      · exact hunderscore heq
      · rw [hdigit] at hc
        cases hc
    have hhead : s.head? ≠ some '0' := by
      intro hhead
      rw [hzero hhead] at hdrop
      cases hdrop
    simp [hdrop, hhead, hfree ' ' (by decide) (by decide), hfree '.' (by decide) (by decide),
      hfree 'e' (by decide) (by decide), hfree 'E' (by decide) (by decide)]

end SpellsDigits

/-! ## Words that begin with a digit -/

/-- A digit begins no word but that of a number, and no mark of a radix follows a zero. -/
theorem ofWord?_signed {sign r : List Char} {c : Char} (hsign : IsSign sign)
    (hc : isDecimalDigit c = true) (hmark : c = '0' → ∀ m ∈ r.head?, m ∉ ['x', 'o', 'b']) :
    Scalar.ofWord? (sign ++ c :: r) = Scalar.ofNumeral? (sign ++ c :: r) (c :: r) := by
  have hdigit : isDigitBelow 10 c = true := hc
  have hnumeral : Scalar.isNumeral (c :: r) = true := by
    simp [Scalar.isNumeral, isDigitOrUnderscore, hdigit]
  have hsigned : ∀ w, Scalar.ofSigned? w (c :: r) = Scalar.ofNumeral? w (c :: r) := by
    intro w
    rw [Scalar.ofSigned?.eq_3, if_pos hnumeral] <;>
      (intro heq
       cases heq
       cases hc)
  simp only [IsSign, List.mem_cons, List.not_mem_nil, or_false] at hsign
  rcases hsign with rfl | rfl | rfl
  · rw [List.nil_append, Scalar.ofWord?.eq_10, if_pos hnumeral]
    all_goals
      intros
      rename_i heq
      cases heq
      first
      | exact hmark rfl _ rfl (by simp)
      | cases hc
  · exact hsigned _
  · exact hsigned _

theorem SpellsInteger.ofWord?_eq {w : List Char} {n : Int} (h : SpellsInteger w n) :
    Scalar.ofWord? w = some (.integer (some n)) := by
  cases h with
  | @decimal sign s ds n hsign h hzero =>
    have hdecimal := h.decimal?_eq hsign
    have hnumeral := h.ofNumeral?_eq hzero (sign ++ s)
    obtain ⟨c, d, r, rfl, hd⟩ := h.exists_cons
    rw [ofWord?_signed hsign.isSign (isDecimalDigit_of_isDigit hd), hnumeral, hdecimal]
    · rfl
    · rintro rfl m hm
      cases hzero rfl
      cases hm
  | @marked mark radix s ds hmark h =>
    simp only [List.mem_cons, Prod.mk.injEq, List.not_mem_nil, or_false] at hmark
    rcases hmark with ⟨rfl, rfl⟩ | ⟨rfl, rfl⟩ | ⟨rfl, rfl⟩ <;>
      rw [Scalar.ofWord?, h.marked?_eq (by decide), Option.map_some]

theorem SpellsInteger.isWordPart {w : List Char} {n : Int} (h : SpellsInteger w n) :
    ∀ c ∈ w, Toml.isWordPart c = true := by
  cases h with
  | decimal hsign h =>
    exact forall_isWordPart_append hsign.isSign.isWordPart (h.isWordPart (by decide))
  | @marked mark radix s ds hmark h =>
    simp only [List.mem_cons, Prod.mk.injEq, List.not_mem_nil, or_false] at hmark
    rcases hmark with ⟨rfl, rfl⟩ | ⟨rfl, rfl⟩ | ⟨rfl, rfl⟩ <;>
      exact List.forall_mem_cons.mpr
        ⟨rfl, List.forall_mem_cons.mpr ⟨rfl, h.isWordPart (by decide)⟩⟩

/-! ## Fractions -/

/-- A mark, perhaps a sign, and the digits of an exponent, or nothing for an exponent of zero. -/
inductive SpellsExponent : List Char → Int → Prop
  | none : SpellsExponent [] 0
  | marked {mark : Char} {sign s : List Char} {ds : List Nat} {e : Int}
      (hmark : mark = 'e' ∨ mark = 'E') (hsign : SpellsSign (ofDigits 10 ds) sign e)
      (h : SpellsDigits 10 s ds) : SpellsExponent (mark :: (sign ++ s)) e

/-- Digits after a point, if there are any. -/
inductive SpellsPlaces : List Char → List Nat → Prop
  | none : SpellsPlaces [] []
  | point {s : List Char} {ds : List Nat} (h : SpellsDigits 10 s ds) : SpellsPlaces ('.' :: s) ds

/-- Whole digits without a leading zero, then places after a point or an exponent or both. -/
inductive SpellsDecimal : List Char → ℚ → Prop
  | mk {s t x : List Char} {ds es : List Nat} {e : Int} (hs : SpellsDigits 10 s ds)
      (hzero : s.head? = some '0' → s = ['0']) (ht : SpellsPlaces t es) (hx : SpellsExponent x e)
      (hne : t ++ x ≠ []) :
      SpellsDecimal (s ++ (t ++ x)) (ofDigits 10 (ds ++ es) * 10 ^ (e - es.length))

/-- A fraction with or without a sign, or a word for what is infinite or no number, and whether it
is within the range of floats. -/
inductive SpellsFraction : List Char → Bool → Prop
  | word {sign w : List Char} (hsign : IsSign sign)
      (hw : w = ['i', 'n', 'f'] ∨ w = ['n', 'a', 'n']) : SpellsFraction (sign ++ w) true
  | decimal {sign s : List Char} {q : ℚ} {b : Bool} (hsign : IsSign sign) (h : SpellsDecimal s q)
      (hb : b = true ↔ q < Binary64.limit) : SpellsFraction (sign ++ s) b

theorem ofDigits_lt (ds : List Nat) (h : ∀ d ∈ ds, d < 10) : ofDigits 10 ds < 10 ^ ds.length := by
  induction ds using List.reverseRecOn with
  | nil => exact Nat.one_pos
  | append_singleton ds d ih =>
    simp only [List.forall_mem_append, List.forall_mem_singleton] at h
    have hds := ih h.1
    have happ : ofDigits 10 (ds ++ [d]) = ofDigits 10 ds * 10 + d := by simp [ofDigits]
    rw [happ, List.length_append, List.length_singleton, pow_succ]
    omega

/-- Digits in front of a power of ten are within range when their number is. The powers that are not
tried are those that put every number of these digits on one side. -/
theorem isWithinRange_iff {ds : List Nat} (hds : ∀ d ∈ ds, d < 10) (e : Int) :
    isWithinRange ds e = true ↔ (ofDigits 10 ds : ℚ) * 10 ^ e < Binary64.limit := by
  have hbound := ofDigits_lt ds hds
  rw [isWithinRange]
  generalize ofDigits 10 ds = n at *
  split
  next hn =>
    refine iff_of_true rfl ?_
    rw [hn, Nat.cast_zero, zero_mul]
    exact zero_lt_one.trans Binary64.one_lt_limit
  next hn =>
    split
    next he =>
      obtain ⟨k, rfl⟩ : ∃ k : Nat, e = k := ⟨e.natAbs, by omega⟩
      have hiff := Binary64.isSome_ofRatio?_iff (n * 10 ^ k) Nat.one_pos
      rw [Nat.cast_one, div_one, Nat.cast_mul, Nat.cast_pow, Nat.cast_ofNat] at hiff
      rw [Bool.and_eq_true, decide_eq_true_eq, Int.natAbs_natCast, Binary64.power_eq, zpow_natCast,
        hiff]
      refine and_iff_right_of_imp fun hlt => ?_
      by_contra hlarge
      have hpow : (10 : ℚ) ^ 309 ≤ 10 ^ k := pow_le_pow_right₀ (by norm_num) (by omega)
      have hone : (1 : ℚ) ≤ n := Nat.one_le_cast.mpr (Nat.pos_of_ne_zero hn)
      have hle : (10 : ℚ) ^ k ≤ n * 10 ^ k := le_mul_of_one_le_left (by positivity) hone
      exact absurd (Binary64.limit_le.trans (hpow.trans hle)) (not_le.mpr hlt)
    next he =>
      obtain ⟨k, rfl⟩ : ∃ k : Nat, e = -k := ⟨e.natAbs, by omega⟩
      have hpos : 0 < 10 ^ k := Nat.pow_pos (by decide)
      have hiff := Binary64.isSome_ofRatio?_iff n hpos
      rw [Nat.cast_pow, Nat.cast_ofNat] at hiff
      rw [Int.natAbs_neg, Int.natAbs_natCast, zpow_neg, zpow_natCast, ← div_eq_mul_inv]
      split
      next hlength =>
        have hlt : n < 10 ^ k := hbound.trans_le (Nat.pow_le_pow_right (by decide) hlength)
        refine iff_of_true rfl (lt_trans ?_ Binary64.one_lt_limit)
        rw [div_lt_one (by positivity)]
        exact_mod_cast hlt
      next => rw [Binary64.power_eq, hiff]

theorem span_append {p : Char → Bool} {s r : List Char} (hs : ∀ c ∈ s, p c = true)
    (hr : ∀ c ∈ r.head?, p c = false) :
    (s ++ r).takeWhile p = s ∧ (s ++ r).dropWhile p = r := by
  rw [List.takeWhile_append_of_pos hs, List.dropWhile_append_of_pos hs]
  cases r with
  | nil => simp
  | cons c r => simp [hr c rfl]

namespace SpellsDigits

variable {s : List Char} {ds : List Nat} (h : SpellsDigits 10 s ds)

include h

theorem digitsIn_eq : digitsIn 10 s = ds := by
  have hunderscore : digitBelow? 10 '_' = none := by decide
  induction h with
  | single hc | cons hc _ ih | underscore hc _ ih =>
    simp_all [digitsIn, digitBelow?_of_isDigit (by decide) hc]

theorem digitSpan?_eq {r : List Char} (hr : ∀ c ∈ r.head?, isDigitOrUnderscore c = false) :
    digitSpan? (s ++ r) = some (ds, r) := by
  have hall : ∀ c ∈ s, isDigitOrUnderscore c = true := by
    intro c hc
    rcases h.mem hc with rfl | ⟨d, hd⟩
    · rfl
    · have hdigit : isDigitBelow 10 c = true := isDecimalDigit_of_isDigit hd
      simp [isDigitOrUnderscore, hdigit]
  obtain ⟨htake, hdrop⟩ := span_append hall hr
  have hdigits := h.digitsIn_eq
  obtain ⟨d, ds, rfl⟩ : ∃ d more, ds = d :: more := by
    cases h <;> exact ⟨_, _, rfl⟩
  rw [digitSpan?, htake, hdrop, hdigits]

theorem exponent?_eq {sign : List Char} {e : Int} (hsign : SpellsSign (ofDigits 10 ds) sign e) :
    exponent? (sign ++ s) = some e := by
  have hspan := h.digitSpan?_eq (r := []) nofun
  rw [List.append_nil] at hspan
  cases hsign with
  | none =>
    obtain ⟨c, d, r, rfl, hd⟩ := h.exists_cons
    have hplus := ne_sign_of_isDigit (by decide) hd
    rw [List.nil_append, exponent?.eq_3 _ (by simp [hplus]) (by simp [hplus]), hspan]
  | plus | minus => rw [List.singleton_append, exponent?, hspan]

end SpellsDigits

namespace SpellsExponent

variable {x : List Char} {e : Int} (h : SpellsExponent x e)

include h

theorem exponentPart?_eq : exponentPart? x = some e := by
  cases h with
  | none => rfl
  | marked hmark hsign h => rcases hmark with rfl | rfl <;> exact h.exponent?_eq hsign

theorem head : ∀ c ∈ x.head?, c ∈ ['e', 'E'] := by
  cases h with
  | none => rintro c ⟨⟩
  | marked hmark =>
    rintro c ⟨⟩
    simpa using hmark

theorem joined : Joined (isDigitBelow 10) x := by
  cases h with
  | none => exact .nil
  | marked hmark hsign h =>
    have hhead := h.head?_ne (by decide)
    have hdigits := h.joined (by decide) fun _ _ => isDecimalDigit_of_isDigit
    have hsigned := hdigits.signed hsign.isSign hhead
    refine hsigned.cons (by rcases hmark with rfl | rfl <;> decide) ?_
    cases hsign with
    | none => exact hhead
    | plus | minus => simp

theorem isWordPart : ∀ c ∈ x, Toml.isWordPart c = true := by
  cases h with
  | none => rintro c ⟨⟩
  | marked hmark hsign h =>
    refine List.forall_mem_cons.mpr ⟨by rcases hmark with rfl | rfl <;> rfl, ?_⟩
    exact forall_isWordPart_append hsign.isSign.isWordPart (h.isWordPart (by decide))

end SpellsExponent

namespace SpellsPlaces

variable {t : List Char} {es : List Nat} (h : SpellsPlaces t es)

include h

theorem lt : ∀ d ∈ es, d < 10 := by
  cases h with
  | none => rintro d ⟨⟩
  | point h => exact h.lt

theorem joined_append {x : List Char} {e : Int} (hx : SpellsExponent x e) :
    Joined (isDigitBelow 10) (t ++ x) := by
  cases h with
  | none => exact hx.joined
  | point h =>
    have hhead : x.head? ≠ some '_' := by
      intro heq
      exact absurd (hx.head '_' heq) (by decide)
    have hplaces := h.joined_append (by decide) (fun _ _ => isDecimalDigit_of_isDigit) hhead
      hx.joined
    exact hplaces.cons (by decide) (h.head?_append_ne (by decide) x)

theorem isWordPart : ∀ c ∈ t, Toml.isWordPart c = true := by
  cases h with
  | none => rintro c ⟨⟩
  | point h => exact List.forall_mem_cons.mpr ⟨rfl, h.isWordPart (by decide)⟩

/-- After the whole digits of a fraction comes a point or the mark of an exponent. -/
theorem head_append {x : List Char} {e : Int} (hx : SpellsExponent x e) :
    ∀ c ∈ (t ++ x).head?, c ∈ ['.', 'e', 'E'] := by
  cases h with
  | none => exact fun c hc => List.mem_cons_of_mem _ (hx.head c hc)
  | point =>
    rintro c ⟨⟩
    simp

end SpellsPlaces

namespace SpellsDecimal

variable {s : List Char} {q : ℚ} (h : SpellsDecimal s q)

include h

theorem unsignedFraction?_eq {b : Bool} (hb : b = true ↔ q < Binary64.limit) :
    unsignedFraction? s = some b := by
  obtain @⟨s, t, x, ds, es, e, hs, hzero, ht, hx, hne⟩ := h
  have hrange : isWithinRange (ds ++ es) (e - es.length) = b := by
    rw [Bool.eq_iff_iff, isWithinRange_iff (List.forall_mem_append.mpr ⟨hs.lt, ht.lt⟩), hb]
  have hmarks : ∀ c ∈ ['.', 'e', 'E'], isDigitOrUnderscore c = false := forall_of_all (by decide)
  have hspan := hs.digitSpan?_eq fun c hc => hmarks c (ht.head_append hx c hc)
  have hlead : ¬ ((s ++ (t ++ x)).head? = some '0' ∧ 1 < ds.length) := by
    rintro ⟨hhead, hlength⟩
    obtain ⟨c, d, r, rfl, -⟩ := hs.exists_cons
    cases hzero hhead
    cases hs with
    | single => exact Nat.lt_irrefl 1 hlength
    | cons _ h => cases h
  rw [unsignedFraction?, hspan]
  simp only [Option.bind_eq_bind, Option.bind_some, if_neg hlead]
  cases ht with
  | none =>
    obtain ⟨c, r, rfl⟩ := List.exists_cons_of_ne_nil hne
    have hpoint : c ≠ '.' := by
      rintro rfl
      exact absurd (hx.head '.' rfl) (by decide)
    rw [List.append_nil] at hrange
    simpa [hx.exponentPart?_eq, hpoint] using hrange
  | point ht =>
    have hplaces := ht.digitSpan?_eq fun c hc => hmarks c (List.mem_cons_of_mem _ (hx.head c hc))
    simp [hplaces, hx.exponentPart?_eq, hrange]

theorem isWordPart : ∀ c ∈ s, Toml.isWordPart c = true := by
  obtain ⟨hs, hzero, ht, hx, hne⟩ := h
  exact forall_isWordPart_append (hs.isWordPart (by decide))
    (forall_isWordPart_append ht.isWordPart hx.isWordPart)

theorem fraction?_eq {sign : List Char} {b : Bool} (hsign : IsSign sign)
    (hb : b = true ↔ q < Binary64.limit) : fraction? (sign ++ s) s = some b := by
  rw [fraction?, h.unsignedFraction?_eq hb]
  obtain @⟨s, t, x, ds, es, e, hs, -, ht, hx, -⟩ := h
  have hhead : (t ++ x).head? ≠ some '_' := by
    intro heq
    exact absurd (ht.head_append hx '_' heq) (by decide)
  have hjoined := hs.joined_append (by decide) (fun _ _ => isDecimalDigit_of_isDigit) hhead
    (ht.joined_append hx)
  exact if_pos (hjoined.signed hsign (hs.head?_append_ne (by decide) (t ++ x)))

/-- What follows the first digits of a fraction is neither of a whole number nor of a moment. -/
theorem ofNumeral?_eq (w : List Char) :
    Scalar.ofNumeral? w s = (fraction? w s).map .fraction := by
  have hword := h.isWordPart
  obtain @⟨s, t, x, ds, es, e, hs, hzero, ht, hx, hne⟩ := h
  obtain ⟨m, r, hmarked⟩ := List.exists_cons_of_ne_nil hne
  have hm : m ∈ ['.', 'e', 'E'] := ht.head_append hx m (by rw [hmarked]; rfl)
  have hdigit : isDecimalDigit m = false := by
    have hall : ∀ m ∈ ['.', 'e', 'E'], isDecimalDigit m = false := forall_of_all (by decide)
    exact hall m hm
  rw [hmarked] at hword ⊢
  have hblank : ' ' ∉ (s ++ m :: r).dropWhile isDecimalDigit := by
    intro hmem
    cases hword ' ' ((List.dropWhile_sublist _).subset hmem)
  obtain ⟨c, u, hdrop, hc, hmem⟩ : ∃ c u, (s ++ m :: r).dropWhile isDecimalDigit = c :: u ∧
      c ∈ ['_', '.', 'e', 'E'] ∧ m ∈ c :: u := by
    rw [List.dropWhile_append]
    rcases hs.dropWhile_eq with hdrop | ⟨u, hdrop⟩
    · exact ⟨m, r, by simp [hdrop, hdigit], List.mem_cons_of_mem _ hm, List.mem_cons_self⟩
    · exact ⟨'_', u ++ m :: r, by simp [hdrop], by simp, by simp⟩
  have hother : ¬ (c = '-' ∨ c = ':') := by
    rintro (rfl | rfl) <;> exact absurd hc (by decide)
  have hpoint : '.' ∈ c :: u ∨ 'e' ∈ c :: u ∨ 'E' ∈ c :: u := by
    simp only [List.mem_cons, List.not_mem_nil, or_false] at hm
    rcases hm with rfl | rfl | rfl
    · exact .inl hmem
    · exact .inr (.inl hmem)
    · exact .inr (.inr hmem)
  rw [hdrop] at hblank
  simp only [Scalar.ofNumeral?, hdrop, List.head?_cons, Option.some.injEq, if_neg hother,
    if_neg hblank, if_pos hpoint, reduceCtorEq, if_false]

theorem ofWord?_eq {sign : List Char} {b : Bool} (hsign : IsSign sign)
    (hb : b = true ↔ q < Binary64.limit) : Scalar.ofWord? (sign ++ s) = some (.fraction b) := by
  have hnumeral := h.ofNumeral?_eq (sign ++ s)
  rw [h.fraction?_eq hsign hb, Option.map_some] at hnumeral
  obtain @⟨s, t, x, ds, es, e, hs, hzero, ht, hx, hne⟩ := h
  obtain ⟨c, d, r, rfl, hd⟩ := hs.exists_cons
  refine (ofWord?_signed hsign (isDecimalDigit_of_isDigit hd) ?_).trans hnumeral
  rintro rfl m hm
  cases hzero rfl
  have hall : ∀ c ∈ ['.', 'e', 'E'], c ∉ ['x', 'o', 'b'] := forall_of_all (by decide)
  exact hall m (ht.head_append hx m hm)

end SpellsDecimal

namespace SpellsFraction

variable {w : List Char} {b : Bool} (h : SpellsFraction w b)

include h

theorem ofWord?_eq : Scalar.ofWord? w = some (.fraction b) := by
  cases h with
  | word hsign hw =>
    simp only [IsSign, List.mem_cons, List.not_mem_nil, or_false] at hsign
    rcases hsign with rfl | rfl | rfl <;> rcases hw with rfl | rfl <;> rfl
  | decimal hsign h hb => exact h.ofWord?_eq hsign hb

theorem isWordPart : ∀ c ∈ w, Toml.isWordPart c = true := by
  cases h with
  | word hsign hw =>
    refine forall_isWordPart_append hsign.isWordPart ?_
    rcases hw with rfl | rfl <;> exact forall_of_all (by decide)
  | decimal hsign h => exact forall_isWordPart_append hsign.isWordPart h.isWordPart

end SpellsFraction

end LetterPages.Toml
