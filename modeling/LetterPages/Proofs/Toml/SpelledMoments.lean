import LetterPages.Proofs.Toml.SpelledNumbers
import LetterPages.Proofs.Toml.StatementLocality

/-!
# Spelled dates and times

How a date of the calendar, a time of the day or both are written. A word that is so written is read
as a moment; it may hold one blank, which no other word does.
-/

namespace LetterPages.Toml

inductive SpellsTwo : List Char → Nat → Prop
  | mk {a b : Char} {m n : Nat} (ha : IsDigit 10 a m) (hb : IsDigit 10 b n) :
      SpellsTwo [a, b] (m * 10 + n)

/-- A day that the month has in that year. -/
inductive SpellsDate : List Char → Prop
  | mk {c y m d : List Char} {century year month day : Nat} (hc : SpellsTwo c century)
      (hy : SpellsTwo y year) (hm : SpellsTwo m month) (hd : SpellsTwo d day)
      (hmonth : 1 ≤ month ∧ month ≤ 12)
      (hday : 1 ≤ day ∧ day ≤ daysIn (century * 100 + year) month) :
      SpellsDate (c ++ (y ++ '-' :: (m ++ '-' :: d)))

/-- The seconds of a time, which may be left out, and parts of the last one. -/
inductive SpellsSeconds : List Char → Prop
  | none : SpellsSeconds []
  | whole {s : List Char} {n : Nat} (hs : SpellsTwo s n) (hn : n ≤ 60) : SpellsSeconds (':' :: s)
  | parts {s t : List Char} {n : Nat} (hs : SpellsTwo s n) (hn : n ≤ 60) (hne : t ≠ [])
      (ht : ∀ c ∈ t, isDecimalDigit c = true) : SpellsSeconds (':' :: (s ++ '.' :: t))

inductive SpellsTime : List Char → Prop
  | mk {h m s : List Char} {hour minute : Nat} (hh : SpellsTwo h hour) (hm : SpellsTwo m minute)
      (hhour : hour ≤ 23) (hminute : minute ≤ 59) (hs : SpellsSeconds s) :
      SpellsTime (h ++ ':' :: (m ++ s))

inductive SpellsOffset : List Char → Prop
  | none : SpellsOffset []
  | zulu {c : Char} (hc : c = 'Z' ∨ c = 'z') : SpellsOffset [c]
  | shift {sign : Char} {h m : List Char} {hours minutes : Nat} (hsign : sign = '+' ∨ sign = '-')
      (hh : SpellsTwo h hours) (hm : SpellsTwo m minutes) (hhours : hours ≤ 23)
      (hminutes : minutes ≤ 59) : SpellsOffset (sign :: (h ++ ':' :: m))

inductive SpellsMoment : List Char → Prop
  | date {d : List Char} (hd : SpellsDate d) : SpellsMoment d
  | time {t : List Char} (ht : SpellsTime t) : SpellsMoment t
  | both {d t o : List Char} {joint : Char} (hd : SpellsDate d) (hjoint : joint ∈ ['T', 't', ' '])
      (ht : SpellsTime t) (ho : SpellsOffset o) : SpellsMoment (d ++ joint :: (t ++ o))

theorem spellsTwo {n : Nat} (h : n < 100) :
    SpellsTwo [(n / 10).digitChar, (n % 10).digitChar] n := by
  have htwo : SpellsTwo [(n / 10).digitChar, (n % 10).digitChar] (n / 10 * 10 + n % 10) :=
    .mk ⟨by omega, .inl rfl⟩ ⟨by omega, .inl rfl⟩
  rwa [Nat.mul_comm, Nat.div_add_mod] at htwo

/-! ## Parts of a moment -/

theorem SpellsTwo.twoDigits_append {s : List Char} {n : Nat} (h : SpellsTwo s n) (r : List Char) :
    twoDigits (s ++ r) = some (n, r) := by
  obtain ⟨ha, hb⟩ := h
  simp [twoDigits, digitBelow?_of_isDigit (by decide) ha, digitBelow?_of_isDigit (by decide) hb]

theorem SpellsDate.afterDate?_append {d : List Char} (h : SpellsDate d) (r : List Char) :
    afterDate? (d ++ r) = some r := by
  obtain ⟨hc, hy, hm, hd, hmonth, hday⟩ := h
  simp only [List.append_assoc, List.cons_append, afterDate?, hc.twoDigits_append,
    hy.twoDigits_append, hm.twoDigits_append, hd.twoDigits_append]
  exact if_pos ⟨hmonth.1, hmonth.2, hday⟩

/-- What ends a time: neither more seconds nor more parts of one follow. -/
def EndsTime (r : List Char) : Prop :=
  ∀ c ∈ r.head?, c ≠ ':' ∧ c ≠ '.' ∧ isDecimalDigit c = false

theorem EndsTime.afterSecondParts?_eq {r : List Char} (h : EndsTime r) :
    afterSecondParts? r = some r := by
  rw [afterSecondParts?.eq_3]
  · rintro c t rfl
    exact (h '.' rfl).2.1 rfl
  · rintro rfl
    exact (h '.' rfl).2.1 rfl

theorem SpellsSeconds.afterSeconds?_append {s r : List Char} (h : SpellsSeconds s)
    (hr : EndsTime r) : afterSeconds? (s ++ r) = some r := by
  cases h with
  | none =>
    rw [List.nil_append, afterSeconds?.eq_2]
    rintro t rfl
    exact (hr ':' rfl).1 rfl
  | whole hs hn =>
    rw [List.cons_append, afterSeconds?, hs.twoDigits_append]
    exact (if_pos hn).trans hr.afterSecondParts?_eq
  | parts hs hn hne ht =>
    obtain ⟨c, t, rfl⟩ := List.exists_cons_of_ne_nil hne
    obtain ⟨hc, ht⟩ := List.forall_mem_cons.mp ht
    have hdrop := (span_append ht fun c hc => (hr c hc).2.2).2
    simp only [List.append_assoc, List.cons_append]
    rw [afterSeconds?, hs.twoDigits_append]
    refine (if_pos hn).trans ?_
    rw [afterSecondParts?, if_pos hc, hdrop]

theorem SpellsTime.afterTime?_append {t r : List Char} (h : SpellsTime t) (hr : EndsTime r) :
    afterTime? (t ++ r) = some r := by
  obtain ⟨hh, hm, hhour, hminute, hs⟩ := h
  simp only [List.append_assoc, List.cons_append, afterTime?, hh.twoDigits_append,
    hm.twoDigits_append]
  exact (if_pos ⟨hhour, hminute⟩).trans (hs.afterSeconds?_append hr)

theorem SpellsTime.afterDate?_eq_none {t : List Char} (h : SpellsTime t) :
    afterDate? t = none := by
  obtain ⟨hh, hm, -⟩ := h
  have hcolon : ∀ r, twoDigits (':' :: r) = none := by
    intro r
    have hdigit : digitBelow? 10 ':' = none := by decide
    cases r <;> simp [twoDigits, hdigit]
  simp only [afterDate?, hh.twoDigits_append, hcolon]

theorem SpellsOffset.endsTime {o : List Char} (h : SpellsOffset o) : EndsTime o := by
  cases h with
  | none => rintro c ⟨⟩
  | zulu hc =>
    rintro d ⟨⟩
    rcases hc with rfl | rfl <;> decide
  | shift hsign =>
    rintro d ⟨⟩
    rcases hsign with rfl | rfl <;> decide

theorem SpellsOffset.isOffset_eq {o : List Char} (h : SpellsOffset o) : isOffset o = true := by
  cases h with
  | none => rfl
  | zulu hc => rcases hc with rfl | rfl <;> rfl
  | @shift sign h m hours minutes hsign hh hm hhours hminutes =>
    have hminute := hm.twoDigits_append []
    rw [List.append_nil] at hminute
    rw [isOffset.eq_4, hh.twoDigits_append]
    · simp [hminute, hsign, hhours, hminutes]
    all_goals
      intro heq
      cases heq
      rcases hsign with hsign | hsign <;> cases hsign

theorem SpellsDate.isDate_eq {d : List Char} (h : SpellsDate d) : isDate d = true := by
  have hafter := h.afterDate?_append []
  rw [List.append_nil] at hafter
  rw [isDate, hafter]
  rfl

theorem isMoment_spelled {w : List Char} (h : SpellsMoment w) : isMoment w = true := by
  cases h with
  | date hd =>
    have hafter := hd.afterDate?_append []
    rw [List.append_nil] at hafter
    rw [isMoment, hafter]
  | time ht =>
    have hafter := ht.afterTime?_append (r := []) (by rintro c ⟨⟩)
    rw [List.append_nil] at hafter
    rw [isMoment, ht.afterDate?_eq_none, hafter]
    rfl
  | @both d t o joint hd hjoint ht ho =>
    have hjoint : isJoint joint = true := by
      have hall : ∀ c ∈ ['T', 't', ' '], isJoint c = true := forall_of_all (by decide)
      exact hall joint hjoint
    rw [isMoment, hd.afterDate?_append]
    simp [hjoint, ht.afterTime?_append ho.endsTime, ho.isOffset_eq]

/-! ## Words of moments -/

theorem SpellsTwo.forall_isDecimalDigit {s : List Char} {n : Nat} (h : SpellsTwo s n) :
    ∀ c ∈ s, isDecimalDigit c = true := by
  obtain ⟨ha, hb⟩ := h
  simp [isDecimalDigit_of_isDigit ha, isDecimalDigit_of_isDigit hb]

theorem isWordPart_of_isDecimalDigit {c : Char} (h : isDecimalDigit c = true) :
    isWordPart c = true := by
  have hall : ∀ c ∈ ['=', ',', '[', ']', '\x7b', '\x7d', ' ', '\t', '#', '\r', '\n'],
      isDecimalDigit c = false := forall_of_all (by decide)
  rw [isWordPart, decide_eq_true_eq]
  intro hmem
  cases (hall c hmem).symm.trans h

theorem SpellsTwo.isWordPart {s : List Char} {n : Nat} (h : SpellsTwo s n) :
    ∀ c ∈ s, Toml.isWordPart c = true :=
  fun c hc => isWordPart_of_isDecimalDigit (h.forall_isDecimalDigit c hc)

theorem SpellsDate.isWordPart {d : List Char} (h : SpellsDate d) :
    ∀ c ∈ d, Toml.isWordPart c = true := by
  obtain ⟨hc, hy, hm, hd, -, -⟩ := h
  simp only [List.forall_mem_append, List.forall_mem_cons]
  exact ⟨hc.isWordPart, hy.isWordPart, rfl, hm.isWordPart, rfl, hd.isWordPart⟩

theorem SpellsTime.isWordPart {t : List Char} (h : SpellsTime t) :
    ∀ c ∈ t, Toml.isWordPart c = true := by
  obtain ⟨hh, hm, -, -, hs⟩ := h
  simp only [List.forall_mem_append, List.forall_mem_cons]
  refine ⟨hh.isWordPart, rfl, hm.isWordPart, ?_⟩
  cases hs with
  | none => rintro c ⟨⟩
  | whole hs => exact List.forall_mem_cons.mpr ⟨rfl, hs.isWordPart⟩
  | parts hs _ _ ht =>
    simp only [List.forall_mem_append, List.forall_mem_cons]
    exact ⟨rfl, hs.isWordPart, rfl, fun c hc => isWordPart_of_isDecimalDigit (ht c hc)⟩

theorem SpellsOffset.isWordPart {o : List Char} (h : SpellsOffset o) :
    ∀ c ∈ o, Toml.isWordPart c = true := by
  cases h with
  | none => rintro c ⟨⟩
  | zulu hc => rcases hc with rfl | rfl <;> exact forall_of_all (by decide)
  | shift hsign hh hm =>
    simp only [List.forall_mem_append, List.forall_mem_cons]
    refine ⟨?_, hh.isWordPart, rfl, hm.isWordPart⟩
    rcases hsign with rfl | rfl <;> rfl

/-- Two digits or more and a mark that no number has begin a moment. -/
theorem SpellsMoment.exists_digits {w : List Char} (h : SpellsMoment w) :
    ∃ a b s m r, w = a :: b :: (s ++ m :: r) ∧ isDecimalDigit a = true ∧ isDecimalDigit b = true ∧
      (∀ c ∈ s, isDecimalDigit c = true) ∧ (m = '-' ∨ m = ':') := by
  have hdate : ∀ {d}, SpellsDate d → ∀ r, ∃ a b s m t, d ++ r = a :: b :: (s ++ m :: t) ∧
      isDecimalDigit a = true ∧ isDecimalDigit b = true ∧ (∀ c ∈ s, isDecimalDigit c = true) ∧
      (m = '-' ∨ m = ':') := by
    intro d hd r
    obtain @⟨c, y, m, d, century, year, month, day, ⟨ha, hb⟩, hy, -⟩ := hd
    exact ⟨_, _, y, '-', m ++ '-' :: (d ++ r), by simp, isDecimalDigit_of_isDigit ha,
      isDecimalDigit_of_isDigit hb, hy.forall_isDecimalDigit, .inl rfl⟩
  cases h with
  | date hd =>
    have hdigits := hdate hd []
    rwa [List.append_nil] at hdigits
  | time ht =>
    obtain ⟨⟨ha, hb⟩, -⟩ := ht
    exact ⟨_, _, [], _, _, rfl, isDecimalDigit_of_isDigit ha, isDecimalDigit_of_isDigit hb,
      by simp, .inr rfl⟩
  | both hd => exact hdate hd _

theorem SpellsMoment.ofWord?_eq {w : List Char} (h : SpellsMoment w) :
    Scalar.ofWord? w = some .moment := by
  have hmoment := isMoment_spelled h
  obtain ⟨a, b, s, m, r, rfl, ha, hb, hs, hm⟩ := h.exists_digits
  have hdrop : (a :: b :: (s ++ m :: r)).dropWhile isDecimalDigit = m :: r := by
    have hend : isDecimalDigit m = false := by rcases hm with rfl | rfl <;> rfl
    rw [List.dropWhile_cons_of_pos ha, List.dropWhile_cons_of_pos hb,
      List.dropWhile_append_of_pos hs, List.dropWhile_cons_of_neg (by simp [hend])]
  have hmark : a = '0' → ∀ c ∈ (b :: (s ++ m :: r)).head?, c ∉ ['x', 'o', 'b'] := by
    rintro - c ⟨⟩ hmem
    have hall : ∀ c ∈ ['x', 'o', 'b'], isDecimalDigit c = false := forall_of_all (by decide)
    cases (hall b hmem).symm.trans hb
  have hsign : IsSign [] := by simp [IsSign]
  have hword := ofWord?_signed hsign ha hmark
  rw [List.nil_append] at hword
  rw [hword, Scalar.ofNumeral?, hdrop]
  simp [hm, hmoment]

end LetterPages.Toml
