import Mathlib.Data.List.DropRight
import Mathlib.Data.List.Infix
import LetterPages.Proofs.ChunkNames

/-!
# Console lines read back

A locale is cut down part by part until it is the tag of a language. The wordings of that language
are templates with named placeholders; a line is its template with each placeholder replaced once,
and what it was filled with can be read off the line again from its right end.
-/

namespace LetterPages

/-! ## The language of a locale -/

namespace Language

/-- A tag and what is left of it when its last parts are dropped one after the other. -/
def tried (tag : List Char) : List (List Char) :=
  (tag.splitOn '-').inits.tail.reverse.map ['-'].intercalate

theorem withoutLast?_eq_some {tag shorter : List Char} (h : withoutLast? tag = some shorter) :
    ∃ last, '-' ∉ last ∧ tag = shorter ++ '-' :: last := by
  have hsplit := List.takeWhile_append_dropWhile (p := (· != '-')) (l := tag.reverse)
  unfold withoutLast? at h
  split at h
  · cases h
  · rename_i dash rest hrest
    cases h
    have hdash := List.head?_dropWhile_not (· != '-') tag.reverse
    rw [hrest] at hsplit hdash
    refine ⟨(tag.reverse.takeWhile (· != '-')).reverse, ?_, ?_⟩
    · intro hmem
      simpa using List.mem_takeWhile_imp (List.mem_reverse.mp hmem)
    · have hdash : dash = '-' := by simpa using hdash
      rw [hdash] at hsplit
      simpa using congrArg List.reverse hsplit.symm

theorem withoutLast?_eq_none {tag : List Char} (h : withoutLast? tag = none) : '-' ∉ tag := by
  unfold withoutLast? at h
  split at h
  · rename_i hrest
    rw [List.dropWhile_eq_nil_iff] at hrest
    intro hmem
    simpa using hrest '-' (List.mem_reverse.mpr hmem)
  · cases h

theorem tried_of_not_mem {tag : List Char} (h : '-' ∉ tag) : tried tag = [tag] := by
  rw [tried, List.splitOn_eq_singleton h]
  simp

theorem tried_append (shorter : List Char) {last : List Char} (h : '-' ∉ last) :
    tried (shorter ++ '-' :: last) = (shorter ++ '-' :: last) :: tried shorter := by
  have hsplit : (shorter ++ '-' :: last).splitOn '-' = shorter.splitOn '-' ++ [last] := by
    rw [← List.splitOn_eq_singleton h]
    exact List.splitOnP_append_cons _ _ (by decide)
  have htail : ∀ l : List (List Char), (l ++ [last]).inits.tail = l.inits.tail ++ [l ++ [last]] := by
    intro l
    rw [List.inits_append]
    cases l <;> rfl
  rw [tried, hsplit, htail, List.reverse_concat, List.map_cons, ← hsplit, List.intercalate_splitOn]
  rfl

/-- The language is the first one found among the tags tried, and English when none is. -/
theorem ofTag_eq (tag : List Char) : ofTag tag = ((tried tag).findSome? known?).getD english := by
  fun_induction ofTag tag with
  | case1 tag l hknown =>
    have htried : ∃ rest, tried tag = tag :: rest := by
      cases hshorter : withoutLast? tag with
      | none => exact ⟨[], tried_of_not_mem (withoutLast?_eq_none hshorter)⟩
      | some shorter =>
        obtain ⟨last, hlast, rfl⟩ := withoutLast?_eq_some hshorter
        exact ⟨_, tried_append shorter hlast⟩
    obtain ⟨rest, hrest⟩ := htried
    rw [hrest, List.findSome?_cons, hknown]
    rfl
  | case2 tag hknown shorter hshorter ih =>
    obtain ⟨last, hlast, rfl⟩ := withoutLast?_eq_some hshorter
    rw [tried_append shorter hlast, List.findSome?_cons, hknown, ih]
  | case3 tag hknown hnone =>
    rw [tried_of_not_mem (withoutLast?_eq_none hnone), List.findSome?_cons, hknown]
    rfl

example : tried "nb-NO-x".toList = ["nb-NO-x".toList, "nb-NO".toList, "nb".toList] := by decide

end Language

namespace Console

/-! ## Templates -/

def Slot.name : Slot → String
  | .file => "file"
  | .count => "count"
  | .total => "total"
  | .chunks => "chunks"

/-- The text of a part in a template, a placeholder where it is a slot. -/
def Part.template : Part → List Char
  | .words text => text.toList
  | .slot s => '%' :: '\x7b' :: (s.name.toList ++ ['\x7d'])

def wroteTemplate : Language → String
  | .english => "Wrote %\x7bfile\x7d with %\x7bcount\x7d letters"
  | .norwegian => "Lagret %\x7bfile\x7d med %\x7bcount\x7d brev"

def wouldWriteTemplate : Language → String
  | .english => "Would write %\x7bfile\x7d with %\x7bcount\x7d letters"
  | .norwegian => "Ville lagret %\x7bfile\x7d med %\x7bcount\x7d brev"

def totalTemplate : Language → String
  | .english => "Total: %\x7btotal\x7d letters split into %\x7bchunks\x7d files"
  | .norwegian => "Totalt: %\x7btotal\x7d brev delt i %\x7bchunks\x7d filer"

/-- The name in the placeholder that a text starts with, and the text after it. -/
def placeholder? : List Char → Option (List Char × List Char)
  | '%' :: '\x7b' :: rest =>
    match rest.dropWhile (· != '\x7d') with
    | [] => none
    | _ :: after => some (rest.takeWhile (· != '\x7d'), after)
  | _ => none

theorem length_lt_of_placeholder? {text name after : List Char}
    (h : placeholder? text = some (name, after)) : after.length < text.length := by
  unfold placeholder? at h
  split at h
  · rename_i rest
    split at h
    · cases h
    · rename_i hafter
      cases h
      have hle := (List.dropWhile_sublist (· != '\x7d') (l := rest)).length_le
      rw [hafter] at hle
      simp only [List.length_cons] at hle ⊢
      omega
  · cases h

/-- A template with its placeholders replaced by the values of their names, in one pass from the
left. A value is not looked into again, and a placeholder without a value stays. -/
def interpolate (values : List (String × String)) : List Char → List Char
  | [] => []
  | c :: rest =>
    match _h : placeholder? (c :: rest) with
    | some (name, after) =>
      match values.lookup (String.ofList name) with
      | some value => value.toList ++ interpolate values after
      | none => '%' :: '\x7b' :: (name ++ '\x7d' :: interpolate values after)
    | none => c :: interpolate values rest
termination_by text => text.length
decreasing_by
  · exact length_lt_of_placeholder? (by assumption)
  · exact length_lt_of_placeholder? (by assumption)
  · simp

variable {values : List (String × String)} {value value' : Slot → String}

theorem interpolate_cons {c : Char} {rest : List Char} (h : placeholder? (c :: rest) = none) :
    interpolate values (c :: rest) = c :: interpolate values rest := by
  rw [interpolate]
  split
  · rename_i heq
    rw [h] at heq
    cases heq
  · rfl

theorem interpolate_placeholder {text name after : List Char} {given : String}
    (h : placeholder? text = some (name, after))
    (hgiven : values.lookup (String.ofList name) = some given) :
    interpolate values text = given.toList ++ interpolate values after := by
  cases text with
  | nil => cases h
  | cons c rest =>
    rw [interpolate]
    split
    · rename_i heq
      rw [h] at heq
      cases heq
      rw [hgiven]
    · rename_i heq
      rw [h] at heq
      cases heq

theorem placeholder?_cons {c : Char} (h : '%' ≠ c) (rest : List Char) :
    placeholder? (c :: rest) = none := by
  unfold placeholder?
  split
  · rename_i heq
    exact absurd (List.head_eq_of_cons_eq heq).symm h
  · rfl

theorem placeholder?_template (s : Slot) (rest : List Char) :
    placeholder? ((Part.slot s).template ++ rest) = some (s.name.toList, rest) := by
  cases s <;> rfl

theorem interpolate_words {words : List Char} (h : '%' ∉ words) (rest : List Char) :
    interpolate values (words ++ rest) = words ++ interpolate values rest := by
  induction words with
  | nil => rfl
  | cons c words ih =>
    obtain ⟨hc, hwords⟩ : '%' ≠ c ∧ '%' ∉ words := by simpa using h
    rw [List.cons_append, interpolate_cons (placeholder?_cons hc _), ih hwords, List.cons_append]

theorem interpolate_slot {s : Slot} {text : String} (h : values.lookup s.name = some text)
    (rest : List Char) :
    interpolate values ((Part.slot s).template ++ rest) = text.toList ++ interpolate values rest := by
  apply interpolate_placeholder (placeholder?_template s rest)
  rw [String.ofList_toList, h]

/-- Filling the slots of a wording is replacing the placeholders of its template. -/
theorem interpolate_template {wording : List Part}
    (hwords : ∀ text, .words text ∈ wording → '%' ∉ text.toList)
    (hslots : ∀ s, .slot s ∈ wording → values.lookup s.name = some (value s)) :
    interpolate values (wording.flatMap Part.template) = (fill value wording).toList := by
  induction wording with
  | nil => rw [List.flatMap_nil, interpolate, fill, List.map_nil, String.join_nil, String.toList_empty]
  | cons part wording ih =>
    have ih := ih (fun text htext => hwords text (List.mem_cons_of_mem _ htext))
      (fun s hs => hslots s (List.mem_cons_of_mem _ hs))
    rw [List.flatMap_cons, fill, List.map_cons, String.join_cons, String.toList_append]
    cases part with
    | words text =>
      rw [Part.template, interpolate_words (hwords text List.mem_cons_self), ih]
      rfl
    | slot s =>
      rw [interpolate_slot (hslots s List.mem_cons_self), ih]
      rfl

/-! ## Sentences of two slots -/

/-- Two slots between words that hold no placeholder; the words in front of the second slot end in
a blank. -/
def IsSentence (first second : Slot) (wording : List Part) : Prop :=
  ∃ opening between closing, '%' ∉ (opening ++ between ++ closing).toList ∧ wording =
    [.words opening, .slot first, .words (between ++ " "), .slot second, .words closing]

theorem isSentence_wroteWording (l : Language) : IsSentence .file .count (wroteWording l) := by
  cases l with
  | english => exact ⟨"Wrote ", " with", " letters", by decide, rfl⟩
  | norwegian => exact ⟨"Lagret ", " med", " brev", by decide, rfl⟩

theorem isSentence_wouldWriteWording (l : Language) :
    IsSentence .file .count (wouldWriteWording l) := by
  cases l with
  | english => exact ⟨"Would write ", " with", " letters", by decide, rfl⟩
  | norwegian => exact ⟨"Ville lagret ", " med", " brev", by decide, rfl⟩

theorem isSentence_totalWording (l : Language) : IsSentence .total .chunks (totalWording l) := by
  cases l with
  | english => exact ⟨"Total: ", " letters split into", " files", by decide, rfl⟩
  | norwegian => exact ⟨"Totalt: ", " brev delt i", " filer", by decide, rfl⟩

theorem interpolate_sentence {first second : Slot} {wording : List Part}
    (h : IsSentence first second wording) (hname : second.name ≠ first.name)
    (value : Slot → String) :
    interpolate [(first.name, value first), (second.name, value second)]
      (wording.flatMap Part.template) = (fill value wording).toList := by
  obtain ⟨opening, between, closing, hplain, rfl⟩ := h
  simp only [String.toList_append, List.mem_append, not_or] at hplain
  obtain ⟨⟨hopening, hbetween⟩, hclosing⟩ := hplain
  apply interpolate_template
  · intro text htext
    simp only [List.mem_cons, Part.words.injEq, reduceCtorEq, List.not_mem_nil, false_or,
      or_false] at htext
    obtain rfl | rfl | rfl := htext
    · exact hopening
    · rw [String.toList_append, List.mem_append]
      exact not_or.mpr ⟨hbetween, by decide⟩
    · exact hclosing
  · intro s hs
    simp only [List.mem_cons, Part.slot.injEq, reduceCtorEq, List.not_mem_nil, false_or,
      or_false] at hs
    obtain rfl | rfl := hs
    · exact List.lookup_cons_self
    · rw [List.lookup_cons, beq_false_of_ne hname]
      exact List.lookup_cons_self

/-! ## What a line was filled with -/

/-- The numeral at the end of a text is what comes after the last character that is no digit. -/
theorem rdropWhile_numeral (front : List Char) (n : Nat) :
    (front ++ ' ' :: (toString n).toList).rdropWhile Char.isDigit = front ++ [' '] := by
  have hdigits : ∀ c ∈ (toString n).toList.reverse, c.isDigit = true := by
    intro c hc
    exact isDigit_of_mem_toString (List.mem_reverse.mp hc)
  rw [List.rdropWhile, List.reverse_append, List.reverse_cons, List.append_assoc,
    List.dropWhile_append_of_pos hdigits]
  simp

theorem numeral_inj {front front' : List Char} {n n' : Nat}
    (h : front ++ ' ' :: (toString n).toList = front' ++ ' ' :: (toString n').toList) :
    front = front' ∧ n = n' := by
  have hfront : front = front' := by
    have hrest := congrArg (List.rdropWhile Char.isDigit) h
    rwa [rdropWhile_numeral, rdropWhile_numeral, List.append_left_inj] at hrest
  subst hfront
  have hdigits := List.cons_inj_right _ |>.mp (List.append_right_inj _ |>.mp h)
  exact ⟨rfl, toString_inj (String.toList_inj.mp hdigits)⟩

theorem fill_inj {first second : Slot} {wording : List Part} {n n' : Nat}
    (hsentence : IsSentence first second wording) (hn : value second = toString n)
    (hn' : value' second = toString n') (h : fill value wording = fill value' wording) :
    value first = value' first ∧ n = n' := by
  obtain ⟨opening, between, closing, -, rfl⟩ := hsentence
  have hline : ∀ v : Slot → String, (fill v [.words opening, .slot first,
      .words (between ++ " "), .slot second, .words closing]).toList =
      opening.toList ++ ((v first).toList ++ between.toList ++ ' ' :: (v second).toList) ++
        closing.toList := by
    intro v
    simp [fill, String.join_cons, String.join_nil, String.toList_append]
  -- the first value may hold the words of the line, so nothing can be read off from the left
  have h := congrArg String.toList h
  rw [hline, hline, List.append_left_inj, List.append_right_inj, hn, hn'] at h
  obtain ⟨hfront, hcount⟩ := numeral_inj h
  exact ⟨String.toList_inj.mp (List.append_left_inj _ |>.mp hfront), hcount⟩

theorem template_wroteWording (l : Language) :
    (wroteWording l).flatMap Part.template = (wroteTemplate l).toList := by
  cases l <;> decide

theorem template_wouldWriteWording (l : Language) :
    (wouldWriteWording l).flatMap Part.template = (wouldWriteTemplate l).toList := by
  cases l <;> decide

theorem template_totalWording (l : Language) :
    (totalWording l).flatMap Part.template = (totalTemplate l).toList := by
  cases l <;> decide

/-! ## Lines from templates -/

/-- The line of a template that names a file and a number of records. -/
def fileLine (template file : String) (count : Nat) : String :=
  String.ofList (interpolate [("file", file), ("count", toString count)] template.toList)

/-- The line of a template that names how many letters and chunks there are. -/
def totalLine (template : String) (letters chunks : Nat) : String :=
  String.ofList (interpolate [("total", toString letters), ("chunks", toString chunks)]
    template.toList)

theorem wrote_eq (locale file : String) (count : Nat) :
    wrote locale file count = fileLine (wroteTemplate (.ofLocale locale)) file count := by
  have hline := interpolate_sentence (isSentence_wroteWording (.ofLocale locale)) (by decide)
    (fileCount file count)
  rw [template_wroteWording] at hline
  exact String.toList_inj.mp (hline.symm.trans (String.toList_ofList).symm)

theorem wouldWrite_eq (locale file : String) (count : Nat) :
    wouldWrite locale file count = fileLine (wouldWriteTemplate (.ofLocale locale)) file count := by
  have hline := interpolate_sentence (isSentence_wouldWriteWording (.ofLocale locale)) (by decide)
    (fileCount file count)
  rw [template_wouldWriteWording] at hline
  exact String.toList_inj.mp (hline.symm.trans (String.toList_ofList).symm)

theorem total_eq (locale : String) (letters chunks : Nat) :
    total locale letters chunks = totalLine (totalTemplate (.ofLocale locale)) letters chunks := by
  have hline := interpolate_sentence (isSentence_totalWording (.ofLocale locale)) (by decide)
    (totals letters chunks)
  rw [template_totalWording] at hline
  exact String.toList_inj.mp (hline.symm.trans (String.toList_ofList).symm)

/-- Each line is the template of the language the locale stands for, with every placeholder replaced
in one pass by the text given for it. Two lines of one kind are the same only if they were filled
with the same values. -/
theorem lines_literal (locale : String) :
    Language.ofLocale locale =
      ((Language.tried locale.toList).findSome? Language.known?).getD .english ∧
    (∀ file count, (wrote locale file count).toList =
      interpolate [("file", file), ("count", toString count)]
        (wroteTemplate (.ofLocale locale)).toList) ∧
    (∀ file count, (wouldWrite locale file count).toList =
      interpolate [("file", file), ("count", toString count)]
        (wouldWriteTemplate (.ofLocale locale)).toList) ∧
    (∀ letters chunks, (total locale letters chunks).toList =
      interpolate [("total", toString letters), ("chunks", toString chunks)]
        (totalTemplate (.ofLocale locale)).toList) ∧
    (∀ file file' count count', wrote locale file count = wrote locale file' count' →
      file = file' ∧ count = count') ∧
    (∀ file file' count count', wouldWrite locale file count = wouldWrite locale file' count' →
      file = file' ∧ count = count') ∧
    ∀ letters letters' chunks chunks',
      total locale letters chunks = total locale letters' chunks' →
      letters = letters' ∧ chunks = chunks' := by
  refine ⟨Language.ofTag_eq locale.toList, ?_, ?_, ?_, ?_, ?_, ?_⟩
  · intro file count
    rw [wrote_eq, fileLine, String.toList_ofList]
  · intro file count
    rw [wouldWrite_eq, fileLine, String.toList_ofList]
  · intro letters chunks
    rw [total_eq, totalLine, String.toList_ofList]
  · intro file file' count count' h
    exact fill_inj (isSentence_wroteWording _) rfl rfl h
  · intro file file' count count' h
    exact fill_inj (isSentence_wouldWriteWording _) rfl rfl h
  · intro letters letters' chunks chunks' h
    obtain ⟨hletters, hchunks⟩ := fill_inj (isSentence_totalWording _) rfl rfl h
    exact ⟨toString_inj hletters, hchunks⟩

/-- A file whose name spells placeholders and the words of the line is shown as it is, and its line
is that of no other file. -/
theorem lines_literal_of_placeholders :
    let file := "%\x7bcount\x7d med 1 brev"
    (wrote "nb-NO" file 12).toList = ("Lagret " ++ file ++ " med 12 brev").toList ∧
      wrote "nb-NO" file 12 ≠ wrote "nb-NO" "%\x7bcount\x7d" 1 := by
  intro file
  have hlocale : Language.ofLocale "nb-NO" = .norwegian := by
    rw [(lines_literal "nb-NO").1]
    decide
  constructor
  · rw [(lines_literal "nb-NO").2.1, hlocale]
    decide +kernel
  · intro h
    exact absurd ((lines_literal "nb-NO").2.2.2.2.1 _ _ _ _ h).2 (by decide)

end Console

end LetterPages
