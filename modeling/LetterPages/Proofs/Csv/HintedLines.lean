import LetterPages.Proofs.Csv.FirstFlaw

/-!
# Hinted lines

The hint for a malformed input names the line on which the record before the flawed one has ended.
The flawed record itself begins there unless line feeds stand in front of it, as they do behind a
carriage return or at a blank line. For each of them the hint is one line too low.
-/

namespace LetterPages.Csv

/-- The line, counted from 1, on which the byte behind these stands. -/
def lineBehind (bytes : Bytes) : Nat :=
  1 + bytes.count lineFeed

theorem lineBehind_append (s t : Bytes) :
    lineBehind (s ++ t) = lineBehind s + t.count lineFeed := by
  rw [lineBehind, lineBehind, List.count_append, Nat.add_assoc]

/-- The record is not as wide as the header or has a field that is not text, and it is the first of
which this holds. -/
def FirstFlawed (records : List RawRecord) (r : RawRecord) : Prop :=
  ∃ number : Nat, records[number]? = some r ∧
    ¬ IsSound (widthOf (records.map RawRecord.fields)) r.fields ∧
    ∀ (j : Nat) (earlier : RawRecord), j < number → records[j]? = some earlier →
      IsSound (widthOf (records.map RawRecord.fields)) earlier.fields

theorem FirstFlawed.unique {records : List RawRecord} {r s : RawRecord}
    (hr : FirstFlawed records r) (hs : FirstFlawed records s) : r = s := by
  obtain ⟨i, hi, hflawed, hbefore⟩ := hr
  obtain ⟨j, hj, hflawed', hbefore'⟩ := hs
  rcases Nat.lt_trichotomy i j with hlt | rfl | hlt
  · exact absurd (hbefore' i r hlt hi) hflawed
  · exact Option.some.inj (hi.symm.trans hj)
  · exact absurd (hbefore j s hlt hj) hflawed'

section

variable {width : Nat} {place : Place} {fields : List Bytes} {flaw : Flaw}

theorem Flawed.line?_eq (h : Flawed width place fields flaw) : flaw.line? = some place.line := by
  cases h <;> rfl

theorem Flawed.not_isSound (h : Flawed width place fields flaw) : ¬ IsSound width fields := by
  intro hsound
  have hread : Row.read width ⟨place, fields⟩ = .error flaw := read_eq_error_iff.mpr h
  have haccepted : ∃ texts, Row.read width ⟨place, fields⟩ = .ok texts :=
    exists_read_eq_ok_iff.mpr hsound
  obtain ⟨texts, htexts⟩ := haccepted
  rw [hread] at htexts
  cases htexts

end

/-- The line of a flaw is the one on which the record before the flawed one has ended. -/
theorem Division.exists_firstFlawed {input : Bytes} {records : List RawRecord} {flaw : Flaw}
    (h : Division input records) (hread : read input = .error flaw) :
    ∃ r, FirstFlawed records r ∧ flaw.line? = some (lineBehind r.before) := by
  obtain ⟨number, r, hr, hflawed, hearlier⟩ := h.read_eq_error_iff.mp hread
  exact ⟨r, ⟨number, hr, hflawed.not_isSound, hearlier⟩, hflawed.line?_eq⟩

end LetterPages.Csv

namespace LetterPages.Publication

/-- The hint for a malformed input with a line to look at. -/
def lineHint (line : Nat) : String :=
  s!"Fix the CSV near line {line}; every row needs as many columns as the header"

theorem suggestion_inputMalformed {source : Path} {flaw : Csv.Flaw} {line : Nat}
    (h : flaw.line? = some line) :
    (Fault.inputMalformed source flaw).suggestion = lineHint line := by
  cases flaw with
  | ragged place _ _ | notUtf8 place _ _ =>
    cases h
    rfl
  | unreadable _ => cases h

/-- The suggestion for a rejected input names a line. Down to the first byte of the flawed record
there are as many lines more as line feeds stand between this record and the end of the one before
it. So the line is that of the record exactly if none stands there. -/
theorem parse_hinted_line {σ : Type} (storage : Storage σ) (st : σ) (source : Path) {input : Bytes}
    {records : List Csv.RawRecord} {fault : Fault} (hdivision : Csv.Division input records)
    (hfault : ((parse source input).run storage st).outcome = .error fault) :
    (∃ r, Csv.FirstFlawed records r) ∧ ∀ r, Csv.FirstFlawed records r →
      r.text ≠ [] ∧ r.before ++ (r.skipped ++ r.text) <+: input ∧
      ∃ line, fault.suggestion = lineHint line ∧
        line + r.skipped.count Csv.lineFeed = Csv.lineBehind (r.before ++ r.skipped) ∧
        (line = Csv.lineBehind (r.before ++ r.skipped) ↔ Csv.lineFeed ∉ r.skipped) := by
  obtain ⟨flaw, hread, rfl⟩ : ∃ flaw, Csv.read input = .error flaw ∧
      Fault.inputMalformed source flaw = fault := by
    rw [outcome_parse] at hfault
    cases hread : Csv.read input with
    | ok data =>
      rw [hread] at hfault
      cases hfault
    | error flaw =>
      rw [hread] at hfault
      exact ⟨flaw, rfl, Except.error.inj hfault⟩
  obtain ⟨r, hfirst, hline⟩ := hdivision.exists_firstFlawed hread
  refine ⟨⟨r, hfirst⟩, fun s hs => ?_⟩
  obtain rfl := hfirst.unique hs
  obtain ⟨number, hr, -⟩ := hs
  obtain ⟨hne, hprefix⟩ := hdivision.placed.1 r (List.mem_of_getElem? hr)
  refine ⟨hne, hprefix, Csv.lineBehind r.before, suggestion_inputMalformed hline,
    (Csv.lineBehind_append _ _).symm, ?_⟩
  rw [Csv.lineBehind_append, ← List.count_eq_zero]
  omega

/-! ## Lines that end with a carriage return and a line feed -/

def wideText : Bytes :=
  Utf8.ofString "id\r\n1,2\r\n"

def wideRecord : Csv.RawRecord :=
  ⟨Utf8.ofString "id\r", Utf8.ofString "\n", Utf8.ofString "1,2", ["1", "2"].map Utf8.ofString⟩

def wideRecords : List Csv.RawRecord :=
  [⟨[], [], Utf8.ofString "id", [Utf8.ofString "id"]⟩, wideRecord]

theorem recordText_wide :
    Csv.RecordText Csv.FieldText (Utf8.ofString "id") [Utf8.ofString "id"] ∧
      Csv.RecordText Csv.FieldText (Utf8.ofString "1,2") (["1", "2"].map Utf8.ofString) := by
  have hname : Csv.IsBare (Utf8.ofString "id") := ⟨forall_of_all (by decide), by decide⟩
  have hone : Csv.IsBare (Utf8.ofString "1") := ⟨forall_of_all (by decide), by decide⟩
  have htwo : Csv.IsBare (Utf8.ofString "2") := ⟨forall_of_all (by decide), by decide⟩
  exact ⟨.single (.bare hname), .more (.bare hone) (.single (.bare htwo))⟩

theorem division_wideText : Csv.Division wideText wideRecords := by
  obtain ⟨hheader, hwide⟩ := recordText_wide
  have hfeed : ∀ b ∈ [Csv.lineFeed], Csv.isTerminator b = true := List.forall_mem_singleton.mpr rfl
  have hend : Csv.Divides (Utf8.ofString "id\r\n1,2\r") [] [Csv.lineFeed] [] := .none hfeed
  have hsecond : Csv.Divides (Utf8.ofString "id\r") []
      ([Csv.lineFeed] ++ (Utf8.ofString "1,2" ++ Csv.carriageReturn :: [Csv.lineFeed]))
      [wideRecord] :=
    .more hfeed (by decide) hwide rfl hend
  have hfirst : Csv.Divides [] [] ([] ++ (Utf8.ofString "id" ++
      Csv.carriageReturn :: Utf8.ofString "\n1,2\r\n")) wideRecords :=
    .more (fun b hb => by cases hb) (by decide) hheader rfl hsecond
  exact hfirst

/-- Only the header comes before the record, and it is as wide as itself. -/
theorem isSound_wideHeader (j : Nat) (earlier : Csv.RawRecord) (hj : j < 1)
    (hearlier : wideRecords[j]? = some earlier) :
    Csv.IsSound (Csv.widthOf (wideRecords.map Csv.RawRecord.fields)) earlier.fields := by
  obtain rfl := Nat.lt_one_iff.mp hj
  cases hearlier
  refine ⟨rfl, fun field hfield => ?_⟩
  obtain rfl := List.mem_singleton.mp hfield
  exact ⟨"id".toList, rfl⟩

theorem firstFlawed_wideRecord : Csv.FirstFlawed wideRecords wideRecord :=
  ⟨1, rfl, fun hsound => absurd hsound.1 (by decide), isSound_wideHeader⟩

theorem outcome_wideText (source : Path) :
    ((parse source wideText).run (.memory source) .empty).outcome =
      .error (.inputMalformed source (.ragged ⟨1, 1, 3⟩ 2 1)) := by
  have hflawed : Csv.Flawed (Csv.widthOf (wideRecords.map Csv.RawRecord.fields))
      (Csv.placeAfter 1 wideRecord.before) wideRecord.fields (.ragged ⟨1, 1, 3⟩ 2 1) :=
    .ragged (by decide)
  have hread : Csv.read wideText = .error (.ragged ⟨1, 1, 3⟩ 2 1) :=
    division_wideText.read_eq_error_iff.mpr ⟨1, wideRecord, rfl, hflawed, isSound_wideHeader⟩
  rw [outcome_parse, hread]
  rfl

theorem parse_hinted_line_wide :
    Csv.Division wideText wideRecords ∧ Csv.FirstFlawed wideRecords wideRecord ∧
    ∃ fault line, ((parse (.ofString "letters.csv") wideText).run
        (.memory (.ofString "letters.csv")) .empty).outcome = .error fault ∧
      fault.suggestion = lineHint line ∧ line + 1 = 2 := by
  have houtcome := outcome_wideText (.ofString "letters.csv")
  obtain ⟨-, hline⟩ := parse_hinted_line _ _ _ division_wideText houtcome
  obtain ⟨-, -, line, hhint, hsum, -⟩ := hline wideRecord firstFlawed_wideRecord
  exact ⟨division_wideText, firstFlawed_wideRecord, _, line, houtcome, hhint, hsum⟩

/-- The record stands on line 2, and the hint names the header's line. -/
theorem not_parse_hinted_line :
    ¬ ∀ (source : Path) (input : Bytes) (records : List Csv.RawRecord) (r : Csv.RawRecord)
      (fault : Fault), Csv.Division input records → Csv.FirstFlawed records r →
      ((parse source input).run (.memory source) .empty).outcome = .error fault →
      fault.suggestion = lineHint (Csv.lineBehind (r.before ++ r.skipped)) := by
  intro h
  have hhint := h (.ofString "letters.csv") wideText wideRecords wideRecord _ division_wideText
    firstFlawed_wideRecord (outcome_wideText _)
  have hline : Csv.lineBehind (wideRecord.before ++ wideRecord.skipped) = 2 := by decide
  rw [suggestion_inputMalformed rfl, hline] at hhint
  exact absurd hhint (by decide)

end LetterPages.Publication
