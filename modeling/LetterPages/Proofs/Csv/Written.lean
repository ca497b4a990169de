import LetterPages.Proofs.Csv.Tables
import LetterPages.Proofs.Observation

/-!
# Written tables

A table can be written in many ways: each cell bare or in quotes, each row with one of three
endings, blank lines wherever a row could begin, and a byte order mark in front. Reading undoes all
of them.
-/

namespace LetterPages.Csv

/-! ## Ways to write a table -/

inductive Ending where
  | lineFeed
  | carriageReturn
  | both
  deriving DecidableEq, Repr

def Ending.chars : Ending → List Char
  | lineFeed => ['\n']
  | carriageReturn => ['\r']
  | both => ['\r', '\n']

structure Cell where
  value : String
  isQuoted : Bool
  deriving DecidableEq, Repr

namespace Cell

def doubled (c : Char) : List Char :=
  if c = '"' then ['"', '"'] else [c]

/-- A cell as written. In quotes each quote of the value is doubled. -/
def chars (c : Cell) : List Char :=
  if c.isQuoted then '"' :: (c.value.toList.flatMap doubled ++ ['"']) else c.value.toList

/-- A bare cell has nothing in it that would end it, and does not begin as a quoted one. -/
def IsSafe (c : Cell) : Prop :=
  c.isQuoted = false → ',' ∉ c.value.toList ∧ '\r' ∉ c.value.toList ∧ '\n' ∉ c.value.toList ∧
    c.value.toList.head? ≠ some '"'

instance : DecidablePred IsSafe :=
  fun c => inferInstanceAs (Decidable (c.isQuoted = false → _))

end Cell

/-- A row as written. Its first ending is its own, and each further one is a blank line. -/
structure Line where
  cells : List Cell
  endings : List Ending
  deriving DecidableEq, Repr

namespace Line

def values (l : Line) : List String :=
  l.cells.map Cell.value

def chars (l : Line) : List Char :=
  [','].intercalate (l.cells.map Cell.chars) ++ l.endings.flatMap Ending.chars

end Line

/-- A table as written, with the blank lines before its first row. -/
structure Written where
  hasMark : Bool
  blanks : List Ending
  lines : List Line
  deriving DecidableEq, Repr

namespace Written

def values (w : Written) : List (List String) :=
  w.lines.map Line.values

def chars (w : Written) : List Char :=
  w.blanks.flatMap Ending.chars ++ w.lines.flatMap Line.chars

def bytes (w : Written) : Bytes :=
  if w.hasMark then 0xEF :: 0xBB :: 0xBF :: Utf8.encode w.chars else Utf8.encode w.chars

/-- Bare cells are safe, and the only cell of a row is not bare and empty. Every row but the last
has its ending. Without a mark the very first cell does not begin with one when it is bare. -/
structure Legal (w : Written) : Prop where
  safe : ∀ l ∈ w.lines, ∀ c ∈ l.cells, c.IsSafe
  sole : ∀ l ∈ w.lines, l.cells ≠ [⟨"", false⟩]
  ended : ∀ l ∈ w.lines.dropLast, l.endings ≠ []
  unmarked : w.hasMark = false → ∀ l ∈ w.lines.head?, ∀ c ∈ l.cells.head?,
    c.isQuoted = false → c.value.toList.head? ≠ some '\uFEFF'

end Written

/-! ## Cells -/

section Cells

variable {m : Mode} (fields : List Bytes) (rest : Bytes)

/-- The inside of a quoted cell is read as its value. -/
theorem scan_doubled (text : List Char) (field : Bytes) :
    Mode.quoted.scan field fields (Utf8.encode (text.flatMap Cell.doubled) ++ rest) =
      Mode.quoted.scan ((Utf8.encode text).reverse ++ field) fields rest := by
  induction text generalizing field with
  | nil => rfl
  | cons c text ih =>
    have hfield : (Utf8.encode (c :: text)).reverse ++ field =
        (Utf8.encode text).reverse ++ ((String.utf8EncodeChar c).reverse ++ field) := by
      rw [Utf8.encode_cons, List.reverse_append, List.append_assoc]
    rw [List.flatMap_cons, Utf8.encode_append, List.append_assoc, hfield, ← ih]
    unfold Cell.doubled
    split
    next hquote =>
      subst hquote
      exact Mode.scan_doubled_quote field fields _
    next hquote =>
      rw [Utf8.encode_cons, Utf8.encode_nil, List.append_nil, Mode.scan_quoted_append]
      intro b hb
      rintro rfl
      exact hquote (Utf8.eq_of_mem_encodeChar hb (by decide) rfl)

theorem scan_bare {text : List Char} (hm : m = .between ∨ m = .fieldStart)
    (hcomma : ',' ∉ text) (hreturn : '\r' ∉ text) (hfeed : '\n' ∉ text)
    (hquote : text.head? ≠ some '"') (htext : text ≠ []) :
    m.scan [] fields (Utf8.encode text ++ rest) =
      Mode.bare.scan (Utf8.encode text).reverse fields rest := by
  have hplain : ∀ b ∈ Utf8.encode text, b ≠ comma ∧ isTerminator b = false := by
    intro b hb
    have hb₁ : b ≠ comma := by
      rintro rfl
      exact hcomma (Utf8.mem_of_mem_encode hb (by decide) rfl)
    have hb₂ : b ≠ carriageReturn := by
      rintro rfl
      exact hreturn (Utf8.mem_of_mem_encode hb (by decide) rfl)
    have hb₃ : b ≠ lineFeed := by
      rintro rfl
      exact hfeed (Utf8.mem_of_mem_encode hb (by decide) rfl)
    refine ⟨hb₁, ?_⟩
    rw [isTerminator, beq_eq_false_iff_ne.mpr hb₃, beq_eq_false_iff_ne.mpr hb₂]
    rfl
  obtain ⟨c, text, rfl⟩ := List.exists_cons_of_ne_nil htext
  cases hbytes : Utf8.encode (c :: text) with
  | nil => exact absurd hbytes (Utf8.encode_ne_nil htext)
  | cons b bytes =>
    have hb : b ∈ String.utf8EncodeChar c := by
      have hchar : String.utf8EncodeChar c ≠ [] := by
        have hne := Utf8.encode_ne_nil (List.cons_ne_nil c [])
        rwa [Utf8.encode_cons, Utf8.encode_nil, List.append_nil] at hne
      obtain ⟨b', bytes', hbytes'⟩ := List.exists_cons_of_ne_nil hchar
      rw [Utf8.encode_cons, hbytes', List.cons_append] at hbytes
      cases hbytes
      rw [hbytes']
      exact List.mem_cons_self
    have hfirst : b ≠ quote := by
      rintro rfl
      apply hquote
      rw [Utf8.eq_of_mem_encodeChar hb (d := '"') (by decide) rfl]
      rfl
    rw [hbytes] at hplain
    obtain ⟨hb₁, hb₂⟩ := hplain b List.mem_cons_self
    rw [List.cons_append, Mode.scan_bare_start [] fields _ hm hb₁ hb₂ hfirst,
      Mode.scan_bare_append _ _ _ fun b' hb' => hplain b' (List.mem_cons_of_mem b hb'),
      List.reverse_cons]

/-- Any other cell than a bare empty one at the start of a row is read as its value. -/
theorem Cell.scan {c : Cell} (hc : c.IsSafe) (hm : m = .between ∨ m = .fieldStart)
    (hsole : m = .between → c ≠ ⟨"", false⟩) :
    ∃ last : Mode, last ≠ .quoted ∧ last ≠ .between ∧ ∀ fields rest,
      m.scan [] fields (Utf8.encode c.chars ++ rest) =
        last.scan (Utf8.ofString c.value).reverse fields rest := by
  obtain ⟨value, isQuoted⟩ := c
  cases isQuoted with
  | true =>
    refine ⟨.quoteSeen, by decide, by decide, ?_⟩
    intro fields rest
    have hbytes : Utf8.encode (Cell.chars ⟨value, true⟩) ++ rest =
        quote :: (Utf8.encode (value.toList.flatMap doubled) ++ quote :: rest) := by
      rw [Cell.chars, if_pos rfl, Utf8.encode_cons, Utf8.encode_append, List.append_assoc,
        List.append_assoc]
      rfl
    rw [hbytes, Mode.scan_open_quote [] fields _ hm, scan_doubled, Mode.scan_close_quote,
      List.append_nil]
    rfl
  | false =>
    obtain ⟨hcomma, hreturn, hfeed, hquote⟩ := hc rfl
    by_cases hempty : value.toList = []
    · have hvalue : value = "" := String.toList_eq_nil_iff.mp hempty
      subst hvalue
      rcases hm with hbetween | rfl
      · exact absurd rfl (hsole hbetween)
      · exact ⟨.fieldStart, by decide, by decide, fun _ _ => rfl⟩
    · refine ⟨.bare, by decide, by decide, ?_⟩
      intro fields rest
      exact scan_bare fields rest hm hcomma hreturn hfeed hquote hempty

theorem Cell.scan_comma {c : Cell} (hc : c.IsSafe) (hm : m = .between ∨ m = .fieldStart) :
    m.scan [] fields (Utf8.encode c.chars ++ comma :: rest) =
      Mode.fieldStart.scan [] (Utf8.ofString c.value :: fields) rest := by
  by_cases hempty : c = ⟨"", false⟩
  · subst hempty
    have hopen : m ≠ .quoted := by rcases hm with rfl | rfl <;> decide
    exact Mode.scan_comma [] fields rest hopen
  · obtain ⟨last, hlast, -, hscan⟩ := Cell.scan hc hm fun _ => hempty
    rw [hscan, Mode.scan_comma _ _ _ hlast, List.reverse_reverse]

end Cells

/-! ## Rows -/

def Line.fieldBytes (l : Line) : List Bytes :=
  l.values.map Utf8.ofString

/-- The cells of a row are read as their values, and leave the reading where the row can end. -/
theorem scan_cells {cells : List Cell} (hcells : cells ≠ []) (hsafe : ∀ c ∈ cells, c.IsSafe)
    {m : Mode} (hm : m = .between ∨ m = .fieldStart)
    (hsole : m = .between → cells ≠ [⟨"", false⟩]) (fields : List Bytes) :
    ∃ (last : Mode) (field : Bytes) (before : List Bytes), last ≠ .quoted ∧ last ≠ .between ∧
      (field.reverse :: before).reverse =
        fields.reverse ++ cells.map (fun c => Utf8.ofString c.value) ∧
      ∀ rest, m.scan [] fields
        (Utf8.encode ([','].intercalate (cells.map Cell.chars)) ++ rest) =
          last.scan field before rest := by
  induction cells generalizing m fields with
  | nil => exact absurd rfl hcells
  | cons c cells ih =>
    have hc : c.IsSafe := hsafe c List.mem_cons_self
    cases cells with
    | nil =>
      obtain ⟨last, hlast, hopen, hscan⟩ :=
        Cell.scan hc hm fun hbetween heq => hsole hbetween (congrArg (· :: []) heq)
      refine ⟨last, (Utf8.ofString c.value).reverse, fields, hlast, hopen, ?_, ?_⟩
      · rw [List.reverse_reverse, List.reverse_cons]
        rfl
      · intro rest
        rw [List.map_singleton, List.intercalate_singleton]
        exact hscan fields rest
    | cons d cells =>
      obtain ⟨last, field, before, hlast, hopen, hfields, hscan⟩ :=
        ih (List.cons_ne_nil d cells) (fun e he => hsafe e (List.mem_cons_of_mem c he))
          (m := .fieldStart) (.inr rfl) (fun h => by cases h) (Utf8.ofString c.value :: fields)
      refine ⟨last, field, before, hlast, hopen, ?_, ?_⟩
      · rw [hfields, List.reverse_cons, List.append_assoc]
        rfl
      · intro rest
        rw [List.map_cons, List.map_cons, List.intercalate_cons_cons, Utf8.encode_append,
          Utf8.encode_append, List.append_assoc, List.append_assoc, ← hscan]
        exact Cell.scan_comma fields _ hc hm

theorem scan_blanks (endings : List Ending) (rest : Bytes) :
    Mode.between.scan [] [] (Utf8.encode (endings.flatMap Ending.chars) ++ rest) =
      Mode.between.scan [] [] rest := by
  induction endings with
  | nil => rfl
  | cons e endings ih =>
    rw [List.flatMap_cons, Utf8.encode_append, List.append_assoc, ← ih]
    cases e <;> rfl

theorem scan_ending {m : Mode} (hm : m ≠ .quoted) (hopen : m ≠ .between) (field : Bytes)
    (fields : List Bytes) (e : Ending) (rest : Bytes) :
    m.scan field fields (Utf8.encode e.chars ++ rest) =
      (field.reverse :: fields).reverse :: Mode.between.scan [] [] rest := by
  cases e with
  | lineFeed => exact Mode.scan_terminator field fields rest hm hopen rfl
  | carriageReturn => exact Mode.scan_terminator field fields rest hm hopen rfl
  | both =>
    -- the line feed after the carriage return passes as a blank line
    exact Mode.scan_terminator field fields (lineFeed :: rest) hm hopen rfl

/-- A row with its ending is read, and the reading is again between rows. The ending may be left
out where nothing follows. -/
theorem scan_line {l : Line} (hcells : l.cells ≠ []) (hsafe : ∀ c ∈ l.cells, c.IsSafe)
    (hsole : l.cells ≠ [⟨"", false⟩]) (rest : Bytes) (hended : l.endings ≠ [] ∨ rest = []) :
    Mode.between.scan [] [] (Utf8.encode l.chars ++ rest) =
      l.fieldBytes :: Mode.between.scan [] [] rest := by
  obtain ⟨last, field, before, hlast, hopen, hfields, hscan⟩ :=
    scan_cells hcells hsafe (m := .between) (.inl rfl) (fun _ => hsole) []
  have hvalues : (field.reverse :: before).reverse = l.fieldBytes := by
    rw [hfields, Line.fieldBytes, Line.values, List.map_map]
    rfl
  rw [Line.chars, Utf8.encode_append, List.append_assoc, hscan, ← hvalues]
  cases hendings : l.endings with
  | nil =>
    rcases hended with hended | rfl
    · exact absurd hendings hended
    · change last.scan field before [] = _
      rw [Mode.scan, if_neg hopen]
      rfl
  | cons e blanks =>
    rw [List.flatMap_cons, Utf8.encode_append, List.append_assoc, scan_ending hlast hopen,
      scan_blanks]

theorem scan_lines {lines : List Line} (hcells : ∀ l ∈ lines, l.cells ≠ [])
    (hsafe : ∀ l ∈ lines, ∀ c ∈ l.cells, c.IsSafe) (hsole : ∀ l ∈ lines, l.cells ≠ [⟨"", false⟩])
    (hended : ∀ l ∈ lines.dropLast, l.endings ≠ []) :
    Mode.between.scan [] [] (Utf8.encode (lines.flatMap Line.chars)) =
      lines.map Line.fieldBytes := by
  induction lines with
  | nil => rfl
  | cons l lines ih =>
    have hlast : l.endings ≠ [] ∨ Utf8.encode (lines.flatMap Line.chars) = [] := by
      cases lines with
      | nil => exact .inr rfl
      | cons next lines => exact .inl (hended l List.mem_cons_self)
    rw [List.flatMap_cons, Utf8.encode_append,
      scan_line (hcells l List.mem_cons_self) (hsafe l List.mem_cons_self)
        (hsole l List.mem_cons_self) _ hlast, List.map_cons, ih]
    · exact fun l' hl' => hcells l' (List.mem_cons_of_mem l hl')
    · exact fun l' hl' => hsafe l' (List.mem_cons_of_mem l hl')
    · exact fun l' hl' => hsole l' (List.mem_cons_of_mem l hl')
    · intro l' hl'
      apply hended
      cases lines with
      | nil => cases hl'
      | cons next lines => exact List.mem_cons_of_mem l hl'

/-! ## The mark -/

theorem head?_of_encode_mark {text : List Char} {rest : Bytes}
    (h : Utf8.encode text = 0xEF :: 0xBB :: 0xBF :: rest) : text.head? = some '\uFEFF' := by
  have hlead : Utf8.IsLead 0xEF := ⟨by decide, by decide⟩
  have hpieces := Utf8.pieces_encode text
  rw [h, Utf8.pieces_three hlead (by decide) (by decide) (by decide) (by decide)] at hpieces
  cases text with
  | nil => cases hpieces
  | cons c text =>
    have hc : '\uFEFF' = c := Utf8.Piece.scalar.inj (List.cons.inj hpieces).1
    rw [← hc]
    rfl

theorem rows_of_unmarked {text : List Char} (h : text.head? ≠ some '\uFEFF') :
    rows (Utf8.encode text) = (Scan.start 0).rows (Utf8.encode text) := by
  unfold rows
  split
  next rest heq => exact absurd (head?_of_encode_mark heq) h
  next => rfl

theorem Line.chars_eq {l : Line} {c : Cell} {cells : List Cell} (h : l.cells = c :: cells) :
    ∃ rest, l.chars = c.chars ++ rest ∧ (cells = [] ∨ rest.head? = some ',') := by
  rw [Line.chars, h]
  cases cells with
  | nil =>
    refine ⟨l.endings.flatMap Ending.chars, ?_, .inl rfl⟩
    rw [List.map_singleton, List.intercalate_singleton]
  | cons d cells =>
    rw [List.map_cons, List.map_cons, List.intercalate_cons_cons, List.append_assoc,
      List.append_assoc]
    exact ⟨_, rfl, .inr rfl⟩

theorem Written.Legal.head?_chars {w : Written} (hw : w.Legal) (hmark : w.hasMark = false)
    (hcells : ∀ l ∈ w.lines, l.cells ≠ []) : w.chars.head? ≠ some '\uFEFF' := by
  obtain ⟨hasMark, blanks, lines⟩ := w
  unfold Written.chars
  cases blanks with
  | cons e blanks => cases e <;> exact of_decide_eq_false rfl
  | nil =>
    cases lines with
    | nil => exact of_decide_eq_false rfl
    | cons l lines =>
      obtain ⟨⟨value, isQuoted⟩, cells, hl⟩ :=
        List.exists_cons_of_ne_nil (hcells l List.mem_cons_self)
      have hsole := hw.sole l List.mem_cons_self
      have hbare := hw.unmarked hmark l rfl ⟨value, isQuoted⟩ (by rw [hl]; rfl)
      obtain ⟨rest, hchars, hrest⟩ := Line.chars_eq hl
      rw [List.flatMap_nil, List.nil_append, List.flatMap_cons, hchars]
      cases isQuoted with
      | true => exact of_decide_eq_false rfl
      | false =>
        change ((value.toList ++ rest) ++ lines.flatMap Line.chars).head? ≠ _
        cases hvalue : value.toList with
        | cons ch text =>
          have hfirst := hbare rfl
          rw [hvalue] at hfirst
          exact hfirst
        | nil =>
          -- an empty bare cell has another cell, and so a comma, after it
          rcases hrest with rfl | hcomma
          · rw [hl, String.toList_eq_nil_iff.mp hvalue] at hsole
            exact absurd rfl hsole
          · rw [List.nil_append, List.head?_append, hcomma]
            exact of_decide_eq_false rfl

/-! ## Whole tables -/

/-- However a table is written legally, its rows are read as the values of its cells. -/
theorem map_fields_rows_written {w : Written} (hw : w.Legal)
    (hcells : ∀ l ∈ w.lines, l.cells ≠ []) :
    (rows w.bytes).map Row.fields = w.values.map (List.map Utf8.ofString) := by
  have hscan : Mode.between.scan [] [] (Utf8.encode w.chars) =
      w.values.map (List.map Utf8.ofString) := by
    rw [Written.chars, Utf8.encode_append, scan_blanks,
      scan_lines hcells hw.safe hw.sole hw.ended, Written.values, List.map_map]
    rfl
  unfold Written.bytes
  cases hmark : w.hasMark with
  | true =>
    rw [if_pos rfl]
    exact (Scan.map_fields_rows (Scan.start 3) _).trans hscan
  | false =>
    rw [if_neg Bool.false_ne_true, rows_of_unmarked (hw.head?_chars hmark hcells)]
    exact (Scan.map_fields_rows (Scan.start 0) _).trans hscan

theorem read_written {w : Written} (hw : w.Legal) {header : List String}
    {values : List (List String)} (hvalues : w.values = header :: values) (hheader : header ≠ [])
    (hnames : header.Nodup) (hwidth : ∀ texts ∈ values, texts.length = header.length) :
    read w.bytes = .ok ⟨header, values.map fun texts => ⟨header.zip texts⟩⟩ := by
  have hcells : ∀ l ∈ w.lines, l.cells ≠ [] := by
    intro l hl hempty
    have hmem : l.values ∈ header :: values := by
      rw [← hvalues]
      exact List.mem_map.mpr ⟨l, hl, rfl⟩
    rw [Line.values, hempty, List.map_nil] at hmem
    rcases List.mem_cons.mp hmem with hfirst | hlater
    · exact hheader hfirst.symm
    · exact hheader (List.length_eq_zero_iff.mp (hwidth [] hlater).symm)
  have hrows := map_fields_rows_written hw hcells
  rw [hvalues] at hrows
  exact read_texts hrows hnames hwidth

end LetterPages.Csv

namespace LetterPages.Publication

/-- Parsing undoes every legal way to write a table: the fields are the header, and the records are
the rows, each paired with the header in order. -/
theorem parse_written {σ : Type} (storage : Storage σ) (st : σ) (source : Path) {w : Csv.Written}
    (hw : w.Legal) {header : List String} {values : List (List String)}
    (hvalues : w.values = header :: values) (hheader : header ≠ []) (hnames : header.Nodup)
    (hwidth : ∀ texts ∈ values, texts.length = header.length) :
    ((parse source w.bytes).run storage st).outcome =
      .ok ⟨header, values.map fun texts => ⟨header.zip texts⟩⟩ := by
  have hparse := congrArg Observed.outcome (observe_parse storage source w.bytes st)
  refine hparse.trans ?_
  rw [Csv.read_written hw hvalues hheader hnames hwidth]
  rfl

/-- A mark, blank lines, all three endings and none at the end, and values with quotes, commas, line
breaks and marks in them. -/
theorem parse_written_mixed :
    let w : Csv.Written :=
      { hasMark := true
        blanks := [.both, .lineFeed]
        lines :=
          [⟨[⟨"\uFEFFid", false⟩, ⟨"to,\"all\"", true⟩], [.carriageReturn, .both]⟩,
            ⟨[⟨"", false⟩, ⟨"a\r\nb", true⟩], [.lineFeed]⟩, ⟨[⟨"x\"y", false⟩, ⟨"", false⟩], []⟩] }
    w.bytes = Utf8.ofString
      "\uFEFF\r\n\n\uFEFFid,\"to,\"\"all\"\"\"\r\r\n,\"a\r\nb\"\nx\"y," ∧
    ((parse (.ofString "letters.csv") w.bytes).run (.memory (.ofString "/work")) .empty).outcome =
      .ok ⟨["\uFEFFid", "to,\"all\""],
        [⟨[("\uFEFFid", ""), ("to,\"all\"", "a\r\nb")]⟩,
          ⟨[("\uFEFFid", "x\"y"), ("to,\"all\"", "")]⟩]⟩ := by
  intro w
  have hw : w.Legal :=
    { safe := by decide +kernel
      sole := by decide +kernel
      ended := by decide +kernel
      unmarked := fun h => by cases h }
  have hvalues : w.values =
      ["\uFEFFid", "to,\"all\""] :: [["", "a\r\nb"], ["x\"y", ""]] := rfl
  constructor
  · decide +kernel
  · exact parse_written (.memory (.ofString "/work")) .empty (.ofString "letters.csv") hw hvalues
      (by decide) (by decide) (by decide)

end LetterPages.Publication
