import LetterPages.Proofs.Csv.RawRecords
import LetterPages.Proofs.DecodedText

/-!
# The first flaw

An input is rejected for the first of its records that is flawed, and for what is wrong there
first: the number of its fields, and then the first field that is not text.
-/

namespace LetterPages.Csv

/-! ## Lists read item by item -/

/-- Reading a list is reading its items in order, each with its number. -/
structure ReadsEach {α β ε : Type} (read : Nat → α → Except ε β)
    (each : Nat → List α → Except ε (List β)) : Prop where
  nil : ∀ n, each n [] = .ok []
  cons : ∀ n a l, each n (a :: l) = do
    let b ← read n a
    let more ← each (n + 1) l
    return b :: more

section

variable {α β ε : Type} {read : Nat → α → Except ε β} {each : Nat → List α → Except ε (List β)}
  (h : ReadsEach read each) {n : Nat} {l : List α}

include h

theorem ReadsEach.cons_eq_ok_iff {a : α} {bs : List β} : each n (a :: l) = .ok bs ↔
    ∃ b more, read n a = .ok b ∧ each (n + 1) l = .ok more ∧ bs = b :: more := by
  rw [h.cons]
  cases read n a with
  | error e => simp [bind, Except.bind]
  | ok b => cases each (n + 1) l <;> simp [bind, Except.bind, pure, Except.pure, eq_comm]

theorem ReadsEach.exists_eq_ok_iff :
    (∃ bs, each n l = .ok bs) ↔ ∀ i a, l[i]? = some a → ∃ b, read (n + i) a = .ok b := by
  induction l generalizing n with
  | nil => exact iff_of_true ⟨[], h.nil n⟩ fun _ _ ha => by cases ha
  | cons a l ih =>
    have hsplit : (∃ bs, each n (a :: l) = .ok bs) ↔
        (∃ b, read n a = .ok b) ∧ ∃ bs, each (n + 1) l = .ok bs := by
      simp only [h.cons_eq_ok_iff]
      constructor
      · rintro ⟨_, b, more, hb, hmore, rfl⟩
        exact ⟨⟨b, hb⟩, more, hmore⟩
      · rintro ⟨⟨b, hb⟩, more, hmore⟩
        exact ⟨_, b, more, hb, hmore, rfl⟩
    rw [hsplit, ih]
    constructor
    · rintro ⟨hfirst, hrest⟩ i a' ha'
      cases i with
      | zero =>
        cases ha'
        exact hfirst
      | succ i =>
        rw [← Nat.succ_add_eq_add_succ]
        exact hrest i a' ha'
    · intro hall
      refine ⟨hall 0 a rfl, fun i a' ha' => ?_⟩
      have hlater := hall (i + 1) a' ha'
      rwa [← Nat.succ_add_eq_add_succ] at hlater

/-- The error is that of the first item that has one. -/
theorem ReadsEach.eq_error_iff {e : ε} :
    each n l = .error e ↔ ∃ i a, l[i]? = some a ∧ read (n + i) a = .error e ∧
      ∀ j a', j < i → l[j]? = some a' → ∃ b, read (n + j) a' = .ok b := by
  induction l generalizing n with
  | nil =>
    rw [h.nil]
    refine iff_of_false (fun herror => by cases herror) ?_
    rintro ⟨i, a, ha, -⟩
    cases ha
  | cons a l ih =>
    rw [h.cons]
    cases hread : read n a with
    | error e' =>
      constructor
      · intro herror
        cases herror
        exact ⟨0, a, rfl, hread, fun j _ hj => absurd hj (Nat.not_lt_zero j)⟩
      · rintro ⟨i, a', ha', hread', hbefore⟩
        cases i with
        | zero =>
          cases ha'
          rw [Nat.add_zero, hread] at hread'
          cases hread'
          rfl
        | succ i =>
          obtain ⟨b, hb⟩ := hbefore 0 a (Nat.succ_pos i) rfl
          rw [Nat.add_zero, hread] at hb
          cases hb
    | ok b =>
      have hrest : (do let more ← each (n + 1) l; return b :: more) = .error e ↔
          each (n + 1) l = .error e := by
        cases each (n + 1) l <;> simp [bind, Except.bind, pure, Except.pure]
      -- the first item is read, so the error is one of the rest, whose numbers are one higher
      refine hrest.trans (ih.trans ⟨?_, ?_⟩)
      · rintro ⟨i, a', ha', hread', hbefore⟩
        refine ⟨i + 1, a', ha', by rwa [← Nat.succ_add_eq_add_succ], fun j a'' hj ha'' => ?_⟩
        cases j with
        | zero =>
          cases ha''
          exact ⟨b, hread⟩
        | succ j =>
          rw [← Nat.succ_add_eq_add_succ]
          exact hbefore j a'' (Nat.lt_of_succ_lt_succ hj) ha''
      · rintro ⟨i, a', ha', hread', hbefore⟩
        cases i with
        | zero =>
          cases ha'
          rw [Nat.add_zero, hread] at hread'
          cases hread'
        | succ i =>
          rw [← Nat.succ_add_eq_add_succ] at hread'
          refine ⟨i, a', ha', hread', fun j a'' hj ha'' => ?_⟩
          have hlater := hbefore (j + 1) a'' (Nat.succ_lt_succ hj) ha''
          rwa [← Nat.succ_add_eq_add_succ] at hlater

end

/-! ## One record -/

/-- As many fields as there should be, and text in each of them by itself. -/
def IsSound (width : Nat) (fields : List Bytes) : Prop :=
  fields.length = width ∧ ∀ field ∈ fields, Utf8.IsText field

/-- The number of the first field that is not text, and the length of its longest beginning that
is. -/
def FirstBroken (fields : List Bytes) (number index : Nat) : Prop :=
  ∃ field, fields[number]? = some field ∧ ¬ Utf8.IsText field ∧
    (∀ j earlier, j < number → fields[j]? = some earlier → Utf8.IsText earlier) ∧
    index ≤ field.length ∧ Utf8.IsText (field.take index) ∧
    ∀ n ≤ field.length, Utf8.IsText (field.take n) → n ≤ index

/-- What is wrong with the fields of a record, told with its place. -/
inductive Flawed (width : Nat) (place : Place) (fields : List Bytes) : Flaw → Prop
  | ragged (h : fields.length ≠ width) : Flawed width place fields
      (.ragged place fields.length width)
  | notUtf8 {number index : Nat} (hwidth : fields.length = width)
      (h : FirstBroken fields number index) : Flawed width place fields
      (.notUtf8 place number index)

def decodeField (place : Place) (index : Nat) (field : Bytes) : Except Flaw String :=
  match Utf8.decode? field with
  | none => .error (.notUtf8 place index (Utf8.validLength field))
  | some text => .ok (String.ofList text)

section

variable {place : Place} {index width : Nat} {field : Bytes} {fields : List Bytes} {flaw : Flaw}
  {row : Row}

theorem readsEach_decodeFrom (place : Place) :
    ReadsEach (decodeField place) (decodeFrom place) where
  nil _ := rfl
  cons index field fields := by
    rw [decodeFrom, decodeField]
    cases Utf8.decode? field <;> rfl

theorem exists_decodeField_eq_ok_iff :
    (∃ text, decodeField place index field = .ok text) ↔ Utf8.IsText field := by
  unfold decodeField
  cases hdecode : Utf8.decode? field with
  | none =>
    refine iff_of_false ?_ (Utf8.decode?_eq_none_iff.mp hdecode)
    rintro ⟨_, htext⟩
    cases htext
  | some text => exact iff_of_true ⟨_, rfl⟩ ⟨text, Utf8.decode?_eq_some_iff.mp hdecode⟩

theorem eq_of_decodeField {text : String} (h : decodeField place index field = .ok text) :
    field = Utf8.ofString text := by
  unfold decodeField at h
  split at h
  next => cases h
  next hdecode =>
    cases h
    rw [Utf8.decode?_eq_some_iff.mp hdecode, Utf8.ofString, String.toList_ofList]

theorem decodeField_eq_error_iff : decodeField place index field = .error flaw ↔
    ¬ Utf8.IsText field ∧ flaw = .notUtf8 place index (Utf8.validLength field) := by
  unfold decodeField
  cases hdecode : Utf8.decode? field with
  | none =>
    have hbroken := Utf8.decode?_eq_none_iff.mp hdecode
    constructor
    · intro h
      cases h
      exact ⟨hbroken, rfl⟩
    · rintro ⟨-, rfl⟩
      rfl
  | some text =>
    refine iff_of_false (fun h => by cases h) fun h => ?_
    exact h.1 ⟨text, Utf8.decode?_eq_some_iff.mp hdecode⟩

theorem exists_decode_eq_ok_iff :
    (∃ texts, row.decode = .ok texts) ↔ ∀ field ∈ row.fields, Utf8.IsText field := by
  refine (readsEach_decodeFrom row.place).exists_eq_ok_iff.trans ?_
  simp only [exists_decodeField_eq_ok_iff]
  constructor
  · intro h field hfield
    obtain ⟨i, hi⟩ := List.getElem?_of_mem hfield
    exact h i field hi
  · exact fun h i field hfield => h field (List.mem_of_getElem? hfield)

theorem firstBroken_iff {number : Nat} : FirstBroken fields number index ↔
    ∃ field, fields[number]? = some field ∧ ¬ Utf8.IsText field ∧
      (∀ j earlier, j < number → fields[j]? = some earlier → Utf8.IsText earlier) ∧
      index = Utf8.validLength field := by
  refine exists_congr fun field => and_congr_right fun _ => and_congr_right fun _ =>
    and_congr_right fun _ => ?_
  constructor
  · rintro ⟨hle, htext, hmax⟩
    exact Nat.le_antisymm (Utf8.le_validLength hle htext)
      (hmax _ (Utf8.validLength_le field) (Utf8.isText_take_validLength field))
  · rintro rfl
    exact ⟨Utf8.validLength_le field, Utf8.isText_take_validLength field,
      fun n hn => Utf8.le_validLength hn⟩

theorem decode_eq_error_iff : row.decode = .error flaw ↔
    ∃ number index, FirstBroken row.fields number index ∧
      flaw = .notUtf8 row.place number index := by
  refine (readsEach_decodeFrom row.place).eq_error_iff.trans ?_
  simp only [exists_decodeField_eq_ok_iff, decodeField_eq_error_iff, Nat.zero_add, firstBroken_iff]
  constructor
  · rintro ⟨number, field, hfield, ⟨hbroken, rfl⟩, hearlier⟩
    exact ⟨number, _, ⟨field, hfield, hbroken, hearlier, rfl⟩, rfl⟩
  · rintro ⟨number, _, ⟨field, hfield, hbroken, hearlier, rfl⟩, rfl⟩
    exact ⟨number, field, hfield, ⟨hbroken, rfl⟩, hearlier⟩

theorem exists_read_eq_ok_iff :
    (∃ texts, row.read width = .ok texts) ↔ IsSound width row.fields := by
  unfold Row.read IsSound
  split
  next hwidth => rw [exists_decode_eq_ok_iff, and_iff_right hwidth]
  next hwidth =>
    refine iff_of_false ?_ fun h => hwidth h.1
    rintro ⟨_, htexts⟩
    cases htexts

theorem eq_map_of_decodeFrom {texts : List String} (h : decodeFrom place index fields = .ok texts) :
    fields = texts.map Utf8.ofString := by
  induction fields generalizing index texts with
  | nil =>
    cases h
    rfl
  | cons field fields ih =>
    obtain ⟨text, more, htext, hmore, rfl⟩ := (readsEach_decodeFrom place).cons_eq_ok_iff.mp h
    rw [List.map_cons, ← ih hmore, ← eq_of_decodeField htext]

theorem eq_map_of_read {texts : List String} (h : row.read width = .ok texts) :
    row.fields = texts.map Utf8.ofString ∧ texts.length = width := by
  unfold Row.read at h
  split at h
  next hwidth =>
    have hfields := eq_map_of_decodeFrom h
    exact ⟨hfields, by rw [← hwidth, hfields, List.length_map]⟩
  next => cases h

theorem read_eq_error_iff :
    row.read width = .error flaw ↔ Flawed width row.place row.fields flaw := by
  unfold Row.read
  split
  next hwidth =>
    rw [decode_eq_error_iff]
    constructor
    · rintro ⟨number, index, h, rfl⟩
      exact .notUtf8 hwidth h
    · intro h
      cases h with
      | ragged hne => exact absurd hwidth hne
      | notUtf8 _ h => exact ⟨_, _, h, rfl⟩
  next hwidth =>
    constructor
    · intro h
      cases h
      exact .ragged hwidth
    · intro h
      cases h with
      | ragged => rfl
      | notUtf8 hwidth' => exact absurd hwidth' hwidth

end

/-! ## All records -/

theorem readsEach_readAll (width : Nat) :
    ReadsEach (fun _ => Row.read width) (fun _ => readAll width) where
  nil _ := rfl
  cons _ _ _ := rfl

section

variable {width : Nat} {rows : List Row} {flaw : Flaw}

theorem exists_readAll_eq_ok_iff : (∃ values, readAll width rows = .ok values) ↔
    ∀ (i : Nat) (row : Row), rows[i]? = some row → IsSound width row.fields := by
  refine ((readsEach_readAll width).exists_eq_ok_iff (n := 0)).trans ?_
  simp only [exists_read_eq_ok_iff]

theorem readAll_eq_error_iff : readAll width rows = .error flaw ↔
    ∃ (i : Nat) (row : Row), rows[i]? = some row ∧ Flawed width row.place row.fields flaw ∧
      ∀ (j : Nat) (earlier : Row), j < i → rows[j]? = some earlier →
        IsSound width earlier.fields := by
  refine ((readsEach_readAll width).eq_error_iff (n := 0)).trans ?_
  simp only [exists_read_eq_ok_iff, read_eq_error_iff]

end

/-- How many fields every record should have: as many as the first one. -/
def widthOf (records : List (List Bytes)) : Nat :=
  (records.head?.map List.length).getD 0

/-- The header is read as a row that is as wide as itself. -/
theorem read_eq_map_readAll (input : Bytes) :
    read input = (readAll (widthOf ((rows input).map Row.fields)) (rows input)).map fun values =>
      ⟨distinct (values.headD []), values.tail.map (record (values.headD []))⟩ := by
  unfold read
  cases rows input with
  | nil => rfl
  | cons row rest =>
    have hheader : header (row :: rest) = row.read row.fields.length := (if_pos rfl).symm
    change _ = (readAll row.fields.length (row :: rest)).map _
    rw [hheader, readAll]
    cases hnames : row.read row.fields.length with
    | error flaw => rfl
    | ok names =>
      obtain ⟨-, hwidth⟩ := eq_map_of_read hnames
      change dataset names (row :: rest) = _
      rw [dataset, hwidth, List.tail_cons]
      cases readAll row.fields.length rest <;> rfl

/-! ## Divisions -/

section

variable {input : Bytes} {records : List RawRecord} (h : Division input records)

include h

theorem Division.getElem?_rows (i : Nat) :
    (rows input)[i]? = records[i]?.map fun r => r.row i := by
  rw [h.rows_eq, List.getElem?_mapIdx]

theorem Division.fields_rows : (rows input).map Row.fields = records.map RawRecord.fields := by
  refine List.ext_getElem? fun i => ?_
  rw [List.getElem?_map, h.getElem?_rows, List.getElem?_map, Option.map_map]
  rfl

theorem Division.exists_read_eq_ok_iff : (∃ data, read input = .ok data) ↔
    ∀ r ∈ records, IsSound (widthOf (records.map RawRecord.fields)) r.fields := by
  have hread : (∃ data, read input = .ok data) ↔ ∃ values,
      readAll (widthOf (records.map RawRecord.fields)) (rows input) = .ok values := by
    rw [read_eq_map_readAll, h.fields_rows]
    cases readAll _ (rows input) <;> simp [Except.map]
  rw [hread, exists_readAll_eq_ok_iff]
  constructor
  · intro hsound r hr
    obtain ⟨i, hi⟩ := List.getElem?_of_mem hr
    exact hsound i (r.row i) (by rw [h.getElem?_rows, hi, Option.map_some])
  · intro hsound i row hrow
    rw [h.getElem?_rows] at hrow
    obtain ⟨r, hr, rfl⟩ := Option.map_eq_some_iff.mp hrow
    exact hsound r (List.mem_of_getElem? hr)

theorem Division.read_eq_error_iff {flaw : Flaw} : read input = .error flaw ↔
    ∃ number r, records[number]? = some r ∧
      Flawed (widthOf (records.map RawRecord.fields)) (placeAfter number r.before) r.fields flaw ∧
      ∀ j earlier, j < number → records[j]? = some earlier →
        IsSound (widthOf (records.map RawRecord.fields)) earlier.fields := by
  have hread : read input = .error flaw ↔
      readAll (widthOf (records.map RawRecord.fields)) (rows input) = .error flaw := by
    rw [read_eq_map_readAll, h.fields_rows]
    cases readAll _ (rows input) <;> simp [Except.map]
  rw [hread, readAll_eq_error_iff]
  constructor
  · rintro ⟨i, row, hrow, hflawed, hearlier⟩
    rw [h.getElem?_rows] at hrow
    obtain ⟨r, hr, rfl⟩ := Option.map_eq_some_iff.mp hrow
    refine ⟨i, r, hr, hflawed, fun j earlier hj hjr => ?_⟩
    exact hearlier j (earlier.row j) hj (by rw [h.getElem?_rows, hjr, Option.map_some])
  · rintro ⟨i, r, hr, hflawed, hearlier⟩
    refine ⟨i, r.row i, by rw [h.getElem?_rows, hr, Option.map_some], hflawed,
      fun j row hj hrow => ?_⟩
    rw [h.getElem?_rows] at hrow
    obtain ⟨earlier, hjr, rfl⟩ := Option.map_eq_some_iff.mp hrow
    exact hearlier j earlier hj hjr

end

/-- The two parts of one letter are no text. The record before them ends at its carriage return. -/
example : read (Utf8.ofString "\uFEFFid,to\r\n\n" ++ [0xC3, 0x2C, 0xA9]) =
    .error (.notUtf8 ⟨1, 1, 9⟩ 0 0) := by
  cbv

example : read (Utf8.ofString "\uFEFFid,to\r\n\n" ++ [0xC3, 0x2C, 0xA9, 0x2C]) =
    .error (.ragged ⟨1, 1, 9⟩ 3 2) := by
  cbv

end LetterPages.Csv

namespace LetterPages.Publication

/-- An input is accepted exactly when every record of it is as wide as the header and every field is
text by itself. Otherwise the fault is the flaw of the first record that is not so: the number of
its fields comes before what they spell, and the place tells the number of the record and the end of
the record before it. From there to the record itself stand only terminators, and in front of the
first record the mark. -/
theorem parse_first_flaw {σ : Type} (storage : Storage σ) (st : σ) (source : Path)
    (input : Bytes) :
    let outcome := ((parse source input).run storage st).outcome
    (∃ records, Csv.Division input records) ∧
    ∀ records, Csv.Division input records →
      let width := Csv.widthOf (records.map Csv.RawRecord.fields)
      ((∃ data, outcome = .ok data) ↔ ∀ r ∈ records, Csv.IsSound width r.fields) ∧
      (∀ fault, outcome = .error fault ↔ ∃ number r flaw, records[number]? = some r ∧
        (∀ j earlier, j < number → records[j]? = some earlier →
          Csv.IsSound width earlier.fields) ∧
        Csv.Flawed width (Csv.placeAfter number r.before) r.fields flaw ∧
        fault = .inputMalformed source flaw) ∧
      (∀ r ∈ records, r.text ≠ [] ∧ r.before ++ (r.skipped ++ r.text) <+: input) ∧
      (∀ r ∈ records.head?, r.before = [] ∧ ∃ blanks,
        r.skipped = input.take (Csv.markLength input) ++ blanks ∧
          ∀ b ∈ blanks, Csv.isTerminator b = true) ∧
      records.IsChain Csv.Precedes := by
  intro outcome
  have houtcome : outcome = (Csv.read input).mapError (.inputMalformed source) :=
    outcome_parse storage source input st
  refine ⟨Csv.exists_division input, fun records hdivision => ⟨?accepted, ?rejected, ?placed⟩⟩
  case accepted =>
    rw [← hdivision.exists_read_eq_ok_iff, houtcome]
    cases Csv.read input <;> simp [Except.mapError]
  case rejected =>
    intro fault
    have herror : outcome = .error fault ↔
        ∃ flaw, Csv.read input = .error flaw ∧ fault = .inputMalformed source flaw := by
      rw [houtcome]
      cases Csv.read input <;> simp [Except.mapError, eq_comm]
    rw [herror]
    constructor
    · rintro ⟨flaw, hread, rfl⟩
      obtain ⟨number, r, hr, hflawed, hearlier⟩ := hdivision.read_eq_error_iff.mp hread
      exact ⟨number, r, flaw, hr, hearlier, hflawed, rfl⟩
    · rintro ⟨number, r, flaw, hr, hearlier, hflawed, rfl⟩
      exact ⟨flaw, hdivision.read_eq_error_iff.mpr ⟨number, r, hr, hflawed, hearlier⟩, rfl⟩
  case placed => exact hdivision.placed

end LetterPages.Publication
