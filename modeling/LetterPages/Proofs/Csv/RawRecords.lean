import Mathlib.Data.List.Chain
import LetterPages.Proofs.Csv.Appending

/-!
# Raw records

A CSV text is divided into records before any field is decoded. The division is described on the
bytes, without a machine that reads them: what a field is as written, what lies between the records,
and how much of the input stands before each. Every input has a division, and its records are the
rows that are read.
-/

namespace LetterPages.Csv

/-! ## The grammar -/

/-- A byte that may stand in a field outside quotes. -/
def IsPlain (b : UInt8) : Prop :=
  b ≠ comma ∧ isTerminator b = false

instance : DecidablePred IsPlain :=
  fun _ => inferInstanceAs (Decidable (_ ∧ _))

/-- Bytes taken as they stand. A quote among them is nothing special unless it is the first. -/
def IsBare (s : Bytes) : Prop :=
  (∀ b ∈ s, IsPlain b) ∧ s.head? ≠ some quote

/-- A byte as written inside quotes. -/
def inQuotes (b : UInt8) : Bytes :=
  if b = quote then [quote, quote] else [b]

/-- A field as written, and its value. What follows the closing quote belongs to the value. -/
inductive FieldText : Bytes → Bytes → Prop
  | bare {s : Bytes} (h : IsBare s) : FieldText s s
  | quoted {s t : Bytes} (ht : IsBare t) :
      FieldText (quote :: (s.flatMap inQuotes ++ quote :: t)) (s ++ t)

/-- The field at the end of the input, whose quotes may be left open. -/
inductive FinalFieldText : Bytes → Bytes → Prop
  | ended {t value : Bytes} (h : FieldText t value) : FinalFieldText t value
  | unclosed {s : Bytes} : FinalFieldText (quote :: s.flatMap inQuotes) s

/-- Fields with commas between them, the last of which may be of another kind. -/
inductive RecordText (last : Bytes → Bytes → Prop) : Bytes → List Bytes → Prop
  | single {t value : Bytes} (h : last t value) : RecordText last t [value]
  | more {t value rest : Bytes} {values : List Bytes} (h : FieldText t value)
      (hmore : RecordText last rest values) : RecordText last (t ++ comma :: rest) (value :: values)

/-- A record, with the input up to the end of the record before it and the bytes skipped from
there. -/
structure RawRecord where
  before : Bytes
  skipped : Bytes
  text : Bytes
  fields : List Bytes

/-- The records of what follows `before` and `lead`. The lead is passed over with the terminators in
front of the first record; a record that is not the last ends with one terminator. -/
inductive Divides : Bytes → Bytes → Bytes → List RawRecord → Prop
  | none {before lead skipped : Bytes} (hskipped : ∀ b ∈ skipped, isTerminator b = true) :
      Divides before lead skipped []
  | last {before lead skipped text : Bytes} {fields : List Bytes}
      (hskipped : ∀ b ∈ skipped, isTerminator b = true) (hne : text ≠ [])
      (htext : RecordText FinalFieldText text fields) :
      Divides before lead (skipped ++ text) [⟨before, lead ++ skipped, text, fields⟩]
  | more {before lead skipped text rest : Bytes} {b : UInt8} {fields : List Bytes}
      {records : List RawRecord} (hskipped : ∀ b ∈ skipped, isTerminator b = true)
      (hne : text ≠ []) (htext : RecordText FieldText text fields) (hb : isTerminator b = true)
      (hrest : Divides (before ++ (lead ++ (skipped ++ (text ++ [b])))) [] rest records) :
      Divides before lead (skipped ++ (text ++ b :: rest))
        (⟨before, lead ++ skipped, text, fields⟩ :: records)

/-- The records of an input, the header first. A mark in front is passed over. -/
def Division (input : Bytes) (records : List RawRecord) : Prop :=
  Divides [] (input.take (markLength input)) (content input) records

/-! ## Every input is divided -/

theorem inQuotes_of_ne {b : UInt8} (h : b ≠ quote) : inQuotes b = [b] :=
  if_neg h

/-- Past an opening quote the bytes go on to the closing one, or to the end. -/
theorem quoted_cases (w : Bytes) :
    (∃ s t : Bytes, w = s.flatMap inQuotes ++ quote :: t ∧ t.head? ≠ some quote) ∨
      ∃ s : Bytes, w = s.flatMap inQuotes := by
  match w with
  | [] => exact .inr ⟨[], rfl⟩
  | b :: w =>
    by_cases hb : b = quote
    · subst hb
      match w with
      | [] => exact .inl ⟨[], [], rfl, by decide⟩
      | c :: w =>
        by_cases hc : c = quote
        · subst hc
          rcases quoted_cases w with ⟨s, t, rfl, ht⟩ | ⟨s, rfl⟩
          · exact .inl ⟨quote :: s, t, rfl, ht⟩
          · exact .inr ⟨quote :: s, rfl⟩
        · refine .inl ⟨[], c :: w, rfl, ?_⟩
          rw [List.head?_cons]
          exact fun h => hc (Option.some.inj h)
    · rcases quoted_cases w with ⟨s, t, rfl, ht⟩ | ⟨s, rfl⟩
      · exact .inl ⟨b :: s, t, by rw [List.flatMap_cons, inQuotes_of_ne hb]; rfl, ht⟩
      · exact .inr ⟨b :: s, by rw [List.flatMap_cons, inQuotes_of_ne hb]; rfl⟩

theorem plain_cases (w : Bytes) :
    (∃ t b rest, w = t ++ b :: rest ∧ (∀ c ∈ t, IsPlain c) ∧
      (b = comma ∨ isTerminator b = true)) ∨
      ∀ c ∈ w, IsPlain c := by
  induction w with
  | nil => exact .inr fun _ hc => by cases hc
  | cons b w ih =>
    by_cases hcomma : b = comma
    · exact .inl ⟨[], b, w, rfl, fun _ hc => (by cases hc), .inl hcomma⟩
    cases hb : isTerminator b with
    | true => exact .inl ⟨[], b, w, rfl, fun _ hc => (by cases hc), .inr hb⟩
    | false =>
      have hplain : IsPlain b := ⟨hcomma, hb⟩
      rcases ih with ⟨t, d, rest, rfl, ht, hd⟩ | hw
      · exact .inl ⟨b :: t, d, rest, rfl, List.forall_mem_cons.mpr ⟨hplain, ht⟩, hd⟩
      · exact .inr (List.forall_mem_cons.mpr ⟨hplain, hw⟩)

theorem bare_cases {w : Bytes} (h : w.head? ≠ some quote) :
    (∃ t b rest, w = t ++ b :: rest ∧ IsBare t ∧ (b = comma ∨ isTerminator b = true)) ∨
      IsBare w := by
  rcases plain_cases w with ⟨t, b, rest, rfl, ht, hb⟩ | hw
  · refine .inl ⟨t, b, rest, rfl, ⟨ht, ?_⟩, hb⟩
    cases t with
    | nil => exact fun hnone => by cases hnone
    | cons c t => exact h
  · exact .inr ⟨hw, h⟩

theorem field_cases (w : Bytes) :
    (∃ t value b rest, w = t ++ b :: rest ∧ FieldText t value ∧
      (b = comma ∨ isTerminator b = true)) ∨
      ∃ value, FinalFieldText w value := by
  by_cases hw : w.head? = some quote
  · obtain ⟨w, rfl⟩ := List.head?_eq_some_iff.mp hw
    rcases quoted_cases w with ⟨s, t, rfl, ht⟩ | ⟨s, rfl⟩
    · rcases bare_cases ht with ⟨t, b, rest, rfl, ht, hb⟩ | ht
      · refine .inl ⟨_, _, b, rest, ?_, .quoted (s := s) ht, hb⟩
        simp only [List.cons_append, List.append_assoc]
      · exact .inr ⟨_, .ended (.quoted ht)⟩
    · exact .inr ⟨s, .unclosed⟩
  · rcases bare_cases hw with ⟨t, b, rest, rfl, ht, hb⟩ | ht
    · exact .inl ⟨t, t, b, rest, rfl, .bare ht, hb⟩
    · exact .inr ⟨w, .ended (.bare ht)⟩

theorem record_cases (w : Bytes) :
    (∃ text fields b rest, w = text ++ b :: rest ∧ RecordText FieldText text fields ∧
      isTerminator b = true) ∨
      ∃ fields, RecordText FinalFieldText w fields := by
  induction w using (measure List.length).wf.induction with
  | h w ih =>
    rcases field_cases w with ⟨t, value, b, rest, rfl, ht, rfl | hb⟩ | ⟨value, hw⟩
    · have hshorter : rest.length < (t ++ comma :: rest).length := by
        rw [List.length_append, List.length_cons]
        omega
      rcases ih rest hshorter with ⟨text, fields, b, rest, rfl, htext, hb⟩ | ⟨fields, hrest⟩
      · exact .inl ⟨_, _, b, rest, by rw [List.append_assoc]; rfl, .more ht htext, hb⟩
      · exact .inr ⟨_, .more ht hrest⟩
    · exact .inl ⟨t, [value], b, rest, rfl, .single ht, hb⟩
    · exact .inr ⟨[value], .single hw⟩

theorem terminators_cases (w : Bytes) :
    (∀ b ∈ w, isTerminator b = true) ∨ ∃ skipped b rest, w = skipped ++ b :: rest ∧
      (∀ b ∈ skipped, isTerminator b = true) ∧ isTerminator b = false := by
  induction w with
  | nil => exact .inl fun _ hb => by cases hb
  | cons b w ih =>
    cases hb : isTerminator b with
    | false => exact .inr ⟨[], b, w, rfl, fun _ h => (by cases h), hb⟩
    | true =>
      rcases ih with hw | ⟨skipped, c, rest, rfl, hskipped, hc⟩
      · exact .inl (List.forall_mem_cons.mpr ⟨hb, hw⟩)
      · exact .inr ⟨b :: skipped, c, rest, rfl, List.forall_mem_cons.mpr ⟨hb, hskipped⟩, hc⟩

theorem exists_divides (before lead bytes : Bytes) :
    ∃ records, Divides before lead bytes records := by
  induction bytes using (measure List.length).wf.induction generalizing before lead with
  | h bytes ih =>
    rcases terminators_cases bytes with hbytes | ⟨skipped, c, w, rfl, hskipped, hc⟩
    · exact ⟨[], .none hbytes⟩
    rcases record_cases (c :: w) with ⟨text, fields, b, rest, hw, htext, hb⟩ | ⟨fields, hw⟩
    · rw [hw] at ih ⊢
      have hne : text ≠ [] := by
        rintro rfl
        rw [(List.cons.inj hw).1, hb] at hc
        cases hc
      have hshorter : rest.length < (skipped ++ (text ++ b :: rest)).length := by
        rw [List.length_append, List.length_append, List.length_cons]
        omega
      obtain ⟨records, hrest⟩ := ih rest hshorter _ []
      exact ⟨_, .more hskipped hne htext hb hrest⟩
    · exact ⟨_, .last hskipped (List.cons_ne_nil c w) hw⟩

theorem exists_division (input : Bytes) : ∃ records, Division input records :=
  exists_divides _ _ _

/-! ## The records are the rows -/

/-- The place after an end of a record, from the bytes up to there. -/
def placeAfter (number : Nat) (before : Bytes) : Place :=
  ⟨number, 1 + before.count lineFeed, before.length⟩

def RawRecord.row (r : RawRecord) (number : Nat) : Row :=
  ⟨placeAfter number r.before, r.fields⟩

namespace Scan

/-- Where a reading stands that has consumed the bytes, with the record before the open one ended
after `before`. -/
def upTo (number : Nat) (before consumed : Bytes) (m : Mode) (field : Bytes)
    (fields : List Bytes) : Scan :=
  { mode := m, field, fields, place := placeAfter number before
    line := 1 + consumed.count lineFeed, byte := consumed.length }

section

variable {number : Nat} {before consumed : Bytes} {m : Mode} {field : Bytes}
  {fields : List Bytes} {b : UInt8}

theorem lineAfter_upTo : (upTo number before consumed m field fields).lineAfter b =
    1 + (consumed ++ [b]).count lineFeed := by
  rw [List.count_append, lineAfter]
  by_cases hb : b = lineFeed
  · subst hb
    rfl
  · rw [if_neg hb, List.count_singleton, if_neg (by rwa [beq_iff_eq])]
    rfl

theorem next_upTo : (upTo number before consumed m field fields).next b =
    match m.move b with
    | .pass m' => upTo number before (consumed ++ [b]) m' field fields
    | .take m' => upTo number before (consumed ++ [b]) m' (b :: field) fields
    | .endField =>
      upTo number before (consumed ++ [b]) .fieldStart [] (field.reverse :: fields)
    | .endRow => upTo (number + 1) (consumed ++ [b]) (consumed ++ [b]) .between [] [] := by
  have hmode : (upTo number before consumed m field fields).mode = m := rfl
  have hline : (upTo number before consumed m field fields).lineAfter b =
      1 + (consumed ++ [b]).count lineFeed := lineAfter_upTo
  have hbyte : (upTo number before consumed m field fields).byte + 1 =
      (consumed ++ [b]).length := by
    rw [List.length_append]
    rfl
  rw [next, hmode, hline, hbyte]
  cases m.move b <;> rfl

theorem rows_upTo_cons (rest : Bytes) :
    (upTo number before consumed m field fields).rows (b :: rest) =
    match m.move b with
    | .pass m' => (upTo number before (consumed ++ [b]) m' field fields).rows rest
    | .take m' => (upTo number before (consumed ++ [b]) m' (b :: field) fields).rows rest
    | .endField =>
      (upTo number before (consumed ++ [b]) .fieldStart [] (field.reverse :: fields)).rows rest
    | .endRow => ⟨placeAfter number before, (field.reverse :: fields).reverse⟩ ::
      (upTo (number + 1) (consumed ++ [b]) (consumed ++ [b]) .between [] []).rows rest := by
  have hmode : (upTo number before consumed m field fields).mode = m := rfl
  rw [rows, next_upTo, endsRow, hmode]
  cases m.move b <;> rfl

end

end Scan

/-- The bytes are read within a row, from the one state of it to the other. -/
def Reads (m : Mode) (field : Bytes) (fields : List Bytes) (w : Bytes) (m' : Mode) (field' : Bytes)
    (fields' : List Bytes) : Prop :=
  ∀ number before consumed rest,
    (Scan.upTo number before consumed m field fields).rows (w ++ rest) =
      (Scan.upTo number before (consumed ++ w) m' field' fields').rows rest

section

variable {m m' m'' : Mode} {field field' field'' : Bytes} {fields fields' fields'' : List Bytes}
  {s t v w : Bytes} {b : UInt8}

theorem reads_nil : Reads m field fields [] m field fields := by
  intro number before consumed rest
  rw [List.append_nil, List.nil_append]

theorem Reads.trans (h : Reads m field fields v m' field' fields')
    (h' : Reads m' field' fields' w m'' field'' fields'') :
    Reads m field fields (v ++ w) m'' field'' fields'' := by
  intro number before consumed rest
  rw [List.append_assoc, h, h', List.append_assoc]

theorem reads_pass (h : m.move b = .pass m') : Reads m field fields [b] m' field fields := by
  intro number before consumed rest
  rw [List.singleton_append, Scan.rows_upTo_cons, h]

theorem reads_take (h : m.move b = .take m') :
    Reads m field fields [b] m' (b :: field) fields := by
  intro number before consumed rest
  rw [List.singleton_append, Scan.rows_upTo_cons, h]

theorem reads_endField (h : m.move b = .endField) :
    Reads m field fields [b] .fieldStart [] (field.reverse :: fields) := by
  intro number before consumed rest
  rw [List.singleton_append, Scan.rows_upTo_cons, h]

/-! ## Stretches of a field -/

theorem reads_inQuotes (s : Bytes) :
    Reads .quoted field fields (s.flatMap inQuotes) .quoted (s.reverse ++ field) fields := by
  induction s generalizing field with
  | nil => exact reads_nil
  | cons b s ih =>
    rw [List.flatMap_cons, List.reverse_cons, List.append_assoc]
    refine Reads.trans ?_ ih
    by_cases hb : b = quote
    · subst hb
      exact (reads_pass (b := quote) rfl).trans (reads_take rfl)
    · rw [inQuotes_of_ne hb]
      exact reads_take (if_neg hb)

theorem move_of_plain (hb : IsPlain b) (hm : m ≠ .quoted) (hquote : b = quote → m = .bare) :
    m.move b = .take .bare := by
  have hplain : Move.plain b = .take .bare := by
    rw [Move.plain, if_neg hb.1, hb.2]
    rfl
  cases m with
  | bare => exact hplain
  | quoted => exact absurd rfl hm
  | between | fieldStart | quoteSeen =>
    have hne : b ≠ quote := fun h => by cases hquote h
    simp only [Mode.move, hb.2, if_neg hne, hplain, Bool.false_eq_true, if_false]

theorem reads_plain (hs : ∀ b ∈ s, IsPlain b) :
    Reads .bare field fields s .bare (s.reverse ++ field) fields := by
  induction s generalizing field with
  | nil => exact reads_nil
  | cons b s ih =>
    obtain ⟨hb, hs⟩ := List.forall_mem_cons.mp hs
    rw [List.reverse_cons, List.append_assoc]
    exact (reads_take (move_of_plain hb (by decide) fun _ => rfl)).trans (ih hs)

theorem reads_bare (hs : IsBare s) (hm : m ≠ .quoted) :
    ∃ m', m' ≠ .quoted ∧ (m' = .between → m = .between ∧ s = []) ∧
      ∀ field fields, Reads m field fields s m' (s.reverse ++ field) fields := by
  cases s with
  | nil => exact ⟨m, hm, fun h => ⟨h, rfl⟩, fun _ _ => reads_nil⟩
  | cons b s =>
    obtain ⟨⟨hb, hs⟩, hfirst⟩ := And.imp_left List.forall_mem_cons.mp hs
    have hmove : m.move b = .take .bare :=
      move_of_plain hb hm fun h => absurd (congrArg some h) hfirst
    refine ⟨.bare, by decide, fun h => (by cases h), fun field fields => ?_⟩
    rw [List.reverse_cons, List.append_assoc]
    exact (reads_take hmove).trans (reads_plain hs)

/-! ## Fields and records -/

/-- A field may begin here. -/
def Mode.Opens (m : Mode) : Prop :=
  m = .between ∨ m = .fieldStart

/-- A field as written is read to its value. Only an empty one leaves the reading between rows. -/
def ReadsField (m : Mode) (t value : Bytes) (m' : Mode) : Prop :=
  (m' = .between → m = .between ∧ t = []) ∧
    ∀ fields, Reads m [] fields t m' value.reverse fields

theorem reads_opened (s : Bytes) (hm : m.Opens) (fields : List Bytes) :
    Reads m [] fields (quote :: s.flatMap inQuotes) .quoted s.reverse fields := by
  have hopen : Reads m [] fields [quote] .quoted [] fields := by
    rcases hm with rfl | rfl <;> exact reads_pass rfl
  rw [← List.append_nil s.reverse]
  exact hopen.trans (reads_inQuotes s)

theorem FieldText.reads {value : Bytes} (h : FieldText t value) (hm : m.Opens) :
    ∃ m', m' ≠ .quoted ∧ ReadsField m t value m' := by
  cases h with
  | bare h =>
    have hopen : m ≠ .quoted := by rcases hm with rfl | rfl <;> decide
    obtain ⟨m', hm', hbetween, hreads⟩ := reads_bare h hopen
    refine ⟨m', hm', hbetween, fun fields => ?_⟩
    rw [← List.append_nil t.reverse]
    exact hreads [] fields
  | @quoted s t ht =>
    obtain ⟨m', hm', hbetween, hreads⟩ := reads_bare (m := .quoteSeen) ht (by decide)
    refine ⟨m', hm', fun h => (by cases (hbetween h).1), fun fields => ?_⟩
    have hclose : Reads .quoted s.reverse fields [quote] .quoteSeen s.reverse fields :=
      reads_pass rfl
    rw [List.reverse_append]
    exact (reads_opened s hm fields).trans (hclose.trans (hreads _ fields))

theorem FinalFieldText.reads {value : Bytes} (h : FinalFieldText t value) (hm : m.Opens) :
    ∃ m', ReadsField m t value m' := by
  cases h with
  | ended h =>
    obtain ⟨m', -, hreads⟩ := h.reads hm
    exact ⟨m', hreads⟩
  | unclosed =>
    exact ⟨.quoted, fun h => (by cases h), reads_opened value hm⟩

theorem move_comma (hm : m ≠ .quoted) : m.move comma = .endField := by
  cases m with
  | quoted => exact absurd rfl hm
  | between | fieldStart | bare | quoteSeen => rfl

/-- A record is read to its fields, and the reading is still in it, by a mode that its last field
can be left in. -/
theorem RecordText.reads {last : Bytes → Bytes → Prop} (IsLeft : Mode → Prop)
    (hlast : ∀ {m t value}, last t value → m.Opens →
      ∃ m', IsLeft m' ∧ ReadsField m t value m')
    {values : List Bytes} (h : RecordText last t values) (hm : m.Opens) (fields : List Bytes) :
    ∃ m' field before, IsLeft m' ∧ (m' = .between → m = .between ∧ t = []) ∧
      (field.reverse :: before).reverse = fields.reverse ++ values ∧
      Reads m [] fields t m' field before := by
  induction h generalizing m fields with
  | @single t value h =>
    obtain ⟨m', hleft, hbetween, hreads⟩ := hlast h hm
    refine ⟨m', value.reverse, fields, hleft, hbetween, ?_, hreads fields⟩
    rw [List.reverse_reverse, List.reverse_cons]
  | @more t value rest values h hmore ih =>
    obtain ⟨m₁, hm₁, -, hfield⟩ := h.reads hm
    have hcomma : Reads m₁ value.reverse fields [comma] .fieldStart []
        (value.reverse.reverse :: fields) := reads_endField (move_comma hm₁)
    rw [List.reverse_reverse] at hcomma
    obtain ⟨m', field, before, hleft, hbetween, hvalues, hreads⟩ :=
      ih (m := .fieldStart) (.inr rfl) (value :: fields)
    -- after a comma a field is open, even an empty one, and the record ends where it ends
    refine ⟨m', field, before, hleft, fun h => (by cases (hbetween h).1), ?_,
      (hfield fields).trans (hcomma.trans hreads)⟩
    rw [hvalues, List.reverse_cons, List.append_assoc]
    rfl

theorem rows_recordText {number : Nat} {before consumed : Bytes} {values : List Bytes}
    (h : RecordText FieldText t values) (hne : t ≠ []) (hb : isTerminator b = true) (rest : Bytes) :
    (Scan.upTo number before consumed .between [] []).rows (t ++ b :: rest) =
      ⟨placeAfter number before, values⟩ :: (Scan.upTo (number + 1) (consumed ++ (t ++ [b]))
        (consumed ++ (t ++ [b])) .between [] []).rows rest := by
  obtain ⟨m', field, fields, hleft, hbetween, hvalues, hreads⟩ :=
    h.reads (· ≠ .quoted) FieldText.reads (m := .between) (.inl rfl) []
  have hmove := Mode.move_terminator hleft (fun h => hne (hbetween h).2) hb
  rw [hreads, Scan.rows_upTo_cons, hmove, hvalues, List.append_assoc]
  rfl

theorem rows_finalRecordText {number : Nat} {before consumed : Bytes} {values : List Bytes}
    (h : RecordText FinalFieldText t values) (hne : t ≠ []) :
    (Scan.upTo number before consumed .between [] []).rows t =
      [⟨placeAfter number before, values⟩] := by
  obtain ⟨m', field, fields, -, hbetween, hvalues, hreads⟩ :=
    h.reads (fun _ => True)
      (fun h hm => (h.reads hm).imp fun _ hreads => ⟨trivial, hreads⟩) (m := .between) (.inl rfl) []
  have hopen : m' ≠ .between := fun h => hne (hbetween h).2
  have hrows := hreads number before consumed []
  rw [List.append_nil] at hrows
  refine (hrows.trans (if_neg hopen)).trans ?_
  exact congrArg (fun values => [Row.mk (placeAfter number before) values]) hvalues

theorem reads_terminators (hs : ∀ b ∈ s, isTerminator b = true) :
    Reads .between [] [] s .between [] [] := by
  induction s with
  | nil => exact reads_nil
  | cons b s ih =>
    obtain ⟨hb, hs⟩ := List.forall_mem_cons.mp hs
    have hmove : Mode.between.move b = .pass .between := by rw [Mode.move, if_pos hb]
    exact (reads_pass hmove).trans (ih hs)

end

/-! ## Inputs -/

theorem Divides.rows_eq {before lead bytes : Bytes} {records : List RawRecord}
    (h : Divides before lead bytes records) (number : Nat) :
    (Scan.upTo number before (before ++ lead) .between [] []).rows bytes =
      records.mapIdx fun i r => r.row (number + i) := by
  induction h generalizing number with
  | @none before lead skipped hskipped =>
    have hrows := reads_terminators hskipped number before (before ++ lead) []
    rw [List.append_nil] at hrows
    rw [hrows]
    rfl
  | last hskipped hne htext =>
    rw [reads_terminators hskipped, rows_finalRecordText htext hne]
    rfl
  | @more before lead skipped text rest b fields records hskipped hne htext hb hrest ih =>
    -- only the first record has a lead, so the rest is read from the end of this one
    have hrows := ih (number + 1)
    rw [List.append_nil] at hrows
    have hshift : (fun i (r : RawRecord) => r.row (number + 1 + i)) =
        fun i r => r.row (number + (i + 1)) := by
      funext i r
      rw [Nat.add_assoc, Nat.add_comm 1]
    rw [reads_terminators hskipped, rows_recordText htext hne hb, List.append_assoc,
      List.append_assoc, hrows, List.mapIdx_cons, hshift]
    rfl

theorem start_markLength (input : Bytes) :
    Scan.start (markLength input) =
      Scan.upTo 0 [] (input.take (markLength input)) .between [] [] := by
  unfold markLength
  split
  next hmark =>
    obtain ⟨rest, rfl⟩ := hmark
    rfl
  next => rfl

/-- The records of a division are the rows, each at the end of the record before it. -/
theorem Division.rows_eq {input : Bytes} {records : List RawRecord}
    (h : Division input records) : rows input = records.mapIdx fun i r => r.row i := by
  have hrows := Divides.rows_eq h 0
  rw [List.nil_append] at hrows
  rw [Csv.rows_eq, start_markLength, hrows]
  simp only [Nat.zero_add]

/-! ## Where the records stand -/

/-- The record ends with one terminator, after which only more of them stand before the next. -/
def Precedes (p r : RawRecord) : Prop :=
  (∃ b, isTerminator b = true ∧ r.before = p.before ++ (p.skipped ++ (p.text ++ [b]))) ∧
    ∀ b ∈ r.skipped, isTerminator b = true

theorem Divides.isChain {before lead bytes : Bytes} {records : List RawRecord}
    (h : Divides before lead bytes records) : records.IsChain Precedes ∧
      ∀ r ∈ records.head?, r.before = before ∧
        ∃ blanks, r.skipped = lead ++ blanks ∧ ∀ b ∈ blanks, isTerminator b = true := by
  induction h with
  | none => exact ⟨.nil, fun _ hr => (by cases hr)⟩
  | last hskipped =>
    refine ⟨.singleton _, ?_⟩
    rintro _ ⟨⟩
    exact ⟨rfl, _, rfl, hskipped⟩
  | @more before lead skipped text rest b fields records hskipped hne htext hb hrest ih =>
    obtain ⟨hchain, hfirst⟩ := ih
    constructor
    · refine List.isChain_cons.mpr ⟨fun r hr => ?_, hchain⟩
      obtain ⟨hbefore, blanks, hblanks, hterminators⟩ := hfirst r hr
      refine ⟨⟨b, hb, ?_⟩, ?_⟩
      · rw [hbefore, List.append_assoc lead]
      · rwa [hblanks, List.nil_append]
    · rintro _ ⟨⟩
      exact ⟨rfl, _, rfl, hskipped⟩

theorem Divides.isPrefix {before lead bytes : Bytes} {records : List RawRecord}
    (h : Divides before lead bytes records) : ∀ r ∈ records, r.text ≠ [] ∧
      r.before ++ (r.skipped ++ r.text) <+: before ++ (lead ++ bytes) := by
  induction h with
  | none => exact fun _ hr => by cases hr
  | last hskipped hne =>
    intro r hr
    obtain rfl := List.mem_singleton.mp hr
    refine ⟨hne, [], ?_⟩
    rw [List.append_nil, List.append_assoc]
  | @more before lead skipped text rest b fields records hskipped hne htext hb hrest ih =>
    intro r hr
    rcases List.mem_cons.mp hr with rfl | hr
    · refine ⟨hne, b :: rest, ?_⟩
      simp only [List.append_assoc]
    · obtain ⟨hne', hfront⟩ := ih r hr
      refine ⟨hne', ?_⟩
      simp only [List.append_assoc, List.nil_append, List.singleton_append] at hfront
      exact hfront

theorem Division.placed {input : Bytes} {records : List RawRecord} (h : Division input records) :
    (∀ r ∈ records, r.text ≠ [] ∧ r.before ++ (r.skipped ++ r.text) <+: input) ∧
    (∀ r ∈ records.head?, r.before = [] ∧ ∃ blanks,
      r.skipped = input.take (markLength input) ++ blanks ∧
        ∀ b ∈ blanks, isTerminator b = true) ∧
    records.IsChain Precedes := by
  obtain ⟨hchain, hfirst⟩ := Divides.isChain h
  have hfront := Divides.isPrefix h
  rw [List.nil_append, content, List.take_append_drop] at hfront
  exact ⟨hfront, hfirst, hchain⟩

end LetterPages.Csv
