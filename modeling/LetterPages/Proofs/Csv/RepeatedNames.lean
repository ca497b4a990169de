import LetterPages.Proofs.Csv.FirstFlaw
import LetterPages.Proofs.Json.DocumentText

/-!
# Repeated names

A column name that is repeated in the header names one field. The field stands where the name stands
first and has the value of the last column of that name, so that a record, and the JSON object
written for it, has one value for each name.
-/

namespace LetterPages.Csv

/-! ## Distinct names -/

theorem filter_distinct (p : String → Bool) (names : List String) :
    (distinct names).filter p = distinct (names.filter p) := by
  induction names with
  | nil => rfl
  | cons name names ih =>
    rw [distinct]
    cases hp : p name with
    | true =>
      rw [List.filter_cons_of_pos hp, List.filter_cons_of_pos hp, distinct, ← ih,
        List.filter_comm]
    | false =>
      have hne : ¬ p name = true := by rw [hp]; exact Bool.false_ne_true
      rw [List.filter_cons_of_neg hne, List.filter_cons_of_neg hne, List.filter_filter, ← ih]
      refine List.filter_congr fun other _ => ?_
      rw [Bool.and_eq_left_iff_imp, decide_eq_true_iff]
      rintro hother rfl
      exact hne hother

theorem distinct_eq_eraseDups (names : List String) : distinct names = names.eraseDups := by
  induction names using (measure List.length).wf.induction with
  | h names ih =>
    cases names with
    | nil => rfl
    | cons name names =>
      have hshorter : (names.filter (· ≠ name)).length < (name :: names).length :=
        Nat.lt_succ_of_le (List.length_filter_le _ _)
      rw [distinct, List.eraseDups_cons, filter_distinct, ih _ hshorter]
      refine congrArg (fun rest => name :: List.eraseDups rest) (List.filter_congr fun other _ => ?_)
      rw [Bool.eq_iff_iff, decide_eq_true_iff, Bool.not_eq_true', beq_eq_false_iff_ne]

theorem mem_distinct_iff {name : String} {names : List String} :
    name ∈ distinct names ↔ name ∈ names := by
  rw [distinct_eq_eraseDups, List.mem_eraseDups]

theorem nodup_distinct (names : List String) : (distinct names).Nodup := by
  induction names with
  | nil => exact List.nodup_nil
  | cons name names ih =>
    rw [distinct, List.nodup_cons]
    refine ⟨fun hmem => ?_, List.Pairwise.filter _ ih⟩
    exact of_decide_eq_true (List.mem_filter.mp hmem).2 rfl

/-! ## The last column of a name -/

/-- The cell of the last column that has the name. -/
def IsLastCell (names cells : List String) (name cell : String) : Prop :=
  ∃ k : Nat, names[k]? = some name ∧ (∀ later : Nat, k < later → names[later]? ≠ some name) ∧
    cells[k]? = some cell

section

variable {names cells : List String} {name cell : String}

theorem exists_isLastCell (hlength : cells.length = names.length) (h : name ∈ names) :
    ∃ cell, IsLastCell names cells name cell := by
  obtain ⟨after, before, hreverse, hafter⟩ := List.eq_append_cons_of_mem (List.mem_reverse.mpr h)
  have hnames : names = before.reverse ++ name :: after.reverse := by
    rw [← List.reverse_reverse names, hreverse, List.reverse_append, List.reverse_cons,
      List.append_assoc]
    rfl
  have hk : before.reverse.length < cells.length := by
    rw [hlength, hnames, List.length_append, List.length_cons]
    omega
  refine ⟨cells[before.reverse.length], before.reverse.length, ?_, fun later hlater hlast => ?_,
    List.getElem?_eq_getElem hk⟩
  · rw [hnames, List.getElem?_append_right (Nat.le_refl _), Nat.sub_self]
    rfl
  · obtain ⟨n, rfl⟩ := Nat.exists_eq_add_of_lt hlater
    rw [hnames, List.getElem?_append_right (by omega), Nat.add_assoc, Nat.add_sub_cancel_left,
      List.getElem?_cons_succ] at hlast
    exact hafter (List.mem_reverse.mp (List.mem_of_getElem? hlast))

theorem IsLastCell.lastValue_eq (h : IsLastCell names cells name cell) :
    lastValue name (names.zip cells) = cell := by
  obtain ⟨k, hname, hlast, hcell⟩ := h
  have hk : (names.zip cells)[k]? = some (name, cell) :=
    List.getElem?_zip_eq_some.mpr ⟨hname, hcell⟩
  obtain ⟨hlt, hget⟩ := List.getElem?_eq_some_iff.mp hk
  have hsplit : names.zip cells =
      (names.zip cells).take k ++ (name, cell) :: (names.zip cells).drop (k + 1) := by
    rw [← hget, List.getElem_cons_drop, List.take_append_drop]
  rw [lastValue, hsplit, lookup_reverse_append]
  · rfl
  · rintro ⟨other, value⟩ hmem rfl
    obtain ⟨i, hi⟩ := List.getElem?_of_mem hmem
    rw [List.getElem?_drop, List.getElem?_zip_eq_some] at hi
    exact hlast (k + 1 + i) (by omega) hi.1

/-! ## Records -/

theorem names_record (names cells : List String) : (record names cells).names = distinct names := by
  rw [Record.names, record, List.map_map]
  exact List.map_id _

theorem lookup_map_of_mem (h : name ∈ names) (value : String → String) :
    (names.map fun other => (other, value other)).lookup name = some (value name) := by
  induction names with
  | nil => cases h
  | cons other names ih =>
    rw [List.map_cons, List.lookup_cons]
    cases hother : name == other with
    | true => rw [eq_of_beq hother]
    | false => exact ih ((List.mem_cons.mp h).resolve_left (ne_of_beq_false hother))

theorem get?_record (h : IsLastCell names cells name cell) :
    (record names cells).get? name = some cell := by
  have hname : name ∈ distinct names := by
    obtain ⟨k, hk, -⟩ := h
    exact mem_distinct_iff.mpr (List.mem_of_getElem? hk)
  rw [Record.get?, record, lookup_map_of_mem hname, h.lastValue_eq]

/-- The first of the members with a name is the last of them. -/
theorem lookup_reverse_of_nodup {members : List (String × String)}
    (h : (members.map Prod.fst).Nodup) (name : String) :
    members.reverse.lookup name = members.lookup name := by
  cases hlookup : members.lookup name with
  | none =>
    rw [List.lookup_eq_none_iff] at hlookup ⊢
    exact fun member hmember => hlookup member (List.mem_reverse.mp hmember)
  | some value =>
    obtain ⟨before, after, rfl, -⟩ := List.lookup_eq_some_iff.mp hlookup
    exact lookup_reverse_append (ne_of_mem_after h)

end

/-! ## Tables -/

theorem eq_map_of_readAll {width : Nat} {rows : List Row} {table : List (List String)}
    (h : readAll width rows = .ok table) :
    rows.map Row.fields = table.map (List.map Utf8.ofString) ∧
      ∀ texts ∈ table, texts.length = width := by
  induction rows generalizing table with
  | nil =>
    cases h
    exact ⟨rfl, fun _ htexts => by cases htexts⟩
  | cons row rows ih =>
    obtain ⟨texts, more, hrow, hmore, rfl⟩ :=
      ((readsEach_readAll width).cons_eq_ok_iff (n := 0)).mp h
    obtain ⟨hfields, hwidth⟩ := ih hmore
    obtain ⟨htexts, hlength⟩ := eq_map_of_read hrow
    exact ⟨by rw [List.map_cons, htexts, hfields, List.map_cons],
      List.forall_mem_cons.mpr ⟨hlength, hwidth⟩⟩

/-- What is accepted is a table of texts, the header on top, with rows of one length. -/
theorem Division.exists_table {input : Bytes} {records : List RawRecord} {data : Dataset}
    (h : Division input records) (hread : read input = .ok data) :
    ∃ table : List (List String),
      records.map RawRecord.fields = table.map (List.map Utf8.ofString) ∧
      (∀ cells ∈ table, cells.length = (table.headD []).length) ∧
      data = ⟨distinct (table.headD []), table.tail.map (record (table.headD []))⟩ := by
  rw [read_eq_map_readAll, h.fields_rows] at hread
  cases htable : readAll (widthOf (records.map RawRecord.fields)) (rows input) with
  | error flaw =>
    rw [htable] at hread
    cases hread
  | ok table =>
    rw [htable] at hread
    cases hread
    obtain ⟨hfields, hwidth⟩ := eq_map_of_readAll htable
    rw [h.fields_rows] at hfields
    have hheader : widthOf (records.map RawRecord.fields) = (table.headD []).length := by
      rw [hfields]
      cases table with
      | nil => rfl
      | cons names values => exact List.length_map _
    exact ⟨table, hfields, fun cells hcells => (hwidth cells hcells).trans hheader, rfl⟩

/-- The names of the object that is written for a record mean the same to every reader. -/
theorem exists_members {r : Record} (h : r.names.Nodup) :
    ∃ members, Json.record.whole (Utf8.encode (r.json .compact)) = .ok ⟨members⟩ ∧
      ∀ name, members.lookup name = r.get? name ∧ members.reverse.lookup name = r.get? name :=
  ⟨r.fields, (Json.reads_record Json.Layout.compact_tidy r).whole_eq,
    fun name => ⟨rfl, lookup_reverse_of_nodup h name⟩⟩

end LetterPages.Csv

namespace LetterPages.Publication

/-- Under repeated names the fields are the names without their later repetitions, and every record
has just these, each with the cell of the last column of that name. Of the JSON object of a record
it makes no difference whether the first or the last member of a name is read. -/
theorem parse_repeated_names {σ : Type} (storage : Storage σ) (st : σ) (source : Path)
    {input : Bytes} {records : List Csv.RawRecord} {data : Dataset}
    (hdivision : Csv.Division input records)
    (hparse : ((parse source input).run storage st).outcome = .ok data) :
    ∃ table : List (List String),
      records.map Csv.RawRecord.fields = table.map (List.map Utf8.ofString) ∧
      data.fields = (table.headD []).eraseDups ∧ data.fields.Nodup ∧
      data.records.length = table.tail.length ∧
      ∀ (i : Nat) (r : Record), data.records[i]? = some r → r.names = data.fields ∧
        (∃ cells, table.tail[i]? = some cells ∧ ∀ name ∈ table.headD [], ∃ cell,
          Csv.IsLastCell (table.headD []) cells name cell ∧ r.get? name = some cell) ∧
        ∃ members, Json.record.whole (Utf8.encode (r.json .compact)) = .ok ⟨members⟩ ∧
          ∀ name, members.lookup name = r.get? name ∧
            members.reverse.lookup name = r.get? name := by
  have hread : Csv.read input = .ok data :=
    eq_ok_of_mapError ((outcome_parse storage source input st).symm.trans hparse)
  obtain ⟨table, hfields, hwidth, rfl⟩ := hdivision.exists_table hread
  refine ⟨table, hfields, Csv.distinct_eq_eraseDups _, Csv.nodup_distinct _, List.length_map _, ?_⟩
  intro i r hr
  rw [List.getElem?_map] at hr
  obtain ⟨cells, hcells, rfl⟩ := Option.map_eq_some_iff.mp hr
  have hnames := Csv.names_record (table.headD []) cells
  refine ⟨hnames, ⟨cells, hcells, fun name hname => ?_⟩, Csv.exists_members ?_⟩
  · have hlength := hwidth cells (List.mem_of_mem_tail (List.mem_of_getElem? hcells))
    obtain ⟨cell, hcell⟩ := Csv.exists_isLastCell hlength hname
    exact ⟨cell, hcell, Csv.get?_record hcell⟩
  · rw [hnames]
    exact Csv.nodup_distinct _

theorem parse_repeated_names_to :
    let source : Path := .ofString "letters.csv"
    let input : Bytes := Utf8.ofString "to,id,to\r\n1,2,3\n4,5,6"
    let data : Dataset :=
      ⟨["to", "id"], [⟨[("to", "3"), ("id", "2")]⟩, ⟨[("to", "6"), ("id", "5")]⟩]⟩
    ((parse source input).run (.memory source) .empty).outcome = .ok data ∧
    ∃ (records : List Csv.RawRecord) (table : List (List String)) (cells : List String),
      Csv.Division input records ∧
      records.map Csv.RawRecord.fields = table.map (List.map Utf8.ofString) ∧
      table.tail[1]? = some cells ∧ Csv.IsLastCell (table.headD []) cells "to" "6" := by
  intro source input data
  have hparse : ((parse source input).run (.memory source) .empty).outcome = .ok data := by
    rw [outcome_parse]
    exact eq_ok_of_toOption (by decide +kernel)
  obtain ⟨records, hdivision⟩ := Csv.exists_division input
  obtain ⟨table, hfields, hnames, -, -, hrecords⟩ :=
    parse_repeated_names (.memory source) .empty source hdivision hparse
  obtain ⟨-, ⟨cells, hcells, hlast⟩, -⟩ := hrecords 1 ⟨[("to", "6"), ("id", "5")]⟩ rfl
  have hto : "to" ∈ table.headD [] := by
    rw [← List.mem_eraseDups, ← hnames]
    exact List.mem_cons_self
  obtain ⟨cell, hcell, hget⟩ := hlast "to" hto
  cases hget
  exact ⟨hparse, records, table, cells, hdivision, hfields, hcells, hcell⟩

end LetterPages.Publication
