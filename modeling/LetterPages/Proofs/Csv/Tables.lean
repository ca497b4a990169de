import LetterPages.Csv.Table
import LetterPages.Proofs.Csv.Scanning

/-!
# Tables of texts

What a dataset is made of when every row spells texts, and how many records an input can have.
-/

namespace LetterPages.Csv

/-! ## Rows that spell texts -/

theorem decodeFrom_ofString (place : Place) (index : Nat) (texts : List String) :
    decodeFrom place index (texts.map Utf8.ofString) = .ok texts := by
  induction texts generalizing index with
  | nil => rfl
  | cons text texts ih =>
    rw [List.map_cons, decodeFrom, Utf8.decode?_ofString]
    dsimp only
    rw [ih, String.ofList_toList]
    rfl

theorem readAll_texts {width : Nat} {rows : List Row} {values : List (List String)}
    (hfields : rows.map Row.fields = values.map (List.map Utf8.ofString))
    (hwidth : ∀ texts ∈ values, texts.length = width) : readAll width rows = .ok values := by
  induction rows generalizing values with
  | nil =>
    cases values with
    | nil => rfl
    | cons texts values => cases hfields
  | cons row rows ih =>
    cases values with
    | nil => cases hfields
    | cons texts values =>
      obtain ⟨hrow, hrows⟩ := List.cons.inj hfields
      have hread : row.read width = .ok texts := by
        rw [Row.read, Row.decode, hrow, List.length_map, if_pos (hwidth texts List.mem_cons_self),
          decodeFrom_ofString]
      rw [readAll, hread, ih hrows fun v hv => hwidth v (List.mem_cons_of_mem texts hv)]
      rfl

/-! ## Records under distinct names -/

theorem distinct_of_nodup {names : List String} (h : names.Nodup) : distinct names = names := by
  induction names with
  | nil => rfl
  | cons name names ih =>
    obtain ⟨hname, hnames⟩ := List.nodup_cons.mp h
    rw [distinct, ih hnames, List.filter_eq_self.mpr]
    intro other hother
    rw [decide_eq_true_iff]
    rintro rfl
    exact hname hother

theorem lookup_reverse_append {before after : List (String × String)} {name value : String}
    (hafter : ∀ cell ∈ after, cell.1 ≠ name) :
    (before ++ (name, value) :: after).reverse.lookup name = some value := by
  rw [List.reverse_append, List.reverse_cons, List.append_assoc, List.lookup_eq_some_iff]
  refine ⟨after.reverse, before.reverse, rfl, ?_⟩
  intro cell hcell
  rw [bne_iff_ne]
  exact (hafter cell (List.mem_reverse.mp hcell)).symm

/-- Under distinct names a name is not met again behind its cell. -/
theorem ne_of_mem_after {before after : List (String × String)} {name value : String}
    (hnames : ((before ++ (name, value) :: after).map Prod.fst).Nodup) :
    ∀ cell ∈ after, cell.1 ≠ name := by
  rw [List.map_append, List.map_cons, List.nodup_append, List.nodup_cons] at hnames
  obtain ⟨-, ⟨hafter, -⟩, -⟩ := hnames
  rintro cell hcell rfl
  exact hafter (List.mem_map.mpr ⟨cell, hcell, rfl⟩)

theorem lastValue_of_mem {cells : List (String × String)} (hnames : (cells.map Prod.fst).Nodup)
    {name value : String} (h : (name, value) ∈ cells) : lastValue name cells = value := by
  obtain ⟨before, after, rfl⟩ := List.append_of_mem h
  rw [lastValue, lookup_reverse_append (ne_of_mem_after hnames)]
  rfl

theorem record_of_nodup {names values : List String} (hnames : names.Nodup)
    (hlength : values.length = names.length) : record names values = ⟨names.zip values⟩ := by
  have hfst : (names.zip values).map Prod.fst = names :=
    List.map_fst_zip (Nat.le_of_eq hlength.symm)
  have hcells : names.map (fun name => (name, lastValue name (names.zip values))) =
      names.zip values := by
    calc names.map (fun name => (name, lastValue name (names.zip values)))
      _ = ((names.zip values).map Prod.fst).map
          fun name => (name, lastValue name (names.zip values)) := by rw [hfst]
      _ = (names.zip values).map fun cell => (cell.1, lastValue cell.1 (names.zip values)) :=
          List.map_map
      _ = (names.zip values).map id := by
          apply List.map_congr_left
          rintro ⟨name, value⟩ hcell
          rw [lastValue_of_mem (hfst.symm ▸ hnames) hcell]
          rfl
      _ = names.zip values := List.map_id _
  rw [record, distinct_of_nodup hnames, hcells]

/-- When the rows spell distinct names and then as many texts each, the dataset pairs them up. -/
theorem read_texts {input : Bytes} {names : List String} {values : List (List String)}
    (hrows : (rows input).map Row.fields = (names :: values).map (List.map Utf8.ofString))
    (hnames : names.Nodup) (hwidth : ∀ texts ∈ values, texts.length = names.length) :
    read input = .ok ⟨names, values.map fun texts => ⟨names.zip texts⟩⟩ := by
  unfold read
  generalize rows input = all at hrows
  cases all with
  | nil => cases hrows
  | cons row rest =>
    obtain ⟨hrow, hrest⟩ := List.cons.inj hrows
    have hheader : header (row :: rest) = .ok names := by
      rw [header, Row.decode, hrow, decodeFrom_ofString]
    have hrecords : values.map (record names) = values.map fun texts => ⟨names.zip texts⟩ :=
      List.map_congr_left fun texts htexts => record_of_nodup hnames (hwidth texts htexts)
    have hdataset : dataset names (row :: rest) =
        .ok ⟨names, values.map fun texts => ⟨names.zip texts⟩⟩ := by
      rw [dataset, List.tail_cons, readAll_texts hrest hwidth, distinct_of_nodup hnames, ← hrecords]
      rfl
    rw [hheader]
    exact hdataset

/-! ## How many records -/

theorem length_readAll {width : Nat} {rows : List Row} {values : List (List String)}
    (h : readAll width rows = .ok values) : values.length = rows.length := by
  induction rows generalizing values with
  | nil =>
    cases h
    rfl
  | cons row rest ih =>
    rw [readAll] at h
    cases hrow : row.read width with
    | error flaw =>
      rw [hrow] at h
      cases h
    | ok texts =>
      rw [hrow] at h
      cases hrest : readAll width rest with
      | error flaw =>
        rw [hrest] at h
        cases h
      | ok more =>
        rw [hrest] at h
        cases h
        rw [List.length_cons, List.length_cons, ih hrest]

theorem length_records_le {input : Bytes} {data : Dataset} (h : read input = .ok data) :
    data.records.length ≤ input.length := by
  unfold read dataset at h
  cases hnames : header (rows input) with
  | error flaw =>
    rw [hnames] at h
    cases h
  | ok names =>
    rw [hnames] at h
    dsimp only [bind, Except.bind] at h
    cases hvalues : readAll names.length (rows input).tail with
    | error flaw =>
      rw [hvalues] at h
      cases h
    | ok values =>
      rw [hvalues] at h
      cases h
      have hrows : (rows input).length ≤ input.length := length_rows_le input
      rw [List.length_map, length_readAll hvalues, List.length_tail]
      omega

end LetterPages.Csv
