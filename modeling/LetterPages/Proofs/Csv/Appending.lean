import LetterPages.Proofs.Csv.Tables
import LetterPages.Proofs.Observation

/-!
# Inputs that grow at the end

An input that ends between rows is read on its own: the rows that are appended to it change neither
its rows nor their places. So its flaw stays its flaw, its records stay the first records, and the
chunks that they fill stay as they are.
-/

namespace LetterPages.Csv

/-! ## Where a reading stands -/

def Move.mode : Move → Mode
  | pass next => next
  | take next => next
  | endField => .fieldStart
  | endRow => .between

def Mode.next (m : Mode) (b : UInt8) : Mode :=
  (m.move b).mode

def Mode.after (m : Mode) (bytes : Bytes) : Mode :=
  bytes.foldl Mode.next m

def Scan.after (s : Scan) (bytes : Bytes) : Scan :=
  bytes.foldl Scan.next s

theorem Mode.next_terminator {m : Mode} (hm : m ≠ .quoted) {b : UInt8}
    (hb : isTerminator b = true) : m.next b = .between := by
  simp only [isTerminator, Bool.or_eq_true, beq_iff_eq] at hb
  rcases hb with rfl | rfl
  all_goals
    cases m with
    | quoted => exact absurd rfl hm
    | between | fieldStart | bare | quoteSeen => rfl

namespace Scan

theorem mode_next (s : Scan) (b : UInt8) : (s.next b).mode = s.mode.next b := by
  rw [next, Mode.next]
  cases s.mode.move b <;> rfl

theorem mode_after (s : Scan) (bytes : Bytes) : (s.after bytes).mode = s.mode.after bytes := by
  induction bytes generalizing s with
  | nil => rfl
  | cons b bytes ih =>
    refine (ih (s.next b)).trans ?_
    rw [mode_next]
    rfl

/-- Once a reading stands between rows, what it has read no longer depends on what follows. -/
theorem rows_append (s : Scan) (input more : Bytes) (h : (s.after input).mode = .between) :
    s.rows (input ++ more) = s.rows input ++ (s.after input).rows more := by
  induction input generalizing s with
  | nil =>
    change s.mode = .between at h
    rw [rows.eq_1, if_pos h]
    rfl
  | cons b input ih =>
    have hrest := ih (s.next b) h
    rw [List.cons_append, rows, rows, hrest]
    split <;> rfl

end Scan

/-! ## The mark -/

def mark : Bytes :=
  [0xEF, 0xBB, 0xBF]

/-- How many bytes the mark in front of an input takes. -/
def markLength (input : Bytes) : Nat :=
  if mark <+: input then 3 else 0

def content (input : Bytes) : Bytes :=
  input.drop (markLength input)

theorem rows_eq (input : Bytes) :
    rows input = (Scan.start (markLength input)).rows (content input) := by
  unfold rows content markLength
  split
  next rest => rw [if_pos ⟨rest, rfl⟩]; rfl
  next hmark =>
    rw [if_neg]
    · rfl
    · rintro ⟨rest, rfl⟩
      exact hmark rest rfl

/-- The input ends between rows: its last byte is a terminator, and what stands before that byte
leaves no quoted field open. -/
def EndsBetween (input : Bytes) : Prop :=
  (∃ b ∈ (content input).getLast?, isTerminator b = true) ∧
    Mode.between.after (content input).dropLast ≠ .quoted

instance : DecidablePred EndsBetween :=
  fun input => inferInstanceAs (Decidable (_ ∧ Mode.between.after (content input).dropLast ≠ _))

theorem markLength_append {input : Bytes} (h : EndsBetween input) (more : Bytes) :
    markLength (input ++ more) = markLength input := by
  obtain ⟨⟨b, hlast, hb⟩, -⟩ := h
  unfold content at hlast
  unfold markLength at hlast ⊢
  by_cases hmark : mark <+: input
  · rw [if_pos hmark, if_pos (hmark.trans (List.prefix_append input more))]
  · rw [if_neg hmark, if_neg]
    intro hlonger
    -- otherwise the input is a part of the mark, where no terminator stands
    rcases List.prefix_or_prefix_of_prefix hlonger (List.prefix_append input more) with h | h
    · exact hmark h
    · rw [if_neg hmark, List.drop_zero] at hlast
      have hmem : b ∈ mark := h.subset (List.mem_of_mem_getLast? hlast)
      simp only [mark, List.mem_cons, List.not_mem_nil, or_false] at hmem
      rcases hmem with rfl | rfl | rfl <;> exact absurd hb (by decide)

theorem rows_append {input : Bytes} (h : EndsBetween input) (more : Bytes) :
    ∃ appended, rows (input ++ more) = rows input ++ appended := by
  have hlength : markLength input ≤ input.length := by
    unfold markLength
    split
    next hmark => exact hmark.length_le
    next => exact Nat.zero_le _
  have hcontent : content (input ++ more) = content input ++ more := by
    rw [content, markLength_append h, List.drop_append_of_le_length hlength]
    rfl
  have hmode : ((Scan.start (markLength input)).after (content input)).mode = .between := by
    obtain ⟨⟨b, hlast, hb⟩, hopen⟩ := h
    obtain ⟨body, hbody⟩ := List.getLast?_eq_some_iff.mp hlast
    rw [hbody, List.dropLast_concat] at hopen
    rw [Scan.mode_after, hbody]
    exact List.foldl_append.trans (Mode.next_terminator hopen hb)
  rw [rows_eq (input ++ more), rows_eq input, markLength_append h, hcontent,
    Scan.rows_append _ _ _ hmode]
  exact ⟨_, rfl⟩

/-! ## Datasets -/

theorem header_append {rows : List Row} (h : rows ≠ []) (more : List Row) :
    header (rows ++ more) = header rows := by
  cases rows with
  | nil => exact absurd rfl h
  | cons row rest => rfl

theorem readAll_append (width : Nat) (rows more : List Row) :
    readAll width (rows ++ more) = do
      let values ← readAll width rows
      let others ← readAll width more
      return values ++ others := by
  induction rows with
  | nil =>
    rw [List.nil_append, readAll]
    cases readAll width more <;> rfl
  | cons row rows ih =>
    rw [List.cons_append, readAll, readAll, ih]
    cases row.read width with
    | error flaw => rfl
    | ok texts =>
      cases readAll width rows with
      | error flaw => rfl
      | ok values =>
        cases readAll width more <;> rfl

theorem dataset_append (names : List String) {rows : List Row} (h : rows ≠ []) (more : List Row) :
    dataset names (rows ++ more) = do
      let data ← dataset names rows
      let others ← readAll names.length more
      return { data with records := data.records ++ others.map (record names) } := by
  unfold dataset
  rw [List.tail_append_of_ne_nil h, readAll_append]
  cases readAll names.length rows.tail with
  | error flaw => rfl
  | ok values =>
    cases readAll names.length more with
    | error flaw => rfl
    | ok others =>
      change Except.ok (Dataset.mk (distinct names) ((values ++ others).map (record names))) = _
      rw [List.map_append]
      rfl

/-- Reading a longer input gives the flaw of the shorter one, or goes on from its dataset. -/
theorem read_append {input : Bytes} (hrows : rows input ≠ []) (h : EndsBetween input)
    (more : Bytes) :
    ∃ goOn : Dataset → Except Flaw Dataset, read (input ++ more) = read input >>= goOn ∧
      ∀ data longer, goOn data = .ok longer →
        longer.fields = data.fields ∧ data.records <+: longer.records := by
  obtain ⟨appended, happended⟩ := rows_append h more
  unfold read
  rw [happended, header_append hrows]
  cases header (rows input) with
  | error flaw =>
    exact ⟨fun _ => .error flaw, rfl, fun _ _ hdata => by cases hdata⟩
  | ok names =>
    refine ⟨fun data => do
      let others ← readAll names.length appended
      return { data with records := data.records ++ others.map (record names) },
      dataset_append names hrows appended, ?_⟩
    intro data longer hlonger
    cases hothers : readAll names.length appended with
    | error flaw =>
      rw [hothers] at hlonger
      cases hlonger
    | ok others =>
      rw [hothers] at hlonger
      cases hlonger
      exact ⟨rfl, List.prefix_append _ _⟩

end LetterPages.Csv

namespace LetterPages.Publication

/-- What is appended to an input that ends between rows only adds records. If the input is rejected
it stays rejected, with the same fault; otherwise the fields stay, the records stay the first ones,
and of any size the chunks that they fill are chunks of the longer input. -/
theorem parse_append {σ : Type} (storage : Storage σ) (st : σ) (source : Path) {input : Bytes}
    (hheader : Csv.rows input ≠ []) (hended : Csv.EndsBetween input) (more : Bytes) :
    let outcome := fun text => ((parse source text).run storage st).outcome
    (∀ f, outcome input = .error f → outcome (input ++ more) = .error f) ∧
    ∀ data longer, outcome input = .ok data → outcome (input ++ more) = .ok longer →
      longer.fields = data.fields ∧ data.records <+: longer.records ∧
      ∀ size, 0 < size → ∃ chunks chunks', Chunk.ofRecords data.records size = .ok chunks ∧
        Chunk.ofRecords longer.records size = .ok chunks' ∧
        ∀ index < data.records.length / size, ∃ c : Chunk,
          chunks[index]? = some c ∧ chunks'[index]? = some c := by
  intro outcome
  have houtcome : ∀ text, outcome text = (Csv.read text).mapError (.inputMalformed source) :=
    fun text => congrArg Observed.outcome (observe_parse storage source text st)
  obtain ⟨goOn, hread, hgoOn⟩ := Csv.read_append hheader hended more
  rw [houtcome, houtcome, hread]
  cases Csv.read input with
  | error flaw =>
    refine ⟨fun _ hf => hf, ?_⟩
    intro data longer hdata
    cases hdata
  | ok data =>
    constructor
    · intro f hf
      cases hf
    intro data' longer hdata hlonger
    cases hdata
    obtain ⟨hfields, others, hothers⟩ := hgoOn data longer (eq_ok_of_mapError hlonger)
    refine ⟨hfields, ⟨others, hothers⟩, ?_⟩
    intro size hsize
    have hpages : ∀ records, Chunk.ofRecords records size = .ok (Chunk.pages records size) := by
      intro records
      rw [Chunk.ofRecords_eq, if_neg (Nat.pos_iff_ne_zero.mp hsize)]
    refine ⟨_, _, hpages data.records, hpages longer.records, ?_⟩
    intro index hindex
    obtain ⟨c, hc, hmore⟩ := Chunk.exists_getElem?_pages hindex
    exact ⟨c, hc, hothers ▸ hmore others⟩

/-- A line feed is appended after a carriage return, and a row after it: the two letters keep their
chunk. A row that is too wide is the fault of every longer input. -/
theorem parse_append_after_carriage_return :
    let source : Path := .ofString "letters.csv"
    let outcome := fun text => ((parse source text).run (.memory source) .empty).outcome
    let input : Bytes := Utf8.ofString "\uFEFFid,to\n1,\"a\nb\"\n\n2,c\r"
    let more : Bytes := Utf8.ofString "\n3,\"d"
    let wide : Bytes := Utf8.ofString "id\r\n1,2\n"
    (∃ data longer, outcome input = .ok data ∧ outcome (input ++ more) = .ok longer ∧
      longer.fields = data.fields ∧ data.records <+: longer.records ∧
      data.records.length = 2 ∧ longer.records.length = 3 ∧
      ∃ chunks chunks', Chunk.ofRecords data.records 2 = .ok chunks ∧
        Chunk.ofRecords longer.records 2 = .ok chunks' ∧
        ∃ c : Chunk, chunks[0]? = some c ∧ chunks'[0]? = some c) ∧
    outcome (wide ++ more) = .error (.inputMalformed source (.ragged ⟨1, 1, 3⟩ 2 1)) := by
  intro source outcome input more wide
  have houtcome : ∀ text, outcome text = (Csv.read text).mapError (.inputMalformed source) :=
    fun text => congrArg Observed.outcome (observe_parse (.memory source) source text .empty)
  have hinput : outcome input =
      .ok ⟨["id", "to"], [⟨[("id", "1"), ("to", "a\nb")]⟩, ⟨[("id", "2"), ("to", "c")]⟩]⟩ := by
    rw [houtcome]
    exact eq_ok_of_toOption (by decide +kernel)
  have hlonger : outcome (input ++ more) = .ok ⟨["id", "to"], [⟨[("id", "1"), ("to", "a\nb")]⟩,
      ⟨[("id", "2"), ("to", "c")]⟩, ⟨[("id", "3"), ("to", "d")]⟩]⟩ := by
    rw [houtcome]
    exact eq_ok_of_toOption (by decide +kernel)
  have hwide : outcome wide = .error (.inputMalformed source (.ragged ⟨1, 1, 3⟩ 2 1)) := by
    rw [houtcome]
    rfl
  have hheader : Csv.rows input ≠ [] := by decide +kernel
  have hheader' : Csv.rows wide ≠ [] := by decide +kernel
  constructor
  · obtain ⟨hfields, hrecords, hchunks⟩ :=
      (parse_append (.memory source) .empty source hheader (by decide +kernel) more).2 _ _
        hinput hlonger
    obtain ⟨chunks, chunks', hpages, hpages', hsame⟩ := hchunks 2 (by decide)
    exact ⟨_, _, hinput, hlonger, hfields, hrecords, rfl, rfl, chunks, chunks', hpages, hpages',
      hsame 0 (by decide)⟩
  · exact (parse_append (.memory source) .empty source hheader' (by decide +kernel) more).1 _
      hwide

end LetterPages.Publication
