import LetterPages.Proofs.Utf8
import LetterPages.Csv.Row

/-!
# Scanning CSV bytes

Where a row stands in the input matters for flaws only. Without the places a scan is its mode, the
open field and the finished fields, and what it does over a stretch of bytes is an equation between
two scans.
-/

namespace LetterPages.Csv

/-! ## Rows and bytes -/

namespace Scan

/-- An open row counts as one row that has taken its bytes already. -/
def owed (s : Scan) : Nat :=
  if s.mode = .between then 0 else 1

theorem owed_le (s : Scan) : s.owed ≤ 1 := by
  unfold owed
  split <;> omega

theorem length_rows_le (s : Scan) (bytes : Bytes) :
    (s.rows bytes).length ≤ bytes.length + s.owed := by
  induction bytes generalizing s with
  | nil =>
    unfold rows owed
    split <;> exact Nat.le_refl _
  | cons b rest ih =>
    have hrest : ((s.next b).rows rest).length ≤ rest.length + (s.next b).owed := ih (s.next b)
    rw [rows, List.length_cons]
    split
    next hends =>
      have howed : (s.next b).owed = 0 := by
        rw [endsRow, beq_iff_eq] at hends
        rw [next, hends]
        rfl
      rw [List.length_cons]
      omega
    next =>
      have hone : (s.next b).owed ≤ 1 := owed_le _
      omega

end Scan

theorem length_rows_le (input : Bytes) : (rows input).length ≤ input.length := by
  unfold rows
  split
  · have h := (Scan.start 3).length_rows_le
    rename_i rest
    have hrest : ((Scan.start 3).rows rest).length ≤ rest.length + 0 := h rest
    simp only [List.length_cons]
    omega
  · exact (Scan.start 0).length_rows_le input

/-! ## Scans without places -/

/-- The fields of each row still to come. The open field and the finished fields are in reverse. -/
def Mode.scan (m : Mode) (field : Bytes) (fields : List Bytes) : Bytes → List (List Bytes)
  | [] => if m = .between then [] else [(field.reverse :: fields).reverse]
  | b :: rest =>
    match m.move b with
    | .pass next => next.scan field fields rest
    | .take next => next.scan (b :: field) fields rest
    | .endField => Mode.fieldStart.scan [] (field.reverse :: fields) rest
    | .endRow => (field.reverse :: fields).reverse :: Mode.between.scan [] [] rest

theorem Scan.map_fields_rows (s : Scan) (input : Bytes) :
    (s.rows input).map Row.fields = s.mode.scan s.field s.fields input := by
  induction input generalizing s with
  | nil =>
    rw [rows, Mode.scan]
    split <;> rfl
  | cons b rest ih =>
    rw [rows, Mode.scan, endsRow]
    cases hmove : s.mode.move b with
    | pass m | take m | endField =>
      refine (ih (s.next b)).trans ?_
      rw [next, hmove]
    | endRow =>
      refine congrArg (s.row.fields :: ·) ((ih (s.next b)).trans ?_)
      rw [next, hmove]

namespace Mode

variable {m : Mode} {b : UInt8} (field : Bytes) (fields : List Bytes) (rest : Bytes)

/-! ## Single bytes -/

theorem scan_comma (hm : m ≠ .quoted) : m.scan field fields (comma :: rest) =
    Mode.fieldStart.scan [] (field.reverse :: fields) rest := by
  cases m with
  | quoted => exact absurd rfl hm
  | between | fieldStart | bare | quoteSeen => rfl

theorem move_terminator (hm : m ≠ .quoted) (hopen : m ≠ .between) (hb : isTerminator b = true) :
    m.move b = .endRow := by
  have hplain : Move.plain b = .endRow := by
    rw [Move.plain, if_neg (by rintro rfl; exact absurd hb (by decide)), if_pos hb]
  have hquote : b ≠ quote := by
    rintro rfl
    exact absurd hb (by decide)
  cases m with
  | quoted => exact absurd rfl hm
  | between => exact absurd rfl hopen
  | bare => exact hplain
  | fieldStart | quoteSeen =>
    rw [move, if_neg hquote, hplain]

theorem scan_terminator (hm : m ≠ .quoted) (hopen : m ≠ .between) (hb : isTerminator b = true) :
    m.scan field fields (b :: rest) =
      (field.reverse :: fields).reverse :: Mode.between.scan [] [] rest := by
  rw [scan, move_terminator hm hopen hb]

theorem scan_open_quote (hm : m = .between ∨ m = .fieldStart) :
    m.scan field fields (quote :: rest) = Mode.quoted.scan field fields rest := by
  rcases hm with rfl | rfl <;> rfl

theorem scan_close_quote :
    Mode.quoted.scan field fields (quote :: rest) = Mode.quoteSeen.scan field fields rest := rfl

/-! ## Stretches of a field -/

theorem scan_quoted_append {bytes : Bytes} (h : ∀ b ∈ bytes, b ≠ quote) :
    Mode.quoted.scan field fields (bytes ++ rest) =
      Mode.quoted.scan (bytes.reverse ++ field) fields rest := by
  induction bytes generalizing field with
  | nil => rfl
  | cons b bytes ih =>
    have hmove : Mode.quoted.move b = .take .quoted := if_neg (h b List.mem_cons_self)
    have htaken : (b :: bytes).reverse ++ field = bytes.reverse ++ (b :: field) := by
      rw [List.reverse_cons, List.append_assoc]
      rfl
    rw [List.cons_append, scan, hmove, htaken]
    exact ih (b :: field) fun c hc => h c (List.mem_cons_of_mem b hc)

theorem scan_doubled_quote :
    Mode.quoted.scan field fields (quote :: quote :: rest) =
      Mode.quoted.scan (quote :: field) fields rest := rfl

/-- Outside quotes every byte but a comma and a terminator is taken, once the field has begun. -/
theorem scan_bare_append {bytes : Bytes} (h : ∀ b ∈ bytes, b ≠ comma ∧ isTerminator b = false) :
    Mode.bare.scan field fields (bytes ++ rest) =
      Mode.bare.scan (bytes.reverse ++ field) fields rest := by
  induction bytes generalizing field with
  | nil => rfl
  | cons b bytes ih =>
    obtain ⟨hcomma, hterminator⟩ := h b List.mem_cons_self
    have hmove : Mode.bare.move b = .take .bare := by
      rw [move, Move.plain, if_neg hcomma, hterminator]
      rfl
    have htaken : (b :: bytes).reverse ++ field = bytes.reverse ++ (b :: field) := by
      rw [List.reverse_cons, List.append_assoc]
      rfl
    rw [List.cons_append, scan, hmove, htaken]
    exact ih (b :: field) fun c hc => h c (List.mem_cons_of_mem b hc)

theorem scan_bare_start (hm : m = .between ∨ m = .fieldStart) (hcomma : b ≠ comma)
    (hterminator : isTerminator b = false) (hquote : b ≠ quote) :
    m.scan field fields (b :: rest) = Mode.bare.scan (b :: field) fields rest := by
  have hplain : Move.plain b = .take .bare := by
    rw [Move.plain, if_neg hcomma, hterminator]
    rfl
  have hmove : m.move b = .take .bare := by
    rcases hm with rfl | rfl
    · rw [move, hterminator, if_neg Bool.false_ne_true, if_neg hquote, hplain]
    · rw [move, if_neg hquote, hplain]
  rw [scan, hmove]

end Mode

end LetterPages.Csv
