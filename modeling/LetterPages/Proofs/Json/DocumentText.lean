import LetterPages.Json.MetadataReader
import LetterPages.Json.RecordReader
import LetterPages.Proofs.Json.NumeralText
import LetterPages.Proofs.Json.StringText

/-!
# Documents read back from JSON

A reader reads a text as a value when it gives that value in front of anything that follows. Arrays
and objects inherit this from their items, so chunk files are read back as their records, and both
forms of the metadata as the metadata.
-/

namespace LetterPages.Json

/-! ## Texts and what they are read as -/

def spaces (n : Nat) : Bytes :=
  List.replicate n 0x20

/-- A comma and a colon, possibly with spaces after them. -/
structure Layout.Tidy (layout : Layout) : Prop where
  comma_eq : ∃ n, Utf8.encode layout.comma = 0x2C :: spaces n
  colon_eq : ∃ n, Utf8.encode layout.colon = 0x3A :: spaces n

theorem Layout.compact_tidy : compact.Tidy :=
  ⟨⟨0, rfl⟩, ⟨0, rfl⟩⟩

theorem Layout.spaced_tidy : spaced.Tidy :=
  ⟨⟨1, rfl⟩, ⟨1, rfl⟩⟩

/-- A byte that begins a value, and so neither is blank nor closes an array. -/
def IsOpening (b : UInt8) : Prop :=
  isBlank b = false ∧ b ≠ 0x5D

structure Reads {α : Type} (reader : Reader α) (text : List Char) (a : α) : Prop where
  opening : ∃ b t, Utf8.encode text = b :: t ∧ IsOpening b
  run_eq : ∀ (n : Nat) (rest : Bytes), Ended rest →
    reader.run (spaces n ++ (Utf8.encode text ++ rest)) = .ok (a, rest)

theorem skipBlanks_spaces (n : Nat) {b : UInt8} (h : isBlank b = false) (s : Bytes) :
    skipBlanks (spaces n ++ b :: s) = b :: s := by
  rw [skipBlanks, spaces, List.dropWhile_append_of_pos]
  · rw [List.dropWhile_cons, h]
    rfl
  · intro x hx
    rw [(List.mem_replicate.mp hx).2]
    rfl

theorem skipBlanks_cons {b : UInt8} (h : isBlank b = false) (s : Bytes) :
    skipBlanks (b :: s) = b :: s :=
  skipBlanks_spaces 0 h s

theorem firstOf_spaces {α : Type} {read : UInt8 → Bytes → Except Problem (α × Bytes)} (n : Nat)
    {b : UInt8} (h : isBlank b = false) (s : Bytes) :
    firstOf read (spaces n ++ b :: s) = read b s := by
  rw [firstOf, skipBlanks_spaces n h]

theorem reads_string (text : String) : Reads string (quoted text.toList) text where
  opening := ⟨0x22, _, rfl, rfl, by decide⟩
  run_eq n rest _ := by
    have hbytes : Utf8.encode (quoted text.toList) ++ rest =
        0x22 :: (Utf8.encode (text.toList.flatMap escaped) ++ 0x22 :: rest) := by
      rw [quoted, Utf8.encode_append, Utf8.encode_cons, List.append_assoc, List.append_assoc]
      rfl
    rw [hbytes]
    exact (firstOf_spaces n rfl _).trans (stringText_quoted text rest)

theorem isOpening_of_isDigit {b : UInt8} (h : isDigit b = true) : IsOpening b := by
  have hrange : 0x30 ≤ b ∧ b ≤ 0x39 := by
    unfold isDigit digit? at h
    split at h
    · assumption
    · cases h
  rw [UInt8.le_iff_toNat_le, UInt8.le_iff_toNat_le] at hrange
  constructor
  · simp only [isBlank, Bool.or_eq_false_iff, beq_eq_false_iff_ne, ne_eq, ← UInt8.toNat_inj,
      UInt8.reduceToNat] at hrange ⊢
    omega
  · simp only [ne_eq, ← UInt8.toNat_inj, UInt8.reduceToNat] at hrange ⊢
    omega

theorem reads_size (n : UInt64) : Reads size (numeral n) n where
  opening := by
    obtain ⟨b, t, hbytes, hb⟩ := encode_numeral n
    exact ⟨b, t, hbytes, isOpening_of_isDigit hb⟩
  run_eq count rest hrest := by
    obtain ⟨b, t, hbytes, hb⟩ := encode_numeral n
    have hnumber := number_numeral n hrest
    rw [hbytes, List.cons_append] at hnumber ⊢
    refine (firstOf_spaces count (isOpening_of_isDigit hb).1 _).trans ?_
    rw [sizeFrom, if_pos (.inr hb), hnumber]

/-! ## Arrays -/

theorem separated_cons (separator item : List Char) (rest : List (List Char)) :
    separated separator (item :: rest) = item ++ rest.flatMap (separator ++ ·) := by
  induction rest generalizing item with
  | nil => exact (List.append_nil item).symm
  | cons next rest ih =>
    rw [separated, ih, List.flatMap_cons, List.append_assoc, List.append_assoc]
    intro h
    cases h

theorem ended_of_head {b : UInt8} (h : b = 0x2C ∨ b = 0x5D ∨ b = 0x7D) (s : Bytes) :
    Ended (b :: s) := by
  intro x hx
  cases hx
  rcases h with rfl | rfl | rfl <;> exact ⟨rfl, by decide, rfl⟩

theorem ended_after {layout : Layout} (tidy : layout.Tidy) (texts : List (List Char))
    {rest : Bytes} (h : Ended rest) :
    Ended (Utf8.encode (texts.flatMap (layout.comma ++ ·)) ++ rest) := by
  obtain ⟨n, hcomma⟩ := tidy.comma_eq
  cases texts with
  | nil => exact h
  | cons text texts =>
    rw [List.flatMap_cons, Utf8.encode_append, Utf8.encode_append, hcomma]
    exact ended_of_head (.inl rfl) _

theorem nextItem_close (isFirst : Bool) (s : Bytes) :
    nextItem isFirst (0x5D :: s) = .ok (.stop s) := by
  rw [nextItem, skipBlanks_cons rfl]
  rfl

theorem nextItem_first {b : UInt8} (h : IsOpening b) (s : Bytes) :
    nextItem true (b :: s) = .ok (.item (b :: s)) := by
  rw [nextItem, skipBlanks_cons h.1]
  exact if_neg h.2

theorem nextItem_comma {b : UInt8} (h : IsOpening b) (n : Nat) (s : Bytes) :
    nextItem false (0x2C :: (spaces n ++ b :: s)) = .ok (.item (b :: s)) := by
  rw [nextItem, skipBlanks_cons rfl]
  dsimp only
  rw [if_neg (by decide), if_neg (by decide), if_pos rfl, skipBlanks_spaces n h.1]
  exact if_neg h.2

theorem items_stop {α : Type} (item : Reader α) {isFirst : Bool} {s rest : Bytes}
    (h : nextItem isFirst s = .ok (.stop rest)) : items item isFirst s = .ok ([], rest) := by
  rw [items]
  split <;> simp_all

theorem items_item {α : Type} {item : Reader α} {isFirst : Bool} {s r more rest : Bytes} {a : α}
    {l : List α} (hnext : nextItem isFirst s = .ok (.item r)) (hitem : item.run r = .ok (a, more))
    (hmore : items item false more = .ok (l, rest)) :
    items item isFirst s = .ok (a :: l, rest) := by
  rw [items]
  split
  · simp_all
  · simp_all
  · rename_i hnext'
    rw [hnext] at hnext'
    cases hnext'
    split
    · simp_all
    · rename_i hitem'
      rw [hitem] at hitem'
      cases hitem'
      rw [hmore]

section Array

variable {α : Type} {item : Reader α} {w : α → List Char} {layout : Layout}

theorem items_after (tidy : layout.Tidy) (h : ∀ a, Reads item (w a) a) (l : List α)
    (rest : Bytes) :
    items item false
      (Utf8.encode ((l.map w).flatMap (layout.comma ++ ·)) ++ 0x5D :: rest) = .ok (l, rest) := by
  obtain ⟨n, hcomma⟩ := tidy.comma_eq
  induction l with
  | nil => exact items_stop item (nextItem_close false rest)
  | cons a l ih =>
    obtain ⟨b, t, hbytes, hb⟩ := (h a).opening
    have hrun := (h a).run_eq 0 _
      (ended_after tidy (l.map w) (ended_of_head (.inr (.inl rfl)) rest))
    rw [hbytes] at hrun
    refine items_item ?_ hrun ih
    simp only [List.map_cons, List.flatMap_cons, Utf8.encode_append, hcomma, hbytes,
      List.cons_append, List.append_assoc]
    exact nextItem_comma hb n _

theorem items_first (tidy : layout.Tidy) (h : ∀ a, Reads item (w a) a) (l : List α)
    (rest : Bytes) :
    items item true (Utf8.encode (separated layout.comma (l.map w)) ++ 0x5D :: rest) =
      .ok (l, rest) := by
  cases l with
  | nil => exact items_stop item (nextItem_close true rest)
  | cons a l =>
    obtain ⟨b, t, hbytes, hb⟩ := (h a).opening
    have hrun := (h a).run_eq 0 _
      (ended_after tidy (l.map w) (ended_of_head (.inr (.inl rfl)) rest))
    rw [hbytes] at hrun
    refine items_item ?_ hrun (items_after tidy h l rest)
    simp only [List.map_cons, separated_cons, Utf8.encode_append, hbytes, List.cons_append,
      List.append_assoc]
    exact nextItem_first hb _

theorem reads_array (tidy : layout.Tidy) (h : ∀ a, Reads item (w a) a) (l : List α) :
    Reads (array item) (layout.array (l.map w)) l where
  opening := ⟨0x5B, _, rfl, rfl, by decide⟩
  run_eq n rest _ := by
    have hbytes : Utf8.encode (layout.array (l.map w)) ++ rest =
        0x5B :: (Utf8.encode (separated layout.comma (l.map w)) ++ 0x5D :: rest) := by
      rw [Layout.array, Utf8.encode_append, Utf8.encode_cons, List.append_assoc, List.append_assoc]
      rfl
    rw [hbytes]
    refine (firstOf_spaces n rfl _).trans ?_
    rw [arrayFrom, if_pos rfl]
    exact items_first tidy h l rest

end Array

/-! ## Members of objects -/

/-- What follows the opening quote of a member's name. -/
def memberAfter (layout : Layout) (name : String) (value : List Char) (s : Bytes) : Bytes :=
  Utf8.encode (name.toList.flatMap escaped) ++
    0x22 :: (Utf8.encode layout.colon ++ (Utf8.encode value ++ s))

theorem encode_member (layout : Layout) (name : String) (value : List Char) (s : Bytes) :
    Utf8.encode (layout.member name value) ++ s = 0x22 :: memberAfter layout name value s := by
  unfold Layout.member quoted memberAfter
  simp only [Utf8.encode_append, Utf8.encode_cons, Utf8.encode_nil, List.append_assoc]
  rfl

theorem stringText_memberAfter (layout : Layout) (name : String) (value : List Char) (s : Bytes) :
    stringText (memberAfter layout name value s) =
      .ok (name, Utf8.encode layout.colon ++ (Utf8.encode value ++ s)) :=
  stringText_quoted name _

theorem colon_spaces (n : Nat) (s : Bytes) :
    colon (0x3A :: (spaces n ++ s)) = .ok (spaces n ++ s) := by
  rw [colon, skipBlanks_cons rfl]
  rfl

theorem nextMember_close (isFirst : Bool) (s : Bytes) :
    nextMember isFirst (0x7D :: s) = .ok (.stop s) := by
  rw [nextMember, skipBlanks_cons rfl]
  rfl

theorem nextMember_first (s : Bytes) : nextMember true (0x22 :: s) = .ok (.item s) := by
  rw [nextMember, skipBlanks_cons rfl]
  rfl

theorem nextMember_comma (n : Nat) (s : Bytes) :
    nextMember false (0x2C :: (spaces n ++ 0x22 :: s)) = .ok (.item s) := by
  rw [nextMember, skipBlanks_cons rfl]
  dsimp only
  rw [if_neg (by decide), if_neg (by decide), if_pos rfl, skipBlanks_spaces n rfl]
  rfl

/-! ## Records -/

theorem textMember_memberAfter {layout : Layout} (tidy : layout.Tidy) (name value : String)
    {rest : Bytes} (hrest : Ended rest) :
    textMember (memberAfter layout name (quoted value.toList) rest) =
      .ok ((name, value), rest) := by
  obtain ⟨n, hcolon⟩ := tidy.colon_eq
  have hvalue := (reads_string value).run_eq n rest hrest
  rw [textMember, stringText_memberAfter]
  dsimp only
  rw [hcolon, List.cons_append, colon_spaces]
  dsimp only
  rw [hvalue]

theorem textMembers_stop {isFirst : Bool} {s rest : Bytes}
    (h : nextMember isFirst s = .ok (.stop rest)) : textMembers isFirst s = .ok ([], rest) := by
  rw [textMembers]
  split <;> simp_all

theorem textMembers_item {isFirst : Bool} {s r more rest : Bytes} {m : String × String}
    {l : List (String × String)} (hnext : nextMember isFirst s = .ok (.item r))
    (hmember : textMember r = .ok (m, more)) (hmore : textMembers false more = .ok (l, rest)) :
    textMembers isFirst s = .ok (m :: l, rest) := by
  rw [textMembers]
  split
  · simp_all
  · simp_all
  · rename_i hnext'
    rw [hnext] at hnext'
    cases hnext'
    split
    · simp_all
    · rename_i hmember'
      rw [hmember] at hmember'
      cases hmember'
      rw [hmore]

section Record

variable {layout : Layout}

def textOf (layout : Layout) (m : String × String) : List Char :=
  layout.member m.1 (quoted m.2.toList)

theorem textMembers_after (tidy : layout.Tidy) (l : List (String × String)) (rest : Bytes) :
    textMembers false
      (Utf8.encode ((l.map (textOf layout)).flatMap (layout.comma ++ ·)) ++ 0x7D :: rest) =
        .ok (l, rest) := by
  obtain ⟨n, hcomma⟩ := tidy.comma_eq
  induction l with
  | nil => exact textMembers_stop (nextMember_close false rest)
  | cons m l ih =>
    have hmember := textMember_memberAfter tidy m.1 m.2
      (ended_after tidy (l.map (textOf layout)) (ended_of_head (.inr (.inr rfl)) rest))
    refine textMembers_item ?_ hmember ih
    simp only [List.map_cons, List.flatMap_cons, Utf8.encode_append, hcomma, List.cons_append,
      List.append_assoc]
    rw [textOf, encode_member]
    exact nextMember_comma n _

theorem textMembers_first (tidy : layout.Tidy) (l : List (String × String)) (rest : Bytes) :
    textMembers true
      (Utf8.encode (separated layout.comma (l.map (textOf layout))) ++ 0x7D :: rest) =
        .ok (l, rest) := by
  cases l with
  | nil => exact textMembers_stop (nextMember_close true rest)
  | cons m l =>
    have hmember := textMember_memberAfter tidy m.1 m.2
      (ended_after tidy (l.map (textOf layout)) (ended_of_head (.inr (.inr rfl)) rest))
    refine textMembers_item ?_ hmember (textMembers_after tidy l rest)
    rw [List.map_cons, separated_cons, Utf8.encode_append, List.append_assoc, textOf, encode_member]
    exact nextMember_first _

/-- A record is read as it was, repeated names included. -/
theorem reads_record (tidy : layout.Tidy) (r : Record) : Reads record (r.json layout) r where
  opening := ⟨0x7B, _, rfl, rfl, by decide⟩
  run_eq n rest _ := by
    have hbytes : Utf8.encode (r.json layout) ++ rest =
        0x7B :: (Utf8.encode (separated layout.comma (r.fields.map (textOf layout))) ++
          0x7D :: rest) := by
      rw [Record.json, Layout.object, List.map_map, Utf8.encode_append, Utf8.encode_cons,
        List.append_assoc, List.append_assoc]
      rfl
    rw [hbytes]
    refine (firstOf_spaces n rfl _).trans ?_
    rw [recordFrom, if_pos rfl, textMembers_first tidy r.fields rest]

end Record

/-! ## Metadata -/

theorem slot_of_reads {α : Type} {reader : Reader α} {text : List Char} {a : α} {layout : Layout}
    (tidy : layout.Tidy) (h : Reads reader text a) (name : String) {rest : Bytes}
    (hrest : Ended rest) :
    slot name none reader (Utf8.encode layout.colon ++ (Utf8.encode text ++ rest)) =
      .ok (a, rest) := by
  obtain ⟨n, hcolon⟩ := tidy.colon_eq
  rw [slot, hcolon, List.cons_append, colon_spaces]
  exact h.run_eq n rest hrest

theorem draftMembers_stop (d : Draft) {isFirst : Bool} {s rest : Bytes}
    (h : nextMember isFirst s = .ok (.stop rest)) : draftMembers d isFirst s = .ok (d, rest) := by
  rw [draftMembers]
  split <;> simp_all

theorem draftMembers_item {d d' : Draft} {isFirst : Bool} {s r r' more : Bytes} {name : String}
    (hnext : nextMember isFirst s = .ok (.item r)) (hname : stringText r = .ok (name, r'))
    (htake : d.take name r' = .ok (d', more)) :
    draftMembers d isFirst s = draftMembers d' false more := by
  rw [draftMembers]
  split
  · simp_all
  · simp_all
  · rename_i hnext'
    rw [hnext] at hnext'
    cases hnext'
    split
    · simp_all
    · rename_i hname'
      rw [hname] at hname'
      cases hname'
      rw [htake]

section Metadata

variable {layout : Layout} {d d' : Draft} {name : String} {value : List Char} {rest : Bytes}

/-- The draft takes a member with this value. -/
def Takes (layout : Layout) (d : Draft) (name : String) (value : List Char) (d' : Draft) : Prop :=
  ∀ more, Ended more →
    d.take name (Utf8.encode layout.colon ++ (Utf8.encode value ++ more)) = .ok (d', more)

theorem draftMembers_first (tidy : layout.Tidy) (h : Takes layout d name value d')
    (texts : List (List Char)) (hrest : Ended rest) :
    draftMembers d true
      (Utf8.encode (separated layout.comma (layout.member name value :: texts)) ++ rest) =
        draftMembers d' false (Utf8.encode (texts.flatMap (layout.comma ++ ·)) ++ rest) := by
  rw [separated_cons, Utf8.encode_append, List.append_assoc, encode_member]
  exact draftMembers_item (nextMember_first _) (stringText_memberAfter layout name value _)
    (h _ (ended_after tidy texts hrest))

theorem draftMembers_after (tidy : layout.Tidy) (h : Takes layout d name value d')
    (texts : List (List Char)) (hrest : Ended rest) :
    draftMembers d false
      (Utf8.encode ((layout.member name value :: texts).flatMap (layout.comma ++ ·)) ++ rest) =
        draftMembers d' false (Utf8.encode (texts.flatMap (layout.comma ++ ·)) ++ rest) := by
  obtain ⟨n, hcomma⟩ := tidy.comma_eq
  rw [List.flatMap_cons, Utf8.encode_append, Utf8.encode_append, hcomma, List.append_assoc,
    List.append_assoc, encode_member]
  exact draftMembers_item (nextMember_comma n _) (stringText_memberAfter layout name value _)
    (h _ (ended_after tidy texts hrest))

theorem reads_strings (tidy : layout.Tidy) (fields : List String) :
    Reads (array string) (layout.strings fields) fields :=
  reads_array (w := fun v => quoted v.toList) tidy reads_string fields

theorem takes_totalLetters (tidy : layout.Tidy) (h : d.totalLetters = none) (n : UInt64) :
    Takes layout d "total_letters" (numeral n) { d with totalLetters := some n } := by
  intro more hmore
  rw [Draft.take, if_pos rfl, h, slot_of_reads tidy (reads_size n) _ hmore]
  rfl

theorem takes_chunks (tidy : layout.Tidy) (h : d.chunks = none) (n : UInt64) :
    Takes layout d "chunks" (numeral n) { d with chunks := some n } := by
  intro more hmore
  rw [Draft.take, if_neg (by decide), if_pos rfl, h, slot_of_reads tidy (reads_size n) _ hmore]
  rfl

theorem takes_chunkSize (tidy : layout.Tidy) (h : d.chunkSize = none) (n : UInt64) :
    Takes layout d "chunk_size" (numeral n) { d with chunkSize := some n } := by
  intro more hmore
  rw [Draft.take, if_neg (by decide), if_neg (by decide), if_pos rfl, h,
    slot_of_reads tidy (reads_size n) _ hmore]
  rfl

theorem takes_fields (tidy : layout.Tidy) (h : d.fields = none) (fields : List String) :
    Takes layout d "fields" (layout.strings fields) { d with fields := some fields } := by
  intro more hmore
  rw [Draft.take, if_neg (by decide), if_neg (by decide), if_neg (by decide), if_pos rfl, h,
    slot_of_reads tidy (reads_strings tidy fields) _ hmore]
  rfl

theorem metadataMembers_json (tidy : layout.Tidy) (m : Metadata) (rest : Bytes) :
    ∃ s, Utf8.encode (m.json layout) ++ rest = 0x7B :: s ∧ metadataMembers s = .ok (m, rest) := by
  have hclose : Ended (0x7D :: rest) := ended_of_head (.inr (.inr rfl)) rest
  refine ⟨Utf8.encode (separated layout.comma
    [layout.member "total_letters" (numeral m.totalLetters),
      layout.member "chunks" (numeral m.chunks),
      layout.member "chunk_size" (numeral m.chunkSize),
      layout.member "fields" (layout.strings m.fields)]) ++ 0x7D :: rest, ?_, ?_⟩
  · rw [Metadata.json, Layout.object, Utf8.encode_append, Utf8.encode_cons, List.append_assoc,
      List.append_assoc]
    rfl
  · rw [metadataMembers,
      draftMembers_first tidy (takes_totalLetters tidy rfl m.totalLetters) _ hclose,
      draftMembers_after tidy (takes_chunks tidy rfl m.chunks) _ hclose,
      draftMembers_after tidy (takes_chunkSize tidy rfl m.chunkSize) _ hclose,
      draftMembers_after tidy (takes_fields tidy rfl m.fields) _ hclose]
    rw [List.flatMap_nil, Utf8.encode_nil, List.nil_append,
      draftMembers_stop _ (nextMember_close false rest)]
    rfl

end Metadata

/-! ## Whole texts -/

theorem Reads.whole_eq {α : Type} {reader : Reader α} {text : List Char} {a : α}
    (h : Reads reader text a) : reader.whole (Utf8.encode text) = .ok a := by
  have hended : Ended [] := by
    intro b hb
    cases hb
  have hrun := h.run_eq 0 [] hended
  rw [List.append_nil, spaces, List.replicate_zero, List.nil_append] at hrun
  rw [Reader.whole, hrun]
  rfl

/-- A chunk file is read as the records it was written from. -/
theorem decodeRecords_encode (c : Chunk) : decodeRecords c.encode = .ok c.records :=
  (reads_array Layout.compact_tidy (reads_record Layout.compact_tidy) c.records).whole_eq

/-- Any list of records is read back from its chunk file, with its names and values in their order
and repeated names kept. So the chunk files of different lists differ. -/
theorem encode_faithful (c : Chunk) : decodeRecords c.encode = .ok c.records ∧
    ∀ d : Chunk, d.encode = c.encode ↔ d.records = c.records := by
  refine ⟨decodeRecords_encode c, ?_⟩
  intro d
  constructor
  · intro h
    have hd := decodeRecords_encode d
    rw [h, decodeRecords_encode c] at hd
    exact (Except.ok.inj hd).symm
  · intro h
    unfold Chunk.encode Chunk.json
    rw [h]

/-- Metadata is read back from either of its forms. -/
theorem decodeMetadata_json {layout : Layout} (tidy : layout.Tidy) (m : Metadata) :
    decodeMetadata (Utf8.encode (m.json layout)) = .ok m := by
  obtain ⟨s, hbytes, hmembers⟩ := metadataMembers_json tidy m []
  rw [List.append_nil] at hbytes
  rw [decodeMetadata, hbytes, skipBlanks_cons rfl]
  dsimp only
  rw [metadataFrom, if_pos rfl, hmembers]
  rfl

theorem decodeMetadata_encode (m : Metadata) : decodeMetadata m.encode = .ok m :=
  decodeMetadata_json Layout.spaced_tidy m

end LetterPages.Json
