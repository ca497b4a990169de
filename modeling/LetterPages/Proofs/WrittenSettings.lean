import LetterPages.Proofs.SpelledSettings

/-!
# A document for every assignment

Each setting can be written on a line of its own behind a key of two names, a string in escapes and
a number in hexadecimal digits. Such a document mentions no variable and spells the assignment, so
that what is said of spelled documents reaches all values the settings can have.
-/

namespace LetterPages

namespace Toml

/-! ## Digits and escapes -/

/-- The last digits of a number, in hexadecimal. -/
def hexDigits : Nat → Nat → List Nat
  | 0, _ => []
  | count + 1, n => hexDigits count (n / 16) ++ [n % 16]

def hexText (count n : Nat) : List Char :=
  (hexDigits count n).map Nat.digitChar

def escapedText (text : List Char) : List Char :=
  text.flatMap fun c => '\\' :: 'U' :: hexText 8 c.toNat

/-- A string or a whole number that is not negative. Nothing else is written. -/
def writtenValue : Value → List Char
  | .scalar (.string text) => '"' :: (escapedText text.toList ++ ['"'])
  | .scalar (.integer (some n)) => '0' :: 'x' :: hexText 16 n.toNat
  | _ => []

theorem length_hexText (count n : Nat) : (hexText count n).length = count := by
  induction count generalizing n with
  | zero => rfl
  | succ count ih => simpa [hexText, hexDigits] using ih (n / 16)

theorem forall_hexDigits (count n : Nat) : ∀ d ∈ hexDigits count n, d < 16 := by
  induction count generalizing n with
  | zero => rintro d ⟨⟩
  | succ count ih =>
    intro d hd
    rcases List.mem_append.mp hd with hd | hd
    · exact ih (n / 16) d hd
    · rw [List.mem_singleton.mp hd]
      omega

theorem isDigit_hexText (count n : Nat) :
    List.Forall₂ (IsDigit 16) (hexText count n) (hexDigits count n) := by
  rw [hexText, List.forall₂_map_left_iff, List.forall₂_same]
  exact fun d hd => ⟨forall_hexDigits count n d hd, .inl rfl⟩

theorem ofDigits_hexDigits {count n : Nat} (h : n < Nat.pow 16 count) :
    ofDigits 16 (hexDigits count n) = n := by
  induction count generalizing n with
  | zero => exact (Nat.lt_one_iff.mp h).symm
  | succ count ih =>
    have hlast : ofDigits 16 (hexDigits (count + 1) n) =
        ofDigits 16 (hexDigits count (n / 16)) * 16 + n % 16 := by
      simp [ofDigits, hexDigits]
    rw [hlast, ih (Nat.div_lt_of_lt_mul (Nat.mul_comm 16 _ ▸ h))]
    omega

theorem spellsDigits_of_forall₂ {radix : Nat} {s : List Char} {ds : List Nat} (hne : s ≠ [])
    (h : List.Forall₂ (IsDigit radix) s ds) : SpellsDigits radix s ds := by
  induction h with
  | nil => exact absurd rfl hne
  | @cons c d s ds hc hrest ih =>
    cases hrest with
    | nil => exact .single hc
    | cons hd hrest => exact .cons hc (ih (List.cons_ne_nil _ _))

theorem spellsText_escaped (text : List Char) : SpellsText (escapedText text) text := by
  induction text with
  | nil => exact .nil
  | cons c text ih =>
    have hlimit : c.toNat < Nat.pow 16 8 := by
      have hvalid : c.toNat.isValidChar := c.valid
      rw [Nat.isValidChar] at hvalid
      change c.toNat < 4294967296
      omega
    have hcode : SpellsEscape ('U' :: hexText 8 c.toNat) c :=
      .code (by simp [length_hexText]) (isDigit_hexText 8 c.toNat) (ofDigits_hexDigits hlimit)
    exact .escape hcode ih

theorem spellsScalar_string (text : String) :
    SpellsScalar (writtenValue (.scalar (.string text))) (.string text) := by
  have hstring := SpellsScalar.string (.basic (spellsText_escaped text.toList))
  rwa [String.ofList_toList] at hstring

theorem spellsScalar_hex {count n : Nat} (h : n < Nat.pow 16 count) (hcount : 0 < count) :
    SpellsScalar ('0' :: 'x' :: hexText count n) (.integer (some n)) := by
  have hne : hexText count n ≠ [] := by
    rwa [← List.length_pos_iff, length_hexText]
  have hdigits := spellsDigits_of_forall₂ hne (isDigit_hexText count n)
  have hmark : ('x', 16) ∈ [('x', 16), ('o', 8), ('b', 2)] := by simp
  have hnumber := SpellsInteger.marked hmark hdigits
  rw [ofDigits_hexDigits h] at hnumber
  exact .integer hnumber

theorem isBare_of_mem_hexText {count n : Nat} {c : Char} (h : c ∈ hexText count n) :
    isBare c = true := by
  have hall : ∀ d : Fin 16, isBare (Nat.digitChar d) = true := by decide
  obtain ⟨d, hd, rfl⟩ := List.mem_map.mp h
  exact hall ⟨d, forall_hexDigits count n d hd⟩

theorem isBare_or_mem_writtenValue {v : Value} {c : Char} (h : c ∈ writtenValue v) :
    isBare c = true ∨ c ∈ ['"', '\\'] := by
  unfold writtenValue at h
  split at h
  · simp only [escapedText, List.mem_cons, List.mem_append, List.mem_flatMap, List.not_mem_nil,
      or_false] at h
    rcases h with rfl | ⟨d, -, rfl | rfl | h⟩ | rfl
    · exact .inr (by simp)
    · exact .inr (by simp)
    · exact .inl (by decide)
    · exact .inl (isBare_of_mem_hexText h)
    · exact .inr (by simp)
  · simp only [List.mem_cons] at h
    rcases h with rfl | rfl | h
    · exact .inl (by decide)
    · exact .inl (by decide)
    · exact .inl (isBare_of_mem_hexText h)
  · cases h

end Toml

namespace Settings

open Toml (Outline Statement SpellsDocument Value IsBareName)

/-! ## Lines -/

namespace Setting

def key (k : Setting) : Toml.Key :=
  ⟨[k.sectionName], k.name⟩

/-- The line that gives the setting what is written. -/
def line (k : Setting) (x : List Char) : List Char :=
  k.sectionName.toList ++ '.' :: (k.name.toList ++ '=' :: (x ++ ['\n']))

theorem isBareName (k : Setting) : IsBareName k.sectionName ∧ IsBareName k.name := by
  rcases k with (_ | _ | _ | _) | _ <;> decide

theorem spellsDocument_line (k : Setting) {x : List Char} {v : Value} (hx : Toml.SpellsLeaf x v)
    {r : List Char} {l : List Statement} (hrest : SpellsDocument r l) :
    SpellsDocument (k.line x ++ r) (.pair k.key v :: l) := by
  obtain ⟨hsection, hname⟩ := k.isBareName
  have hkey := Toml.spellsKey_dotted hsection (Toml.spellsKey_bare hname)
  have hvalue : Toml.SpellsValue Toml.limit x v := .leaf hx
  have hlimit : 1 < Toml.limit := by decide
  have hline := SpellsDocument.line (.pair (.tight hkey hlimit hvalue)) hrest
  simpa [Setting.line, Setting.key] using hline

end Setting

namespace Assignment

variable (a : Assignment)

def entries : List (Setting × Value) :=
  Setting.all.flatMap fun k => (a.value? k).toList.map (Prod.mk k)

def written : List Char :=
  a.entries.flatMap fun e => e.1.line (Toml.writtenValue e.2)

variable {a}

theorem value?_of_mem {e : Setting × Value} (h : e ∈ a.entries) : a.value? e.1 = some e.2 := by
  obtain ⟨k, -, hk⟩ := List.mem_flatMap.mp h
  obtain ⟨v, hv, rfl⟩ := List.mem_map.mp hk
  exact Option.mem_toList.mp hv

theorem spellsLeaf_value {k : Setting} {v : Value} (h : a.value? k = some v) :
    Toml.SpellsLeaf (Toml.writtenValue v) v := by
  rcases value?_eq_some h with ⟨text, rfl⟩ | ⟨size, rfl⟩
  · exact .scalar (Toml.spellsScalar_string text)
  · exact .scalar (Toml.spellsScalar_hex size.toNat_lt (by decide))

theorem spellsDocument_lines {l : List (Setting × Value)}
    (h : ∀ e ∈ l, a.value? e.1 = some e.2) :
    SpellsDocument (l.flatMap fun e => e.1.line (Toml.writtenValue e.2))
      (l.map fun e => .pair e.1.key e.2) := by
  induction l with
  | nil => exact .done Toml.isGap_nil .nil
  | cons e l ih =>
    obtain ⟨he, hl⟩ := List.forall_mem_cons.mp h
    exact e.1.spellsDocument_line (spellsLeaf_value he) (ih hl)

/-! ## What the lines assign -/

def pairs (l : List (Setting × Value)) : Outline :=
  ⟨l.map fun e => (e.1.key, e.2), []⟩

theorem ofStatements_pairs (l : List (Setting × Value)) :
    Outline.ofStatements (l.map fun e => .pair e.1.key e.2) = pairs l := by
  induction l with
  | nil => rfl
  | cons e l ih => rw [List.map_cons, Outline.ofStatements, ih]; rfl

theorem without_pairs (l : List (Setting × Value)) : (pairs l).without isSetting = ⟨[], []⟩ := by
  have hnone : ∀ p ∈ (pairs l).pairs, Toml.other? isSetting p = none := by
    intro p hp
    obtain ⟨⟨k, v⟩, -, rfl⟩ := List.mem_map.mp hp
    exact if_pos (isSetting_iff.mpr ⟨k, rfl, rfl⟩)
  rw [Outline.without, List.filterMap_eq_nil_iff.mpr hnone, pairs, List.map_nil]

variable (a)

theorem pairValues_key (j k : Setting) (v : Value) :
    Toml.pairValues k.sectionName k.name (j.key, v) = if j = k then [v] else [] := by
  rcases j with (_ | _ | _ | _) | _ <;> rcases k with (_ | _ | _ | _) | _ <;> rfl

theorem values_pairs (k : Setting) :
    (pairs a.entries).values k.sectionName k.name = (a.value? k).toList := by
  have hone : ∀ j, (a.value? j).toList.flatMap (fun v => if j = k then [v] else []) =
      if j = k then (a.value? j).toList else [] := by
    intro j
    split <;> simp
  have hall : Setting.all.flatMap (fun j => if j = k then (a.value? j).toList else []) =
      (a.value? k).toList := by
    rcases k with (_ | _ | _ | _) | _ <;> simp [Setting.all]
  rw [Outline.values, pairs, entries, List.flatMap_map, List.flatMap_assoc, List.flatMap_nil,
    List.append_nil]
  simpa only [List.flatMap_map, pairValues_key, hone] using hall

theorem assigns_pairs : Assigns (pairs a.entries) a where
  values := a.values_pairs
  uniform := by
    constructor
    · intro name v hmem
      obtain ⟨e, -, heq⟩ := List.mem_map.mp hmem
      cases heq
    · rintro s ⟨⟩
  outside := by
    rw [without_pairs]
    constructor <;> rintro _ ⟨⟩
  rest := by
    rw [without_pairs]
    exact ⟨[], rfl, rfl⟩

/-! ## Reading the lines -/

theorem isBare_or_mem_line {k : Setting} {v : Value} {c : Char}
    (h : c ∈ k.line (Toml.writtenValue v)) :
    Toml.isBare c = true ∨ c ∈ ['.', '=', '\n', '"', '\\'] := by
  obtain ⟨hsection, hname⟩ := k.isBareName
  simp only [Setting.line, List.mem_append, List.mem_cons, List.not_mem_nil, or_false] at h
  rcases h with h | rfl | h | rfl | h | rfl
  · exact .inl (List.all_eq_true.mp hsection.2 c h)
  · exact .inr (by simp)
  · exact .inl (List.all_eq_true.mp hname.2 c h)
  · exact .inr (by simp)
  · exact (Toml.isBare_or_mem_writtenValue h).imp_right fun h => by simp_all
  · exact .inr (by simp)

theorem ne_of_mem_written {c : Char} (h : c ∈ a.written) : c ≠ '$' ∧ c ≠ '\uFEFF' := by
  obtain ⟨e, -, hc⟩ := List.mem_flatMap.mp h
  have hmarks : ∀ c ∈ ['$', '\uFEFF'],
      Toml.isBare c = false ∧ c ∉ ['.', '=', '\n', '"', '\\'] := forall_of_all (by decide)
  have hnot : c ∉ ['$', '\uFEFF'] := by
    intro hmem
    obtain ⟨hbare, hmark⟩ := hmarks c hmem
    rcases isBare_or_mem_line hc with h | h
    · cases hbare.symm.trans h
    · exact hmark h
  simpa using hnot

theorem references_written : Environment.references a.written = [] := by
  rw [List.eq_nil_iff_forall_not_mem]
  intro name hname
  have hmem : '$' ∈ a.written :=
    (Environment.written_infix_of_mem hname).subset (by simp [Environment.written])
  exact (a.ne_of_mem_written hmem).1 rfl

theorem withoutMark_written : Toml.withoutMark a.written = a.written := by
  refine if_neg fun hhead => ?_
  exact (a.ne_of_mem_written (List.mem_of_mem_head? hhead)).2 rfl

theorem exists_spelled : ∃ text l, SpellsDocument (Toml.withoutMark text) l ∧
    Environment.references text = [] ∧ Assigns (Outline.ofStatements l) a := by
  have hentries : ∀ e ∈ a.entries, a.value? e.1 = some e.2 := fun _ => value?_of_mem
  have htext := spellsDocument_lines hentries
  rw [← written, ← a.withoutMark_written] at htext
  refine ⟨a.written, _, htext, a.references_written, ?_⟩
  rw [ofStatements_pairs]
  exact a.assigns_pairs

end Assignment

/-- A line by itself, on which the setting may be given anything without items. -/
theorem Setting.spells_line (k : Setting) {x : List Char} {n : Toml.Scalar}
    (h : Toml.SpellsScalar x n) :
    SpellsDocument (Toml.withoutMark (k.line x)) [.pair k.key (.scalar n)] := by
  have hline := k.spellsDocument_line (.scalar h) (.done Toml.isGap_nil .nil)
  have hmark : Toml.withoutMark (k.line x) = k.line x := by
    rcases k with (_ | _ | _ | _) | _ <;> rfl
  rwa [List.append_nil, List.append_nil, ← hmark] at hline

section

open Toml

def lines : List String → List Char
  | [] => []
  | line :: rest => line.toList ++ '\n' :: lines rest

def mixedText : List Char :=
  lines ["load=\x7boutput_dir=\"\\xE9\"\x7d", "[chunking]", "chunk_size=0x1_0", "[other]",
    "since=2024-02-29 12:30Z", "ratio=-1_0.5e3", "plain=true",
    "note=\"\"\"\na\"b\\\n  c\"\"\""]

def mixedStatements : List Statement :=
  [.pair ⟨[], "load"⟩ (.table [(⟨[], "output_dir"⟩, .scalar (.string "é"))]),
    .header ⟨[], "chunking"⟩, .pair ⟨[], "chunk_size"⟩ (.scalar (.integer (some 16))),
    .header ⟨[], "other"⟩, .pair ⟨[], "since"⟩ (.scalar .moment),
    .pair ⟨[], "ratio"⟩ (.scalar (.fraction true)),
    .pair ⟨[], "plain"⟩ (.scalar (.boolean true)),
    .pair ⟨[], "note"⟩ (.scalar (.string "a\"bc"))]

theorem spells_moment : SpellsScalar "2024-02-29 12:30Z".toList .moment := by
  have hdate : SpellsDate "2024-02-29".toList :=
    .mk (spellsTwo (n := 20) (by decide)) (spellsTwo (n := 24) (by decide))
      (spellsTwo (n := 2) (by decide)) (spellsTwo (n := 29) (by decide)) (by decide) (by decide)
  have htime : SpellsTime "12:30".toList :=
    .mk (spellsTwo (n := 12) (by decide)) (spellsTwo (n := 30) (by decide)) (by decide)
      (by decide) .none
  have hjoint : ' ' ∈ ['T', 't', ' '] := by simp
  exact .moment (.both hdate hjoint htime (.zulu (.inl rfl)))

theorem spells_ratio : SpellsScalar "-1_0.5e3".toList (.fraction true) := by
  have hwhole : SpellsDigits 10 ['1', '_', '0'] [1, 0] :=
    .underscore (by decide) (.single (by decide))
  have hplaces : SpellsPlaces ['.', '5'] [5] := .point (.single (by decide))
  have hthree : SpellsDigits 10 ['3'] [3] := .single (by decide)
  have hexponent : SpellsExponent ['e', '3'] 3 := .marked (.inl rfl) .none hthree
  have hsign : IsSign ['-'] := by simp [IsSign]
  have hdecimal := SpellsDecimal.mk hwhole (by decide) hplaces hexponent (by decide)
  refine .fraction (.decimal hsign hdecimal (iff_of_true rfl (lt_of_lt_of_le ?_ Binary64.le_limit)))
  norm_num [ofDigits]

theorem spells_note : SpellsScalar "\"\"\"\na\"b\\\n  c\"\"\"".toList (.string "a\"bc") := by
  have hplain : ∀ {c : Char}, isPlain c = true → c ≠ '"' ∧ c ≠ '\\' → SpellsPiece '"' [c] [c] :=
    fun hplain hc => .plain hplain hc.1 fun _ => hc.2
  have htail : SpellsLong '"' ['c'] ['c'] :=
    .piece (n := 0) (by decide) (hplain rfl (by decide)) (.marks (n := 0) (by decide))
  have hbreak : IsBreak ['\n'] := .lineFeed
  have hblanks : IsLines [' ', ' '] := .blank rfl (.blank rfl .nil)
  have hnext : ∀ c ∈ ['c'].head?, EndsLines c := by
    rintro c ⟨⟩
    decide
  have hfolded : SpellsLong '"' "\\\n  c".toList ['c'] :=
    .continuation (n := 0) (by decide) rfl isBlanks_nil hbreak hblanks hnext htail
  have hquoted : SpellsLong '"' "\"b\\\n  c".toList "\"bc".toList :=
    .piece (n := 1) (by decide) (hplain rfl (by decide)) hfolded
  have hlong : SpellsLong '"' "a\"b\\\n  c".toList "a\"bc".toList :=
    .piece (n := 0) (by decide) (hplain rfl (by decide)) hquoted
  exact .longString (.mk (.inl rfl) (.inl hbreak) hlong)

theorem spells_mixed : SpellsDocument (withoutMark mixedText) mixedStatements := by
  have hcode : List.Forall₂ (IsDigit 16) ['E', '9'] [14, 9] :=
    .cons (by decide) (.cons (by decide) .nil)
  have hletter : SpellsEscape ['x', 'E', '9'] 'é' := .code (by decide) hcode (by decide)
  have htext : SpellsScalar "\"\\xE9\"".toList (.string "é") :=
    .string (.basic (.escape hletter .nil))
  have hdigits : SpellsDigits 16 ['1', '_', '0'] [1, 0] :=
    .underscore (by decide) (.single (by decide))
  have hnumber : SpellsScalar "0x1_0".toList (.integer (some 16)) :=
    .integer (.marked (by decide) hdigits)
  have hvalue : SpellsValue 79 _ _ := .leaf (.scalar htext)
  have hkey : ∀ name, IsBareName name → SpellsKey name.toList ⟨[], name⟩ :=
    fun _ => spellsKey_bare
  have hmember : SpellsPair .free (SpellsValue 79) _ _ :=
    .tight (hkey "output_dir" (by decide)) (by decide) hvalue
  have hload := SpellsStatement.pair (.tight (hkey "load" (by decide)) (by decide)
    (.table (.last isGap_nil hmember isGap_nil)))
  have hheader : ∀ name, IsBareName name →
      SpellsStatement ('[' :: (name.toList ++ [']'])) (.header ⟨[], name⟩) :=
    fun name h => .header (hkey name h) (Nat.zero_lt_succ 79) isBlanks_nil isBlanks_nil
  have hpair : ∀ name x n, IsBareName name → SpellsScalar x n →
      SpellsStatement (name.toList ++ '=' :: x) (.pair ⟨[], name⟩ (.scalar n)) :=
    fun name _ _ h hx => .pair (.tight (hkey name h) (Nat.zero_lt_succ 79) (.leaf (.scalar hx)))
  have hmark : withoutMark mixedText = mixedText := if_neg (by decide)
  rw [hmark]
  refine .line hload (.line (hheader "chunking" (by decide))
    (.line (hpair "chunk_size" _ _ (by decide) hnumber)
      (.line (hheader "other" (by decide)) ?_)))
  exact .line (hpair "since" _ _ (by decide) spells_moment)
    (.line (hpair "ratio" _ _ (by decide) spells_ratio)
      (.line (hpair "plain" _ _ (by decide) (.boolean true))
        (.line (hpair "note" _ _ (by decide) spells_note) (.done isGap_nil .nil))))

theorem assigns_mixed : Assigns (Outline.ofStatements mixedStatements)
    ⟨fun k => if k = .outputDir then some "é" else none, some 16⟩ where
  values k := by rcases k with (_ | _ | _ | _) | _ <;> rfl
  uniform := by
    constructor <;>
      (rintro _ _ _ ⟨_, _, _, hmem⟩
       simp [mixedStatements, Outline.ofStatements] at hmem)
  outside := by
    constructor
    · rintro p hp
      simp only [mixedStatements, Outline.ofStatements, Outline.without, List.filterMap_cons,
        List.filterMap_nil, other?, List.mem_singleton] at hp
      subst hp
      exact fun _ => ⟨_, rfl, by decide⟩
    · rintro s hs
      simp only [mixedStatements, Outline.ofStatements, Outline.without, List.map_cons,
        List.map_nil, List.mem_cons, List.not_mem_nil, or_false] at hs
      rcases hs with rfl | rfl <;> exact fun _ => ⟨rfl, by decide⟩
  rest := ⟨_, rfl, by decide⟩

/-- A negative number, the first one that no 64-bit word holds, a fraction and a string. -/
theorem spells_noSize : ∀ x ∈ ["-1", "0x10000000000000000", "-1_0.5e3", "\"16\""],
    ∃ n, SpellsScalar x.toList n ∧ IsNoSize n := by
  have hone : SpellsDigits 10 ['1'] [1] := .single (by decide)
  have hnegative : SpellsScalar "-1".toList (.integer (some (-1))) :=
    .integer (.decimal .minus hone (by decide))
  have hlarge : SpellsScalar ('0' :: 'x' :: hexText 17 UInt64.size)
      (.integer (some UInt64.size)) :=
    spellsScalar_hex (by decide) (by decide)
  have hstring : SpellsScalar "\"16\"".toList (.string "16") :=
    .string (.basic (.verbatim (by decide) (.verbatim (by decide) .nil)))
  intro x hx
  simp only [List.mem_cons, List.not_mem_nil, or_false] at hx
  rcases hx with rfl | rfl | rfl | rfl
  · exact ⟨_, hnegative, .negative (by decide)⟩
  · exact ⟨_, hlarge, .tooLarge (Int.le_refl _)⟩
  · exact ⟨_, spells_ratio, .fraction true⟩
  · exact ⟨_, hstring, .string "16"⟩

end

end Settings

end LetterPages
