import LetterPages.Proofs.References
import LetterPages.Proofs.TextSettings

/-!
# Values from the environment

A setting that is text can be given a variable's value by a basic string that holds nothing but a
reference to it. The reference is replaced before the text is read, so the value is taken as it is
when each of its characters stands for itself in a basic string.
-/

namespace LetterPages.Settings

variable {k : TextSetting} {x y : List Char}

/-! ## Another text in a settings text -/

theorem ofToml_replace {pre post : List Char} {s : Settings} (hx : ∀ c ∈ x, Toml.IsVerbatim c)
    (hne : x ≠ []) (hy : ∀ c ∈ y, Toml.IsVerbatim c)
    (hplace : Toml.MemberAt k.sectionName k.name k.index
      (Toml.withoutMark (pre ++ '"' :: (x ++ '"' :: post))) ('"' :: (x ++ '"' :: post)))
    (h : ofToml (pre ++ '"' :: (x ++ '"' :: post)) = .ok s) :
    ofToml (pre ++ '"' :: (y ++ '"' :: post)) = .ok (k.put (String.ofList y) s) := by
  obtain ⟨l, t, hl, ht, hs⟩ := ofToml_eq_ok_iff.mp h
  have hstep : Toml.InStep (x ++ '"' :: post) (y ++ '"' :: post)
      (Toml.withoutMark (pre ++ '"' :: (x ++ '"' :: post)))
      (Toml.withoutMark (pre ++ '"' :: (y ++ '"' :: post))) :=
    (Toml.InStep.quote.append pre).withoutMark
  obtain ⟨before, key, v, v', after, rfl, hl', hgives⟩ := hplace.replace hx hne hy hstep hl
  obtain ⟨n, m, path, u, hstands, hu, haltered⟩ := Toml.root_altered hgives ht
  obtain ⟨z, hz⟩ := k.exists_put_standard
  have hs' := visit_sections (z := z) hstands haltered hs
  rw [hz] at hs'
  exact ofToml_eq_ok_iff.mpr ⟨_, u, hl', hu, hs'⟩

/-! ## A reference as the whole of a string -/

theorem isVerbatim_of_isNamePart {c : Char} (h : Environment.isNamePart c = true) :
    Toml.IsVerbatim c := by
  refine ⟨?_, ?_, ?_⟩
  · simp only [Environment.isNamePart, Environment.isNameStart, Bool.or_eq_true, Bool.and_eq_true,
      decide_eq_true_eq, beq_iff_eq] at h
    have hle : ' ' ≤ c := by
      rcases h with ((⟨hc, -⟩ | ⟨hc, -⟩) | rfl) | ⟨hc, -⟩
      · exact Char.le_trans (by decide) hc
      · exact Char.le_trans (by decide) hc
      · decide
      · exact Char.le_trans (by decide) hc
    have hne : c ≠ '\x7f' := by
      rintro rfl
      revert h
      decide
    simp [Toml.isPlain, hle, hne]
  · rintro rfl
    cases h
  · rintro rfl
    cases h

theorem isVerbatim_written {name : List Char} (h : Environment.IsName name) :
    ∀ c ∈ Environment.written name, Toml.IsVerbatim c := by
  obtain ⟨first, rest, rfl, hfirst, hrest⟩ := h
  have hfirst : Toml.IsVerbatim first :=
    isVerbatim_of_isNamePart (by rw [Environment.isNamePart, hfirst]; rfl)
  simp only [Environment.written, List.cons_append, List.nil_append, List.mem_cons,
    List.mem_append, List.not_mem_nil, or_false]
  rintro c (rfl | rfl | rfl | hc | rfl)
  · decide
  · decide
  · exact hfirst
  · exact isVerbatim_of_isNamePart (hrest c hc)
  · decide

/-- The basic string that refers to the variable, and what follows it. -/
def quotedReference (name : String) (post : List Char) : List Char :=
  '"' :: (Environment.written name.toList ++ '"' :: post)

def referring (name : String) (pre post : List Char) : List Char :=
  pre ++ quotedReference name post

theorem expand_referring {name : String} (hname : Environment.IsName name.toList) (env : Environment)
    (pre post : List Char) :
    env.expand (referring name pre post) =
      env.expand pre ++ '"' :: ((env.text? name.toList).getD (Environment.written name.toList) ++
        '"' :: env.expand post) := by
  have hpost : env.expand ('"' :: post) = '"' :: env.expand post := by simp [Environment.expand]
  rw [referring, quotedReference, Environment.expand_append_quote, Environment.expand_written env hname, hpost]

/-- A text whose string at the reference is the value of the setting, where the variable is not
mentioned before or after it. -/
structure Refers (env : Environment) (k : TextSetting) (name : String) (pre post : List Char) :
    Prop where
  before : ¬ Environment.written name.toList <:+: pre
  after : ¬ Environment.written name.toList <:+: post
  place : Toml.MemberAt k.sectionName k.name k.index
    (Toml.withoutMark (env.expand (referring name pre post)))
    (quotedReference name (env.expand post))

section

variable {path : Path} {env : Environment} {name value : String} {pre post : List Char}
  {s : Settings}

theorem expand_referring_unset (hname : Environment.IsName name.toList)
    (hunset : env.bindings.lookup name = none) (pre post : List Char) :
    env.expand (referring name pre post) = referring name (env.expand pre) (env.expand post) := by
  rw [expand_referring hname, Environment.text?_of_unset hunset]
  rfl

theorem Refers.replace {y : List Char} (hname : Environment.IsName name.toList)
    (hunset : env.bindings.lookup name = none) (hrefers : Refers env k name pre post)
    (h : ofText path env (referring name pre post) = .ok s) (hy : ∀ c ∈ y, Toml.IsVerbatim c) :
    ofToml (env.expand pre ++ '"' :: (y ++ '"' :: env.expand post)) =
      .ok (k.put (String.ofList y) s) := by
  have hplace := hrefers.place
  rw [ofText_eq_ok_iff, expand_referring_unset hname hunset] at h
  rw [expand_referring_unset hname hunset] at hplace
  exact ofToml_replace (isVerbatim_written hname) (by simp [Environment.written]) hy hplace h

/-- While the variable is unset, the setting is the reference as written. -/
theorem ofText_unset (hname : Environment.IsName name.toList)
    (hunset : env.bindings.lookup name = none) (hrefers : Refers env k name pre post)
    (h : ofText path env (referring name pre post) = .ok s) :
    k.put (String.ofList (Environment.written name.toList)) s = s := by
  have hsame := hrefers.replace hname hunset h (isVerbatim_written hname)
  rw [ofText_eq_ok_iff, expand_referring_unset hname hunset, referring, quotedReference] at h
  rw [h] at hsame
  exact (Except.ok.inj hsame).symm

/-- Once the variable is set, the setting is its value, if every character of the value stands for
itself in a basic string. All else that the text sets stays as it is while the variable is unset. -/
theorem ofText_set (hname : Environment.IsName name.toList)
    (hunset : env.bindings.lookup name = none) (hvalue : ∀ c ∈ value.toList, Toml.IsVerbatim c)
    (hrefers : Refers env k name pre post)
    (h : ofText path env (referring name pre post) = .ok s) :
    ofText path (env.set name value) (referring name pre post) = .ok (k.put value s) := by
  have hnew := hrefers.replace hname hunset h hvalue
  rw [ofText_eq_ok_iff, expand_referring hname, Environment.text?_set_self, Option.getD_some,
    Environment.expand_set hrefers.before, Environment.expand_set hrefers.after]
  rwa [String.ofList_toList] at hnew

end

/-- A text that sets the input path to the variable. -/
def pathText (name : String) : List Char :=
  referring name "[source]\ninput_path = ".toList "\n".toList

theorem refers_pathText {name : String} (h : name = "DIR" ∨ name = "A-B") :
    Refers .empty .inputPath name "[source]\ninput_path = ".toList "\n".toList := by
  have hpost : Environment.empty.expand "\n".toList = "\n".toList := by decide +kernel
  have htext : Toml.skipGap (Toml.withoutMark (Environment.empty.expand (pathText name))) =
      '[' :: ("source]\ninput_path = ".toList ++ quotedReference name "\n".toList) := by
    rcases h with rfl | rfl <;> decide +kernel
  have hheader : Toml.headerKey
      ("source]\ninput_path = ".toList ++ quotedReference name "\n".toList) =
      some (⟨[], "source"⟩, "\ninput_path = ".toList ++ quotedReference name "\n".toList) := by
    rcases h with rfl | rfl <;> decide +kernel
  have hline : Toml.lineEnd ("\ninput_path = ".toList ++ quotedReference name "\n".toList) =
      some ("input_path = ".toList ++ quotedReference name "\n".toList) := by
    rcases h with rfl | rfl <;> decide +kernel
  have hgap : Toml.skipGap ("input_path = ".toList ++ quotedReference name "\n".toList) =
      "input_path = ".toList ++ quotedReference name "\n".toList := by
    rcases h with rfl | rfl <;> decide +kernel
  have hkey : Toml.key ("input_path = ".toList ++ quotedReference name "\n".toList) =
      some (⟨[], "input_path"⟩, " = ".toList ++ quotedReference name "\n".toList) := by
    rcases h with rfl | rfl <;> decide +kernel
  have hsingle : ("source]\ninput_path = ".toList ++
      quotedReference name "\n".toList).head? ≠ some '[' := by
    rcases h with rfl | rfl <;> decide +kernel
  have hequals : Toml.Spacing.line.skip (" = ".toList ++ quotedReference name "\n".toList) =
      '=' :: ' ' :: quotedReference name "\n".toList := by
    rcases h with rfl | rfl <;> decide +kernel
  have hvalue : Toml.Spacing.line.skip (' ' :: quotedReference name "\n".toList) =
      quotedReference name "\n".toList := by
    rcases h with rfl | rfl <;> decide +kernel
  refine ⟨by rcases h with rfl | rfl <;> decide +kernel, by rcases h with rfl | rfl <;> decide +kernel, ?_⟩
  rw [hpost]
  exact .of_header htext hsingle hheader hline hgap ⟨_, _, hkey, hequals, hvalue⟩

theorem ofText_set_relative_path :
    Environment.IsName "DIR".toList ∧ Environment.empty.bindings.lookup "DIR" = none ∧
      (∀ c ∈ "imports/letters.csv".toList, Toml.IsVerbatim c) ∧
      Refers .empty .inputPath "DIR" "[source]\ninput_path = ".toList "\n".toList ∧
      ofText inlinePath .empty (pathText "DIR") =
        .ok (TextSetting.inputPath.put "$\x7bDIR\x7d" standard) ∧
      ofText inlinePath (Environment.empty.set "DIR" "imports/letters.csv") (pathText "DIR") =
        .ok (TextSetting.inputPath.put "imports/letters.csv"
          (TextSetting.inputPath.put "$\x7bDIR\x7d" standard)) := by
  have hname : Environment.IsName "DIR".toList :=
    ⟨'D', ['I', 'R'], by decide +kernel, by decide, List.all_eq_true.mp (by decide)⟩
  have hall : "imports/letters.csv".toList.all (fun c => decide (Toml.IsVerbatim c)) = true := by
    decide +kernel
  have hvalue : ∀ c ∈ "imports/letters.csv".toList, Toml.IsVerbatim c := fun c hc =>
    of_decide_eq_true (List.all_eq_true.mp hall c hc)
  have hrefers := refers_pathText (.inl rfl)
  have haccepted : ofText inlinePath .empty (pathText "DIR") =
      .ok (TextSetting.inputPath.put "$\x7bDIR\x7d" standard) :=
    ofText_eq_ok_iff.mpr (by decide +kernel)
  exact ⟨hname, rfl, hvalue, hrefers, haccepted, ofText_set hname rfl hvalue hrefers haccepted⟩

/-- The value is read as TOML: a backslash begins an escape, a quote ends the string, and a line
break may not stand in it. Braces around anything but a name are no reference. -/
theorem ofText_set_misread :
    (Refers .empty .inputPath "DIR" "[source]\ninput_path = ".toList "\n".toList ∧
      ofText inlinePath .empty (pathText "DIR") =
        .ok (TextSetting.inputPath.put "$\x7bDIR\x7d" standard) ∧
      ∀ value ∈ ["C:\\temp", "a\"b", "a\nb"],
        ofText inlinePath (Environment.empty.set "DIR" value) (pathText "DIR") ≠
          .ok (TextSetting.inputPath.put value
            (TextSetting.inputPath.put "$\x7bDIR\x7d" standard))) ∧
    (Refers .empty .inputPath "A-B" "[source]\ninput_path = ".toList "\n".toList ∧
      ofText inlinePath .empty (pathText "A-B") =
        .ok (TextSetting.inputPath.put "$\x7bA-B\x7d" standard) ∧
      ofText inlinePath (Environment.empty.set "A-B" "letters.csv") (pathText "A-B") ≠
        .ok (TextSetting.inputPath.put "letters.csv"
          (TextSetting.inputPath.put "$\x7bA-B\x7d" standard))) := by
  refine ⟨⟨refers_pathText (.inl rfl), ?_, ?_⟩, refers_pathText (.inr rfl), ?_, ?_⟩
  · exact ofText_eq_ok_iff.mpr (by decide +kernel)
  · simp only [ne_eq, ofText_eq_ok_iff]
    decide +kernel
  · exact ofText_eq_ok_iff.mpr (by decide +kernel)
  · rw [ne_eq, ofText_eq_ok_iff]
    decide +kernel

end LetterPages.Settings
