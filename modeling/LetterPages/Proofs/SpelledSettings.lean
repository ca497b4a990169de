import LetterPages.Proofs.AssignedSettings
import LetterPages.Proofs.Substitution
import LetterPages.Proofs.Toml.SpelledDocuments

/-!
# Settings of a spelled document

A document gives values to some of the settings and holds other things beside. However it is spelled,
the settings read from it are the standard ones with these values, and a number of letters that is no
size makes it fail.
-/

namespace LetterPages.Settings

open Toml (Outline Statement SpellsDocument Value)

/-- The document gives the settings the values of the assignment, in sections that are tables, and
what it holds besides is a document by itself, with no number out of range and nothing else under
the names of the settings. -/
structure Assigns (o : Outline) (a : Assignment) : Prop where
  values : ∀ k : Setting, o.values k.sectionName k.name = (a.value? k).toList
  uniform : o.IsUniform isSetting
  outside : (o.without isSetting).Outside isSetting
  rest : ∃ t, (o.without isSetting).root = some t ∧ Toml.entriesAreWithinRange t = true

theorem Assignment.value?_eq_some {a : Assignment} {k : Setting} {v : Value}
    (h : a.value? k = some v) : (∃ text, v = .scalar (.string text)) ∨
      ∃ size : UInt64, v = .scalar (.integer (some size.toNat)) := by
  cases k with
  | text k =>
    obtain ⟨text, -, rfl⟩ := Option.map_eq_some_iff.mp h
    exact .inl ⟨text, rfl⟩
  | chunkSize =>
    obtain ⟨size, -, rfl⟩ := Option.map_eq_some_iff.mp h
    exact .inr ⟨size, rfl⟩

theorem Assigns.arePlain {o : Outline} {a : Assignment} (h : Assigns o a) (sectionName : String) :
    Toml.ArePlain (isSetting sectionName) fun name => o.values sectionName name where
  once name hname := by
    obtain ⟨k, rfl, rfl⟩ := isSetting_iff.mp hname
    rw [h.values k]
    exact Option.length_toList_le
  scalar name hname v hv := by
    obtain ⟨k, rfl, rfl⟩ := isSetting_iff.mp hname
    rw [h.values k, Option.mem_toList] at hv
    rcases Assignment.value?_eq_some hv with ⟨text, rfl⟩ | ⟨size, rfl⟩
    · exact ⟨_, rfl⟩
    · exact ⟨_, rfl⟩

theorem Assigns.exists_root {o : Outline} {a : Assignment} (h : Assigns o a) :
    ∃ u, o.root = some u ∧ visit sections u standard = some (a.changes.apply standard) := by
  obtain ⟨t, ht, hrange⟩ := h.rest
  obtain ⟨u, hu, hmatched⟩ := Toml.exists_root h.arePlain h.outside h.uniform ht
  exact ⟨u, hu, visit_sections_eq hmatched h.values hrange standard⟩

section

variable {text : List Char} {l : List Statement} {env : Environment}
  (htext : SpellsDocument (Toml.withoutMark text) l)
  (hunset : ∀ name ∈ Environment.references text, env.bindings.lookup (String.ofList name) = none)
  (wording : Wording) (path : Path)

include htext hunset

theorem ofTextIn_of_assigns {a : Assignment} (h : Assigns (Outline.ofStatements l) a) :
    ofTextIn wording path env text = .ok (a.changes.apply standard) := by
  obtain ⟨u, hu, hvisit⟩ := h.exists_root
  rw [ofTextIn_eq_ok_iff, Environment.expand_of_unset hunset]
  exact ofToml_eq_ok_iff.mpr ⟨l, u, Toml.statements_spelled htext, hu, hvisit⟩

theorem ofTextIn_of_isNoSize {n : Toml.Scalar} (hn : IsNoSize n)
    (h : .scalar n ∈ (Outline.ofStatements l).values "chunking" "chunk_size") :
    ∃ detail, ofTextIn wording path env text = .error (.configurationMalformed path detail) := by
  cases hread : ofToml (env.expand text) with
  | error p => exact ⟨_, ofTextIn_eq_error_iff.mpr ⟨p, hread, rfl⟩⟩
  | ok s =>
    rw [Environment.expand_of_unset hunset] at hread
    obtain ⟨l', t, hl, ht, hvisit⟩ := ofToml_eq_ok_iff.mp hread
    cases (Toml.statements_spelled htext).symm.trans hl
    have hheld := Toml.alteredAt_root (n := .scalar n) trivial rfl h ht
    cases (visit_sections_eq_none hheld hn standard).symm.trans hvisit

end

end LetterPages.Settings
