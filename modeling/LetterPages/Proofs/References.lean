import Mathlib.Data.List.Basic
import Mathlib.Data.List.TakeWhile
import LetterPages.Proofs.DecodedText
import LetterPages.Proofs.Substitution

/-!
# References

Where a text refers to variables is read off the text alone, position by position. No reference
overlaps another, and expansion puts in the values of all of them at once.
-/

namespace LetterPages.Environment

/-- The text has the written name at the position. -/
def RefersAt (s : List Char) (i : Nat) (name : List Char) : Prop :=
  IsName name ∧ written name <+: s.drop i

/-- The variable is set, and its value is the UTF-8 of the text. -/
def Means (env : Environment) (name value : List Char) : Prop :=
  env.bindings.lookup (String.ofList name) = some (Utf8.encode value)

theorem text?_eq_some_iff {env : Environment} {name value : List Char} :
    env.text? name = some value ↔ env.Means name value := by
  unfold text? Means
  constructor
  · intro h
    obtain ⟨bytes, hlookup, hdecode⟩ := Option.bind_eq_some_iff.mp h
    rw [hlookup, Utf8.decode?_eq_some_iff.mp hdecode]
  · intro h
    exact Option.bind_eq_some_iff.mpr ⟨_, h, Utf8.decode?_eq_some_iff.mpr rfl⟩

theorem Means.unique {env : Environment} {name v w : List Char} (hv : env.Means name v)
    (hw : env.Means name w) : v = w :=
  Option.some.inj ((text?_eq_some_iff.mpr hv).symm.trans (text?_eq_some_iff.mpr hw))

/-! ## Where a text refers -/

theorem length_written (name : List Char) : (written name).length = name.length + 3 := by
  simp [written]

theorem written_append (name rest : List Char) :
    written name ++ rest = '$' :: '\x7b' :: (name ++ '\x7d' :: rest) := by
  simp [written]

theorem isNamePart_of_mem {name : List Char} (h : IsName name) {c : Char} (hc : c ∈ name) :
    isNamePart c = true := by
  obtain ⟨d, r, rfl, hd, hr⟩ := h
  rcases List.mem_cons.mp hc with rfl | hc
  · rw [isNamePart, hd, Bool.true_or]
  · exact hr c hc

/-- The mark that begins a reference is not met again before its end. -/
theorem eq_zero_of_written_getElem? {name : List Char} (h : IsName name) {i : Nat}
    (hi : (written name)[i]? = some '$') : i = 0 := by
  cases i with
  | zero => rfl
  | succ i =>
    have hmem : '$' ∈ '\x7b' :: (name ++ ['\x7d']) := List.mem_of_getElem? hi
    rcases List.mem_cons.mp hmem with hbrace | hmem
    · exact absurd hbrace (by decide)
    · rcases List.mem_append.mp hmem with hname | hbrace
      · exact absurd (isNamePart_of_mem h hname) (by decide)
      · exact absurd (List.mem_singleton.mp hbrace) (by decide)

section

variable {s a b name other : List Char} {i j : Nat}

theorem refersAt_zero_iff :
    RefersAt s 0 name ↔ IsName name ∧ ∃ rest, s = written name ++ rest :=
  and_congr_right fun _ => exists_congr fun _ => eq_comm

theorem reference?_of_refersAt_zero {r : List Char} (h : RefersAt ('$' :: '\x7b' :: r) 0 name) :
    ∃ rest, reference? r = some (name, rest) := by
  obtain ⟨hname, rest, hs⟩ := refersAt_zero_iff.mp h
  rw [written_append] at hs
  cases hs
  exact ⟨rest, reference?_name hname rest⟩

theorem refersAt_of_reference? {r rest : List Char} (h : reference? r = some (name, rest)) :
    '$' :: '\x7b' :: r = written name ++ rest ∧ IsName name := by
  refine ⟨by rw [written_append, reference?_eq_some h], ?_⟩
  unfold reference? at h
  split at h
  · cases h
  · rename_i c t
    split at h
    next hc =>
      split at h
      · cases h
        exact ⟨c, _, rfl, hc, fun d hd => List.mem_takeWhile_imp hd⟩
      · cases h
    next => cases h

theorem RefersAt.le_length (h : RefersAt s i name) : i + (written name).length ≤ s.length := by
  have hlength := h.2.length_le
  rw [List.length_drop] at hlength
  have := length_written name
  omega

theorem RefersAt.getElem?_eq (h : RefersAt s i name) : s[i]? = some '$' := by
  obtain ⟨rest, hrest⟩ := h.2
  rw [← List.head?_drop, ← hrest]
  rfl

theorem RefersAt.append_right (h : RefersAt a i name) (b : List Char) :
    RefersAt (a ++ b) i name := by
  have hle := h.le_length
  refine ⟨h.1, ?_⟩
  rw [List.drop_append_of_le_length (by omega)]
  exact h.2.trans (List.prefix_append _ _)

theorem refersAt_append_add (a : List Char) :
    RefersAt (a ++ b) (a.length + i) name ↔ RefersAt b i name := by
  rw [RefersAt, RefersAt, List.drop_length_add_append]

theorem RefersAt.eq_name (h : RefersAt s i name) (h' : RefersAt s i other) : name = other := by
  obtain ⟨rest, hrest⟩ := h.2
  obtain ⟨rest', hrest'⟩ := h'.2
  rw [← hrest', written_append, written_append] at hrest
  have hread := reference?_name h.1 rest
  rw [(List.cons.inj (List.cons.inj hrest).2).2, reference?_name h'.1 rest'] at hread
  exact (Prod.mk.inj (Option.some.inj hread)).1.symm

/-- References do not overlap. -/
theorem RefersAt.le_of_lt (h : RefersAt s i name) (h' : RefersAt s j other) (hij : i < j) :
    i + (written name).length ≤ j := by
  refine Nat.le_of_not_lt fun hlt => ?_
  obtain ⟨rest, hrest⟩ := h.2
  have hmark : (written name ++ rest)[j - i]? = some '$' := by
    rw [hrest, List.getElem?_drop, Nat.add_sub_cancel' (Nat.le_of_lt hij)]
    exact h'.getElem?_eq
  rw [List.getElem?_append_left (by omega)] at hmark
  have := eq_zero_of_written_getElem? h.1 hmark
  omega

theorem refersAt_written (hname : IsName name) (h : RefersAt (written name) i other) :
    i = 0 ∧ other = name := by
  obtain rfl := eq_zero_of_written_getElem? hname h.getElem?_eq
  exact ⟨rfl, h.eq_name ⟨hname, List.prefix_rfl⟩⟩

/-! ## Cuts -/

/-- No reference of the whole crosses from the one part to the other. -/
def Cut (a b : List Char) : Prop :=
  ∀ i name, RefersAt (a ++ b) i name → i < a.length → RefersAt a i name

theorem Cut.cases (h : Cut a b) (href : RefersAt (a ++ b) i name) :
    RefersAt a i name ∨ ∃ j, i = a.length + j ∧ RefersAt b j name := by
  by_cases hi : i < a.length
  · exact .inl (h i name href hi)
  · obtain ⟨j, rfl⟩ := Nat.exists_eq_add_of_le (Nat.le_of_not_lt hi)
    exact .inr ⟨j, rfl, (refersAt_append_add a).mp href⟩

theorem cut_of_le (h : ∀ i name, RefersAt (a ++ b) i name → i < a.length →
    i + (written name).length ≤ a.length) : Cut a b := by
  intro i name href hi
  refine ⟨href.1, ?_⟩
  have hfront := href.2
  rw [List.drop_append_of_le_length (Nat.le_of_lt hi)] at hfront
  refine List.prefix_of_prefix_length_le hfront (List.prefix_append _ _) ?_
  have := h i name href hi
  rw [List.length_drop]
  omega

theorem cut_before (h : RefersAt b 0 name) : Cut a b :=
  cut_of_le fun _ _ href hi => href.le_of_lt ((refersAt_append_add a).mpr h) hi

theorem cut_after (h : IsName name) (rest : List Char) : Cut (written name) rest := by
  have hzero : RefersAt (written name ++ rest) 0 name :=
    refersAt_zero_iff.mpr ⟨h, rest, rfl⟩
  refine cut_of_le fun i other href hi => ?_
  rcases Nat.eq_zero_or_pos i with rfl | hpos
  · rw [href.eq_name hzero, Nat.zero_add]
  · have := hzero.le_of_lt href hpos
    omega

/-- A character that is part of no reference is where a text can be cut. -/
theorem cut_before_char {c : Char} (hc : isNamePart c = false) (hmark : c ∉ ['$', '\x7b', '\x7d']) :
    Cut a (c :: b) := by
  refine cut_of_le fun i name href hi => Nat.le_of_not_lt fun hlt => ?_
  obtain ⟨rest, hrest⟩ := href.2
  have hmem : (written name ++ rest)[a.length - i]? = some c := by
    rw [hrest, List.getElem?_drop, Nat.add_sub_cancel' (Nat.le_of_lt hi),
      List.getElem?_append_right (Nat.le_refl _), Nat.sub_self]
    rfl
  rw [List.getElem?_append_left (by omega)] at hmem
  rcases List.mem_append.mp (List.mem_of_getElem? hmem) with hopen | hclose
  · rcases List.mem_append.mp hopen with hopen | hname
    · exact hmark (List.mem_append_left ['\x7d'] hopen)
    · rw [isNamePart_of_mem href.1 hname] at hc
      cases hc
  · exact hmark (List.mem_append_right ['$', '\x7b'] hclose)

theorem cut_char {c : Char} (h : ∀ name, ¬ RefersAt (c :: b) 0 name) : Cut [c] b := by
  intro i name href hi
  obtain rfl : i = 0 := Nat.lt_one_iff.mp hi
  exact absurd href (h name)

end

/-! ## Replacement at every position -/

/-- What each position of the text becomes: where a reference begins, the value of its variable; in
the rest of that reference, nothing; everywhere else, the character itself. -/
structure Replaces (env : Environment) (s : List Char) (part : Nat → List Char) : Prop where
  value : ∀ {i name v}, RefersAt s i name → env.Means name v → part i = v
  inside : ∀ {i name v j}, RefersAt s i name → env.Means name v → i < j →
    j < i + (written name).length → part j = []
  copied : ∀ {j c}, s[j]? = some c → (∀ i name v, RefersAt s i name → env.Means name v →
    ¬ (i ≤ j ∧ j < i + (written name).length)) → part j = [c]

section

variable {env env' : Environment} {s a b : List Char} {p q : Nat → List Char}

theorem Replaces.apply_eq (hp : Replaces env s p) (hq : Replaces env s q) {j : Nat}
    (hj : j < s.length) : p j = q j := by
  by_cases hcovered : ∃ i name v, RefersAt s i name ∧ env.Means name v ∧
      i ≤ j ∧ j < i + (written name).length
  · obtain ⟨i, name, v, href, hv, hle, hlt⟩ := hcovered
    rcases Nat.eq_or_lt_of_le hle with rfl | hpos
    · rw [hp.value href hv, hq.value href hv]
    · rw [hp.inside href hv hpos hlt, hq.inside href hv hpos hlt]
  · have hfree : ∀ i name v, RefersAt s i name → env.Means name v →
        ¬ (i ≤ j ∧ j < i + (written name).length) :=
      fun i name v href hv hcover => hcovered ⟨i, name, v, href, hv, hcover⟩
    have hc := List.getElem?_eq_getElem hj
    rw [hp.copied hc hfree, hq.copied hc hfree]

theorem Replaces.flatMap_eq (hp : Replaces env s p) (hq : Replaces env s q) :
    (List.range s.length).flatMap p = (List.range s.length).flatMap q :=
  List.flatMap_congr fun _ hj => hp.apply_eq hq (List.mem_range.mp hj)

theorem Replaces.congr (h : ∀ i name, RefersAt s i name → ∀ v, env.Means name v ↔ env'.Means name v)
    (hp : Replaces env s p) : Replaces env' s p where
  value href hv := hp.value href ((h _ _ href _).mpr hv)
  inside href hv := hp.inside href ((h _ _ href _).mpr hv)
  copied hc hfree := hp.copied hc fun _ _ _ href hv => hfree _ _ _ href ((h _ _ href _).mp hv)

theorem replaces_of_unset (h : ∀ i name, RefersAt s i name → ∀ v, ¬ env.Means name v) :
    Replaces env s fun j => s[j]?.toList where
  value href hv := absurd hv (h _ _ href _)
  inside href hv := absurd hv (h _ _ href _)
  copied hc _ := by rw [hc, Option.toList_some]

theorem replaces_written {name v : List Char} (hname : IsName name) (hv : env.Means name v) :
    Replaces env (written name) fun j => if j = 0 then v else [] := by
  refine ⟨fun href hw => ?_, fun _ _ hpos _ => if_neg (by omega), fun {j c} hc hfree => ?_⟩
  · obtain ⟨rfl, rfl⟩ := refersAt_written hname href
    exact hv.unique hw
  · obtain ⟨hj, -⟩ := List.getElem?_eq_some_iff.mp hc
    exact absurd ⟨Nat.zero_le j, by omega⟩ (hfree 0 name v ⟨hname, List.prefix_rfl⟩ hv)

theorem Replaces.append (hcut : Cut a b) (hp : Replaces env a p) (hq : Replaces env b q) :
    Replaces env (a ++ b) fun j => if j < a.length then p j else q (j - a.length) where
  value {i name v} href hv := by
    rcases hcut.cases href with hleft | ⟨j, rfl, hright⟩
    · have := hleft.le_length
      have := length_written name
      rw [if_pos (by omega), hp.value hleft hv]
    · rw [if_neg (by omega), Nat.add_sub_cancel_left, hq.value hright hv]
  inside {i name v j} href hv hij hj := by
    rcases hcut.cases href with hleft | ⟨k, rfl, hright⟩
    · have := hleft.le_length
      rw [if_pos (by omega), hp.inside hleft hv hij hj]
    · rw [if_neg (by omega), hq.inside hright hv (by omega) (by omega)]
  copied {j c} hc hfree := by
    split
    next hj =>
      rw [List.getElem?_append_left hj] at hc
      exact hp.copied hc fun i name v href hv => hfree i name v (href.append_right b) hv
    next hj =>
      rw [List.getElem?_append_right (by omega)] at hc
      refine hq.copied hc fun i name v href hv hcover => ?_
      exact hfree (a.length + i) name v ((refersAt_append_add a).mpr href) hv (by omega)

theorem flatMap_range_add (m n : Nat) (p q : Nat → List Char) :
    (List.range (m + n)).flatMap (fun j => if j < m then p j else q (j - m)) =
      (List.range m).flatMap p ++ (List.range n).flatMap q := by
  rw [List.range_add, List.flatMap_append, List.flatMap_map]
  congr 1
  · exact List.flatMap_congr fun j hj => if_pos (List.mem_range.mp hj)
  · refine List.flatMap_congr fun j _ => ?_
    rw [if_neg (by omega), Nat.add_sub_cancel_left]

theorem flatMap_range_first (v : List Char) (n : Nat) :
    (List.range (n + 1)).flatMap (fun j => if j = 0 then v else []) = v := by
  have hrest : (List.range n).flatMap (fun j => if j + 1 = 0 then v else []) = [] :=
    List.flatMap_eq_nil_iff.mpr fun j _ => if_neg (Nat.succ_ne_zero j)
  rw [List.range_succ_eq_map, List.flatMap_cons, List.flatMap_map, if_pos rfl]
  exact (congrArg (v ++ ·) hrest).trans (List.append_nil v)

theorem flatMap_range_getElem? (s : List Char) :
    (List.range s.length).flatMap (fun j => s[j]?.toList) = s := by
  induction s with
  | nil => rfl
  | cons c s ih =>
    rw [List.length_cons, List.range_succ_eq_map, List.flatMap_cons, List.flatMap_map]
    exact congrArg (c :: ·) ih

end

/-! ## Expansion replaces -/

/-- The parts of a text become a whole where no reference is cut. -/
theorem exists_replaces_append {env : Environment} {a b x : List Char} (hcut : Cut a b)
    {p : Nat → List Char} (hp : Replaces env a p)
    (hb : ∃ q, Replaces env b q ∧ x = (List.range b.length).flatMap q) :
    ∃ part, Replaces env (a ++ b) part ∧
      (List.range a.length).flatMap p ++ x = (List.range (a ++ b).length).flatMap part := by
  obtain ⟨q, hq, rfl⟩ := hb
  exact ⟨_, hp.append hcut hq, by rw [List.length_append, flatMap_range_add]⟩

theorem exists_replaces_char {env : Environment} {c : Char} {b x : List Char}
    (hc : ∀ name, ¬ RefersAt (c :: b) 0 name)
    (hb : ∃ q, Replaces env b q ∧ x = (List.range b.length).flatMap q) :
    ∃ part, Replaces env (c :: b) part ∧
      c :: x = (List.range (c :: b).length).flatMap part := by
  refine exists_replaces_append (cut_char hc) (replaces_of_unset fun i name href => ?_) hb
  have := href.le_length
  rw [length_written, List.length_singleton] at this
  omega

theorem exists_replaces_reference {env : Environment} {name b x : List Char} (hname : IsName name)
    (hb : ∃ q, Replaces env b q ∧ x = (List.range b.length).flatMap q) :
    ∃ part, Replaces env (written name ++ b) part ∧
      (env.text? name).getD (written name) ++ x =
        (List.range (written name ++ b).length).flatMap part := by
  cases hv : env.text? name with
  | none =>
    have hunset : ∀ i other, RefersAt (written name) i other → ∀ v, ¬ env.Means other v := by
      intro i other href v hmeans
      obtain ⟨-, rfl⟩ := refersAt_written hname href
      rw [text?_eq_some_iff.mpr hmeans] at hv
      cases hv
    have hparts := exists_replaces_append (cut_after hname b) (replaces_of_unset hunset) hb
    rwa [flatMap_range_getElem?] at hparts
  | some v =>
    have hparts := exists_replaces_append (cut_after hname b)
      (replaces_written hname (text?_eq_some_iff.mp hv)) hb
    rwa [length_written, flatMap_range_first] at hparts

theorem exists_replaces (env : Environment) (s : List Char) : ∃ part, Replaces env s part ∧
    env.expand s = (List.range s.length).flatMap part := by
  fun_induction expand env s with
  | case1 =>
    refine ⟨_, replaces_of_unset fun i name href => ?_, rfl⟩
    have := href.le_length
    rw [length_written] at this
    exact absurd this (Nat.not_succ_le_zero _)
  -- a reference is cut off as a whole; otherwise one character is, since none begins there
  | case2 r name rest hfound ih =>
    obtain ⟨hs, hname⟩ := refersAt_of_reference? hfound
    rw [hs]
    exact exists_replaces_reference hname ih
  | case3 r hnone ih =>
    refine exists_replaces_char (fun name href => ?_) ih
    obtain ⟨rest, hfound⟩ := reference?_of_refersAt_zero href
    rw [hnone] at hfound
    cases hfound
  | case4 c r hother ih =>
    refine exists_replaces_char (fun name href => ?_) ih
    obtain ⟨-, rest, hs⟩ := refersAt_zero_iff.mp href
    rw [written_append] at hs
    obtain ⟨hc, hr⟩ := List.cons.inj hs
    exact hother _ hc hr

section

variable {env : Environment} {s a b : List Char} {p : Nat → List Char}

theorem Replaces.expand_eq (hp : Replaces env s p) :
    env.expand s = (List.range s.length).flatMap p := by
  obtain ⟨q, hq, hs⟩ := exists_replaces env s
  rw [hs, hq.flatMap_eq hp]

theorem expand_append (h : Cut a b) : env.expand (a ++ b) = env.expand a ++ env.expand b := by
  obtain ⟨p, hp, ha⟩ := exists_replaces env a
  obtain ⟨q, hq, hb⟩ := exists_replaces env b
  rw [(hp.append h hq).expand_eq, List.length_append, flatMap_range_add, ha, hb]

/-- A quote parts a text into what stands before and after it. -/
theorem expand_append_quote (env : Environment) (a b : List Char) :
    env.expand (a ++ '"' :: b) = env.expand a ++ '"' :: env.expand b := by
  rw [expand_append (cut_before_char (by decide) (by decide)),
    expand.eq_3 env '"' b (fun _ h => absurd h (by decide))]

/-- What stands before a reference and what stands after it are expanded apart from it. -/
theorem expand_append_written {name : List Char} (h : IsName name) :
    env.expand (a ++ (written name ++ b)) =
      env.expand a ++ ((env.text? name).getD (written name) ++ env.expand b) := by
  rw [expand_append (cut_before (refersAt_zero_iff.mpr ⟨h, b, rfl⟩)), expand_written env h]

theorem getD_text?_of_unset {name : List Char} (h : ∀ v, ¬ env.Means name v) :
    (env.text? name).getD (written name) = written name := by
  cases hv : env.text? name with
  | none => rfl
  | some v => exact absurd (text?_eq_some_iff.mp hv) (h v)

end

/-- Expansion puts in, all at once, the values of all the references of the text. They do not
overlap; what each position becomes depends on the text as it was, so that neither a value nor what
it makes with its surroundings is expanded again. Where no reference has a value the text stays, and
environments that agree on the names the text refers to expand it alike. -/
theorem expand_simultaneous (env : Environment) (s : List Char) :
    (∀ i j name other, RefersAt s i name → RefersAt s j other →
      (i = j → name = other) ∧ (i < j → i + (written name).length ≤ j)) ∧
    (∃ part, Replaces env s part) ∧
    (∀ part, Replaces env s part → env.expand s = (List.range s.length).flatMap part) ∧
    (∀ a name b, IsName name → s = a ++ (written name ++ b) →
      (∀ v, env.Means name v → env.expand s = env.expand a ++ (v ++ env.expand b)) ∧
      ((∀ v, ¬ env.Means name v) →
        env.expand s = env.expand a ++ (written name ++ env.expand b))) ∧
    ((∀ i name, RefersAt s i name → ∀ v, ¬ env.Means name v) → env.expand s = s) ∧
    (∀ env' : Environment,
      (∀ i name, RefersAt s i name → ∀ v, env.Means name v ↔ env'.Means name v) →
      env.expand s = env'.expand s) := by
  obtain ⟨part, hpart, hexpand⟩ := exists_replaces env s
  refine ⟨?overlap, ⟨part, hpart⟩, fun _ hp => hp.expand_eq, ?seam, ?unset, ?agree⟩
  case overlap =>
    intro i j name other href href'
    refine ⟨?_, href.le_of_lt href'⟩
    rintro rfl
    exact href.eq_name href'
  case seam =>
    rintro a name b hname rfl
    rw [expand_append_written hname]
    refine ⟨fun v hv => ?_, fun hunset => ?_⟩
    · rw [text?_eq_some_iff.mpr hv, Option.getD_some]
    · rw [getD_text?_of_unset hunset]
  case unset =>
    intro hunset
    rw [(replaces_of_unset hunset).expand_eq, flatMap_range_getElem?]
  case agree =>
    intro env' hagree
    rw [hexpand, (hpart.congr hagree).expand_eq]

/-- The value and what stands before it spell a reference, which is not expanded. -/
example : expand ⟨[("A", Utf8.ofString "B\x7d"), ("B", Utf8.ofString "b")]⟩
    "$\x7b$\x7bA\x7d$\x7b1A\x7d$$\x7bB\x7d$\x7bA".toList =
      "$\x7bB\x7d$\x7b1A\x7d$b$\x7bA".toList := by
  decide +kernel

end LetterPages.Environment
