import LetterPages.Basic
import LetterPages.Proofs.Toml.StatementLocality

/-!
# Where a string is written

The value of a member of a section can be written in four ways: under the header of the section,
behind a key of two names, in an inline table, and in an array by its index. Each is a place that the
readers come to. Another value written at the place changes that value and no other.
-/

namespace LetterPages.Toml

variable {w w' : List Char}

/-! ## Places -/

/-- The header that pairs stand under after a statement. -/
def Statement.under (h : Option Statement) : Statement → Option Statement
  | .pair _ _ => h
  | .header k => some (.header k)
  | .arrayHeader k => some (.arrayHeader k)

/-- From `s`, under the header `h`, the reader comes to the statement at `u`, under `h'`. -/
inductive StatementAt : Option Statement → List Char → Option Statement → List Char → Prop
  | here {h : Option Statement} {s u : List Char} (hgap : skipGap s = u) : StatementAt h s h u
  | next {h h' : Option Statement} {s r rest u : List Char} {a : Statement}
      (hstatement : statement (skipGap s) = some (a, r)) (hline : lineEnd r = some rest)
      (hmore : StatementAt (a.under h) rest h' u) : StatementAt h s h' u

/-- From `s`, behind the opening bracket, the reader comes to the item at `u`, with `n` before it. -/
inductive ItemAt {α : Type} (closing : Char) (item : Reader α) :
    List Char → Nat → List Char → Prop
  | here {s r : List Char} {c : Char} (hstart : skipGap s = c :: r) (hc : c ≠ closing) :
      ItemAt closing item s 0 (c :: r)
  | next {s r r' rest u : List Char} {c : Char} {a : α} {n : Nat} (hstart : skipGap s = c :: r)
      (hc : c ≠ closing) (hitem : item.run (c :: r) = some (a, r'))
      (hnext : skipGap r' = ',' :: rest) (hmore : ItemAt closing item rest n u) :
      ItemAt closing item s (n + 1) u

/-- The reader of the values within a value. -/
def innerValue : Reader Value :=
  Reader.value (limit - 1)

/-- From `s`, the reader comes to the value at `x`, which is that of the member `name` of a section,
the one with `index` members before it. -/
inductive MemberAt (sectionName name : String) (index : Nat) (s x : List Char) : Prop
  | headed {u : List Char} (hat : StatementAt none s (some (.header ⟨[], sectionName⟩)) u)
      (hkey : KeyUpTo .line u ⟨[], name⟩ x)
  | dotted {u : List Char} (hat : StatementAt none s none u)
      (hkey : KeyUpTo .line u ⟨[sectionName], name⟩ x)
  | inline {u b v : List Char} {n : Nat} (hat : StatementAt none s none u)
      (hsection : KeyUpTo .line u ⟨[], sectionName⟩ ('\x7b' :: b))
      (hitem : ItemAt '\x7d' (innerValue.pair .free) b n v) (hkey : KeyUpTo .free v ⟨[], name⟩ x)
  | listed {u b : List Char} (hat : StatementAt none s none u)
      (hsection : KeyUpTo .line u ⟨[], sectionName⟩ ('[' :: b))
      (hitem : ItemAt ']' innerValue b index x)

/-- The first pair under a header that the text begins with. -/
theorem MemberAt.of_header {sectionName name : String} {index : Nat} {s t r rest u x : List Char}
    (hs : skipGap s = '[' :: t) (ht : t.head? ≠ some '[')
    (hheader : headerKey t = some (⟨[], sectionName⟩, r)) (hline : lineEnd r = some rest)
    (hgap : skipGap rest = u) (hkey : KeyUpTo .line u ⟨[], name⟩ x) :
    MemberAt sectionName name index s x := by
  refine .headed (.next (a := .header ⟨[], sectionName⟩) ?_ hline (.here hgap)) hkey
  rw [hs, statement.eq_2, hheader]
  · rfl
  · rintro t' rfl
    exact ht rfl

theorem InStep.withoutMark {s s' : List Char} (h : InStep w w' s s') :
    InStep w w' (withoutMark s) (withoutMark s') := by
  cases h with
  | quote => exact .quote
  | cons c h =>
    by_cases hc : c = '\uFEFF'
    · simpa [Toml.withoutMark, hc] using h
    · simpa [Toml.withoutMark, hc] using h.cons c

/-! ## Another statement in its place -/

theorem statements_eq_cons_iff {s : List Char} {a : Statement} {l : List Statement} :
    statements s = .ok (a :: l) ↔ ∃ r rest, statement (skipGap s) = some (a, r) ∧
      lineEnd r = some rest ∧ statements rest = .ok l := by
  constructor
  · intro h
    rw [statements.eq_def] at h
    split at h
    · cases h
    · rename_i c t hgap
      split at h
      · cases h
      · rename_i a' r hstatement
        split at h
        · cases h
        · rename_i rest hline
          obtain ⟨l', hl, heq⟩ := exists_of_map_eq_ok h
          cases heq
          exact ⟨r, rest, hgap ▸ hstatement, hline, hl⟩
  · rintro ⟨r, rest, hstatement, hline, hl⟩
    cases hgap : skipGap s with
    | nil =>
      rw [hgap] at hstatement
      cases length_lt_of_statement hstatement
    | cons c t =>
      rw [hgap] at hstatement
      grind [statements, Except.map]

theorem exists_of_statements {s : List Char} {l : List Statement} (h : statements s = .ok l)
    (hgap : skipGap s ≠ []) : ∃ a more, l = a :: more := by
  rw [statements.eq_def] at h
  split at h
  · contradiction
  · split at h
    · cases h
    · split at h
      · cases h
      · obtain ⟨more, -, rfl⟩ := exists_of_map_eq_ok h
        exact ⟨_, more, rfl⟩

theorem StatementAt.length_le {h h' : Option Statement} {s u : List Char}
    (hat : StatementAt h s h' u) : u.length ≤ s.length := by
  induction hat with
  | here hgap =>
    rw [← hgap]
    exact length_skipGap_le _
  | @next _ _ s _ _ _ _ hstatement hline _ ih =>
    have h₁ := length_lt_of_statement hstatement
    have h₂ := length_le_of_lineEnd hline
    have h₃ := length_skipGap_le s
    omega

/-- Another statement at the place that ends at the same rest. -/
theorem StatementAt.replace {hd hd' : Option Statement} {s s' u : List Char} {l : List Statement}
    (hat : StatementAt hd s hd' u) (h : InStep w w' s s') (hu : w.length < u.length)
    (hs : statements s = .ok l) :
    ∃ before a after r u', l = before ++ a :: after ∧ before.foldl Statement.under hd = hd' ∧
      statement u = some (a, r) ∧ (∀ t, r ≠ '"' :: t) ∧ InStep w w' u u' ∧
      ∀ a', statement u' = some (a', r) → statements s' = .ok (before ++ a' :: after) := by
  induction hat generalizing s' l with
  | @here hd s u hgap =>
    subst hgap
    obtain ⟨a, after, rfl⟩ := exists_of_statements hs (List.ne_nil_of_length_pos (by omega))
    obtain ⟨r, rest, hstatement, hline, hafter⟩ := statements_eq_cons_iff.mp hs
    refine ⟨[], a, after, r, skipGap s', rfl, rfl, hstatement, ?_, h.skipGap hu, ?_⟩
    · rintro t rfl
      cases hline
    · intro a' ha'
      exact statements_eq_cons_iff.mpr ⟨r, rest, ha', hline, hafter⟩
  | @next hd hd' s r rest u a hstatement hline hmore ih =>
    have h₁ := hmore.length_le
    have h₂ := length_le_of_lineEnd hline
    have h₃ := length_lt_of_statement hstatement
    obtain ⟨a₁, more, rfl⟩ := exists_of_statements hs (List.ne_nil_of_length_pos (by omega))
    obtain ⟨r₁, rest₁, hstatement₁, hline₁, hl⟩ := statements_eq_cons_iff.mp hs
    rw [hstatement] at hstatement₁
    cases hstatement₁
    rw [hline] at hline₁
    cases hline₁
    obtain ⟨r', hstatement', hr⟩ := isLocal_statement (h.skipGap (by omega)) hstatement (by omega)
    obtain ⟨rest', hline', hrest⟩ := hr.lineEnd hline (by omega)
    obtain ⟨before, b, after, r₂, u', rfl, hunder, hb, hr₂, hu', hnew⟩ := ih hrest hu hl
    refine ⟨a :: before, b, after, r₂, u', rfl, hunder, hb, hr₂, hu', ?_⟩
    intro b' hb'
    exact statements_eq_cons_iff.mpr ⟨r', rest', hstatement', hline', hnew b' hb'⟩

/-! ## Another item in its place -/

theorem items_eq_cons_iff {α : Type} {closing : Char} {item : Reader α} {a : α} {l : List α}
    {s rest : List Char} : items closing item s = some (a :: l, rest) ↔
      ∃ c r r', skipGap s = c :: r ∧ c ≠ closing ∧ item.run (c :: r) = some (a, r') ∧
        (skipGap r' = closing :: rest ∧ l = [] ∨
          ∃ r'', skipGap r' = ',' :: r'' ∧ closing ≠ ',' ∧
            items closing item r'' = some (l, rest)) := by
  constructor
  · intro h
    rw [items.eq_def] at h
    grind
  · rintro ⟨c, r, r', hstart, hc, hitem, ⟨hnext, rfl⟩ | ⟨r'', hnext, hcomma, hmore⟩⟩
    · exact items_eq_singleton hstart hc hitem hnext
    · exact items_eq_cons hstart hc hitem hnext hcomma hmore

theorem exists_of_items {α : Type} {closing : Char} {item : Reader α} {l : List α}
    {s r rest : List Char} {c : Char} (h : items closing item s = some (l, rest))
    (hstart : skipGap s = c :: r) (hc : c ≠ closing) : ∃ a more, l = a :: more := by
  cases l with
  | nil => grind [items]
  | cons a more => exact ⟨a, more, rfl⟩

theorem skipGap_quote (t : List Char) : skipGap ('"' :: t) = '"' :: t :=
  skipGap_of_stop (by decide) (by decide) rfl

theorem ItemAt.length_le {α : Type} {closing : Char} {item : Reader α} {s u : List Char} {n : Nat}
    (hat : ItemAt closing item s n u) : u.length ≤ s.length := by
  induction hat with
  | here hstart _ => exact length_lt_of_skipGap hstart
  | next hstart _ hitem hnext _ ih =>
    have h₁ := length_lt_of_skipGap hstart
    have h₂ := item.consumes hitem
    have h₃ := length_lt_of_skipGap hnext
    rw [List.length_cons] at h₂
    omega

/-- Another item at the place that ends at the same rest. -/
theorem ItemAt.replace {α : Type} {closing : Char} {item : Reader α} (hquote : closing ≠ '"')
    (hcomma : closing ≠ ',') (hlocal : IsLocal w w' item.run) {s s' u rest : List Char} {n : Nat}
    {l : List α} (hat : ItemAt closing item s n u) (h : InStep w w' s s') (hu : w.length < u.length)
    (hs : items closing item s = some (l, rest)) :
    ∃ before a after r u', l = before ++ a :: after ∧ before.length = n ∧
      item.run u = some (a, r) ∧ (∀ t, r ≠ '"' :: t) ∧ InStep w w' u u' ∧
      ∀ a', item.run u' = some (a', r) →
        items closing item s' = some (before ++ a' :: after, rest) := by
  induction hat generalizing s' l with
  | @here s r c hstart hc =>
    obtain ⟨a, after, rfl⟩ := exists_of_items hs hstart hc
    obtain ⟨c₁, r₁, r', hstart₁, hc₁, hitem, hend⟩ := items_eq_cons_iff.mp hs
    rw [hstart] at hstart₁
    cases hstart₁
    obtain ⟨t, hstart', hu'⟩ := h.skipGap_cons hstart (Nat.le_of_lt_succ hu)
    refine ⟨[], a, after, r', c :: t, rfl, rfl, hitem, ?_, hu', ?_⟩
    · rintro t rfl
      rw [skipGap_quote] at hend
      rcases hend with ⟨heq, -⟩ | ⟨r'', heq, -⟩
      · cases heq
        exact hquote rfl
      · cases heq
    · intro a' ha'
      exact items_eq_cons_iff.mpr ⟨c, t, r', hstart', hc, ha', hend⟩
  | @next s r r₁ r₂ u c a n hstart hc hitem hnext hmore ih =>
    have h₁ := hmore.length_le
    have h₂ := length_lt_of_skipGap hnext
    have h₃ := item.consumes hitem
    rw [List.length_cons] at h₃
    obtain ⟨a₁, more, rfl⟩ := exists_of_items hs hstart hc
    obtain ⟨c₁, t, r₃, hstart₁, -, hitem₁, hend⟩ := items_eq_cons_iff.mp hs
    rw [hstart] at hstart₁
    cases hstart₁
    rw [hitem] at hitem₁
    cases hitem₁
    rw [hnext] at hend
    obtain ⟨r', hstart', hr⟩ := h.skipGap_cons hstart (by omega)
    obtain ⟨r₁', hitem', hr₁⟩ := hlocal hr hitem (by omega)
    obtain ⟨r₂', hnext', hr₂⟩ := hr₁.skipGap_cons hnext (by omega)
    have hrest : InStep w w' r₂ r₂' := by
      cases hr₂ with
      | cons _ hrest => exact hrest
    rcases hend with ⟨heq, -⟩ | ⟨r₃, heq, -, hl⟩
    · cases heq
      exact absurd rfl hcomma
    · cases heq
      obtain ⟨before, b, after, r₄, u', rfl, rfl, hb, hr₄, hu', hnew⟩ := ih hrest hu hl
      refine ⟨a :: before, b, after, r₄, u', rfl, rfl, hb, hr₄, hu', ?_⟩
      intro b' hb'
      exact items_eq_cons_iff.mpr
        ⟨c, r', r₁', hstart', hc, hitem', .inr ⟨r₂', hnext', hcomma, hnew b' hb'⟩⟩

/-! ## Another value in its place -/

theorem key_bracket (r : List Char) : key ('[' :: r) = none := by
  have hname : name ('[' :: r) = none := by
    rw [name.eq_3 _ (by simp) (by simp)]
    rfl
  have hnames : names ('[' :: r) = none := by
    grind [names]
  rw [key, hnames]

theorem KeyUpTo.length_lt {spacing : Spacing} {s x : List Char} {k : Key}
    (h : KeyUpTo spacing s k x) : x.length < s.length := by
  obtain ⟨r, r', hkey, hequals, rfl⟩ := h
  have h₁ := length_lt_of_key hkey
  have h₂ := spacing.length_skip_le r
  have h₃ := spacing.length_skip_le r'
  rw [hequals, List.length_cons] at h₂
  omega

theorem KeyUpTo.unique {spacing : Spacing} {s x x' : List Char} {k k' : Key}
    (h : KeyUpTo spacing s k x) (h' : KeyUpTo spacing s k' x') : k = k' ∧ x = x' := by
  obtain ⟨r, r₁, hkey, hequals, rfl⟩ := h
  obtain ⟨r', r₁', hkey', hequals', rfl⟩ := h'
  rw [hkey] at hkey'
  cases hkey'
  rw [hequals] at hequals'
  cases hequals'
  exact ⟨rfl, rfl⟩

theorem statement_eq_some_iff {u x r : List Char} {k : Key} {a : Statement}
    (hkey : KeyUpTo .line u k x) : statement u = some (a, r) ↔
      ∃ v, a = .pair k v ∧ (Reader.value limit).run x = some (v, r) := by
  have hbracket : ∀ t, u ≠ '[' :: t := by
    rintro t rfl
    obtain ⟨_, _, hsome, -, -⟩ := hkey
    rw [key_bracket] at hsome
    cases hsome
  rw [statement.eq_3 u (fun t => hbracket _) hbracket]
  constructor
  · intro h
    obtain ⟨⟨⟨k', v⟩, r'⟩, hpair, heq⟩ := Option.map_eq_some_iff.mp h
    cases heq
    obtain ⟨x', hkey', hv⟩ := pairOf_eq_some_iff.mp hpair
    obtain ⟨rfl, rfl⟩ := hkey.unique hkey'
    exact ⟨v, rfl, hv⟩
  · rintro ⟨v, rfl, hv⟩
    have hpair : pair.run u = some ((k, v), r) := pairOf_eq_some_iff.mpr ⟨x, hkey, hv⟩
    rw [hpair]
    rfl

theorem StatementAt.replaceValue {hd hd' : Option Statement} {s s' u x : List Char} {k : Key}
    {l : List Statement} (hat : StatementAt hd s hd' u) (hkey : KeyUpTo .line u k x)
    (h : InStep w w' s s') (hx : w.length < x.length) (hs : statements s = .ok l) :
    ∃ before v after r x', l = before ++ .pair k v :: after ∧
      before.foldl Statement.under hd = hd' ∧ (Reader.value limit).run x = some (v, r) ∧
      (∀ t, r ≠ '"' :: t) ∧ InStep w w' x x' ∧
      ∀ v', (Reader.value limit).run x' = some (v', r) →
        statements s' = .ok (before ++ .pair k v' :: after) := by
  obtain ⟨before, a, after, r, u', rfl, hunder, ha, hr, hu, hnew⟩ :=
    hat.replace h (Nat.lt_trans hx hkey.length_lt) hs
  obtain ⟨v, rfl, hv⟩ := (statement_eq_some_iff hkey).mp ha
  obtain ⟨x', hkey', hx'⟩ := hu.keyUpTo hkey hx
  refine ⟨before, v, after, r, x', rfl, hunder, hv, hr, hx', ?_⟩
  intro v' hv'
  exact hnew _ ((statement_eq_some_iff hkey').mpr ⟨v', rfl, hv'⟩)

theorem ItemAt.replaceValue {closing : Char} (hquote : closing ≠ '"') (hcomma : closing ≠ ',')
    {value : Reader Value} (hlocal : IsLocal w w' value.run) {s s' u x rest : List Char} {n : Nat}
    {k : Key} {l : List (Key × Value)} (hat : ItemAt closing (value.pair .free) s n u)
    (hkey : KeyUpTo .free u k x) (h : InStep w w' s s') (hx : w.length < x.length)
    (hs : items closing (value.pair .free) s = some (l, rest)) :
    ∃ before v after r x', l = before ++ (k, v) :: after ∧ value.run x = some (v, r) ∧
      (∀ t, r ≠ '"' :: t) ∧ InStep w w' x x' ∧
      ∀ v', value.run x' = some (v', r) →
        items closing (value.pair .free) s' = some (before ++ (k, v') :: after, rest) := by
  obtain ⟨before, ⟨k', v⟩, after, r, u', rfl, -, ha, hr, hu, hnew⟩ :=
    hat.replace hquote hcomma (isLocal_pairOf hlocal) h (Nat.lt_trans hx hkey.length_lt) hs
  obtain ⟨x₁, hkey₁, hv⟩ := pairOf_eq_some_iff.mp ha
  obtain ⟨rfl, rfl⟩ := hkey.unique hkey₁
  obtain ⟨x', hkey', hx'⟩ := hu.keyUpTo hkey hx
  refine ⟨before, v, after, r, x', rfl, hv, hr, hx', ?_⟩
  intro v' hv'
  exact hnew _ (pairOf_eq_some_iff.mpr ⟨x', hkey', hv'⟩)

/-! ## Text that stands for itself -/

/-- Characters that a basic string takes as they are. -/
def IsVerbatim (c : Char) : Prop :=
  isPlain c = true ∧ c ≠ '"' ∧ c ≠ '\\'

instance (c : Char) : Decidable (IsVerbatim c) :=
  inferInstanceAs (Decidable (_ ∧ _))

theorem length_add_lt_of_basic {s text rest : List Char} (h : basic s = some (text, rest)) :
    text.length + rest.length < s.length := by
  fun_induction basic s generalizing text rest with
  | case1 => cases h
  | case2 =>
    cases h
    simp
  | case3 => cases h
  | case4 r e r' hescape _ ih =>
    obtain ⟨more, hmore, rfl⟩ := eq_some_of_after h
    have h₁ := length_lt_of_escape hescape
    have h₂ := ih hmore
    simp only [List.singleton_append, List.length_cons]
    omega
  | case5 c r _ _ _ ih =>
    obtain ⟨more, hmore, rfl⟩ := eq_some_of_after h
    have h₁ := ih hmore
    simp only [List.singleton_append, List.length_cons]
    omega
  | case6 => cases h

/-- A basic string spells its own text if and only if all its characters stand for themselves: an
escape is longer than what it stands for. -/
theorem basic_eq_self_iff (text rest : List Char) :
    basic (text ++ '"' :: rest) = some (text, rest) ↔ ∀ c ∈ text, IsVerbatim c := by
  induction text with
  | nil => simp [basic_quote]
  | cons c text ih =>
    rw [List.forall_mem_cons, ← ih, List.cons_append]
    by_cases hquote : c = '"'
    · subst hquote
      simp [basic_quote, IsVerbatim]
    by_cases hescape : c = '\\'
    · subst hescape
      refine iff_of_false ?_ fun h => h.1.2.2 rfl
      intro h
      cases hread : escape (text ++ '"' :: rest) with
      | none => grind [basic]
      | some found =>
        obtain ⟨e, r⟩ := found
        rw [basic_escape hread] at h
        obtain ⟨more, hmore, heq⟩ := eq_some_of_after h
        obtain ⟨-, rfl⟩ := List.cons.inj heq
        have h₁ := length_lt_of_escape hread
        have h₂ := length_add_lt_of_basic hmore
        simp only [List.length_append, List.length_cons] at h₁
        omega
    by_cases hplain : isPlain c = true
    · rw [basic_plain hquote hescape hplain]
      cases basic (text ++ '"' :: rest) with
      | none => simp [after]
      | some found => simp [after, IsVerbatim, hquote, hescape, hplain, Prod.ext_iff]
    · refine iff_of_false ?_ fun h => hplain h.1.1
      rw [basic, if_neg hquote, if_neg hescape, if_neg hplain]
      exact (Option.some_ne_none _).symm

theorem basic_verbatim {text : List Char} (h : ∀ c ∈ text, IsVerbatim c) (rest : List Char) :
    basic (text ++ '"' :: rest) = some (text, rest) :=
  (basic_eq_self_iff text rest).mpr h

theorem value_run_verbatim (depth : Nat) {text rest : List Char} (h : ∀ c ∈ text, IsVerbatim c)
    (hrest : text = [] → ∀ t, rest ≠ '"' :: t) :
    (Reader.value depth).run ('"' :: (text ++ '"' :: rest)) =
      some (.scalar (.string (String.ofList text)), rest) := by
  have hstring : stringFrom ('"' :: (text ++ '"' :: rest)) = some (text, rest) := by
    rw [stringFrom.eq_2, basic_verbatim h]
    intro t heq
    cases text with
    | nil =>
      cases heq
      exact hrest rfl t rfl
    | cons c text =>
      obtain ⟨rfl, -⟩ := List.cons.inj heq
      exact (h '"' List.mem_cons_self).2.1 rfl
  have hscalar : scalar ('"' :: (text ++ '"' :: rest)) =
      some (.scalar (.string (String.ofList text)), rest) := by
    rw [scalar, hstring]
  cases depth with
  | zero => exact hscalar
  | succ depth => exact (valueOver.eq_3 (Reader.value depth) _ (by simp) (by simp)).trans hscalar

/-! ## The four forms -/

def Value.ofText (text : List Char) : Value :=
  .scalar (.string (String.ofList text))

/-- A pair under a header that gives the member of the section the text `x`, and its value with `y`
in place of `x`. -/
inductive Gives (sectionName name : String) (index : Nat) (x y : List Char) :
    Option Statement → Key → Value → Value → Prop
  | headed : Gives sectionName name index x y (some (.header ⟨[], sectionName⟩)) ⟨[], name⟩
      (.ofText x) (.ofText y)
  | dotted : Gives sectionName name index x y none ⟨[sectionName], name⟩ (.ofText x) (.ofText y)
  | inline (before after : List (Key × Value)) :
      Gives sectionName name index x y none ⟨[], sectionName⟩
        (.table (before ++ (⟨[], name⟩, .ofText x) :: after))
        (.table (before ++ (⟨[], name⟩, .ofText y) :: after))
  | listed (before after : List Value) (hindex : before.length = index) :
      Gives sectionName name index x y none ⟨[], sectionName⟩
        (.array (before ++ .ofText x :: after)) (.array (before ++ .ofText y :: after))

theorem InStep.eq_quote {t : List Char} (h : InStep w w' ('"' :: w) t) : t = '"' :: w' := by
  cases h with
  | quote => rfl
  | cons _ h => exact absurd h.length_lt (Nat.lt_irrefl _)

section

variable {x y post : List Char} {sectionName name : String} {index : Nat}

/-- What a value at the quote is, and that the other string may stand there. -/
theorem value_run_at_quote (depth : Nat) (hx : ∀ c ∈ x, IsVerbatim c) (hne : x ≠ [])
    (hy : ∀ c ∈ y, IsVerbatim c) {v : Value} {r t : List Char}
    (hv : (Reader.value depth).run ('"' :: (x ++ '"' :: post)) = some (v, r))
    (hr : ∀ t, r ≠ '"' :: t)
    (h : InStep (x ++ '"' :: post) (y ++ '"' :: post) ('"' :: (x ++ '"' :: post)) t) :
    v = .ofText x ∧ (Reader.value depth).run t = some (.ofText y, r) := by
  rw [value_run_verbatim depth hx fun heq => absurd heq hne] at hv
  cases hv
  rw [h.eq_quote]
  exact ⟨rfl, value_run_verbatim depth hy fun _ => hr⟩

theorem MemberAt.replace {s s' : List Char} {l : List Statement}
    (hat : MemberAt sectionName name index s ('"' :: (x ++ '"' :: post)))
    (hx : ∀ c ∈ x, IsVerbatim c) (hne : x ≠ []) (hy : ∀ c ∈ y, IsVerbatim c)
    (h : InStep (x ++ '"' :: post) (y ++ '"' :: post) s s') (hs : statements s = .ok l) :
    ∃ before k v v' after, l = before ++ .pair k v :: after ∧
      statements s' = .ok (before ++ .pair k v' :: after) ∧
      Gives sectionName name index x y (before.foldl Statement.under none) k v v' := by
  cases hat with
  | headed hat hkey =>
    obtain ⟨before, v, after, r, x', rfl, hunder, hv, hr, hx', hnew⟩ :=
      hat.replaceValue hkey h (Nat.lt_succ_self _) hs
    obtain ⟨rfl, hv'⟩ := value_run_at_quote limit hx hne hy hv hr hx'
    exact ⟨before, _, _, _, after, rfl, hnew _ hv', by rw [hunder]; exact .headed⟩
  | dotted hat hkey =>
    obtain ⟨before, v, after, r, x', rfl, hunder, hv, hr, hx', hnew⟩ :=
      hat.replaceValue hkey h (Nat.lt_succ_self _) hs
    obtain ⟨rfl, hv'⟩ := value_run_at_quote limit hx hne hy hv hr hx'
    exact ⟨before, _, _, _, after, rfl, hnew _ hv', by rw [hunder]; exact .dotted⟩
  | @inline u b t n hat hsection hitem hkey =>
    have hlength := Nat.lt_of_lt_of_le hkey.length_lt hitem.length_le
    have hlength' : (x ++ '"' :: post).length < ('\x7b' :: b).length := by
      simp only [List.length_cons] at hlength ⊢
      omega
    obtain ⟨before, v, after, r, x', rfl, hunder, hv, hr, hx', hnew⟩ :=
      hat.replaceValue hsection h hlength' hs
    obtain ⟨b', rfl, hb⟩ := hx'.tail (by decide)
    obtain ⟨⟨pairs, r'⟩, hpairs, heq⟩ := Option.map_eq_some_iff.mp hv
    cases heq
    obtain ⟨first, v, last, r₁, x', rfl, hv₁, hr₁, hx₁, hnew₁⟩ :=
      hitem.replaceValue (by decide) (by decide) (isLocal_value _) hkey hb (Nat.lt_succ_self _) hpairs
    obtain ⟨rfl, hv₁'⟩ := value_run_at_quote _ hx hne hy hv₁ hr₁ hx₁
    have hv' := congrArg (Option.map fun v => (Value.table v.1, v.2)) (hnew₁ _ hv₁')
    exact ⟨before, _, _, _, after, rfl, hnew _ hv', by rw [hunder]; exact .inline first last⟩
  | @listed u b hat hsection hitem =>
    have hlength' : (x ++ '"' :: post).length < ('[' :: b).length :=
      Nat.lt_succ_of_le (Nat.le_of_lt hitem.length_le)
    obtain ⟨before, v, after, r, x', rfl, hunder, hv, hr, hx', hnew⟩ :=
      hat.replaceValue hsection h hlength' hs
    obtain ⟨b', rfl, hb⟩ := hx'.tail (by decide)
    obtain ⟨⟨values, r'⟩, hvalues, heq⟩ := Option.map_eq_some_iff.mp hv
    cases heq
    obtain ⟨first, v, last, r₁, x', rfl, hindex, hv₁, hr₁, hx₁, hnew₁⟩ :=
      hitem.replace (by decide) (by decide) (isLocal_value _) hb (Nat.lt_succ_self _) hvalues
    obtain ⟨rfl, hv₁'⟩ := value_run_at_quote _ hx hne hy hv₁ hr₁ hx₁
    have hv' := congrArg (Option.map fun v => (Value.array v.1, v.2)) (hnew₁ _ hv₁')
    exact ⟨before, _, _, _, after, rfl, hnew _ hv', by rw [hunder]; exact .listed first last hindex⟩

end

end LetterPages.Toml
