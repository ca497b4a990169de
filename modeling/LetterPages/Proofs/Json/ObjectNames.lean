import LetterPages.Proofs.Json.Tokens

/-!
# Names of objects

Which names the objects of a text list is told from its tokens: a literal in front of a colon is a
name, and the names of an object stand between its braces. Objects are written with the names of
their members in order, whatever the gaps and whatever the values that hold no object.
-/

namespace LetterPages.Json

/-- The literals that stand in front of a colon. -/
def names : List Token → List (List Char)
  | [] => []
  | .literal raw :: .mark c :: ts => if c = ':' then raw :: names ts else names ts
  | _ :: ts => names ts

/-- The names of every object of a text in which none stands in another. -/
def objects : List Token → List (List (List Char))
  | [] => []
  | t :: ts =>
    if t = .mark '{' then names (ts.takeWhile (· ≠ .mark '}')) :: objects ts else objects ts

/-! ## Gaps -/

theorem names_marks (w : List Char) (ts : List Token) : names (w.map .mark ++ ts) = names ts := by
  induction w with
  | nil => rfl
  | cons c w ih => exact ih

theorem spread_literal (gap raw : List Char) :
    Token.spread gap (.literal raw) = [.literal raw] :=
  if_neg (by simp)

theorem exists_spread_mark (gap : List Char) (c : Char) :
    ∃ w : List Char, Token.spread gap (.mark c) = .mark c :: w.map .mark ∧ ∀ x ∈ w, x ∈ gap := by
  unfold Token.spread
  split
  next => exact ⟨gap, rfl, fun _ hx => hx⟩
  next => exact ⟨[], rfl, fun _ hx => by cases hx⟩

theorem exists_spread (gap : List Char) (t : Token) :
    ∃ w : List Char, Token.spread gap t = t :: w.map .mark ∧ ∀ x ∈ w, x ∈ gap := by
  cases t with
  | mark c => exact exists_spread_mark gap c
  | literal raw => exact ⟨[], spread_literal gap raw, fun _ hx => by cases hx⟩

theorem names_spread (gap : List Char) (ts : List Token) :
    names (ts.flatMap (Token.spread gap)) = names ts := by
  fun_induction names ts with
  | case1 => rfl
  | case2 raw ts ih =>
    obtain ⟨w, hw, -⟩ := exists_spread_mark gap ':'
    rw [List.flatMap_cons, List.flatMap_cons, spread_literal, hw, ← ih]
    exact congrArg (raw :: ·) (names_marks w _)
  | case3 raw c ts hc ih =>
    obtain ⟨w, hw, -⟩ := exists_spread_mark gap c
    rw [List.flatMap_cons, List.flatMap_cons, spread_literal, hw, ← ih]
    exact (if_neg hc).trans (names_marks w _)
  | case4 t ts hother ih =>
    rw [List.flatMap_cons, ← ih]
    cases t with
    | mark c =>
      obtain ⟨w, hw, -⟩ := exists_spread_mark gap c
      rw [hw]
      exact names_marks w _
    | literal raw =>
      -- what follows the literal begins with no mark, and so does what it is spread to
      rw [spread_literal]
      cases ts with
      | nil => rfl
      | cons u us =>
        cases u with
        | mark c => exact absurd rfl (hother raw c us rfl)
        | literal raw' =>
          rw [List.flatMap_cons, spread_literal]
          rfl

section

variable {gap : List Char} (hgap : ∀ c ∈ gap, c = ' ')

include hgap

theorem takeWhile_spread (ts : List Token) :
    (ts.flatMap (Token.spread gap)).takeWhile (· ≠ .mark '}') =
      (ts.takeWhile (· ≠ .mark '}')).flatMap (Token.spread gap) := by
  induction ts with
  | nil => rfl
  | cons t ts ih =>
    obtain ⟨w, hw, hmem⟩ := exists_spread gap t
    by_cases ht : t = .mark '}'
    · subst ht
      rw [List.flatMap_cons, hw, List.takeWhile_cons_of_neg (by simp)]
      exact List.takeWhile_cons_of_neg (by simp)
    · have hspread : ∀ u ∈ t :: w.map Token.mark, decide (u ≠ .mark '}') = true := by
        refine List.forall_mem_cons.mpr ⟨decide_eq_true ht, fun u hu => ?_⟩
        obtain ⟨x, hx, rfl⟩ := List.mem_map.mp hu
        rw [hgap x (hmem x hx)]
        rfl
      have htake : (t :: ts).takeWhile (· ≠ .mark '}') = t :: ts.takeWhile (· ≠ .mark '}') :=
        List.takeWhile_cons_of_pos (decide_eq_true ht)
      rw [List.flatMap_cons, hw, List.takeWhile_append_of_pos hspread, ih, htake,
        List.flatMap_cons, hw]

theorem objects_marks {w : List Char} (hw : ∀ c ∈ w, c ∈ gap) (ts : List Token) :
    objects (w.map .mark ++ ts) = objects ts := by
  induction w with
  | nil => rfl
  | cons c w ih =>
    obtain ⟨hc, hw⟩ := List.forall_mem_cons.mp hw
    refine (if_neg ?_).trans (ih hw)
    rw [hgap c hc]
    decide

theorem objects_spread (ts : List Token) :
    objects (ts.flatMap (Token.spread gap)) = objects ts := by
  induction ts with
  | nil => rfl
  | cons t ts ih =>
    obtain ⟨w, hw, hmem⟩ := exists_spread gap t
    have hrest := objects_marks hgap hmem (ts.flatMap (Token.spread gap))
    rw [List.flatMap_cons, hw, List.cons_append, objects, objects, hrest, ih]
    by_cases ht : t = .mark '{'
    · have hmarks : (w.map Token.mark ++ ts.flatMap (Token.spread gap)).takeWhile (· ≠ .mark '}') =
          w.map Token.mark ++ (ts.takeWhile (· ≠ .mark '}')).flatMap (Token.spread gap) := by
        rw [List.takeWhile_append_of_pos, takeWhile_spread hgap]
        intro u hu
        obtain ⟨x, hx, rfl⟩ := List.mem_map.mp hu
        rw [hgap x (hmem x hx)]
        rfl
      rw [if_pos ht, if_pos ht, hmarks, names_marks, names_spread]
    · rw [if_neg ht, if_neg ht]

end

/-! ## Members and objects -/

/-- No literal of the value is taken for a name, unless a colon follows. -/
def Nameless (value : List Token) : Prop :=
  ∀ rest, rest.head? ≠ some (.mark ':') → names (value ++ rest) = names rest

theorem nameless_nil : Nameless [] :=
  fun _ _ => rfl

theorem nameless_marks (w : List Char) : Nameless (w.map .mark) :=
  fun rest _ => names_marks w rest

theorem nameless_literal (raw : List Char) : Nameless [.literal raw] := by
  intro rest hrest
  cases rest with
  | nil => rfl
  | cons t ts =>
    cases t with
    | literal raw' => rfl
    | mark c => exact if_neg fun hc => hrest (congrArg (fun c => some (Token.mark c)) hc)

theorem nameless_intercalate {tss : List (List Token)} (h : ∀ ts ∈ tss, Nameless ts) :
    Nameless ([Token.mark ','].intercalate tss) := by
  induction tss with
  | nil => exact nameless_nil
  | cons ts tss ih =>
    obtain ⟨hts, htss⟩ := List.forall_mem_cons.mp h
    cases tss with
    | nil =>
      rw [List.intercalate_singleton]
      exact hts
    | cons us tss =>
      intro rest hrest
      rw [List.intercalate_cons_cons, List.append_assoc, List.append_assoc, hts _ (by simp)]
      exact ih htss rest hrest

theorem nameless_array {tss : List (List Token)} (h : ∀ ts ∈ tss, Nameless ts) :
    Nameless (arrayTokens tss) := by
  intro rest _
  rw [arrayTokens, List.append_assoc]
  exact nameless_intercalate h ([.mark ']'] ++ rest) (by simp)

theorem names_members {members : List (String × List Token)} (h : ∀ m ∈ members, Nameless m.2) :
    names ([Token.mark ','].intercalate (members.map fun m => memberTokens m.1 m.2)) =
      members.map fun m => m.1.toList.flatMap escaped := by
  induction members with
  | nil => rfl
  | cons m members ih =>
    obtain ⟨hm, hmembers⟩ := List.forall_mem_cons.mp h
    have hname : ∀ rest, rest.head? ≠ some (.mark ':') →
        names (memberTokens m.1 m.2 ++ rest) = m.1.toList.flatMap escaped :: names rest := by
      intro rest hrest
      exact (if_pos rfl).trans (congrArg _ (hm rest hrest))
    have hrest := ih hmembers
    cases members with
    | nil =>
      have hlast := hname [] (by simp)
      rw [List.append_nil] at hlast
      rw [List.map_singleton, List.intercalate_singleton, hlast]
      rfl
    | cons m' members =>
      rw [List.map_cons, List.map_cons, List.intercalate_cons_cons, List.append_assoc,
        hname _ (by simp)]
      exact congrArg (_ :: ·) hrest

theorem mem_intercalate {α : Type} {sep : List α} {l : List (List α)} {a : α}
    (h : a ∈ sep.intercalate l) : a ∈ sep ∨ ∃ item ∈ l, a ∈ item := by
  induction l with
  | nil => cases h
  | cons item l ih =>
    cases l with
    | nil =>
      rw [List.intercalate_singleton] at h
      exact .inr ⟨item, List.mem_cons_self, h⟩
    | cons item' l =>
      rw [List.intercalate_cons_cons, List.mem_append, List.mem_append] at h
      rcases h with (h | h) | h
      · exact .inr ⟨item, List.mem_cons_self, h⟩
      · exact .inl h
      · rcases ih h with hsep | ⟨x, hx, ha⟩
        · exact .inl hsep
        · exact .inr ⟨x, List.mem_cons_of_mem _ hx, ha⟩

/-! ## Objects one after another -/

theorem objects_outside {ts : List Token} (h : ∀ t ∈ ts, t ≠ .mark '{') (rest : List Token) :
    objects (ts ++ rest) = objects rest := by
  induction ts with
  | nil => rfl
  | cons t ts ih =>
    obtain ⟨ht, hts⟩ := List.forall_mem_cons.mp h
    exact (if_neg ht).trans (ih hts)

theorem objects_braces {ts : List Token} (h : ∀ t ∈ ts, t ≠ .mark '{' ∧ t ≠ .mark '}')
    (rest : List Token) :
    objects (.mark '{' :: ts ++ [.mark '}'] ++ rest) = names ts :: objects rest := by
  have htake : (ts ++ .mark '}' :: rest).takeWhile (· ≠ .mark '}') = ts := by
    rw [List.takeWhile_append_of_pos fun t ht => decide_eq_true (h t ht).2,
      List.takeWhile_cons_of_neg (by simp), List.append_nil]
  have hrest : objects (ts ++ .mark '}' :: rest) = objects rest :=
    (objects_outside (fun t ht => (h t ht).1) _).trans (if_neg (by simp))
  rw [List.append_assoc, List.cons_append, List.singleton_append, objects, if_pos rfl, htake, hrest]

theorem objects_object {members : List (String × List Token)}
    (h : ∀ m ∈ members, Nameless m.2 ∧ ∀ t ∈ m.2, t ≠ .mark '{' ∧ t ≠ .mark '}')
    (rest : List Token) : objects (objectTokens members ++ rest) =
      (members.map fun m => m.1.toList.flatMap escaped) :: objects rest := by
  rw [objectTokens, objects_braces, names_members fun m hm => (h m hm).1]
  intro t ht
  rcases mem_intercalate ht with hcomma | ⟨ts, hts, ht⟩
  · rw [List.mem_singleton.mp hcomma]
    decide
  · obtain ⟨m, hm, rfl⟩ := List.mem_map.mp hts
    rcases List.mem_cons.mp ht with rfl | ht
    · exact ⟨nofun, nofun⟩
    · rcases List.mem_cons.mp ht with rfl | ht
      · decide
      · exact (h m hm).2 t ht

theorem objects_array {α : Type} {block : α → List Token} {keys : α → List (List Char)}
    (h : ∀ a rest, objects (block a ++ rest) = keys a :: objects rest) (l : List α) :
    objects (arrayTokens (l.map block)) = l.map keys := by
  have hitems : ∀ rest, objects ([Token.mark ','].intercalate (l.map block) ++ rest) =
      l.map keys ++ objects rest := by
    intro rest
    induction l with
    | nil => rfl
    | cons a l ih =>
      cases l with
      | nil =>
        rw [List.map_singleton, List.map_singleton, List.intercalate_singleton, h]
        rfl
      | cons b l =>
        rw [List.map_cons, List.map_cons, List.intercalate_cons_cons, List.append_assoc,
          List.append_assoc, h]
        exact congrArg (_ :: ·) ih
  exact (hitems [.mark ']']).trans (List.append_nil _)

end LetterPages.Json
