import LetterPages.Proofs.ChunkPlaces
import LetterPages.Proofs.KeptFiles

/-!
# Plain paths

A plain path is relative UTF-8 text whose components are proper names. Read from a base it leads, if
it leads anywhere, to the place that its names spell below the base.
-/

namespace LetterPages

namespace Path

/-! ## Names and plain paths -/

/-- A component that is neither empty nor a dot or two, and that a tree can hold. -/
structure IsName (name : Bytes) : Prop where
  ne_nil : name ≠ []
  ne_dot : name ≠ [dot]
  ne_dotDot : name ≠ FileTree.dotDot
  nul_not_mem : 0 ∉ name

/-- A relative path of proper names that is text. -/
structure IsPlain (p : Path) : Prop where
  text_eq : ofString p.shown = p
  names : ∀ name ∈ segments p.bytes, IsName name

instance (name : Bytes) : Decidable (IsName name) :=
  decidable_of_iff (name ≠ [] ∧ name ≠ [dot] ∧ name ≠ FileTree.dotDot ∧ 0 ∉ name)
    ⟨fun h => ⟨h.1, h.2.1, h.2.2.1, h.2.2.2⟩, fun h => ⟨h.1, h.2, h.3, h.4⟩⟩

instance (p : Path) : Decidable p.IsPlain :=
  decidable_of_iff (ofString p.shown = p ∧ ∀ name ∈ segments p.bytes, IsName name)
    ⟨fun h => ⟨h.1, h.2⟩, fun h => ⟨h.1, h.2⟩⟩

@[simp]
theorem shown_ofString (text : String) : (ofString text).shown = text := by
  rw [shown, ofString, Utf8.ofString, Utf8.lossy_encode, String.ofList_toList]

theorem segments_inj {b b' : Bytes} (h : segments b = segments b') : b = b' := by
  rw [← unsegment_segments b, h, unsegment_segments]

theorem IsName.isHere_eq {name : Bytes} (h : IsName name) : FileTree.isHere name = false := by
  simp [FileTree.isHere, h.ne_nil, h.ne_dot]

section Plain

variable {p q : Path}

theorem IsPlain.eq_of_shown (hp : p.IsPlain) (hq : q.IsPlain) (h : p.shown = q.shown) : p = q := by
  rw [← hp.text_eq, h, hq.text_eq]

theorem IsPlain.isAbsolute_eq (hp : p.IsPlain) : p.isAbsolute = false := by
  obtain ⟨bytes⟩ := p
  cases bytes with
  | nil => rfl
  | cons b rest =>
    apply beq_eq_false_iff_ne.mpr
    rintro hb
    obtain rfl : b = slash := Option.some.inj hb
    have hname := hp.names [] (by simp [segments])
    exact hname.ne_nil rfl

/-- A plain path is no empty text and does not end in a slash. -/
theorem IsPlain.isOpen_eq (hp : p.IsPlain) : p.isOpen = false := by
  rw [isOpen, Bool.or_eq_false_iff, List.isEmpty_eq_false_iff, beq_eq_false_iff_ne]
  constructor
  · intro hempty
    exact (hp.names [] (by rw [hempty]; exact List.mem_singleton_self [])).ne_nil rfl
  · intro hlast
    obtain ⟨body, hbody⟩ := List.getLast?_eq_some_iff.mp hlast
    refine (hp.names [] ?_).ne_nil rfl
    rw [hbody, segments_append_slash]
    exact List.mem_append_right _ (List.mem_singleton_self [])

theorem IsPlain.bytes_join (hp : p.IsPlain) (hq : q.IsPlain) :
    (p.join q).bytes = p.bytes ++ slash :: q.bytes := by
  rw [Path.bytes_join hq.isAbsolute_eq, front, hp.isOpen_eq, if_neg Bool.false_ne_true,
    List.append_assoc, List.singleton_append]

theorem IsPlain.join (hp : p.IsPlain) (hq : q.IsPlain) : (p.join q).IsPlain where
  text_eq := by
    have htext : ∀ r : Path, r.IsPlain → r.bytes = Utf8.ofString r.shown :=
      fun r hr => congrArg bytes hr.text_eq.symm
    have hslash : Utf8.ofString "/" = [slash] := by decide +kernel
    have hbytes : (p.join q).bytes = Utf8.ofString (p.shown ++ "/" ++ q.shown) := by
      rw [hp.bytes_join hq, Utf8.ofString_append, Utf8.ofString_append, hslash, ← htext p hp,
        ← htext q hq, List.append_assoc, List.singleton_append]
    have hjoin : p.join q = ofString (p.shown ++ "/" ++ q.shown) := congrArg Path.mk hbytes
    rw [hjoin, shown_ofString]
  names := by
    rw [hp.bytes_join hq, segments_append_slash]
    intro name hname
    rcases List.mem_append.mp hname with hname | hname
    · exact hp.names name hname
    · exact hq.names name hname

end Plain

/-- A relative path follows a base after the base's text, up to one slash at its end, and a slash. -/
theorem exists_body {base p : Path} (hbase : base.bytes ≠ []) (hp : p.isAbsolute = false) :
    ∃ body, (base.join p).bytes = body ++ slash :: p.bytes ∧
      (base.join p).isAbsolute = base.isAbsolute ∧
      (base.bytes = body ∨ base.bytes = body ++ [slash]) := by
  have hjoin : (base.join p).bytes = base.front ++ p.bytes := Path.bytes_join hp
  have hshape : ∃ body, (base.join p).bytes = body ++ slash :: p.bytes ∧
      (base.bytes = body ∨ base.bytes = body ++ [slash]) := by
    by_cases hopen : base.isOpen
    · rw [front, if_pos hopen] at hjoin
      rw [isOpen, Bool.or_eq_true, List.isEmpty_iff, beq_iff_eq] at hopen
      obtain ⟨body, hbody⟩ := List.getLast?_eq_some_iff.mp (hopen.resolve_left hbase)
      exact ⟨body, by simp [hjoin, hbody], .inr hbody⟩
    · rw [front, if_neg hopen] at hjoin
      exact ⟨base.bytes, by simp [hjoin], .inl rfl⟩
  obtain ⟨body, hbytes, hbody⟩ := hshape
  refine ⟨body, hbytes, ?_, hbody⟩
  rw [isAbsolute, isAbsolute, hbytes]
  rcases hbody with hbody | hbody
  · obtain ⟨b, rest, hcons⟩ := List.exists_cons_of_ne_nil (hbody ▸ hbase)
    simp [hbody, hcons]
  · cases body <;> simp [hbody]

theorem isPlain_nameOf (index : Nat) : (ofString (Chunk.nameOf index)).IsPlain where
  text_eq := by rw [shown_ofString]
  names := by
    rw [ofString, segments_of_not_mem (Chunk.slash_not_mem_nameOf index)]
    intro name hname
    obtain rfl := List.mem_singleton.mp hname
    obtain ⟨rest, hrest⟩ := Chunk.ofString_nameOf index
    have hnul := Chunk.nul_not_mem_nameOf index
    rw [hrest] at hnul ⊢
    exact ⟨List.cons_ne_nil _ _, by simp [dot], by simp [FileTree.dotDot, dot], hnul⟩

end Path

/-! ## Walking from a base -/

namespace FileTree

/-- The place that a base leads to; an empty base is the current directory. -/
def locateBase (t : FileTree) (current : Place) (base : Path) : Except Refusal Place :=
  if base.bytes = [] then .ok current else t.locate current base

variable {t t' : FileTree} {current root place : Place} {base p : Path}

theorem Extends.locateBase (hmore : t.Extends t') (h : t.locateBase current base = .ok root) :
    t'.locateBase current base = .ok root := by
  unfold FileTree.locateBase at h ⊢
  split
  next hempty => rwa [if_pos hempty] at h
  next hempty =>
    rw [if_neg hempty] at h
    exact hmore.locate h

theorem walk_append {start : Place} {names more : List Bytes} :
    t.walk start (names ++ more) = t.walk start names >>= fun next => t.walk next more :=
  List.foldlM_append

theorem walk_names {start : Place} {names : List Bytes} (hnames : ∀ name ∈ names, Path.IsName name)
    (h : t.walk start names = .ok place) : place = start ++ names := by
  induction names generalizing start with
  | nil =>
    cases h
    rw [List.append_nil]
  | cons name names ih =>
    rw [walk, List.foldlM_cons] at h
    obtain ⟨next, hstep, hrest⟩ := exists_of_bind_eq_ok h
    have hname := hnames name List.mem_cons_self
    obtain rfl := step_eq_ok hstep hname.isHere_eq hname.ne_dotDot
    rw [ih (fun name hmem => hnames name (List.mem_cons_of_mem _ hmem)) hrest, List.append_assoc,
      List.singleton_append]

/-- A slash at the end of a path does not lead elsewhere. -/
theorem walk_open {start : Place} {body : Bytes}
    (h : t.walk start (Path.segments (body ++ [Path.slash])) = .ok root) :
    t.walk start (Path.segments body) = .ok root := by
  rw [Path.segments_append_slash, walk_append] at h
  obtain ⟨next, hbody, hend⟩ := exists_of_bind_eq_ok h
  simp only [Path.segments, walk, List.foldlM_cons, List.foldlM_nil] at hend
  obtain ⟨stop, hstep, hstop⟩ := exists_of_bind_eq_ok hend
  obtain rfl := Except.ok.inj hstop
  -- the empty name stands for the directory it is met in
  unfold step at hstep
  obtain ⟨-, hstep⟩ := of_guard_eq_ok hstep
  obtain rfl := Except.ok.inj hstep
  exact hbody

/-- A plain path that leads somewhere from a base leads to its names below the base. -/
theorem place_of_locate (hroot : t.locateBase current base = .ok root) (hp : p.IsPlain)
    (h : t.locate current (base.join p) = .ok place) : place = root ++ Path.segments p.bytes := by
  obtain ⟨-, -, hwalk⟩ := exists_of_bind_eq_ok h
  unfold locateBase at hroot
  by_cases hempty : base.bytes = []
  · rw [if_pos hempty] at hroot
    obtain rfl := Except.ok.inj hroot
    have hjoin : base.join p = p := by simp [Path.join, hp.isAbsolute_eq, Path.isOpen, hempty]
    rw [hjoin, startOf, hp.isAbsolute_eq, if_neg Bool.false_ne_true] at hwalk
    exact walk_names hp.names hwalk
  · rw [if_neg hempty] at hroot
    obtain ⟨-, -, hbase⟩ := exists_of_bind_eq_ok hroot
    obtain ⟨body, hjoin, hstart, hbody⟩ := Path.exists_body hempty hp.isAbsolute_eq
    have hfront : t.walk (startOf current base) (Path.segments body) = .ok root := by
      rcases hbody with hbody | hbody
      · rwa [hbody] at hbase
      · rw [hbody] at hbase
        exact walk_open hbase
    rw [startOf, hstart, ← startOf, hjoin, Path.segments_append_slash, walk_append, hfront] at hwalk
    exact walk_names hp.names hwalk

end FileTree

end LetterPages
