import LetterPages.Text.Utf8

/-!
# Paths

A path is a byte string whose components are separated by slashes. Joining keeps the text as
written. The parent looks at components only: empty components and dots count for nothing, except
a slash or a dot at the very front.
-/

namespace LetterPages

structure Path where
  bytes : Bytes
  deriving DecidableEq, Repr

namespace Path

def slash : UInt8 := 0x2F

def dot : UInt8 := 0x2E

def ofString (s : String) : Path :=
  ⟨Utf8.ofString s⟩

/-- The text to show for a path. -/
def shown (p : Path) : String :=
  Utf8.lossy p.bytes

def isAbsolute (p : Path) : Bool :=
  p.bytes.head? == some slash

/-- Whether a component can follow without a further slash. -/
def isOpen (p : Path) : Bool :=
  p.bytes.isEmpty || p.bytes.getLast? == some slash

/-- Where `p` lies when it is read from `base`. An absolute path stands for itself. -/
def join (base p : Path) : Path :=
  if p.isAbsolute then p
  else if base.isOpen then ⟨base.bytes ++ p.bytes⟩
  else ⟨base.bytes ++ slash :: p.bytes⟩

/-- The stretches between slashes; there is always one more of them than slashes. -/
def segments : Bytes → List Bytes
  | [] => [[]]
  | b :: r =>
    if b = slash then [] :: segments r
    else match segments r with
      | [] => [[b]]
      | s :: rest => (b :: s) :: rest

def unsegment : List Bytes → Bytes
  | [] => []
  | [s] => s
  | s :: rest => s ++ slash :: unsegment rest

/-- A segment that is neither empty nor a dot. -/
def isNamed (s : Bytes) : Bool :=
  s != [] && s != [dot]

/-- The slash or the dot that a path begins with, apart from the rest. -/
def splitFront : Bytes → Bytes × Bytes
  | [] => ([], [])
  | b :: r =>
    if b = slash then ([slash], r)
    else if b = dot ∧ (r = [] ∨ r.head? = some slash) then ([dot], r)
    else ([], b :: r)

/-- The segments up to the last named one, in reverse. -/
def trimmed (body : Bytes) : List Bytes :=
  (segments body).reverse.dropWhile fun s => !isNamed s

/-- The directory that holds the last component. There is none for the root and for the empty
path; the parent of a single component is the empty path. -/
def parent? (p : Path) : Option Path :=
  let (front, body) := splitFront p.bytes
  match trimmed body with
  | _ :: before => some ⟨front ++ unsegment (before.dropWhile fun s => !isNamed s).reverse⟩
  | [] => if front = [dot] then some ⟨[]⟩ else none

theorem segments_ne_nil (b : Bytes) : segments b ≠ [] := by
  cases b with
  | nil => simp [segments]
  | cons b r =>
    rw [segments]
    split
    · simp
    · split <;> simp

theorem unsegment_segments (b : Bytes) : unsegment (segments b) = b := by
  induction b with
  | nil => rfl
  | cons b r ih =>
    rw [segments]
    split
    · rename_i hb
      cases hr : segments r with
      | nil => exact absurd hr (segments_ne_nil r)
      | cons s rest => simp [unsegment, ← hr, ih, hb]
    · split
      · rename_i hr
        exact absurd hr (segments_ne_nil r)
      · rename_i s rest hr
        rw [hr] at ih
        cases rest with
        | nil => simpa [unsegment] using ih
        | cons t rest => simpa [unsegment] using ih

theorem length_unsegment_append (l : List Bytes) (s : Bytes) (r : List Bytes) :
    (unsegment l).length + s.length ≤ (unsegment (l ++ s :: r)).length := by
  induction l with
  | nil =>
    cases r with
    | nil => simp [unsegment]
    | cons t r => simp [unsegment]
  | cons a l ih =>
    cases l with
    | nil =>
      have h : (unsegment (s :: r)).length ≥ s.length := by
        cases r <;> simp [unsegment]
      simp only [List.cons_append, List.nil_append, unsegment, List.length_append, List.length_cons]
      omega
    | cons b l =>
      simp only [List.cons_append, unsegment, List.length_append, List.length_cons] at ih ⊢
      omega

theorem splitFront_append (b : Bytes) : (splitFront b).1 ++ (splitFront b).2 = b := by
  cases b with
  | nil => rfl
  | cons b r =>
    rw [splitFront]
    split
    · rename_i hb
      simp [hb]
    · split
      · rename_i hb
        simp [hb.1]
      · rfl

theorem dropWhile_eq_append (p : Bytes → Bool) (l : List Bytes) :
    ∃ t, l = t ++ l.dropWhile p :=
  ⟨l.takeWhile p, (List.takeWhile_append_dropWhile).symm⟩

/-- Going up always ends. -/
theorem length_lt_of_parent? {p q : Path} (h : p.parent? = some q) :
    q.bytes.length < p.bytes.length := by
  have hsplit := splitFront_append p.bytes
  unfold parent? at h
  generalize splitFront p.bytes = fb at h hsplit
  obtain ⟨front, body⟩ := fb
  simp only at h hsplit
  have hlen : p.bytes.length = front.length + body.length := by
    rw [← hsplit, List.length_append]
  split at h
  · rename_i s before htrim
    obtain ⟨t, ht⟩ := dropWhile_eq_append (fun s => !isNamed s) (segments body).reverse
    obtain ⟨u, hu⟩ := dropWhile_eq_append (fun s => !isNamed s) before
    have hnamed : isNamed s = true := by
      have := List.head?_dropWhile_not (fun s => !isNamed s) (segments body).reverse
      rw [show ((segments body).reverse.dropWhile fun s => !isNamed s) = s :: before from htrim]
        at this
      simpa using this
    have hpos : 0 < s.length := by
      cases s with
      | nil => simp [isNamed] at hnamed
      | cons => simp
    rw [show ((segments body).reverse.dropWhile fun s => !isNamed s) = s :: before from htrim]
      at ht
    have hseg : segments body =
        (before.dropWhile fun s => !isNamed s).reverse ++ (u.reverse ++ s :: t.reverse) := by
      have h₁ : segments body = before.reverse ++ s :: t.reverse := by
        have := congrArg List.reverse ht
        simpa using this
      have h₂ : before.reverse = (before.dropWhile fun s => !isNamed s).reverse ++ u.reverse := by
        have := congrArg List.reverse hu
        simpa using this
      rw [h₁, h₂, List.append_assoc]
    have hq := Option.some.inj h
    subst hq
    have hbody : body.length = (unsegment (segments body)).length := by
      rw [unsegment_segments]
    have hbound :
        (unsegment (before.dropWhile fun s => !isNamed s).reverse).length < body.length := by
      rw [hbody, hseg]
      have h₁ := length_unsegment_append
        ((before.dropWhile fun s => !isNamed s).reverse ++ u.reverse) s t.reverse
      rw [List.append_assoc] at h₁
      have h₂ : (unsegment (before.dropWhile fun s => !isNamed s).reverse).length ≤
          (unsegment ((before.dropWhile fun s => !isNamed s).reverse ++ u.reverse)).length := by
        cases u.reverse with
        | nil => simp
        | cons a l =>
          have := length_unsegment_append (before.dropWhile fun s => !isNamed s).reverse a l
          omega
      omega
    simp only [List.length_append]
    omega
  · split at h
    · rename_i hfront
      have hq := Option.some.inj h
      subst hq
      simp only [hlen, hfront, List.length_cons, List.length_nil]
      omega
    · cases h

end Path

end LetterPages
