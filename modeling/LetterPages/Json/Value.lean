import LetterPages.Json.NumberToken
import LetterPages.Json.StringToken

/-!
# Reading JSON values of one kind

Each reader wants one kind of value. Where another kind stands, that value is looked at only as
far as it takes to say what it is, so a problem inside it comes first. Arrays and objects are read
item by item.
-/

namespace LetterPages.Json

def number (s : Bytes) : Except Problem (Number × Bytes) :=
  match s with
  | 0x2D :: r => unsigned true r
  | r => unsigned false r

theorem length_lt_of_number {s rest : Bytes} {n : Number} (h : number s = .ok (n, rest)) :
    rest.length < s.length := by
  unfold number at h
  split at h
  · have := length_lt_of_unsigned h
    simp only [List.length_cons]
    omega
  · exact length_lt_of_unsigned h

/-- What a value is that begins with the byte `b`. -/
def found (b : UInt8) (r : Bytes) : Except Problem Found :=
  if b = 0x6E then (word (letters "ull") r).map fun _ => .null
  else if b = 0x74 then (word (letters "rue") r).map fun _ => .boolean true
  else if b = 0x66 then (word (letters "alse") r).map fun _ => .boolean false
  else if b = 0x22 then (stringText r).map fun t => .string t.1
  else if b = 0x5B then .ok .sequence
  else if b = 0x7B then .ok .map
  else if b = 0x2D ∨ isDigit b then (number (b :: r)).map fun n => .number n.1
  else .error .malformed

/-- The problem of a value that begins with `b` where another kind is wanted. -/
def otherwise (wanted : Wanted) (b : UInt8) (r : Bytes) : Problem :=
  match found b r with
  | .error p => p
  | .ok f => .mismatch f wanted

/-- What `read` makes of the first byte after blanks and of what follows it. -/
def firstOf {α : Type} (read : UInt8 → Bytes → Except Problem (α × Bytes)) (s : Bytes) :
    Except Problem (α × Bytes) :=
  match skipBlanks s with
  | [] => .error .unfinished
  | b :: r => read b r

theorem length_lt_of_firstOf {α : Type} {read : UInt8 → Bytes → Except Problem (α × Bytes)}
    (consumes : ∀ {b : UInt8} {s : Bytes} {a : α} {rest : Bytes},
      read b s = .ok (a, rest) → rest.length ≤ s.length)
    {s : Bytes} {a : α} {rest : Bytes} (h : firstOf read s = .ok (a, rest)) :
    rest.length < s.length := by
  unfold firstOf at h
  split at h
  · cases h
  · rename_i hskip
    have h₁ := consumes h
    have h₂ := length_lt_of_skipBlanks hskip
    omega

/-- A reader that looks at the first byte after blanks. -/
def Reader.ofFirst {α : Type} (read : UInt8 → Bytes → Except Problem (α × Bytes))
    (consumes : ∀ {b : UInt8} {s : Bytes} {a : α} {rest : Bytes},
      read b s = .ok (a, rest) → rest.length ≤ s.length) : Reader α where
  run := firstOf read
  consumes := length_lt_of_firstOf consumes

def stringFrom (b : UInt8) (r : Bytes) : Except Problem (String × Bytes) :=
  if b = 0x22 then stringText r else .error (otherwise .string b r)

def string : Reader String :=
  .ofFirst stringFrom (by
    intro b s a rest h
    unfold stringFrom at h
    split at h
    · exact Nat.le_of_lt (length_lt_of_stringText h)
    · cases h)

def sizeFrom (b : UInt8) (r : Bytes) : Except Problem (UInt64 × Bytes) :=
  if b = 0x2D ∨ isDigit b then
    match number (b :: r) with
    | .error p => .error p
    | .ok (.natural n, rest) => .ok (n, rest)
    | .ok (.negative n, _) => .error (.negativeSize n)
    | .ok (n, _) => .error (.mismatch (.number n) .size)
  else .error (otherwise .size b r)

/-- A whole number that fits a 64-bit word. -/
def size : Reader UInt64 :=
  .ofFirst sizeFrom (by
    intro b s a rest h
    unfold sizeFrom at h
    split at h
    · split at h
      · cases h
      · rename_i hnumber
        cases h
        have := length_lt_of_number hnumber
        simp only [List.length_cons] at this
        omega
      · cases h
      · cases h
    · cases h)

/-! ## Items of an array -/

/-- Where the items of an array go on: at its end, or at an item. -/
inductive Next where
  | stop (rest : Bytes)
  | item (rest : Bytes)

def nextItem (isFirst : Bool) (s : Bytes) : Except Problem Next :=
  match skipBlanks s with
  | [] => .error .unfinished
  | b :: r =>
    if b = 0x5D then .ok (.stop r)
    else if isFirst then .ok (.item (b :: r))
    else if b = 0x2C then
      match skipBlanks r with
      | [] => .error .unfinished
      | c :: r => if c = 0x5D then .error .malformed else .ok (.item (c :: r))
    else .error .malformed

theorem length_le_of_nextItem {isFirst : Bool} {s rest : Bytes}
    (h : nextItem isFirst s = .ok (.item rest)) : rest.length ≤ s.length := by
  unfold nextItem at h
  split at h
  · cases h
  · rename_i hskip
    have h₁ := length_lt_of_skipBlanks hskip
    split at h
    · cases h
    · split at h
      · cases h
        simp only [List.length_cons]
        omega
      · split at h
        · split at h
          · cases h
          · rename_i hskip'
            have h₂ := length_lt_of_skipBlanks hskip'
            split at h
            · cases h
            · cases h
              simp only [List.length_cons]
              omega
        · cases h

theorem length_lt_of_nextItem_stop {isFirst : Bool} {s rest : Bytes}
    (h : nextItem isFirst s = .ok (.stop rest)) : rest.length < s.length := by
  unfold nextItem at h
  split at h
  · cases h
  · rename_i hskip
    have h₁ := length_lt_of_skipBlanks hskip
    split at h
    · cases h
      exact h₁
    · split at h
      · cases h
      · split at h
        · split at h
          · cases h
          · split at h <;> cases h
        · cases h

/-- The items up to the closing bracket. -/
def items {α : Type} (item : Reader α) (isFirst : Bool) (s : Bytes) :
    Except Problem (List α × Bytes) :=
  match _hnext : nextItem isFirst s with
  | .error p => .error p
  | .ok (.stop rest) => .ok ([], rest)
  | .ok (.item r) =>
    match _hitem : item.run r with
    | .error p => .error p
    | .ok (a, r) =>
      match items item false r with
      | .error p => .error p
      | .ok (more, rest) => .ok (a :: more, rest)
termination_by s.length
decreasing_by
  have h₁ := length_le_of_nextItem (by assumption)
  have h₂ := item.consumes (by assumption)
  omega

theorem length_lt_of_items {α : Type} {item : Reader α} {isFirst : Bool} {s rest : Bytes}
    {l : List α} (h : items item isFirst s = .ok (l, rest)) : rest.length < s.length := by
  fun_induction items item isFirst s generalizing l rest with
  | case1 => cases h
  | case2 isFirst s r hnext =>
    cases h
    exact length_lt_of_nextItem_stop hnext
  | case3 => cases h
  | case4 => cases h
  | case5 isFirst s r hnext a r' hitem more rest' hmore ih =>
    cases h
    have h₁ := length_le_of_nextItem hnext
    have h₂ := item.consumes hitem
    have h₃ := ih hmore
    omega

def arrayFrom {α : Type} (item : Reader α) (b : UInt8) (r : Bytes) :
    Except Problem (List α × Bytes) :=
  if b = 0x5B then items item true r else .error (otherwise .sequence b r)

def array {α : Type} (item : Reader α) : Reader (List α) :=
  .ofFirst (arrayFrom item) (by
    intro b s a rest h
    unfold arrayFrom at h
    split at h
    · exact Nat.le_of_lt (length_lt_of_items h)
    · cases h)

/-! ## Members of an object -/

/-- Where the members of an object go on: at its end, or after the opening quote of a name. -/
def nextMember (isFirst : Bool) (s : Bytes) : Except Problem Next :=
  match skipBlanks s with
  | [] => .error .unfinished
  | b :: r =>
    if b = 0x7D then .ok (.stop r)
    else if isFirst then
      if b = 0x22 then .ok (.item r) else .error .malformed
    else if b = 0x2C then
      match skipBlanks r with
      | [] => .error .unfinished
      | c :: r => if c = 0x22 then .ok (.item r) else .error .malformed
    else .error .malformed

theorem length_lt_of_nextMember {isFirst : Bool} {s rest : Bytes}
    (h : nextMember isFirst s = .ok (.item rest) ∨ nextMember isFirst s = .ok (.stop rest)) :
    rest.length < s.length := by
  unfold nextMember at h
  split at h
  · rcases h with h | h <;> cases h
  · rename_i hskip
    have h₁ := length_lt_of_skipBlanks hskip
    split at h
    · rcases h with h | h
      · cases h
      · cases h
        exact h₁
    · split at h
      · split at h
        · rcases h with h | h
          · cases h
            exact h₁
          · cases h
        · rcases h with h | h <;> cases h
      · split at h
        · split at h
          · rcases h with h | h <;> cases h
          · rename_i hskip'
            have h₂ := length_lt_of_skipBlanks hskip'
            split at h
            · rcases h with h | h
              · cases h
                omega
              · cases h
            · rcases h with h | h <;> cases h
        · rcases h with h | h <;> cases h

/-- What follows the colon after a name. -/
def colon (s : Bytes) : Except Problem Bytes :=
  match skipBlanks s with
  | [] => .error .unfinished
  | b :: r => if b = 0x3A then .ok r else .error .malformed

theorem length_lt_of_colon {s rest : Bytes} (h : colon s = .ok rest) :
    rest.length < s.length := by
  unfold colon at h
  split at h
  · cases h
  · rename_i hskip
    split at h
    · cases h
      exact length_lt_of_skipBlanks hskip
    · cases h

/-- Nothing but blanks may follow the value of a text. -/
def ending {α : Type} (value : α) (s : Bytes) : Except Problem α :=
  if skipBlanks s = [] then .ok value else .error .malformed

/-- The one value of a text. -/
def Reader.whole {α : Type} (reader : Reader α) (s : Bytes) : Except Problem α :=
  match reader.run s with
  | .error p => .error p
  | .ok (a, rest) => ending a rest

end LetterPages.Json
