import LetterPages.Basic
import LetterPages.Proofs.Scripts
import LetterPages.Storage.Memory
import Mathlib.Data.List.TakeWhile

/-!
# Scripts played in memory

In memory a refused call changes nothing and no call changes what is refused. So a script without
readings is played up to its first refused call, and the store afterwards holds what the calls
before it have written.
-/

namespace LetterPages

/-! ## Single calls -/

namespace Memory

theorem lookup_replace (key : String) (content : Bytes) (files : List (String × Bytes))
    (other : String) : (replace key content files).lookup other =
      if other = key then some content else files.lookup other :=
  lookup_replacing (replace key content) rfl (fun _ _ => rfl) files other

theorem get?_put (m : Memory) (key : String) (content : Bytes) (other : String) :
    (m.put key content).get? other = if other = key then some content else m.get? other :=
  lookup_replace key content m.files other

theorem get?_of_read {m : Memory} {path : Path} {content : Bytes}
    (h : m.read path = .ok content) : m.get? path.shown = some content := by
  unfold read at h
  split at h
  · cases h
  · split at h
    next held hget =>
      cases h
      exact hget
    next => cases h

def refusalOf (m : Memory) : Call → Option Refusal
  | .read p => m.refusal? .read p
  | .makeDir p => m.refusal? .makeDir p
  | .write p _ => m.refusal? .write p

/-- The store after a call that is not refused. -/
def perform (m : Memory) : Call → Memory
  | .write p content => m.put p.shown content
  | _ => m

/-- The calls before the first one that is refused. -/
def granted (m : Memory) (calls : List Call) : List Call :=
  calls.takeWhile fun c => (m.refusalOf c).isNone

def firstRefused (m : Memory) (calls : List Call) : Option (Call × Refusal) :=
  calls.findSome? fun c => (m.refusalOf c).map (c, ·)

theorem refusalOf_perform (m : Memory) (c : Call) : (m.perform c).refusalOf = m.refusalOf := by
  cases c <;> rfl

theorem granted_perform (m : Memory) (c : Call) : (m.perform c).granted = m.granted := by
  unfold granted
  rw [refusalOf_perform]

theorem firstRefused_perform (m : Memory) (c : Call) :
    (m.perform c).firstRefused = m.firstRefused := by
  unfold firstRefused
  rw [refusalOf_perform]

/-- The events of a script up to the first refused call. -/
def performed (m : Memory) : List Event → List Event
  | [] => []
  | .called c :: rest => .called c :: if (m.refusalOf c).isNone then m.performed rest else []
  | e :: rest => e :: m.performed rest

theorem performed_perform (m : Memory) (c : Call) : (m.perform c).performed = m.performed := by
  funext script
  induction script with
  | nil => rfl
  | cons e script ih =>
    cases e with
    | called c' => rw [performed, performed, ih, refusalOf_perform]
    | printed line => rw [performed, performed, ih] <;> simp
    | logged e => rw [performed, performed, ih] <;> simp

section Granted

variable {m : Memory} {c : Call} {reason : Refusal} (rest : List Call)

theorem granted_cons_of_none (h : m.refusalOf c = none) :
    m.granted (c :: rest) = c :: m.granted rest := by
  rw [granted, List.takeWhile_cons, h]
  rfl

theorem granted_cons_of_some (h : m.refusalOf c = some reason) : m.granted (c :: rest) = [] := by
  rw [granted, List.takeWhile_cons, h]
  rfl

theorem firstRefused_cons_of_none (h : m.refusalOf c = none) :
    m.firstRefused (c :: rest) = m.firstRefused rest := by
  rw [firstRefused, List.findSome?_cons, h]
  rfl

theorem firstRefused_cons_of_some (h : m.refusalOf c = some reason) :
    m.firstRefused (c :: rest) = some (c, reason) := by
  rw [firstRefused, List.findSome?_cons, h]
  rfl

end Granted

theorem granted_eq_self {m : Memory} {calls : List Call}
    (h : ∀ c ∈ calls.take ((m.granted calls).length + 1), m.refusalOf c = none) :
    m.granted calls = calls := by
  induction calls with
  | nil => rfl
  | cons c rest ih =>
    have hc : m.refusalOf c = none := h c (by rw [List.take_succ_cons]; exact List.mem_cons_self)
    rw [granted_cons_of_none _ hc] at h ⊢
    rw [List.length_cons, List.take_succ_cons] at h
    rw [ih fun c' hc' => h c' (List.mem_cons_of_mem c hc')]

theorem firstRefused_of_granted {m : Memory} {calls : List Call} (h : m.granted calls = calls) :
    m.firstRefused calls = none := by
  rw [firstRefused, List.findSome?_eq_none_iff]
  intro c hc
  have hnone : (m.refusalOf c).isNone = true := List.takeWhile_eq_self_iff.mp h c hc
  rw [Option.isNone_iff_eq_none.mp hnone]
  rfl

theorem mem_of_firstRefused {m : Memory} {calls : List Call} {c : Call} {reason : Refusal}
    (h : m.firstRefused calls = some (c, reason)) : c ∈ calls := by
  obtain ⟨c', hc', heq⟩ := List.exists_of_findSome?_eq_some h
  obtain ⟨_, _, hpair⟩ := Option.map_eq_some_iff.mp heq
  cases hpair
  exact hc'

theorem get?_foldl_perform {calls : List Call} {key : String}
    (h : ∀ p content, .write p content ∈ calls → p.shown ≠ key) (m : Memory) :
    (calls.foldl perform m).get? key = m.get? key := by
  induction calls generalizing m with
  | nil => rfl
  | cons c calls ih =>
    rw [List.foldl_cons, ih fun p content hmem => h p content (List.mem_cons_of_mem c hmem)]
    cases c with
    | read p => rfl
    | makeDir p => rfl
    | write p content =>
      have hne : key ≠ p.shown := (h p content List.mem_cons_self).symm
      rw [perform, get?_put, if_neg hne]

end Memory

/-! ## Scripts -/

/-- A call that asks for nothing back. -/
def Call.IsOutput : Call → Prop
  | .read _ => False
  | _ => True

theorem Storage.attempt_memory {base : Path} {c : Call} (h : c.IsOutput) (m : Memory) :
    (Storage.memory base).attempt c m =
      match m.refusalOf c with
      | some reason => (m, some reason)
      | none => (m.perform c, none) := by
  cases c with
  | read p => exact h.elim
  | makeDir p =>
    change (m, m.refusal? .makeDir p) = match m.refusal? .makeDir p with
      | some reason => (m, some reason)
      | none => (m, none)
    cases m.refusal? .makeDir p <;> rfl
  | write p content =>
    change (match m.refusal? .write p with
      | some reason => (m, some reason)
      | none => (m.put p.shown content, none)) = _
    rfl

theorem play_memory (base : Path) {script : List Event}
    (h : ∀ c ∈ callsOf script, c.IsOutput) (m : Memory) :
    (Storage.memory base).play script m =
      { store := (m.granted (callsOf script)).foldl Memory.perform m
        events := m.performed script
        outcome :=
          match m.firstRefused (callsOf script) with
          | none => .ok ()
          | some (c, reason) => .error (c.fault base reason) } := by
  induction script generalizing m with
  | nil => rfl
  | cons e script ih =>
    cases e with
    | printed line =>
      rw [Storage.play, ih h]
      rfl
    | logged e =>
      rw [Storage.play, ih h]
      rfl
    | called c =>
      have hc : c.IsOutput := h c List.mem_cons_self
      have hscript : ∀ c ∈ callsOf script, c.IsOutput :=
        fun c' hc' => h c' (List.mem_cons_of_mem c hc')
      have hcalls : callsOf (.called c :: script) = c :: callsOf script := rfl
      rw [Storage.play, Storage.attempt_memory hc, hcalls, Memory.performed]
      cases hrefusal : m.refusalOf c with
      | none =>
        rw [Memory.granted_cons_of_none _ hrefusal, Memory.firstRefused_cons_of_none _ hrefusal]
        dsimp only
        rw [ih hscript, Memory.granted_perform, Memory.firstRefused_perform,
          Memory.performed_perform]
        rfl
      | some reason =>
        rw [Memory.granted_cons_of_some _ hrefusal, Memory.firstRefused_cons_of_some _ hrefusal]
        rfl

theorem callsOf_performed (m : Memory) (script : List Event) :
    callsOf (m.performed script) =
      (callsOf script).take ((m.granted (callsOf script)).length + 1) := by
  induction script with
  | nil => rfl
  | cons e script ih =>
    cases e with
    | printed line => exact ih
    | logged e => exact ih
    | called c =>
      have hcalls : callsOf (.called c :: script) = c :: callsOf script := rfl
      rw [Memory.performed, hcalls]
      cases hrefusal : m.refusalOf c with
      | none =>
        rw [Memory.granted_cons_of_none _ hrefusal, List.length_cons, List.take_succ_cons, ← ih]
        rfl
      | some reason =>
        rw [Memory.granted_cons_of_some _ hrefusal]
        rfl

theorem performed_printed (m : Memory) (lines : List String) :
    m.performed (lines.map .printed) = lines.map .printed := by
  induction lines with
  | nil => rfl
  | cons line lines ih => exact congrArg _ ih

/-- Lines after a script that prints nothing stand only when all of its calls are granted. -/
theorem linesOf_performed_quiet (m : Memory) {quiet : List Event} (h : linesOf quiet = [])
    (lines : List String) :
    linesOf (m.performed (quiet ++ lines.map .printed)) =
      if m.granted (callsOf quiet) = callsOf quiet then lines else [] := by
  induction quiet with
  | nil =>
    rw [List.nil_append, performed_printed, linesOf_printed]
    rfl
  | cons e quiet ih =>
    cases e with
    | printed line => cases h
    | logged e => exact ih h
    | called c =>
      have hcalls : callsOf (.called c :: quiet) = c :: callsOf quiet := rfl
      rw [List.cons_append, Memory.performed, hcalls]
      cases hrefusal : m.refusalOf c with
      | none =>
        rw [Memory.granted_cons_of_none _ hrefusal]
        simp only [List.cons.injEq, true_and]
        exact ih h
      | some reason =>
        rw [Memory.granted_cons_of_some _ hrefusal, if_neg (List.cons_ne_nil _ _).symm]
        rfl

end LetterPages
