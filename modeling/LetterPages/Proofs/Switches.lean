import LetterPages.Basic
import LetterPages.CommandLine

/-!
# Switches in front of the arguments

An option is read alike whether or not a switch is on, unless it is that switch. So a switch that
arguments leave off may be put in front of them, and changes nothing but itself.
-/

namespace LetterPages.CommandLine

def Switch.name : Switch → String
  | dryRun => "dry-run"
  | monitor => "monitor"
  | jsonLogs => "json-logs"
  | verbose => "verbose"

/-- The argument that turns the switch on. -/
def Switch.argument (s : Switch) : Bytes :=
  Utf8.ofString ("--" ++ s.name)

namespace Arguments

def on (a : Arguments) : Switch → Arguments
  | .dryRun => { a with dryRun := true }
  | .monitor => { a with monitor := true }
  | .jsonLogs => { a with jsonLogs := true }
  | .verbose => { a with verbose := true }

variable {a a' : Arguments} {s t : Switch}

theorem turnOn_eq_ok_iff : a.turnOn t = .ok a' ↔ a.has t = false ∧ a' = a.on t := by
  unfold turnOn
  cases a.has t <;> cases t <;> simp [on, eq_comm]

theorem has_on : (a.on t).has s = (a.has s || t == s) := by
  cases s <;> cases t <;> simp [on, has]

theorem on_comm : (a.on s).on t = (a.on t).on s := by
  cases s <;> cases t <;> rfl

theorem set_on {name : Setting} {value : Bytes} (h : a.set name value = .ok a') :
    a'.has s = a.has s ∧ (a.on s).set name value = .ok (a'.on s) := by
  cases name
  all_goals
    obtain ⟨b, hb, rfl⟩ := exists_of_map_eq_ok h
    cases s <;> exact ⟨rfl, congrArg (Except.map _) hb⟩

end Arguments

namespace Reading

def on (r : Reading) (s : Switch) : Reading :=
  { r with arguments := r.arguments.on s }

/-- The step comes to the same, unless it turns the switch on itself. -/
def Overlooks (s : Switch) (step : Reading → Except Usage Reading) : Prop :=
  ∀ {r r' : Reading}, step r = .ok r' → r'.arguments.has s = false →
    r.arguments.has s = false ∧ step (r.on s) = .ok (r'.on s)

variable {s : Switch}

theorem settle_on {r : Reading} {a : Arguments} (h : r.settle = .ok a) :
    a.has s = r.arguments.has s ∧ (r.on s).settle = .ok (a.on s) := by
  obtain ⟨arguments, pending⟩ := r
  rcases pending with - | ⟨name, - | value⟩
  · cases h
    exact ⟨rfl, rfl⟩
  · cases h
  · exact Arguments.set_on h

theorem overlooks_turnOn (t : Switch) : Overlooks s (·.turnOn t) := by
  intro r r' h hoff
  obtain ⟨a, hsettle, h⟩ := exists_of_bind_eq_ok h
  obtain ⟨b, hturn, h⟩ := exists_of_bind_eq_ok h
  cases h
  obtain ⟨hfree, rfl⟩ := Arguments.turnOn_eq_ok_iff.mp hturn
  obtain ⟨hhas, hon⟩ := settle_on hsettle
  have hboth : a.has s = false ∧ (t == s) = false := by
    rw [← Bool.or_eq_false_iff, ← Arguments.has_on]
    exact hoff
  have hagain : (a.on s).turnOn t = .ok ((a.on t).on s) := by
    rw [Arguments.turnOn_eq_ok_iff, Arguments.has_on, hfree, BEq.comm, hboth.2, Arguments.on_comm]
    exact ⟨rfl, rfl⟩
  refine ⟨hhas ▸ hboth.1, ?_⟩
  dsimp only
  rw [turnOn, hon]
  dsimp only [bind, Except.bind]
  rw [hagain]
  rfl

theorem overlooks_setNow (name : Setting) (value : Bytes) :
    Overlooks s (·.setNow name value) := by
  intro r r' h hoff
  obtain ⟨settled, hsettle, h⟩ := exists_of_bind_eq_ok h
  obtain ⟨changed, hset, h⟩ := exists_of_bind_eq_ok h
  cases h
  obtain ⟨hhas, hon⟩ := settle_on hsettle
  obtain ⟨hhas', hon'⟩ := Arguments.set_on hset
  refine ⟨hhas ▸ hhas' ▸ hoff, ?_⟩
  dsimp only
  rw [setNow, hon]
  dsimp only [bind, Except.bind]
  rw [hon']
  rfl

theorem overlooks_await (name : Setting) : Overlooks s (·.await name) := by
  intro r r' h hoff
  obtain ⟨settled, hsettle, h⟩ := exists_of_bind_eq_ok h
  cases h
  obtain ⟨hhas, hon⟩ := settle_on hsettle
  refine ⟨hhas ▸ hoff, ?_⟩
  dsimp only
  rw [await, hon]
  rfl

theorem overlooks_error (u : Usage) : Overlooks s fun _ => .error u := by
  intro r r' h
  cases h

theorem not_askHelp_eq_ok {r r' : Reading} : r.askHelp ≠ .ok r' := by
  intro h
  obtain ⟨_, _, h⟩ := exists_of_bind_eq_ok h
  cases h

theorem overlooks_askHelp : Overlooks s askHelp := by
  intro r r' h
  exact absurd h not_askHelp_eq_ok

theorem overlooks_plain (value : Bytes) : Overlooks s (·.plain value) := by
  intro r r' h hoff
  obtain ⟨arguments, pending⟩ := r
  rcases pending with - | ⟨name, - | other⟩
  · cases h
  · cases h
    exact ⟨hoff, rfl⟩
  · cases h

theorem overlooks_long (body : Bytes) : Overlooks s (·.long body) := by
  unfold long
  split
  · exact overlooks_error _
  · exact overlooks_await _
  · exact overlooks_setNow _ _
  · exact overlooks_turnOn _
  · exact overlooks_askHelp
  · exact overlooks_error _

theorem overlooks_short (letters : Bytes) : Overlooks s (·.short letters) := by
  induction letters with
  | nil =>
    intro r r' h hoff
    cases h
    exact ⟨hoff, rfl⟩
  | cons letter rest ih =>
    unfold short
    split
    · exact overlooks_error _
    · intro r r' h hoff
      obtain ⟨turned, hturn, h⟩ := exists_of_bind_eq_ok h
      obtain ⟨hoff', hrest⟩ := ih h hoff
      obtain ⟨hoff'', hturn'⟩ := overlooks_turnOn _ hturn hoff'
      refine ⟨hoff'', ?_⟩
      dsimp only at hturn' ⊢
      rw [hturn']
      exact hrest
    · split
      · exact overlooks_await _
      · exact overlooks_setNow _ _
    · exact overlooks_askHelp

theorem overlooks_next (argument : Bytes) : Overlooks s (·.next argument) := by
  unfold next
  split
  · exact overlooks_plain _
  · exact overlooks_plain _
  · split
    · split
      · exact overlooks_long _
      · exact overlooks_short _
    · exact overlooks_plain _

theorem read_on {arguments : List Bytes} {r : Reading} {a : Arguments}
    (h : r.read arguments = .ok a) (hoff : a.has s = false) :
    r.arguments.has s = false ∧ (r.on s).read arguments = .ok (a.on s) := by
  induction arguments generalizing r with
  | nil =>
    obtain ⟨hhas, hon⟩ := settle_on h
    exact ⟨hhas ▸ hoff, hon⟩
  | cons argument rest ih =>
    unfold read at h ⊢
    by_cases hdashes : argument = [dash, dash]
    · rw [if_pos hdashes] at h ⊢
      by_cases hrest : rest = []
      · rw [if_pos hrest] at h ⊢
        obtain ⟨hhas, hon⟩ := settle_on h
        exact ⟨hhas ▸ hoff, hon⟩
      · rw [if_neg hrest] at h
        cases h
    · rw [if_neg hdashes] at h ⊢
      obtain ⟨next, hnext, h⟩ := exists_of_bind_eq_ok h
      obtain ⟨hoff', hread⟩ := ih h
      obtain ⟨hoff'', hnext'⟩ := overlooks_next argument hnext hoff'
      refine ⟨hoff'', ?_⟩
      dsimp only at hnext'
      rw [hnext']
      exact hread

end Reading

/-- Putting a switch in front of arguments that leave it off turns it on and changes nothing else. -/
theorem parse_argument {arguments : List Bytes} {a : Arguments} {s : Switch}
    (h : parse arguments = .ok a) (hoff : a.has s = false) :
    parse (s.argument :: arguments) = .ok (a.on s) := by
  have hnext : Reading.start.next s.argument = .ok (Reading.start.on s) := by
    cases s <;> exact eq_ok_of_toOption (by decide +kernel)
  have hdashes : s.argument ≠ [Reading.dash, Reading.dash] := by
    cases s <;> decide +kernel
  rw [parse, Reading.read, if_neg hdashes, hnext]
  exact (Reading.read_on h hoff).2

end LetterPages.CommandLine
