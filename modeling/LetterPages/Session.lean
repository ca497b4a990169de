import LetterPages.Publication
import LetterPages.Settings.Changes
import LetterPages.Settings.Text
import LetterPages.Storage.Memory

/-!
# Sessions

A session works step by step on one storage in memory. It remembers its settings, the dataset read
last, and the plan made last; whole runs leave those two alone.
-/

namespace LetterPages

inductive Step where
  | put (path : Path) (content : Bytes)
  | delete (path : Path)
  | files
  | fail (verb : Verb) (key text : String)
  | heal
  | change (changes : Settings.Changes)
  | configure (text : List Char)
  | extract
  | transform
  | load
  | plan
  | run
  deriving DecidableEq, Repr

structure Session where
  base : Path
  memory : Memory
  settings : Settings
  dataset : Option Dataset
  plan : Option Plan
  deriving DecidableEq, Repr

namespace Session

def start (base : Path) : Session :=
  ⟨base, .empty, .standard, none, none⟩

inductive Answer where
  | nothing
  | wasThere (b : Bool)
  | files (listing : List (String × Bytes))
  | settings (s : Settings)
  | configured (outcome : Except Fault Settings)
  | dataset (outcome : Except Fault Dataset)
  | plan (outcome : Except Fault Plan)
  | receipt (outcome : Except Fault Publication.Receipt)
  | noDataset
  | noPlan

structure Reply where
  answer : Answer
  events : List Event

def storage (s : Session) : Storage Memory :=
  .memory s.base

def perform {α : Type} (s : Session) (job : Job α) : Job.Run Memory α :=
  job.run s.storage s.memory

/-- The session after a step, and what it answers. -/
def step (s : Session) : Step → Session × Reply
  | .put path content =>
    ({ s with memory := s.memory.put path.shown content }, ⟨.nothing, []⟩)
  | .delete path =>
    ({ s with memory := s.memory.erase path.shown },
      ⟨.wasThere (s.memory.get? path.shown).isSome, []⟩)
  | .files => (s, ⟨.files s.memory.listing, []⟩)
  | .fail verb key text => ({ s with memory := s.memory.failing verb key text }, ⟨.nothing, []⟩)
  | .heal => ({ s with memory := s.memory.healed }, ⟨.nothing, []⟩)
  | .change changes =>
    let settings := changes.apply s.settings
    ({ s with settings := settings }, ⟨.settings settings, []⟩)
  | .configure text =>
    match Settings.ofText Settings.inlinePath .empty text with
    | .ok settings => ({ s with settings := settings }, ⟨.configured (.ok settings), []⟩)
    | .error f => (s, ⟨.configured (.error f), []⟩)
  | .extract =>
    let r := s.perform (Publication.readLetters s.base s.settings)
    ({ s with memory := r.store, dataset := r.outcome.toOption }, ⟨.dataset r.outcome, r.events⟩)
  | .transform =>
    match s.dataset with
    | none => (s, ⟨.noDataset, []⟩)
    | some data =>
      let r := s.perform (Publication.paginate s.settings data)
      ({ s with
        memory := r.store, dataset := none
        plan := r.outcome.toOption <|> s.plan },
        ⟨.plan r.outcome, r.events⟩)
  | .load =>
    match s.plan with
    | none => (s, ⟨.noPlan, []⟩)
    | some plan =>
      let r := s.perform (Publication.publish s.settings plan)
      ({ s with memory := r.store, plan := none }, ⟨.receipt r.outcome, r.events⟩)
  | .plan =>
    let r := s.perform (Publication.plan s.base s.settings false)
    ({ s with memory := r.store }, ⟨.plan r.outcome, r.events⟩)
  | .run =>
    let r := s.perform (Publication.run s.base s.settings false)
    ({ s with memory := r.store }, ⟨.receipt r.outcome, r.events⟩)

/-- The replies to steps taken one after another. -/
def replies (s : Session) : List Step → List Reply
  | [] => []
  | a :: rest => (s.step a).2 :: replies (s.step a).1 rest

end Session

end LetterPages
