import LetterPages.Storage

/-!
# Jobs

A job makes calls to a storage, prints lines and notes log entries, and ends with a result or a
fault. A refused call ends it.
-/

namespace LetterPages

inductive Job (α : Type) where
  | done (a : α)
  | failed (f : Fault)
  | read (path : Path) (next : Bytes → Job α)
  | makeDir (path : Path) (next : Job α)
  | write (path : Path) (content : Bytes) (next : Job α)
  | print (line : String) (next : Job α)
  | log (e : Log.Entry) (next : Job α)

namespace Job

def bind {α β : Type} : Job α → (α → Job β) → Job β
  | done a, k => k a
  | failed f, _ => failed f
  | read p next, k => read p fun content => (next content).bind k
  | makeDir p next, k => makeDir p (next.bind k)
  | write p content next, k => write p content (next.bind k)
  | print line next, k => print line (next.bind k)
  | log e next, k => log e (next.bind k)

instance : Monad Job where
  pure := done
  bind := bind

def ofExcept {α : Type} : Except Fault α → Job α
  | .ok a => done a
  | .error f => failed f

def fetch (path : Path) : Job Bytes :=
  read path done

def prepareDir (path : Path) : Job Unit :=
  makeDir path (done ())

def store (path : Path) (content : Bytes) : Job Unit :=
  write path content (done ())

def say (line : String) : Job Unit :=
  print line (done ())

def note (level : Log.Level) (origin : Log.Origin) (message : String) : Job Unit :=
  log ⟨level, origin, message⟩ (done ())

/-! ## Running -/

/-- What a run leaves behind. -/
structure Run (σ α : Type) where
  store : σ
  events : List Event
  outcome : Except Fault α

def Run.after {σ α : Type} (events : List Event) (r : Run σ α) : Run σ α :=
  { r with events := events ++ r.events }

def run {σ α : Type} (storage : Storage σ) : Job α → σ → Run σ α
  | done a, s => ⟨s, [], .ok a⟩
  | failed f, s => ⟨s, [], .error f⟩
  | read p next, s =>
    .after (storage.announce (.read p)) <|
      match storage.read p s with
      | .ok content => (next content).run storage s
      | .error reason => ⟨s, [], .error ((Call.read p).fault storage.base reason)⟩
  | makeDir p next, s =>
    .after (storage.announce (.makeDir p)) <|
      match storage.makeDir p s with
      | (s, none) => next.run storage s
      | (s, some reason) => ⟨s, [], .error ((Call.makeDir p).fault storage.base reason)⟩
  | write p content next, s =>
    .after (storage.announce (.write p content)) <|
      match storage.write p content s with
      | (s, none) => next.run storage s
      | (s, some reason) => ⟨s, [], .error ((Call.write p content).fault storage.base reason)⟩
  | print line next, s => .after [.printed line] (next.run storage s)
  | log e next, s => .after [.logged e] (next.run storage s)

namespace Run

variable {σ α : Type}

def calls (r : Run σ α) : List Call :=
  r.events.filterMap Event.call?

def lines (r : Run σ α) : List String :=
  r.events.filterMap Event.line?

def entries (r : Run σ α) : List Log.Entry :=
  r.events.filterMap Event.entry?

end Run

end Job

end LetterPages
