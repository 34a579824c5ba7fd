import Phrasebook.Engine
import Phrasebook.Workspace

/-!
# Batches of files

Each file stands alone: one that cannot be read yields a failure and nothing else. What the files
yield is put together in the order of the paths that they are shown by.
-/

namespace Phrasebook

/-- A phrase and the file that it stands in. -/
structure Located where
  path : Text
  phrase : Phrase
  deriving DecidableEq, Repr

/-- Why a file yields nothing. -/
inductive Failure.Cause where
  | unreadable (failure : Workspace.Failure)
  | fault (fault : Fault)
  deriving DecidableEq, Repr

structure Failure where
  path : Text
  cause : Failure.Cause
  deriving DecidableEq, Repr

namespace Failure

/-- The line of the fault. -/
def line? (failure : Failure) : Option Nat :=
  match failure.cause with
  | .unreadable _ => none
  | .fault fault => some fault.position.line

def Cause.message : Cause → Text
  | unreadable reason => "failed to read file: " ++ reason.message
  | .fault found => found.cause.message

/-- The file, and the line if there is one. -/
def place (failure : Failure) : Text :=
  match failure.line? with
  | some line => Text.place failure.path line
  | none => failure.path

def message (failure : Failure) : Text := failure.place ++ ": " ++ failure.cause.message

end Failure

/-- What a batch yields. -/
structure Batch where
  phrases : List Located
  failures : List Failure
  /-- The number of files that have an engine. -/
  filesProcessed : Nat
  deriving DecidableEq, Repr

namespace Batch

/-- The path by which a file is shown: from `root`, with slashes. -/
def shownPath (root path : Text) : Text :=
  ((Path.strip? root path).getD path).map fun c => if c = '\\' then '/' else c

/-- What one file yields, under the path by which it is shown. -/
structure Outcome where
  path : Text
  result : Except Failure.Cause (List Phrase)

/-- The outcome of a file that has an engine. -/
def outcome? (workspace : Workspace) (config : Config) (root path : Text) : Option Outcome :=
  (config.engine? path).map fun engine =>
    { path := shownPath root path
      result := do
        let source ← (workspace.read path).mapError .unreadable
        (engine.phrases config.rules source).mapError .fault }

/-- Whether `a` does not come behind `b` in the order of the shown paths. -/
def Outcome.le (a b : Outcome) : Bool := !decide (b.path < a.path)

def Outcome.phrases (outcome : Outcome) : List Located :=
  match outcome.result with
  | .ok phrases => phrases.map fun phrase => ⟨outcome.path, phrase⟩
  | .error _ => []

def Outcome.failure? (outcome : Outcome) : Option Failure :=
  match outcome.result with
  | .ok _ => none
  | .error cause => some ⟨outcome.path, cause⟩

/-- The batch that some outcomes make up. -/
def ofOutcomes (outcomes : List Outcome) : Batch :=
  let sorted := outcomes.mergeSort Outcome.le
  ⟨sorted.flatMap Outcome.phrases, sorted.filterMap Outcome.failure?, outcomes.length⟩

/-- The batch of the files at `paths`; those without an engine are left out. -/
def run (workspace : Workspace) (config : Config) (root : Text) (paths : List Text) : Batch :=
  ofOutcomes (paths.filterMap (outcome? workspace config root))

end Batch

end Phrasebook
