import ProjectFile.Editor.Completion
import ProjectFile.Editor.Embedded
import ProjectFile.Evaluation.Diagnostic
import ProjectFile.Evaluation.Locator
import ProjectFile.Workspace.Settings

/-!
One version of a document with everything that is known about it. A snapshot is built whole from a
text and never changed.
-/

namespace ProjectFile.Workspace

open Evaluation

/-- The version that an editor gives to a text. -/
abbrev Version := Int

/-- Why a document has no object locator. -/
inductive LocatorUnavailable where
  /-- Evaluation waits for a save. -/
  | pending
  | notWellFormed
  | evaluationFailed (error : EvaluationError)
  deriving Repr

def LocatorUnavailable.message (reason : LocatorUnavailable) : String :=
  "object locator unavailable: " ++
    match reason with
    | .pending => "evaluation is pending until the document is saved"
    | .notWellFormed => "the document is not well-formed XML"
    | .evaluationFailed error => "evaluation failed: " ++ error.message

/-- How documents are analysed. -/
structure Analysis where
  engine : Engine
  settings : Settings

/-- One version of a document. -/
structure Snapshot where
  file : FileId
  path : FilePath
  version : Version
  text : Text
  index : LineIndex
  document : Markup.Document
  /-- The latest evaluation, which may be older than the text. -/
  project : Option EvaluatedProject
  locator : Except LocatorUnavailable ObjectLocator
  diagnostics : List Diagnostic
  /-- Whether the text has not been evaluated yet. -/
  isStale : Bool

namespace Snapshot

def syntaxDiagnostics (file : FileId) (index : LineIndex) (d : Markup.Document) : List Diagnostic :=
  d.errors.map (Diagnostic.ofSyntaxError file index)

/-- A text that has been evaluated, as far as its markup and the engine allow. -/
def evaluated (a : Analysis) (file : FileId) (path : FilePath) (t : Text) (version : Version) :
    Snapshot :=
  let document := Markup.Document.parse t
  let index := LineIndex.ofText t
  let found := syntaxDiagnostics file index document
  let snapshot (project : Option EvaluatedProject)
      (locator : Except LocatorUnavailable ObjectLocator) (more : List Diagnostic) : Snapshot :=
    { file, path, version, text := t, index, document, project, locator,
      diagnostics := found ++ more, isStale := false }
  if document.isValid then
    match a.engine path t a.settings.globalProperties with
    | .ok project => snapshot (some project) (.ok (.build project document index)) []
    | .error e =>
      snapshot none (.error (.evaluationFailed e)) [.ofEvaluationError file index e]
  else snapshot none (.error .notWellFormed) []

/-- A text that has only been parsed. It keeps the evaluation of the version before. -/
def parsed (before : Snapshot) (t : Text) (version : Version) : Snapshot :=
  let document := Markup.Document.parse t
  let index := LineIndex.ofText t
  { file := before.file
    path := before.path
    version
    text := t
    index
    document
    project := before.project
    locator := .error .pending
    diagnostics := syntaxDiagnostics before.file index document
    isStale := true }

/-- What is at a position. -/
def inspect (s : Snapshot) (p : Position) : Except PositionError Editor.Location :=
  (s.index.offset p).map (Editor.inspect s.document)

/-- The deepest node of the expression at a position, and its region. -/
def expressionAt (s : Snapshot) (p : Position) :
    Except PositionError (Option (Expression.Expr × Region)) :=
  (s.inspect p).map fun l => l.expression?.map fun e => (e.node, s.index.region e.span)

def listItemAt (s : Snapshot) (p : Position) : Except PositionError (Option Editor.ListItemAt) :=
  (s.inspect p).map Editor.Location.listItem?

/-- The object that the innermost declaring element around a position declares. A position outside
the text declares nothing. -/
def objectAt (s : Snapshot) (p : Position) : Except LocatorUnavailable (Option LocatedObject) :=
  s.locator.map fun locator =>
    match s.index.offset p with
    | .ok offset => locator.find? offset
    | .error _ => none

end Snapshot

/-! ## Queries -/

/-- Why a query is not answered. -/
inductive QueryError where
  | cancelled
  | versionMismatch (expected actual : Version)
  | position (error : PositionError)
  | locatorUnavailable (reason : LocatorUnavailable)
  deriving Repr

def QueryError.message : QueryError → String
  | .cancelled => "query cancelled"
  | .versionMismatch expected actual =>
    "expected document version " ++ toString expected ++ ", found " ++ toString actual
  | .position error => error.message
  | .locatorUnavailable reason => reason.message

/-- Runs a query on a snapshot, unless the query has been cancelled or expects another version. -/
def Snapshot.query {α : Type} (s : Snapshot) (cancelled : Bool) (expected : Option Version)
    (run : Snapshot → Except QueryError α) : Except QueryError α :=
  if cancelled then .error .cancelled
  else
    match expected with
    | some version =>
      if version = s.version then run s else .error (.versionMismatch version s.version)
    | none => run s

end ProjectFile.Workspace
