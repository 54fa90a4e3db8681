import ProjectFile.Evaluation.Model
import ProjectFile.Markup.Problem
import ProjectFile.Source.FileTable
import ProjectFile.Source.LineIndex

/-!
Diagnostics: what an editor shows about malformed markup and failed evaluation.
-/

namespace ProjectFile.Evaluation

open Markup

/-- How bad a diagnostic is. -/
inductive Severity where
  | error
  | warning
  | info
  | hint
  deriving DecidableEq, Repr

/-- The number that editors use for a severity. -/
def Severity.number : Severity → Nat
  | .error => 1
  | .warning => 2
  | .info => 3
  | .hint => 4

/-- The kinds of diagnostics that have a code. -/
inductive DiagnosticCode where
  | malformedXml
  | invalidProject
  | invalidCondition
  | engineFailure
  /-- A code given by someone else. -/
  | other (code : String)
  deriving DecidableEq, Repr

/-- The code as it is shown. -/
def DiagnosticCode.text : DiagnosticCode → String
  | .malformedXml => "XML0001"
  | .invalidProject => "MSB0001"
  | .invalidCondition => "MSB0002"
  | .engineFailure => "MSB0003"
  | .other code => code

/-- A message about a region of a file. -/
structure Diagnostic where
  file : FileId
  region : Region
  severity : Severity
  code : Option DiagnosticCode
  message : String
  deriving DecidableEq, Repr

namespace Diagnostic

def malformed (file : FileId) (index : LineIndex) (message : String) (span : Span) : Diagnostic :=
  ⟨file, index.region span, .error, some .malformedXml, message⟩

def ofSyntaxError (file : FileId) (index : LineIndex) (e : SyntaxError) : Diagnostic :=
  malformed file index e.problem.message e.span

def codeOf : EvaluationError → DiagnosticCode
  | .invalidXml .. => .invalidProject
  | .invalidCondition .. => .invalidCondition
  | .failed _ => .engineFailure

/-- The diagnostic of an evaluation error, at its position, or at the start of the text if that is
unknown or outside the text. -/
def ofEvaluationError (file : FileId) (index : LineIndex) (e : EvaluationError) : Diagnostic :=
  let offset :=
    match e.position?.map index.offset with
    | some (.ok offset) => offset
    | _ => 0
  ⟨file, .empty (index.position offset), .error, some (codeOf e), e.message⟩

def isError (d : Diagnostic) : Bool := d.severity == .error

end Diagnostic

/-- The diagnostics collected about one version of a file. -/
structure DiagnosticCollector where
  file : FileId
  index : LineIndex
  diagnostics : List Diagnostic

namespace DiagnosticCollector

def empty (file : FileId) (index : LineIndex) : DiagnosticCollector := ⟨file, index, []⟩

def add (c : DiagnosticCollector) (d : Diagnostic) : DiagnosticCollector :=
  { c with diagnostics := c.diagnostics ++ [d] }

def errorCount (c : DiagnosticCollector) : Nat := c.diagnostics.countP Diagnostic.isError

def hasErrors (c : DiagnosticCollector) : Bool := c.diagnostics.any Diagnostic.isError

/-- The diagnostics, and the collector without them. -/
def take (c : DiagnosticCollector) : List Diagnostic × DiagnosticCollector :=
  (c.diagnostics, { c with diagnostics := [] })

end DiagnosticCollector

end ProjectFile.Evaluation
