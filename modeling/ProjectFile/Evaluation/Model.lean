import ProjectFile.Text.Table
import ProjectFile.Source.FilePath
import ProjectFile.Source.Position

/-!
What evaluation finds: properties and targets with the declarations they overrode, items and
imports. Names are compared without regard to the case of letters; properties and targets keep the
order in which their names first appear.
-/

namespace ProjectFile.Evaluation

/-- The kinds of evaluated objects. -/
inductive ObjectKind where
  | property
  | item
  | target
  | importedProject
  deriving DecidableEq, Repr

def ObjectKind.text : ObjectKind → String
  | .property => "property"
  | .item => "item"
  | .target => "target"
  | .importedProject => "import"

/-- Where a declaration stands: a file and the position of the declaring element. -/
structure Provenance where
  file : FilePath
  position : Position
  deriving DecidableEq, Repr

/-- Whether two declarations stand in the same place of the same file. -/
def Provenance.same (p q : Provenance) : Bool := p.file.same q.file && p.position.same q.position

/-- A property, item, target or import. Global and reserved properties have no provenance. -/
structure EvaluatedObject where
  kind : ObjectKind
  name : Text
  value : Text
  provenance : Option Provenance
  metadata : Table
  deriving DecidableEq, Repr

namespace EvaluatedObject

/-- The value of the first metadata entry of a name. -/
def metadata? (o : EvaluatedObject) (name : Text) : Option Text :=
  (o.metadata.find? fun entry => Text.sameName entry.1 name).map Prod.snd

end EvaluatedObject

/-- A declaration that was overridden, with the value right after it. -/
structure Declaration where
  provenance : Provenance
  value : Text
  deriving Repr

/-- The winning declaration of a name as an object, and the declarations it overrode, oldest
first. -/
structure History where
  object : EvaluatedObject
  predecessors : List Declaration
  deriving Repr

namespace History

/-- The history of a single declaration. -/
def ofObject (o : EvaluatedObject) : History := ⟨o, []⟩

/-- The name of the winner. -/
def name (h : History) : Text := h.object.name

/-- Makes another declaration the winner. The winner before it becomes a predecessor, if it was
declared anywhere. -/
def redefine (h : History) (o : EvaluatedObject) : History :=
  { object := o
    predecessors :=
      h.predecessors ++ (h.object.provenance.map fun p => ⟨p, h.object.value⟩).toList }

/-- Records a declaration that does not change the value. -/
def ignore (h : History) (p : Provenance) : History :=
  { h with predecessors := h.predecessors ++ [⟨p, h.object.value⟩] }

end History

/-- Histories by name, in the order in which the names first appear. -/
abbrev Register := List History

namespace Register

def get? (r : Register) (name : Text) : Option History :=
  r.find? fun h => Text.sameName h.name name

/-- Sets the history of a name: in the name's place if it is there, and else at the end. -/
def insert (h : History) : Register → Register
  | [] => [h]
  | g :: rest => if Text.sameName g.name h.name then h :: rest else g :: Register.insert h rest

end Register

/-- The outcome of evaluating one project file. -/
structure EvaluatedProject where
  path : FilePath
  properties : Register
  items : List EvaluatedObject
  targets : Register
  imports : List EvaluatedObject
  deriving Repr

namespace EvaluatedProject

def empty (path : FilePath) : EvaluatedProject := ⟨path, [], [], [], []⟩

def property? (p : EvaluatedProject) (name : Text) : Option History := p.properties.get? name

def propertyValue? (p : EvaluatedProject) (name : Text) : Option Text :=
  (p.property? name).map fun h => h.object.value

def target? (p : EvaluatedProject) (name : Text) : Option History := p.targets.get? name

def itemsOfType (p : EvaluatedProject) (itemType : Text) : List EvaluatedObject :=
  p.items.filter fun o => Text.sameName o.name itemType

def insertProperty (p : EvaluatedProject) (h : History) : EvaluatedProject :=
  { p with properties := p.properties.insert h }

def addItem (p : EvaluatedProject) (o : EvaluatedObject) : EvaluatedProject :=
  { p with items := p.items ++ [o] }

/-- Defines a target; of several definitions of a name the last one wins. -/
def defineTarget (p : EvaluatedProject) (o : EvaluatedObject) : EvaluatedProject :=
  let history :=
    match p.target? o.name with
    | some h => h.redefine o
    | none => .ofObject o
  { p with targets := p.targets.insert history }

def addImport (p : EvaluatedProject) (o : EvaluatedObject) : EvaluatedProject :=
  { p with imports := p.imports ++ [o] }

end EvaluatedProject

/-- Properties that are given from outside the project and win over its own declarations. -/
abbrev GlobalProperties := Table

/-- Why a project cannot be evaluated. -/
inductive EvaluationError where
  | invalidXml (message : String) (position : Option Position)
  | invalidCondition (condition : Text) (message : String) (position : Position)
  | failed (message : String)
  deriving Repr

namespace EvaluationError

def message : EvaluationError → String
  | .invalidXml message _ => "project XML is not valid: " ++ message
  | .invalidCondition condition message _ =>
    "invalid condition `" ++ condition.toString ++ "`: " ++ message
  | .failed message => "evaluation failed: " ++ message

/-- Where the error is, if that is known. -/
def position? : EvaluationError → Option Position
  | .invalidXml _ position => position
  | .invalidCondition _ _ position => some position
  | .failed _ => none

end EvaluationError

/-- What evaluates projects: from the path and text of a file and the global properties to the
evaluated project. -/
abbrev Engine := FilePath → Text → GlobalProperties → Except EvaluationError EvaluatedProject

end ProjectFile.Evaluation
