import ProjectFile.Workspace.SchemaHelp

/-!
The settings that all documents share.

As for `SchemaHelp`, `ofJson?` and `serialize` stand for a derived decoder and encoder, which have
conventions of their own for the types of the fields: a policy is written as its name and may also
be read from an object with the name as its only key, and a path that may be missing is `null` if it
is.
-/

namespace ProjectFile.Workspace

/-- When an open document is evaluated again. -/
inductive EvaluationPolicy where
  | onEveryChange
  /-- Changes are only parsed; evaluation waits until the document is saved. -/
  | onSave
  deriving DecidableEq, Repr

/-- The name of a policy in JSON. -/
def EvaluationPolicy.text : EvaluationPolicy → String
  | .onEveryChange => "onEveryChange"
  | .onSave => "onSave"

namespace EvaluationPolicy

/-- The policy of a name. -/
def ofText? (t : Text) : Option EvaluationPolicy :=
  [onEveryChange, onSave].find? fun policy => policy.text.toList == t

/-- The policy that a JSON value names: a string, or an object with the name as its only key and
nothing as its value. -/
def ofJson? : Json → Option EvaluationPolicy
  | .string t => ofText? t
  | .object [(t, .null)] => ofText? t
  | _ => none

end EvaluationPolicy

/-- The settings. -/
structure Settings where
  evaluation : EvaluationPolicy
  /-- Properties that win over what the files declare. -/
  globalProperties : Table
  /-- The file that holds the help; without one the built-in help is used. -/
  schemaHelp : Option FilePath
  deriving DecidableEq, Repr

namespace Settings

/-- The settings when nothing is set. -/
def default : Settings := ⟨.onEveryChange, [], none⟩

/-- The path that a JSON value names, if any. -/
def pathOfJson? : Json → Option (Option FilePath)
  | .null => some none
  | .string t => some (some ⟨t⟩)
  | _ => none

/-- The settings that a JSON value holds: an object, or an array of its values in order. What is
missing has its default. -/
def ofJson? : Json → Option Settings
  | .object members => do
    let evaluation ←
      Json.member? members "evaluation".toList EvaluationPolicy.ofJson? default.evaluation
    let globalProperties ←
      Json.member? members "globalProperties".toList Json.table? default.globalProperties
    let schemaHelp ← Json.member? members "schemaHelp".toList pathOfJson? default.schemaHelp
    return ⟨evaluation, globalProperties, schemaHelp⟩
  | .array values =>
    if 3 < values.length then none
    else do
      let evaluation ← Json.element? values 0 EvaluationPolicy.ofJson? default.evaluation
      let globalProperties ← Json.element? values 1 Json.table? default.globalProperties
      let schemaHelp ← Json.element? values 2 pathOfJson? default.schemaHelp
      return ⟨evaluation, globalProperties, schemaHelp⟩
  | _ => none

def parse (t : Text) : Except ConfigurationError Settings :=
  match (Json.parse t).bind ofJson? with
  | some settings => .ok settings
  | none => .error .invalidJson

def load (read : FileReader) (path : FilePath) : Except ConfigurationError Settings :=
  match read path with
  | some t => parse t
  | none => .error (.unreadable path)

def loadSchemaHelp (read : FileReader) (s : Settings) : Except ConfigurationError SchemaHelp :=
  match s.schemaHelp with
  | some path => SchemaHelp.load read path
  | none => .ok .builtin

/-- The settings as JSON. -/
def serialize (s : Settings) : Text :=
  Json.writeObject
    [Json.writeMember "evaluation".toList (Json.writeString s.evaluation.text.toList),
     Json.writeMember "globalProperties".toList (Json.writeTable s.globalProperties),
     Json.writeMember "schemaHelp".toList
       (match s.schemaHelp with
         | some path => Json.writeString path.text
         | none => "null".toList)]

end Settings

end ProjectFile.Workspace
