import ProjectFile.Json.Value
import ProjectFile.Json.Writer
import ProjectFile.Source.FilePath

/-!
Help on the elements and attributes of project files, as tables that can be read from JSON.

`ofJson?` and `serialize` stand for a decoder and an encoder that are derived from the declaration
of `SchemaHelp`: a member for each field, in the order of the fields, with the rules of
`ProjectFile.Json.Value` for what is missing, repeated or unknown.
-/

namespace ProjectFile.Workspace

/-- Why a configuration cannot be loaded. -/
inductive ConfigurationError where
  | unreadable (path : FilePath)
  | invalidJson
  deriving DecidableEq, Repr

/-- Reads files: the text of a path, if it can be read. -/
abbrev FileReader := FilePath → Option Text

/-- Help by the names of elements, and by the names of attributes, which may be preceded by an
element's name and an `@`. -/
structure SchemaHelp where
  elements : Table
  attributes : Table
  deriving DecidableEq, Repr

namespace SchemaHelp

def builtinElements : List (String × String) :=
  [("Project", "Root element of an MSBuild project file."),
   ("PropertyGroup",
     "Groups property definitions; properties are evaluated in document order."),
   ("ItemGroup", "Groups item definitions."),
   ("ItemDefinitionGroup", "Default metadata for item types."),
   ("Target", "A named sequence of tasks run as one unit."),
   ("Import", "Imports the contents of another project file at this point."),
   ("Choose", "Selects one of its `When` branches, or `Otherwise`."),
   ("When", "A branch of `Choose`, taken when its condition holds."),
   ("Otherwise", "The branch of `Choose` taken when no `When` applies."),
   ("Sdk", "References an MSBuild project SDK.")]

def builtinAttributes : List (String × String) :=
  [("Condition", "The element is ignored unless this condition evaluates to true."),
   ("Include", "Semicolon-separated item specifications to add."),
   ("Exclude", "Semicolon-separated item specifications to leave out of `Include`."),
   ("Remove", "Semicolon-separated item specifications to remove."),
   ("Update", "Semicolon-separated items whose metadata is updated."),
   ("Label", "Free-form label; has no effect on evaluation."),
   ("Sdk", "Name of the project SDK."),
   ("Project@Sdk", "Semicolon-separated SDKs imported around the project body."),
   ("Import@Project", "Path of the project file to import."),
   ("Target@Name", "Name of the target."),
   ("Target@DependsOnTargets", "Targets that run before this one, as a simple list."),
   ("Target@BeforeTargets", "This target runs before each of these targets."),
   ("Target@AfterTargets", "This target runs after each of these targets.")]

/-- The table of some strings. -/
def tableOf (entries : List (String × String)) : Table :=
  entries.map fun entry => (entry.1.toList, entry.2.toList)

/-- The help that is built in. -/
def builtin : SchemaHelp := ⟨tableOf builtinElements, tableOf builtinAttributes⟩

/-- The value of a key, or of the first key that differs from it only in the case of letters. -/
def lookup (table : Table) (key : Text) : Option Text :=
  (table.get? key).or ((table.find? fun entry => Text.sameName entry.1 key).map Prod.snd)

def element? (help : SchemaHelp) (name : Text) : Option Text := lookup help.elements name

/-- The help of an attribute: of the attribute on this element, or else on any element. -/
def attribute? (help : SchemaHelp) (element name : Text) : Option Text :=
  (lookup help.attributes (element ++ '@' :: name)).or (lookup help.attributes name)

/-- The help that a JSON value holds: an object, or an array of its values in order. What is missing
is empty. -/
def ofJson? : Json → Option SchemaHelp
  | .object members => do
    let elements ← Json.member? members "elements".toList Json.table? []
    let attributes ← Json.member? members "attributes".toList Json.table? []
    return ⟨elements, attributes⟩
  | .array values =>
    if 2 < values.length then none
    else do
      let elements ← Json.element? values 0 Json.table? []
      let attributes ← Json.element? values 1 Json.table? []
      return ⟨elements, attributes⟩
  | _ => none

def parse (t : Text) : Except ConfigurationError SchemaHelp :=
  match (Json.parse t).bind ofJson? with
  | some help => .ok help
  | none => .error .invalidJson

def load (read : FileReader) (path : FilePath) : Except ConfigurationError SchemaHelp :=
  match read path with
  | some t => parse t
  | none => .error (.unreadable path)

/-- The help as JSON. -/
def serialize (help : SchemaHelp) : Text :=
  Json.writeObject
    [Json.writeMember "elements".toList (Json.writeTable help.elements),
     Json.writeMember "attributes".toList (Json.writeTable help.attributes)]

end SchemaHelp

end ProjectFile.Workspace
