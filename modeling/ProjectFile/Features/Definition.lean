import ProjectFile.Workspace.Snapshot

/-!
Where the property or target that is named at a position is defined. A property reference leads to
the declaration that gave the property its final value, a name in a list of targets to the target.
-/

namespace ProjectFile.Features

open Evaluation Workspace Editor

/-- A place of a definition. -/
structure DefinitionTarget where
  path : FilePath
  region : Region

/-- What is named, and where it is defined. -/
structure Definition where
  kind : ObjectKind
  name : Text
  targets : List DefinitionTarget

def targetLists : List Text :=
  ["DependsOnTargets".toList, "BeforeTargets".toList, "AfterTargets".toList]

/-- The name in the property reference at a location; a property function names none. -/
def referencedProperty? (l : Location) : Option Text :=
  l.expression?.bind fun e =>
    match e.reference? with
    | some (.property _ name false) => name.map Expression.Symbol.name
    | _ => none

def listedTarget? (l : Location) : Option Text :=
  l.attribute?.bind fun v =>
    let onTarget := v.parentElement?.any fun e => e.name == "Target".toList
    let isList := v.item.name?.any fun name => targetLists.any (Text.sameName name)
    if onTarget && isList then
      (l.listItem?.map ListItemAt.value).filter fun name => !name.isEmpty
    else none

/-- The place where the winner of a history says it is declared. -/
def reportedTarget (h : History) : List DefinitionTarget :=
  (h.object.provenance.map fun p => ⟨p.file, .empty p.position.toZeroBased⟩).toList

/-- The definition of a name: the winning declaration in this document, or else the place that
evaluation reports. -/
def resolve (s : Snapshot) (kind : ObjectKind) (name : Text) : Option Definition :=
  (s.project.bind fun p => if kind = .target then p.target? name else p.property? name).bind fun h =>
    let here :=
      match s.locator with
      | .ok locator =>
        ((locator.declarations kind name).filter LocatedObject.isWinning).map fun o =>
          (⟨s.path, s.index.region o.span⟩ : DefinitionTarget)
      | .error _ => []
    let targets := if here.isEmpty then reportedTarget h else here
    if targets.isEmpty then none else some ⟨kind, name, targets⟩

def definitionAt (s : Snapshot) (p : Position) : Option Definition :=
  match s.inspect p with
  | .error _ => none
  | .ok l =>
    match referencedProperty? l with
    | some name => resolve s .property name
    | none => (listedTarget? l).bind (resolve s .target)

end ProjectFile.Features
