import ProjectFile.Workspace.Snapshot

/-!
What is shown about the name or reference at a position: help on elements and attributes, and the
values of properties, as Markdown.
-/

namespace ProjectFile.Features

open Evaluation Workspace Editor

/-- A text about a region. -/
structure Hover where
  contents : Text
  region : Region

/-- Sections with an empty line between every two. -/
def joinSections : List Text → Text
  | [] => []
  | [part] => part
  | part :: rest => part ++ '\n' :: '\n' :: joinSections rest

def Hover.ofSections (sections : List Text) (region : Region) : Option Hover :=
  if sections.isEmpty then none else some ⟨joinSections sections, region⟩

/-- The line that shows the value of a property. -/
def valueLine (name value : Text) : Text :=
  "`$(".toList ++ (name ++ (")` = `".toList ++ (value ++ ['`'])))

/-- The section on a declaration that is not the winning one. -/
def overriddenLine (o : LocatedObject) : List Text :=
  if o.isWinning then []
  else ["Overridden; this declaration set `".toList ++ (o.valueAtDeclaration ++ "`.".toList)]

def declaredProperty? (s : Snapshot) (e : Markup.Element) : Option LocatedObject :=
  match s.locator with
  | .error _ => none
  | .ok locator =>
    (locator.find? e.start).filter fun o => o.kind == .property && o.span == e.span

/-- The sections on an element: its help, and the value of the property it declares. -/
def elementSections (s : Snapshot) (help : SchemaHelp) (e : Markup.Element) : List Text :=
  (help.element? e.name).toList ++
    match declaredProperty? s e with
    | some o => valueLine o.name (o.value?.getD []) :: overriddenLine o
    | none => []

def referenceHover (s : Snapshot) (l : Location) : Option Hover :=
  l.expression?.bind fun e =>
    match e.reference? with
    | some (.property span (some name) false) =>
      let value := (s.project.bind fun p => p.propertyValue? name.name).getD []
      Hover.ofSections [valueLine name.name value] (s.index.region (span.shift e.base))
    | _ => none

def hoverOn (s : Snapshot) (help : SchemaHelp) (l : Location) : Option Hover :=
  match l.kind with
  | .elementName _ =>
    (l.element?.bind fun v => v.item.element?).bind fun e =>
      l.leaf.bind fun leaf =>
        Hover.ofSections (elementSections s help e) (s.index.region leaf.span)
  | .attributeName =>
    l.attribute?.bind fun v =>
      v.item.attribute?.bind fun a =>
        v.parentElement?.bind fun e =>
          (help.attribute? e.name a.name).map fun text => ⟨text, s.index.region a.nameSpan⟩
  | .attributeValue => referenceHover s l
  | .elementContent => referenceHover s l
  | _ => none

def hoverAt (s : Snapshot) (help : SchemaHelp) (p : Position) : Option Hover :=
  match s.inspect p with
  | .error _ => none
  | .ok l => hoverOn s help l

end ProjectFile.Features
