import ProjectFile.Evaluation.Model
import ProjectFile.Markup.Leaf
import ProjectFile.Source.LineIndex

/-!
The elements that declare what evaluation found, as an index from offsets to evaluated objects.
Every declaring element of a property or target has an entry of its own, winner or not, and all
these entries hold the winning object.
-/

namespace ProjectFile.Evaluation

open Markup

/-- A declaring element and what it declares. -/
structure LocatedObject where
  kind : ObjectKind
  name : Text
  /-- The span of the element. -/
  span : Span
  declaration : Provenance
  /-- The value right after the declaration. -/
  valueAtDeclaration : Text
  /-- The final objects; several for an item element that includes several items. -/
  objects : List EvaluatedObject
  deriving Repr

namespace LocatedObject

/-- The final value. -/
def value? (o : LocatedObject) : Option Text := o.objects.head?.map EvaluatedObject.value

/-- Whether this declaration produced the final value. -/
def isWinning (o : LocatedObject) : Bool :=
  o.objects.any fun object => object.provenance.any fun p => p.same o.declaration

end LocatedObject

/-- A declaration that evaluation reports, with the kind that the project keeps the object as. -/
structure ReportedDeclaration where
  kind : ObjectKind
  object : EvaluatedObject
  provenance : Provenance
  value : Text
  deriving Repr

namespace ReportedDeclaration

def ofObject (kind : ObjectKind) (o : EvaluatedObject) : List ReportedDeclaration :=
  (o.provenance.map fun p => ⟨kind, o, p, o.value⟩).toList

/-- All declarations of a name, oldest first. -/
def ofHistory (kind : ObjectKind) (h : History) : List ReportedDeclaration :=
  h.predecessors.map (fun d => ⟨kind, h.object, d.provenance, d.value⟩) ++ ofObject kind h.object

def ofRegister (kind : ObjectKind) (r : Register) : List ReportedDeclaration :=
  r.flatMap (ofHistory kind)

def ofObjects (kind : ObjectKind) (os : List EvaluatedObject) : List ReportedDeclaration :=
  os.flatMap (ofObject kind)

/-- All declarations in the project's own file: properties, targets, items, imports. -/
def ofProject (p : EvaluatedProject) : List ReportedDeclaration :=
  (ofRegister .property p.properties ++ (ofRegister .target p.targets ++
    (ofObjects .item p.items ++ ofObjects .importedProject p.imports))).filter
      fun d => d.provenance.file.same p.path

end ReportedDeclaration

/-- The innermost element around the token at an offset: of two tokens, the right one. -/
def elementAt? (leaves : List Leaf) (offset : Nat) : Option Element :=
  let right := leaves.find? fun l => l.span.contains offset
  let left := leaves.find? fun l => l.span.stop == offset
  ((right.or left).bind fun l => l.owner.bind View.element?).bind fun v => v.item.element?

/-- The element where a declaration stands, in a document of the given leaves and width. -/
def elementOf? (leaves : List Leaf) (width : Nat) (index : LineIndex) (o : Provenance) :
    Option Element :=
  match index.offset o.position with
  | .error _ => none
  | .ok offset => elementAt? leaves (min offset width)

/-- The located objects of a document, in the order of their starts, the outermost first. -/
structure ObjectLocator where
  entries : List LocatedObject
  deriving Repr

namespace ObjectLocator

/-- Whether an object is its own, and not the winner of a name. -/
def standsAlone (kind : ObjectKind) : Bool := kind == .item || kind == .importedProject

/-- Whether an entry holds an object already. Every declaration of a name has the one winner, but of
items and imports each is another object, even if it looks like one before. -/
def holds (entry : LocatedObject) (o : EvaluatedObject) : Bool :=
  !standsAlone entry.kind && decide (o ∈ entry.objects)

/-- Adds a declaration by the element of the given span. A second object of the same kind and name
joins the entry of the element. -/
def add (d : ReportedDeclaration) (span : Span) : List LocatedObject → List LocatedObject
  | [] => [⟨d.kind, d.object.name, span, d.provenance, d.value, [d.object]⟩]
  | entry :: rest =>
    if entry.span = span ∧ entry.kind = d.kind ∧ Text.sameName entry.name d.object.name then
      { entry with
        objects := if holds entry d.object then entry.objects else entry.objects ++ [d.object] }
        :: rest
    else entry :: add d span rest

/-- Adds a declaration, if the document has an element where it stands. -/
def locate (leaves : List Leaf) (width : Nat) (index : LineIndex) (entries : List LocatedObject)
    (d : ReportedDeclaration) : List LocatedObject :=
  match elementOf? leaves width index d.provenance with
  | none => entries
  | some e => add d e.span entries

/-- Whether an entry comes before another: it starts before it, or at the same offset and does not
end before it. -/
def precedes (a b : LocatedObject) : Bool :=
  decide (a.span.start < b.span.start) ||
    (a.span.start == b.span.start && decide (b.span.stop ≤ a.span.stop))

def build (p : EvaluatedProject) (d : Document) (index : LineIndex) : ObjectLocator :=
  ⟨((ReportedDeclaration.ofProject p).foldl (locate d.leaves d.width index) []).mergeSort precedes⟩

/-- The innermost entry that holds the byte at an offset: of the entries up to the last one that
starts there or before, the last that holds it. -/
def find? (l : ObjectLocator) (offset : Nat) : Option LocatedObject :=
  let upTo := l.entries.takeWhile fun e => decide (e.span.start ≤ offset)
  upTo.reverse.find? fun e => e.span.contains offset

/-- Every declaration of a name of the given kind, in document order. -/
def declarations (l : ObjectLocator) (kind : ObjectKind) (name : Text) : List LocatedObject :=
  l.entries.filter fun e => e.kind == kind && Text.sameName e.name name

end ObjectLocator

end ProjectFile.Evaluation
