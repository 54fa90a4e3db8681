import ProjectFile.Markup.Leaf

/-!
What is at an offset of a document.

An offset is resolved to one token and classified by the part that the token plays. Where two
tokens meet, the left one is taken if typing at its end would make it longer (a name, character
data, a value, space, `<`, `</` or an opening quote), and else the right one, so that the token
being typed is seen and not the one after it.
-/

namespace ProjectFile.Editor

open Markup

/-- What an insertion at an offset would add to. -/
inductive Gap where
  /-- The content of an element or of the document. -/
  | content
  /-- The attributes of a start tag. -/
  | attributes
  deriving DecidableEq, Repr

/-- What an offset is on. -/
inductive LocationKind where
  /-- The name of an element, or right after `<` or `</`. -/
  | elementName (closing : Bool)
  | attributeName
  /-- Between the quotes of an attribute. -/
  | attributeValue
  /-- Text, space, a comment or a CDATA section. -/
  | elementContent
  | gap (gap : Gap)
  | nothing
  deriving DecidableEq, Repr

/-- An offset with what it is on. -/
structure Location where
  document : Document
  offset : Nat
  kind : LocationKind
  /-- The view that the offset is in; for a gap in content, the element around it. -/
  node : Option View
  /-- The token that the offset is resolved to. -/
  leaf : Option Leaf
  /-- The token that the byte before the offset belongs to. -/
  left : Option Leaf
  /-- The token that the byte after the offset belongs to. -/
  right : Option Leaf
  deriving Repr

/-- Whether typing at the end of the token would make it longer. -/
def isExtendable (leaf : Leaf) : Bool :=
  leaf.role == .openingQuote ||
    match leaf.kind with
    | .name => true
    | .charData => true
    | .valueText => true
    | .space => true
    | .leftAngle => true
    | .leftAngleSlash => true
    | _ => false

/-- The token that an offset between two tokens is resolved to. -/
def chooseLeaf (left right : Option Leaf) : Option Leaf :=
  match left, right with
  | some l, some r => if isExtendable l then some l else some r
  | some l, none => some l
  | none, right => right

/-- A gap in the content of an element, or of the document. -/
def contentGap (container : Option View) : LocationKind × Option View := (.gap .content, container)

/-- What the offset is on, given the token it is resolved to. -/
def classify (leaf : Leaf) (offset : Nat) : LocationKind × Option View :=
  let atStart := offset == leaf.span.start
  let atStop := offset == leaf.span.stop
  let outer := leaf.owner.bind View.parent?
  match leaf.role with
  | .startName => (.elementName false, leaf.owner)
  | .startOpener => if atStart then contentGap outer else (.elementName false, leaf.owner)
  | .startSpace => (.gap .attributes, leaf.owner)
  | .startJunk => (.nothing, leaf.owner)
  | .startCloser =>
    if atStart then (.gap .attributes, leaf.owner)
    else if atStop then contentGap leaf.owner
    else (.nothing, leaf.owner)
  | .startSelfCloser =>
    if atStart then (.gap .attributes, leaf.owner)
    else if atStop then contentGap outer
    else (.nothing, leaf.owner)
  | .attributeName => (.attributeName, leaf.owner)
  | .attributeSpace => (.nothing, leaf.owner)
  | .attributeEquals => (.nothing, leaf.owner)
  | .openingQuote => (if atStop then .attributeValue else .nothing, leaf.owner)
  | .valueText => (.attributeValue, leaf.owner)
  | .closingQuote => if atStop then (.gap .attributes, outer) else (.attributeValue, leaf.owner)
  | .endOpener stray =>
    if atStart then contentGap leaf.owner
    else (if stray then .nothing else .elementName true, leaf.owner)
  | .endName stray => (if stray then .nothing else .elementName true, leaf.owner)
  | .endSpace => (.nothing, leaf.owner)
  | .endJunk => (.nothing, leaf.owner)
  | .endCloser stray =>
    if atStop then contentGap (if stray then leaf.owner else outer) else (.nothing, leaf.owner)
  | .run kind =>
    match kind with
    | .text => (.elementContent, leaf.owner)
    | .blank => (.elementContent, leaf.owner)
    | .instruction => if atStart then contentGap leaf.owner else (.nothing, leaf.owner)
    | .doctype => if atStart then contentGap leaf.owner else (.nothing, leaf.owner)
    | _ =>
      if atStart || (atStop && kind.isTerminated leaf.text) then contentGap outer
      else (.elementContent, leaf.owner)
  | .binary => (.nothing, leaf.owner)

/-- What is at an offset. An offset past the end of the document counts as its end. -/
def inspect (d : Document) (offset : Nat) : Location :=
  let offset := min offset d.width
  let leaves := d.leaves
  let left := leaves.find? fun l => l.span.start < offset && offset ≤ l.span.stop
  let right := leaves.find? fun l => l.span.contains offset
  let leaf := chooseLeaf left right
  let classified :=
    match leaf with
    | some l => classify l offset
    | none => contentGap none
  { document := d
    offset := offset
    kind := classified.1
    node := classified.2
    leaf := leaf
    left := left
    right := right }

namespace Location

def element? (l : Location) : Option View := l.node.bind View.element?

def attribute? (l : Location) : Option View :=
  l.node.filter fun v => v.item.attribute?.isSome

/-- The view around an element, if it is one. -/
def container? (l : Location) : Option View :=
  l.node.filter fun v => v.item.element?.isSome

/-- The element around whatever is at the offset. -/
def parent? (l : Location) : Option View :=
  match l.kind with
  | .gap _ => l.container?
  | .attributeName => l.attribute?.bind View.parent?
  | .attributeValue => l.attribute?.bind View.parent?
  | _ => l.node.bind View.parent?

/-- The items that an insertion in the gap would stand among. -/
def neighbours (l : Location) (gap : Gap) : List Item :=
  match gap, l.node.map View.item with
  | .attributes, some (.element e) => e.attributes.map Item.attribute
  | .content, some (.element e) => e.children
  | .content, none => l.document.children
  | _, _ => []

/-- The item before. -/
def previous? (l : Location) : Option Item :=
  match l.kind with
  | .gap gap => (l.neighbours gap).reverse.find? fun i => i.span.stop ≤ l.offset
  | _ => l.node.bind View.previous?

/-- The item after. -/
def next? (l : Location) : Option Item :=
  match l.kind with
  | .gap gap => (l.neighbours gap).find? fun i => l.offset ≤ i.span.start
  | _ => l.node.bind View.next?

end Location

end ProjectFile.Editor
