import ProjectFile.Editor.Location
import ProjectFile.Expression.Reading

/-!
The expression and the list item at a location. The attribute value or the text there is read anew
each time; the spans of what is found count from its start, the base.
-/

namespace ProjectFile.Editor

open Markup Expression

/-- A text that may hold an expression. -/
structure Embedded where
  text : Text
  /-- The offset of the text in the document. -/
  base : Nat
  /-- Whether it is the value of a `Condition`. -/
  isCondition : Bool

/-- The expression at a location. -/
structure ExpressionAt where
  root : Expr
  base : Nat
  /-- The offset of the location in the text of the expression. -/
  offset : Nat

/-- The item of a list at a location. -/
structure ListItemAt where
  list : SimpleList
  item : Expr
  base : Nat

namespace Location

/-- The value or text at the location. -/
def embedded? (l : Location) : Option Embedded :=
  match l.kind, l.node.map View.item with
  | .attributeValue, some (.attribute a) =>
    match a.value, a.valueSpan with
    | some value, some span =>
      some ⟨value, span.start, Text.sameName a.name "Condition".toList⟩
    | _, _ => none
  | .elementContent, some (.content .text start t) => some ⟨t, start, false⟩
  | _, _ => none

/-- The expression at the location, if its value or text is one and one of its nodes touches the
offset. -/
def expression? (l : Location) : Option ExpressionAt :=
  l.embedded?.bind fun source =>
    let parsed := if source.isCondition then parseCondition source.text else parseValue source.text
    match parsed with
    | .error _ => none
    | .ok root =>
      if source.base ≤ l.offset ∧ (root.deepestAt (l.offset - source.base)).isSome then
        some ⟨root, source.base, l.offset - source.base⟩
      else none

def listItem? (l : Location) : Option ListItemAt :=
  l.embedded?.bind fun source =>
    let list := parseList source.text
    if source.base ≤ l.offset then
      (list.itemAt (l.offset - source.base)).map fun item => ⟨list, item, source.base⟩
    else none

end Location

/-- The first of the nodes with the smallest span. -/
def shortest : List Expr → Option Expr
  | [] => none
  | e :: es =>
    match shortest es with
    | none => some e
    | some f => if f.span.size < e.span.size then some f else some e

namespace ExpressionAt

/-- The deepest node at the offset. -/
def node (e : ExpressionAt) : Expr := (e.root.deepestAt e.offset).getD e.root

/-- The span of that node in the document. -/
def span (e : ExpressionAt) : Span := e.node.span.shift e.base

/-- The innermost reference at the offset. -/
def reference? (e : ExpressionAt) : Option Expr :=
  shortest (e.root.descendants.filter fun n => n.isReference && n.span.touches e.offset)

end ExpressionAt

namespace ListItemAt

/-- The span of the item in the document: trimmed, or the whole segment of an empty item. -/
def span (i : ListItemAt) : Span := i.item.span.shift i.base

def value (i : ListItemAt) : Text := (SimpleList.valueOf? i.item).getD []

end ListItemAt

end ProjectFile.Editor
