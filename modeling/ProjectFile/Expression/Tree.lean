import ProjectFile.Expression.Token

/-!
Expression trees. Every node has a span, counted from the start of the text the tree was read from.
-/

namespace ProjectFile.Expression

/-- A name in a reference or a function call. -/
structure Symbol where
  span : Span
  name : Text
  deriving DecidableEq, Repr

/-- What joins two conditions. -/
inductive Junction where
  | conjunction
  | disjunction
  deriving DecidableEq, Repr

/-- A node of an expression tree. -/
inductive Expr where
  /-- Plain text, spaces included. -/
  | literal (span : Span) (value : Text)
  | symbol (s : Symbol)
  /-- `$(Name)`; a property function spans the whole parenthesis. -/
  | property (span : Span) (name : Option Symbol) (isFunction : Bool)
  /-- `@(Type)`, `@(Type->'%(Filename)')`, `@(Type, ';')`. -/
  | items (span : Span) (itemType : Option Symbol) (transform separator : Option Expr)
  /-- `%(Name)` or `%(Type.Name)`. -/
  | metadata (span : Span) (itemType name : Option Symbol)
  | quoted (span : Span) (parts : List Expr)
  | call (span : Span) (function : Symbol) (arguments : List Expr)
  | group (span : Span) (inner : Expr)
  /-- Text and references written back to back. -/
  | concat (span : Span) (parts : List Expr)
  | compare (span : Span) (op : Comparison) (left right : Expr)
  | negation (span : Span) (operand : Expr)
  | junction (span : Span) (op : Junction) (left right : Expr)
  | list (span : Span) (items : List Expr)
  /-- An item of a list: its trimmed span, the segment between the separators, the trimmed text
  and what it reads as. -/
  | listItem (span segment : Span) (value : Text) (expression : Expr)
  /-- A blank segment of a list. -/
  | emptyItem (span : Span)
  deriving Repr

namespace Expr

/-- The span of the node. -/
def span : Expr → Span
  | .literal s _ => s
  | .symbol s => s.span
  | .property s _ _ => s
  | .items s _ _ _ => s
  | .metadata s _ _ => s
  | .quoted s _ => s
  | .call s _ _ => s
  | .group s _ => s
  | .concat s _ => s
  | .compare s _ _ _ => s
  | .negation s _ => s
  | .junction s _ _ _ => s
  | .list s _ => s
  | .listItem s _ _ _ => s
  | .emptyItem s => s

def ofSymbol? (s : Option Symbol) : List Expr := (s.map Expr.symbol).toList

/-- The nodes directly under a node, in source order. -/
def children : Expr → List Expr
  | .literal _ _ => []
  | .symbol _ => []
  | .property _ name _ => ofSymbol? name
  | .items _ itemType transform separator =>
    ofSymbol? itemType ++ (transform.toList ++ separator.toList)
  | .metadata _ itemType name => ofSymbol? itemType ++ ofSymbol? name
  | .quoted _ parts => parts
  | .call _ function arguments => .symbol function :: arguments
  | .group _ inner => [inner]
  | .concat _ parts => parts
  | .compare _ _ left right => [left, right]
  | .negation _ operand => [operand]
  | .junction _ _ left right => [left, right]
  | .list _ entries => entries
  | .listItem _ _ _ expression => [expression]
  | .emptyItem _ => []

/-- The name of a symbol, or of what a reference or call names. -/
def name? : Expr → Option Text
  | .symbol s => some s.name
  | .property _ name _ => name.map Symbol.name
  | .items _ itemType _ _ => itemType.map Symbol.name
  | .metadata _ _ name => name.map Symbol.name
  | .call _ function _ => some function.name
  | _ => none

/-- Whether the node refers to a property, to items or to metadata. -/
def isReference : Expr → Bool
  | .property .. => true
  | .items .. => true
  | .metadata .. => true
  | _ => false

mutual

/-- The node and everything under it, each node before what is under it. -/
def descendants : Expr → List Expr
  | .literal s value => [.literal s value]
  | .symbol s => [.symbol s]
  | .property s name isFunction => .property s name isFunction :: ofSymbol? name
  | .items s itemType transform separator =>
    .items s itemType transform separator ::
      (ofSymbol? itemType ++ (descendantsOfOption transform ++ descendantsOfOption separator))
  | .metadata s itemType name =>
    .metadata s itemType name :: (ofSymbol? itemType ++ ofSymbol? name)
  | .quoted s parts => .quoted s parts :: descendantsOfAll parts
  | .call s function arguments =>
    .call s function arguments :: .symbol function :: descendantsOfAll arguments
  | .group s inner => .group s inner :: inner.descendants
  | .concat s parts => .concat s parts :: descendantsOfAll parts
  | .compare s op left right =>
    .compare s op left right :: (left.descendants ++ right.descendants)
  | .negation s operand => .negation s operand :: operand.descendants
  | .junction s op left right =>
    .junction s op left right :: (left.descendants ++ right.descendants)
  | .list s entries => .list s entries :: descendantsOfAll entries
  | .listItem s segment value expression =>
    .listItem s segment value expression :: expression.descendants
  | .emptyItem s => [.emptyItem s]

/-- The nodes of several trees. -/
def descendantsOfAll : List Expr → List Expr
  | [] => []
  | e :: es => e.descendants ++ descendantsOfAll es

/-- The nodes of a tree that may be absent. -/
def descendantsOfOption : Option Expr → List Expr
  | none => []
  | some e => e.descendants

end

/-- What is found at an offset in a node: nothing if the offset does not touch the node, else what
is found below it, or the node itself. -/
def found (offset : Nat) (e : Expr) (below : Option Expr) : Option Expr :=
  if e.span.touches offset then some (below.getD e) else none

def symbolAt (offset : Nat) (s : Option Symbol) : Option Expr :=
  s.bind fun s => found offset (.symbol s) none

mutual

/-- The node reached from the root by going down, as long as possible, to the first child that the
offset touches. Of two nodes that meet at the offset this is the left one. -/
def deepestAt (offset : Nat) : Expr → Option Expr
  | .literal s value => found offset (.literal s value) none
  | .symbol s => found offset (.symbol s) none
  | .property s name isFunction =>
    found offset (.property s name isFunction) (symbolAt offset name)
  | .items s itemType transform separator =>
    found offset (.items s itemType transform separator)
      ((symbolAt offset itemType).or
        ((deepestOfOption offset transform).or (deepestOfOption offset separator)))
  | .metadata s itemType name =>
    found offset (.metadata s itemType name) ((symbolAt offset itemType).or (symbolAt offset name))
  | .quoted s parts => found offset (.quoted s parts) (deepestOfAll offset parts)
  | .call s function arguments =>
    found offset (.call s function arguments)
      ((symbolAt offset (some function)).or (deepestOfAll offset arguments))
  | .group s inner => found offset (.group s inner) (inner.deepestAt offset)
  | .concat s parts => found offset (.concat s parts) (deepestOfAll offset parts)
  | .compare s op left right =>
    found offset (.compare s op left right) ((left.deepestAt offset).or (right.deepestAt offset))
  | .negation s operand => found offset (.negation s operand) (operand.deepestAt offset)
  | .junction s op left right =>
    found offset (.junction s op left right) ((left.deepestAt offset).or (right.deepestAt offset))
  | .list s entries => found offset (.list s entries) (deepestOfAll offset entries)
  | .listItem s segment value expression =>
    found offset (.listItem s segment value expression) (expression.deepestAt offset)
  | .emptyItem s => found offset (.emptyItem s) none

/-- The node found in the first of several trees that the offset touches. -/
def deepestOfAll (offset : Nat) : List Expr → Option Expr
  | [] => none
  | e :: es => (e.deepestAt offset).or (deepestOfAll offset es)

/-- The node found in a tree that may be absent. -/
def deepestOfOption (offset : Nat) : Option Expr → Option Expr
  | none => none
  | some e => e.deepestAt offset

end

end Expr

/-- A list of items separated by `;`. -/
structure SimpleList where
  span : Span
  items : List Expr
  deriving Repr

namespace SimpleList

/-- The list as a node. -/
def toExpr (l : SimpleList) : Expr := .list l.span l.items

/-- The text between the separators around an item. -/
def segmentOf : Expr → Span
  | .listItem _ segment _ _ => segment
  | e => e.span

/-- The first item whose segment touches the offset. As a `;` stands between two segments, there
is no other. -/
def itemAt (l : SimpleList) (offset : Nat) : Option Expr :=
  l.items.find? fun item => (segmentOf item).touches offset

/-- The text of an item that is not empty. -/
def valueOf? : Expr → Option Text
  | .listItem _ _ value _ => some value
  | _ => none

/-- The texts of the items that are not empty. -/
def values (l : SimpleList) : List Text := l.items.filterMap valueOf?

end SimpleList

end ProjectFile.Expression
