import ProjectFile.Markup.View
import ProjectFile.Markup.Outline

/-!
The leaves of a document with their parts in it. Where the concrete tree tells what a token is, a
`Role` tells what it is there for, and a `Leaf` also holds the view that the token belongs to.
-/

namespace ProjectFile.Markup

/-- The part that a token plays in its document. -/
inductive Role where
  | startOpener
  | startName
  | startSpace
  | startJunk
  | startCloser
  | startSelfCloser
  | attributeName
  /-- Around the `=` of an attribute. -/
  | attributeSpace
  | attributeEquals
  | openingQuote
  | valueText
  | closingQuote
  | endOpener (stray : Bool)
  | endName (stray : Bool)
  | endSpace
  | endJunk
  | endCloser (stray : Bool)
  | run (kind : RunKind)
  /-- The text of a document that is not markup. -/
  | binary
  deriving DecidableEq, Repr

/-- The kind of the token in the concrete tree. -/
def Role.kind : Role → LeafKind
  | .startOpener => .leftAngle
  | .startName => .name
  | .startSpace => .space
  | .startJunk => .junk
  | .startCloser => .rightAngle
  | .startSelfCloser => .slashRightAngle
  | .attributeName => .name
  | .attributeSpace => .space
  | .attributeEquals => .equals
  | .openingQuote => .quote
  | .valueText => .valueText
  | .closingQuote => .quote
  | .endOpener _ => .leftAngleSlash
  | .endName _ => .name
  | .endSpace => .space
  | .endJunk => .junk
  | .endCloser _ => .rightAngle
  | .run kind => kind.leaf
  | .binary => .junk

/-- A token at its offset. Its owner is the innermost view around it. -/
structure Leaf where
  role : Role
  start : Nat
  text : Text
  owner : Option View
  deriving Repr

/-- The span of the token. -/
def Leaf.span (l : Leaf) : Span := .ofSize l.start l.text.width

/-- The kind of the token in the concrete tree. -/
def Leaf.kind (l : Leaf) : LeafKind := l.role.kind

/-- The leaves of texts that follow one another from `offset` on; an empty text is none. -/
def Leaf.ofTexts (owner : Option View) (offset : Nat) : List (Role × Text) → List Leaf
  | [] => []
  | (role, t) :: rest =>
    (if t.isEmpty then [] else [⟨role, offset, t, owner⟩]) ++
      Leaf.ofTexts owner (offset + t.width) rest

def Attribute.roles (a : Attribute) : List (Role × Text) :=
  (.attributeName, a.name) ::
    match a.assignment with
    | .absent => []
    | .bare before => [(.attributeSpace, before), (.attributeEquals, ['='])]
    | .value before after quoted =>
      [(.attributeSpace, before), (.attributeEquals, ['=']), (.attributeSpace, after),
        (.openingQuote, [quoted.quote]), (.valueText, quoted.body),
        (.closingQuote, if quoted.closed then [quoted.quote] else [])]

def Filler.startRole : Filler → Role
  | .space _ => .startSpace
  | .junk _ => .startJunk

def Filler.endRole : Filler → Role
  | .space _ => .endSpace
  | .junk _ => .endJunk

def TagEnding.role (ending : TagEnding) : Role × Text :=
  (if ending = .selfClosed then .startSelfCloser else .startCloser, ending.text)

def EndTag.roles (stray : Bool) (tag : EndTag) : List (Role × Text) :=
  (.endOpener stray, EndTag.opener) :: (.endName stray, tag.name.getD []) ::
    (tag.fillers.map (fun f => (f.endRole, f.text)) ++
      [(.endCloser stray, if tag.closed then ['>'] else [])])

/-- The leaves of the items of a start tag from `offset` on. The first of `enclosing` is the element
of the tag, and `before` are the attributes before these items. -/
def TagItem.leavesOfAll (enclosing : List Enclosure) (before : List Item) (offset : Nat) :
    List TagItem → List Leaf
  | [] => []
  | .attribute a :: items =>
    let next := offset + a.text.width
    let item := Item.attribute ⟨offset, a⟩
    let view : View := ⟨item, before, Item.ofTagItems next items, enclosing⟩
    Leaf.ofTexts (some view) offset a.roles ++
      TagItem.leavesOfAll enclosing (item :: before) next items
  | .filler f :: items =>
    Leaf.ofTexts (View.ofEnclosing enclosing) offset [(f.startRole, f.text)] ++
      TagItem.leavesOfAll enclosing before (offset + f.text.width) items

mutual

def Node.leaves (enclosing : List Enclosure) (before after : List Item) (offset : Nat) :
    Node → List Leaf
  | .element tag content endTag =>
    let e : Element := ⟨offset, tag, content, endTag⟩
    let inside := ⟨e, before, after⟩ :: enclosing
    let owner := View.ofEnclosing inside
    Leaf.ofTexts owner offset [(.startOpener, tag.opener), (.startName, e.name)] ++
      (TagItem.leavesOfAll inside [] e.itemsStart tag.items ++
        (Leaf.ofTexts owner (e.startTagSpan.stop - tag.ending.text.width) [tag.ending.role] ++
          (Node.leavesOfAll inside [] e.children e.startTagSpan.stop content ++
            match endTag with
            | some t => Leaf.ofTexts owner e.contentStop (t.roles false)
            | none => [])))
  | .strayEnd tag => Leaf.ofTexts (View.ofEnclosing enclosing) offset (tag.roles true)
  | .run kind t =>
    let owner :=
      match kind.content? with
      | some k => some (View.mk (.content k offset t) before after enclosing)
      | none => View.ofEnclosing enclosing
    Leaf.ofTexts owner offset [(.run kind, t)]

/-- The leaves of nodes that follow one another from `offset` on. They are the items `items`, and the
items `before` come before them. -/
def Node.leavesOfAll (enclosing : List Enclosure) (before items : List Item) (offset : Nat) :
    List Node → List Leaf
  | [] => []
  | n :: ns =>
    let shown := (Item.ofNode? (offset, n)).toList
    let after := items.drop shown.length
    n.leaves enclosing before after offset ++
      Node.leavesOfAll enclosing (shown ++ before) after (offset + n.width) ns

end

def Document.leaves : Document → List Leaf
  | .markup nodes => Node.leavesOfAll [] [] (Item.ofNodes 0 nodes) 0 nodes
  | .binary t => Leaf.ofTexts none 0 [(.binary, t)]

end ProjectFile.Markup
