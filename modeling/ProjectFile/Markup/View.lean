import ProjectFile.Markup.Node
import ProjectFile.Markup.NodePath
import ProjectFile.Source.Span

/-!
The typed view of a document: its elements, attributes, texts, comments and CDATA sections with the
places where they stand. An `Item` is one of these at its offset; a `View` is an item together with
the items beside it and the elements around it.
-/

namespace ProjectFile.Markup

/-- Nodes that follow one another from `offset` on, each with its own offset. -/
def Node.placed (offset : Nat) : List Node → List (Nat × Node)
  | [] => []
  | n :: ns => (offset, n) :: Node.placed (offset + n.width) ns

/-- The items of a start tag from `offset` on, each with its own offset. -/
def TagItem.placed (offset : Nat) : List TagItem → List (Nat × TagItem)
  | [] => []
  | i :: is => (offset, i) :: TagItem.placed (offset + i.text.width) is

/-! ## Attributes -/

/-- An attribute at an offset. -/
structure PlacedAttribute where
  start : Nat
  attr : Attribute
  deriving Repr

namespace PlacedAttribute

def span (a : PlacedAttribute) : Span := .ofSize a.start a.attr.text.width

def name (a : PlacedAttribute) : Text := a.attr.name

def nameSpan (a : PlacedAttribute) : Span := .ofSize a.start a.attr.name.width

/-- The value between the quotes, if there is a string. -/
def value (a : PlacedAttribute) : Option Text := a.attr.value

def valueSpan (a : PlacedAttribute) : Option Span :=
  match a.attr.assignment with
  | .value before after quoted =>
    some (.ofSize (a.nameSpan.stop + before.width + 1 + after.width + quoted.quote.utf8Size)
      quoted.body.width)
  | _ => none

def ofItem? (placed : Nat × TagItem) : Option PlacedAttribute :=
  placed.2.attribute?.map fun a => ⟨placed.1, a⟩

end PlacedAttribute

/-! ## Elements -/

/-- An element at an offset. -/
structure Element where
  start : Nat
  tag : StartTag
  content : List Node
  endTag : Option EndTag
  deriving Repr

namespace Element

def node (e : Element) : Node := .element e.tag e.content e.endTag

def span (e : Element) : Span := .ofSize e.start e.node.width

/-- The name; empty if the start tag has none. -/
def name (e : Element) : Text := e.tag.name.getD []

/-- The span of the name in the start tag. -/
def nameSpan (e : Element) : Option Span :=
  e.tag.name.map fun n => .ofSize (e.start + e.tag.opener.width) n.width

def startTagSpan (e : Element) : Span := .ofSize e.start e.tag.text.width

/-- The offset at which the content ends and the end tag starts. -/
def contentStop (e : Element) : Nat := e.startTagSpan.stop + Node.widthOfAll e.content

def endTagSpan (e : Element) : Option Span :=
  e.endTag.map fun tag => .ofSize e.contentStop tag.text.width

def endNameSpan (e : Element) : Option Span :=
  e.endTag.bind fun tag =>
    tag.name.map fun n => .ofSize (e.contentStop + EndTag.opener.width) n.width

/-- The span of the content; there is none unless the start tag ends with `>`. -/
def contentSpan (e : Element) : Option Span :=
  if e.tag.ending = .content then some ⟨e.startTagSpan.stop, e.contentStop⟩ else none

/-- The text of the content, markup included. -/
def innerText (e : Element) : Text :=
  if e.tag.ending = .content then Node.textOfAll e.content else []

/-- The offset after the name, where the items of the start tag begin. -/
def itemsStart (e : Element) : Nat := e.start + e.tag.opener.width + e.name.width

/-- The attributes, in order. -/
def attributes (e : Element) : List PlacedAttribute :=
  (TagItem.placed e.itemsStart e.tag.items).filterMap PlacedAttribute.ofItem?

/-- The first attribute of a name. -/
def attribute? (e : Element) (name : Text) : Option PlacedAttribute :=
  e.attributes.find? fun a => a.name == name

/-- The value of the first attribute of a name. -/
def attributeValue? (e : Element) (name : Text) : Option Text :=
  (e.attribute? name).bind PlacedAttribute.value

def childElements (e : Element) : List Element :=
  (Node.placed e.startTagSpan.stop e.content).filterMap fun (start, n) =>
    match n with
    | .element tag content endTag => some ⟨start, tag, content, endTag⟩
    | _ => none

/-- Whether the start tag is the whole element. -/
def isSelfClosing (e : Element) : Bool := e.tag.ending == .selfClosed

/-- Whether the element is well formed on its own, whatever its content. -/
def isValid (e : Element) : Bool :=
  e.tag.name.isSome && !e.tag.items.any TagItem.isJunk && e.tag.attributes.all Attribute.isValid &&
    (e.isSelfClosing ||
      match e.endTag with
      | some tag => tag.closed && tag.name.isSome && tag.name == e.tag.name
      | none => false)

end Element

/-- The text inside a CDATA section. -/
def sectionValue (t : Text) : Text :=
  let inner := if "<![CDATA[".toList.isPrefixOf t then t.drop 9 else t
  if [']', ']', '>'].isSuffixOf inner then inner.take (inner.length - 3) else inner

/-- The texts of nodes that are character data or CDATA sections, joined. -/
def Node.characters : List Node → Text
  | [] => []
  | .run .text t :: ns => t ++ Node.characters ns
  | .run .blank t :: ns => t ++ Node.characters ns
  | .run .cdata t :: ns => sectionValue t ++ Node.characters ns
  | _ :: ns => Node.characters ns

/-- The character data and CDATA sections directly inside the element, joined. -/
def Element.characters (e : Element) : Text := Node.characters e.content

/-! ## Items -/

/-- The kinds of runs that the view shows. -/
inductive ContentKind where
  | text
  | blank
  | comment
  | cdata
  deriving DecidableEq, Repr

/-- The kind of a run in the view, unless it is an instruction or a document type. -/
def RunKind.content? : RunKind → Option ContentKind
  | .text => some .text
  | .blank => some .blank
  | .comment => some .comment
  | .cdata => some .cdata
  | .instruction => none
  | .doctype => none

/-- A thing that the view shows, at its offset. -/
inductive Item where
  | element (e : Element)
  | attribute (a : PlacedAttribute)
  | content (kind : ContentKind) (start : Nat) (t : Text)
  deriving Repr

namespace Item

def span : Item → Span
  | .element e => e.span
  | .attribute a => a.span
  | .content _ start t => .ofSize start t.width

def element? : Item → Option Element
  | .element e => some e
  | _ => none

def attribute? : Item → Option PlacedAttribute
  | .attribute a => some a
  | _ => none

/-- The name of an element or attribute. -/
def name? : Item → Option Text
  | .element e => some e.name
  | .attribute a => some a.name
  | .content .. => none

/-- The text of an item that is neither element nor attribute. -/
def text? : Item → Option Text
  | .content _ _ t => some t
  | _ => none

def ofNode? (placed : Nat × Node) : Option Item :=
  match placed.2 with
  | .element tag inside endTag => some (.element ⟨placed.1, tag, inside, endTag⟩)
  | .strayEnd _ => none
  | .run kind t => kind.content?.map fun k => Item.content k placed.1 t

end Item

def Item.ofNodes (offset : Nat) (nodes : List Node) : List Item :=
  (Node.placed offset nodes).filterMap Item.ofNode?

/-- The items directly inside an element, in order. -/
def Element.children (e : Element) : List Item := Item.ofNodes e.startTagSpan.stop e.content

/-- The items at the top of a document, in order. -/
def Document.children (d : Document) : List Item := Item.ofNodes 0 d.nodes

/-- The first element at the top of a document. -/
def Document.root? (d : Document) : Option Element := d.children.findSome? Item.element?

/-! ## Views -/

/-- An element around an item, with the items beside it, nearest first. -/
structure Enclosure where
  element : Element
  before : List Item
  after : List Item
  deriving Repr

/-- An item, the items before and after it among its siblings, nearest first, and the elements
around it, innermost first. -/
structure View where
  item : Item
  before : List Item
  after : List Item
  enclosing : List Enclosure
  deriving Repr

namespace View

/-- The view of the innermost of some enclosing elements. -/
def ofEnclosing : List Enclosure → Option View
  | [] => none
  | around :: rest => some ⟨.element around.element, around.before, around.after, rest⟩

/-- The view of the element around the item. -/
def parent? (v : View) : Option View := ofEnclosing v.enclosing

/-- The element around the item. -/
def parentElement? (v : View) : Option Element := v.enclosing.head?.map Enclosure.element

/-- The view of the item, if it is an element, and else of the element around it. -/
def element? (v : View) : Option View :=
  match v.item with
  | .element _ => some v
  | _ => v.parent?

/-- The nearest item before. -/
def previous? (v : View) : Option Item := v.before.head?

/-- The nearest item after. -/
def next? (v : View) : Option Item := v.after.head?

/-- The path of the elements around the item. -/
def enclosingPath (v : View) : NodePath :=
  .ofSegments (v.enclosing.map fun around => around.element.name).reverse

/-- The path of the item: of an attribute, its element's and its name after an `@`; of a thing that
has no name, its parent's. -/
def path (v : View) : NodePath :=
  match v.item with
  | .element e => v.enclosingPath.child e.name
  | .attribute a => v.enclosingPath.child ('@' :: a.name)
  | .content .. => v.enclosingPath

end View

/-- The items that the attributes among some items of a start tag are. -/
def Item.ofTagItems (offset : Nat) (items : List TagItem) : List Item :=
  ((TagItem.placed offset items).filterMap PlacedAttribute.ofItem?).map Item.attribute

/-- The views of the attributes in a start tag from `offset` on, after the items `before`. -/
def TagItem.viewsOfAll (enclosing : List Enclosure) (before : List Item) (offset : Nat) :
    List TagItem → List View
  | [] => []
  | .attribute a :: items =>
    let next := offset + a.text.width
    let item := Item.attribute ⟨offset, a⟩
    ⟨item, before, Item.ofTagItems next items, enclosing⟩ ::
      TagItem.viewsOfAll enclosing (item :: before) next items
  | .filler f :: items => TagItem.viewsOfAll enclosing before (offset + f.text.width) items

mutual

/-- The views in a node at `offset`: of the node, of its attributes, and of what is inside it. -/
def Node.views (enclosing : List Enclosure) (before after : List Item) (offset : Nat) :
    Node → List View
  | .element tag content endTag =>
    let e : Element := ⟨offset, tag, content, endTag⟩
    let inside := ⟨e, before, after⟩ :: enclosing
    ⟨.element e, before, after, enclosing⟩ ::
      (TagItem.viewsOfAll inside [] e.itemsStart tag.items ++
        Node.viewsOfAll inside [] e.children e.startTagSpan.stop content)
  | .strayEnd _ => []
  | .run kind t =>
    (kind.content?.map fun k => View.mk (.content k offset t) before after enclosing).toList

/-- The views in nodes that follow one another from `offset` on. They are the items `items`, and the
items `before` come before them. -/
def Node.viewsOfAll (enclosing : List Enclosure) (before items : List Item) (offset : Nat) :
    List Node → List View
  | [] => []
  | n :: ns =>
    let shown := (Item.ofNode? (offset, n)).toList
    let after := items.drop shown.length
    n.views enclosing before after offset ++
      Node.viewsOfAll enclosing (shown ++ before) after (offset + n.width) ns

end

/-- All views of a document, in document order. -/
def Document.views (d : Document) : List View := Node.viewsOfAll [] [] d.children 0 d.nodes

/-- All elements of a document, in document order. -/
def Document.elements (d : Document) : List Element :=
  d.views.filterMap fun v => v.item.element?

end ProjectFile.Markup
