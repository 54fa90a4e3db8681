import ProjectFile.Markup.Node
import ProjectFile.Source.Span

/-!
The concrete tree of a document: branches for its constructs, leaves for its tokens. The leaves
joined are the text of the document, which `Concrete.text` states.
-/

namespace ProjectFile.Markup

/-- The kinds of leaves. -/
inductive LeafKind where
  | leftAngle
  | leftAngleSlash
  | rightAngle
  | slashRightAngle
  | equals
  | quote
  | name
  | space
  | charData
  | valueText
  | comment
  | cdata
  | instruction
  | doctype
  | junk
  deriving DecidableEq, Repr

/-- The kinds of branches. -/
inductive BranchKind where
  | document
  | element
  | startTag
  | endTag
  | attribute
  | attributeValue
  | run (kind : RunKind)
  /-- Around a token that has no business in a tag, and around a stray end tag. -/
  | error
  deriving DecidableEq, Repr

/-- A concrete tree. -/
inductive Concrete where
  | leaf (kind : LeafKind) (t : Text)
  | branch (kind : BranchKind) (children : List Concrete)
  deriving Repr

namespace Concrete

mutual

/-- The text under a tree. -/
def text : Concrete → Text
  | .leaf _ t => t
  | .branch _ children => textOfAll children

/-- The text under trees that follow one another. -/
def textOfAll : List Concrete → Text
  | [] => []
  | c :: cs => c.text ++ textOfAll cs

end

mutual

/-- The number of bytes under a tree. -/
def width : Concrete → Nat
  | .leaf _ t => t.width
  | .branch _ children => widthOfAll children

/-- The number of bytes under trees that follow one another. -/
def widthOfAll : List Concrete → Nat
  | [] => 0
  | c :: cs => c.width + widthOfAll cs

end

mutual

theorem width_eq : ∀ c : Concrete, c.width = c.text.width
  | .leaf _ t => by simp [width, text]
  | .branch _ children => by simp [width, text, widthOfAll_eq children]

theorem widthOfAll_eq : ∀ cs : List Concrete, widthOfAll cs = (textOfAll cs).width
  | [] => by simp [widthOfAll, textOfAll]
  | c :: cs => by simp [widthOfAll, textOfAll, width_eq c, widthOfAll_eq cs]

end

mutual

/-- The leaves under a tree, in order. -/
def leaves : Concrete → List (LeafKind × Text)
  | .leaf kind t => [(kind, t)]
  | .branch _ children => leavesOfAll children

/-- The leaves under trees that follow one another. -/
def leavesOfAll : List Concrete → List (LeafKind × Text)
  | [] => []
  | c :: cs => c.leaves ++ leavesOfAll cs

end

/-- A line of the outline of a tree. -/
structure Line where
  depth : Nat
  kind : LeafKind ⊕ BranchKind
  span : Span

mutual

/-- The outline of a tree that starts at `offset`: every branch before what it holds. -/
def outline (depth offset : Nat) : Concrete → List Line
  | .leaf kind t => [⟨depth, .inl kind, .ofSize offset t.width⟩]
  | .branch kind children =>
    ⟨depth, .inr kind, .ofSize offset (widthOfAll children)⟩ ::
      outlineOfAll (depth + 1) offset children

/-- The outline of trees that follow one another from `offset` on. -/
def outlineOfAll (depth offset : Nat) : List Concrete → List Line
  | [] => []
  | c :: cs => c.outline depth offset ++ outlineOfAll depth (offset + c.width) cs

end

/-- A list with one leaf, or none if the text is empty. -/
def leafUnlessEmpty (kind : LeafKind) (t : Text) : List Concrete :=
  if t.isEmpty then [] else [.leaf kind t]

end Concrete

open Concrete (leafUnlessEmpty)

/-- The concrete tree of a quoted string. -/
def Quoted.concrete (q : Quoted) : Concrete :=
  .branch .attributeValue
    (.leaf .quote [q.quote] ::
      (leafUnlessEmpty .valueText q.body ++ if q.closed then [.leaf .quote [q.quote]] else []))

/-- The leaves and branches of an assignment. -/
def Assignment.concrete : Assignment → List Concrete
  | .absent => []
  | .bare before => leafUnlessEmpty .space before ++ [.leaf .equals ['=']]
  | .value before after quoted =>
    leafUnlessEmpty .space before ++
      .leaf .equals ['='] :: (leafUnlessEmpty .space after ++ [quoted.concrete])

def Filler.concrete : Filler → Concrete
  | .space t => .leaf .space t
  | .junk t => .branch .error [.leaf .junk t]

def TagItem.concrete : TagItem → Concrete
  | .attribute a => .branch .attribute (.leaf .name a.name :: a.assignment.concrete)
  | .filler f => f.concrete

/-- The leaf of the end of a start tag. -/
def TagEnding.concrete : TagEnding → List Concrete
  | .content => [.leaf .rightAngle ['>']]
  | .selfClosed => [.leaf .slashRightAngle ['/', '>']]
  | .missing => []

def nameLeaf (name : Option Text) : List Concrete := (name.map (Concrete.leaf .name)).toList

def StartTag.concrete (tag : StartTag) : Concrete :=
  .branch .startTag
    (.leaf .leftAngle tag.opener ::
      (nameLeaf tag.name ++ tag.items.map TagItem.concrete ++ tag.ending.concrete))

def EndTag.concrete (tag : EndTag) : Concrete :=
  .branch .endTag
    (.leaf .leftAngleSlash EndTag.opener ::
      (nameLeaf tag.name ++ tag.fillers.map Filler.concrete ++
        if tag.closed then [.leaf .rightAngle ['>']] else []))

def RunKind.leaf : RunKind → LeafKind
  | .text => .charData
  | .blank => .space
  | .comment => .comment
  | .cdata => .cdata
  | .instruction => .instruction
  | .doctype => .doctype

namespace Node

mutual

def concrete : Node → Concrete
  | .element tag content endTag =>
    .branch .element (tag.concrete :: (concreteOfAll content ++ (endTag.map EndTag.concrete).toList))
  | .strayEnd tag => .branch .error [tag.concrete]
  | .run kind t => .branch (.run kind) [.leaf kind.leaf t]

/-- The concrete trees of nodes. -/
def concreteOfAll : List Node → List Concrete
  | [] => []
  | n :: ns => n.concrete :: concreteOfAll ns

end

end Node

def Document.concrete : Document → Concrete
  | .markup nodes => .branch .document (Node.concreteOfAll nodes)
  | .binary t => .branch .document (leafUnlessEmpty .junk t)

end ProjectFile.Markup
