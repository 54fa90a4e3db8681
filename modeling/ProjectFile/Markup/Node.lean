import ProjectFile.Markup.Piece

/-!
The nodes of a document and how they are put together from its pieces.

Nesting follows three rules. An end tag closes the innermost open element of its name, and with it
every element opened since, which then have no end tag. An end tag whose name no open element
bears is left where it stands, and so is one without a name outside every element. An end tag
without a name inside an element closes that element.
-/

namespace ProjectFile.Markup

/-- A node of a document. -/
inductive Node where
  | element (tag : StartTag) (content : List Node) (endTag : Option EndTag)
  /-- An end tag that closes nothing. -/
  | strayEnd (tag : EndTag)
  | run (kind : RunKind) (t : Text)
  deriving Repr

namespace Node

mutual

def text : Node → Text
  | .element tag content endTag => tag.text ++ (textOfAll content ++ (endTag.map EndTag.text).getD [])
  | .strayEnd tag => tag.text
  | .run _ t => t

/-- The text of nodes that follow one another. -/
def textOfAll : List Node → Text
  | [] => []
  | n :: ns => n.text ++ textOfAll ns

end

mutual

/-- The number of bytes of a node. -/
def width : Node → Nat
  | .element tag content endTag =>
    tag.text.width + (widthOfAll content + ((endTag.map EndTag.text).getD []).width)
  | .strayEnd tag => tag.text.width
  | .run _ t => t.width

/-- The number of bytes of nodes that follow one another. -/
def widthOfAll : List Node → Nat
  | [] => 0
  | n :: ns => n.width + widthOfAll ns

end

mutual

theorem width_eq : ∀ n : Node, n.width = n.text.width
  | .element tag content endTag => by simp [width, text, widthOfAll_eq content]
  | .strayEnd tag => by simp [width, text]
  | .run _ t => by simp [width, text]

theorem widthOfAll_eq : ∀ ns : List Node, widthOfAll ns = (textOfAll ns).width
  | [] => by simp [widthOfAll, textOfAll]
  | n :: ns => by simp [widthOfAll, textOfAll, width_eq n, widthOfAll_eq ns]

end

def isElement : Node → Bool
  | .element .. => true
  | _ => false

end Node

/-! ## Nesting -/

/-- An open element: its start tag and, last first, the siblings before it. -/
structure OpenElement where
  tag : StartTag
  before : List Node

/-- A document being put together: the open elements, innermost first, and, last first, the
finished nodes of the innermost one, or of the document when no element is open. -/
structure Draft where
  opened : List OpenElement
  done : List Node

namespace Draft

/-- The draft before the first piece. -/
def empty : Draft := ⟨[], []⟩

def add (d : Draft) (n : Node) : Draft := { d with done := n :: d.done }

def openElement (d : Draft) (tag : StartTag) : Draft := ⟨⟨tag, d.done⟩ :: d.opened, []⟩

/-- Closes the innermost open element, with an end tag or without. -/
def close (d : Draft) (endTag : Option EndTag) : Draft :=
  match d.opened with
  | [] => d
  | innermost :: outer =>
    ⟨outer, .element innermost.tag d.done.reverse endTag :: innermost.before⟩

/-- Closes the `n` innermost open elements without end tags. -/
def abandon : Nat → Draft → Draft
  | 0, d => d
  | n + 1, d => abandon n (d.close none)

/-- How many open elements an end tag leaves behind before the one it closes; `none` if it closes
none. -/
def depthOf (d : Draft) (name : Option Text) : Option Nat :=
  match name with
  | none => if d.opened.isEmpty then none else some 0
  | some n => d.opened.findIdx? fun o => o.tag.name == some n

/-- Takes in the next piece. -/
def step (d : Draft) : Piece → Draft
  | .run kind t => d.add (.run kind t)
  | .start tag => if tag.opens then d.openElement tag else d.add (.element tag [] none)
  | .stop tag =>
    match d.depthOf tag.name with
    | none => d.add (.strayEnd tag)
    | some depth => (d.abandon depth).close (some tag)

/-- The nodes of the document, once no piece is left. -/
def finish (d : Draft) : List Node := (d.abandon d.opened.length).done.reverse

end Draft

/-- The nodes that the pieces make up. -/
def Node.ofPieces (pieces : List Piece) : List Node := (pieces.foldl Draft.step .empty).finish

/-- A document: the nodes of a text, or the text itself when control characters show that it is
not markup. -/
inductive Document where
  | markup (nodes : List Node)
  | binary (t : Text)
  deriving Repr

namespace Document

/-- Whether a text holds control characters other than tab, line feed and carriage return. -/
def isBinary (t : Text) : Bool :=
  t.any fun c => Text.isControl c && !(c == '\t' || c == '\n' || c == '\r')

/-- Reads a text. Every text is read; what is malformed shows in `errors`. -/
def parse (t : Text) : Document :=
  if isBinary t then .binary t else .markup (Node.ofPieces (Piece.ofText t))

/-- The top-level nodes. -/
def nodes : Document → List Node
  | .markup nodes => nodes
  | .binary _ => []

def text : Document → Text
  | .markup nodes => Node.textOfAll nodes
  | .binary t => t

/-- The number of bytes of the document. -/
def width : Document → Nat
  | .markup nodes => Node.widthOfAll nodes
  | .binary t => t.width

theorem width_eq (d : Document) : d.width = d.text.width := by
  cases d with
  | markup nodes => simp [width, text, Node.widthOfAll_eq]
  | binary t => rfl

end Document

end ProjectFile.Markup
