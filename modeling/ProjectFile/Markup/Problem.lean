import ProjectFile.Markup.Node
import ProjectFile.Source.Span

/-!
What is wrong with a document. The errors are read off its nodes, in the order of the places where
reading runs into them, so a document has none exactly when its nodes are all well formed.
-/

namespace ProjectFile.Markup

/-- Something malformed. -/
inductive Problem where
  | notText
  | noRoot
  | severalRoots
  | textOutsideRoot
  | invalidElementName (name : Text)
  | missingElementName
  | junkInStartTag
  | unterminatedStartTag (name : Text)
  | invalidAttributeName (name : Text)
  | duplicateAttribute (name : Text)
  | missingEquals
  | missingValue
  | unterminatedValue
  | unclosedElement (name : Text)
  | missingEndName (expected : Text)
  | junkInEndTag
  | unterminatedEndTag
  | strayEndTag (name : Text)
  | unterminatedComment
  | unterminatedSection
  | unterminatedInstruction
  deriving DecidableEq, Repr

def Problem.message : Problem → String
  | .notText => "document is not XML text"
  | .noRoot => "document has no root element"
  | .severalRoots => "document has more than one root element"
  | .textOutsideRoot => "text is not allowed outside the root element"
  | .invalidElementName name => "`" ++ name.toString ++ "` is not a valid element name"
  | .missingElementName => "expected an element name"
  | .junkInStartTag => "unexpected text in start tag"
  | .unterminatedStartTag name => "start tag `<" ++ name.toString ++ "` is not terminated"
  | .invalidAttributeName name => "`" ++ name.toString ++ "` is not a valid attribute name"
  | .duplicateAttribute name => "duplicate attribute `" ++ name.toString ++ "`"
  | .missingEquals => "expected `=` after attribute name"
  | .missingValue => "expected an attribute value"
  | .unterminatedValue => "attribute value is not terminated"
  | .unclosedElement name => "element `" ++ name.toString ++ "` is not closed"
  | .missingEndName expected => "expected `" ++ expected.toString ++ "` in end tag"
  | .junkInEndTag => "unexpected text in end tag"
  | .unterminatedEndTag => "end tag is not terminated"
  | .strayEndTag name => "unexpected end tag `</" ++ name.toString ++ ">`"
  | .unterminatedComment => "comment is not terminated"
  | .unterminatedSection => "CDATA section is not terminated"
  | .unterminatedInstruction => "processing instruction is not terminated"

/-- A problem and the span it concerns. -/
structure SyntaxError where
  problem : Problem
  span : Span
  deriving DecidableEq, Repr

/-- A list with one error if `condition` holds. -/
def SyntaxError.when (condition : Bool) (problem : Problem) (span : Span) : List SyntaxError :=
  if condition then [⟨problem, span⟩] else []

/-- The errors of an attribute that starts at `offset`, after attributes of the names `seen`. -/
def Attribute.errors (seen : List Text) (offset : Nat) (a : Attribute) : List SyntaxError :=
  let name := Span.ofSize offset a.name.width
  let after := name.stop
  SyntaxError.when (!Text.isName a.name) (.invalidAttributeName a.name) name ++
    SyntaxError.when (seen.contains a.name) (.duplicateAttribute a.name) name ++
    match a.assignment with
    | .absent => [⟨.missingEquals, .empty after⟩]
    | .bare before => [⟨.missingValue, .empty (after + before.width + 1)⟩]
    | .value before space quoted =>
      SyntaxError.when (!quoted.closed) .unterminatedValue
        (.ofSize (after + before.width + 1 + space.width) quoted.text.width)

def TagItem.errors (seen : List Text) (offset : Nat) : List TagItem → List SyntaxError
  | [] => []
  | .attribute a :: items =>
    a.errors seen offset ++ TagItem.errors (a.name :: seen) (offset + a.text.width) items
  | .filler f :: items =>
    SyntaxError.when f.isJunk .junkInStartTag (.ofSize offset f.text.width) ++
      TagItem.errors seen (offset + f.text.width) items

def StartTag.errors (offset : Nat) (tag : StartTag) : List SyntaxError :=
  let start := offset + tag.opener.width
  let name := tag.name.getD []
  let after := start + name.width
  (match tag.name with
    | none => [⟨.missingElementName, .empty start⟩]
    | some n => SyntaxError.when (!Text.isName n) (.invalidElementName n) ⟨start, after⟩) ++
  TagItem.errors [] after tag.items ++
  SyntaxError.when (tag.ending == .missing) (.unterminatedStartTag name)
    (.empty (offset + tag.text.width))

def Filler.errors (offset : Nat) : List Filler → List SyntaxError
  | [] => []
  | f :: fillers =>
    SyntaxError.when f.isJunk .junkInEndTag (.ofSize offset f.text.width) ++
      Filler.errors (offset + f.text.width) fillers

/-- The errors of an end tag that starts at `offset` and should name `expected`, if anything. -/
def EndTag.errors (expected : Option Text) (offset : Nat) (tag : EndTag) : List SyntaxError :=
  let start := offset + EndTag.opener.width
  (match tag.name, expected with
    | none, some name => [⟨.missingEndName name, .empty start⟩]
    | _, _ => []) ++
  Filler.errors (start + (tag.name.getD []).width) tag.fillers ++
  SyntaxError.when (!tag.closed) .unterminatedEndTag (.empty (offset + tag.text.width))

/-- The error of a run that lacks its terminator. -/
def RunKind.errors (kind : RunKind) (offset : Nat) (t : Text) : List SyntaxError :=
  let problem : Problem :=
    match kind with
    | .cdata => .unterminatedSection
    | .instruction => .unterminatedInstruction
    | _ => .unterminatedComment
  SyntaxError.when (!kind.isTerminated t) problem (.ofSize offset t.width)

/-- The span of the end tag in front of which an element that it does not close ends; empty at the
end of the text. -/
def unclosedSpan (length offset : Nat) : Span :=
  if offset < length then .ofSize offset EndTag.opener.width else .empty offset

namespace Node

mutual

/-- The errors of a node that starts at `offset` in a text of `length` bytes. -/
def errors (length offset : Nat) : Node → List SyntaxError
  | .element tag content endTag =>
    let inside := offset + tag.text.width
    let after := inside + widthOfAll content
    tag.errors offset ++ errorsOfAll length inside content ++
      match endTag with
      | some e => e.errors tag.name after
      | none =>
        SyntaxError.when tag.opens (.unclosedElement (tag.name.getD [])) (unclosedSpan length after)
  | .strayEnd tag =>
    tag.errors none offset ++ [⟨.strayEndTag (tag.name.getD []), .ofSize offset tag.text.width⟩]
  | .run kind t => kind.errors offset t

/-- The errors of nodes that follow one another from `offset` on. -/
def errorsOfAll (length offset : Nat) : List Node → List SyntaxError
  | [] => []
  | n :: ns => n.errors length offset ++ errorsOfAll length (offset + n.width) ns

end

end Node

namespace Document

/-- The errors of the top-level nodes from `offset` on, after `roots` elements. -/
def topErrors (length : Nat) (roots offset : Nat) : List Node → List SyntaxError
  | [] => SyntaxError.when (roots == 0) .noRoot (.empty offset)
  | n :: ns =>
    (match n with
      | .element tag _ _ =>
        n.errors length offset ++
          SyntaxError.when (roots == 1) .severalRoots (.ofSize offset tag.opener.width)
      | .run .text t => [⟨.textOutsideRoot, .ofSize offset t.width⟩]
      | _ => n.errors length offset) ++
    topErrors length (if n.isElement then roots + 1 else roots) (offset + n.width) ns

/-- Everything that is wrong with a document. -/
def errors : Document → List SyntaxError
  | .binary t => [⟨.notText, ⟨0, t.width⟩⟩]
  | .markup nodes => topErrors (Node.widthOfAll nodes) 0 0 nodes

/-- Whether the document is well formed. -/
def isValid (d : Document) : Bool := d.errors.isEmpty

end Document

end ProjectFile.Markup
