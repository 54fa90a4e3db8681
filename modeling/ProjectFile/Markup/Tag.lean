import ProjectFile.Text.Identifier

/-!
Tags and what they are made of. Every type here keeps all of the text it was read from, malformed
parts included, so that `text` gives it back exactly; nothing is kept but text, so where a tag
stands is not part of it.
-/

namespace ProjectFile.Markup

/-- A quoted string. One that is not closed runs up to the next `<` or the end of the text. -/
structure Quoted where
  quote : Char
  body : Text
  closed : Bool
  deriving DecidableEq, Repr

/-- The text of the string, quotes included. -/
def Quoted.text (q : Quoted) : Text := q.quote :: (q.body ++ if q.closed then [q.quote] else [])

/-- What follows the name of an attribute. -/
inductive Assignment where
  /-- No `=` at all. -/
  | absent
  /-- An `=` after some space, and no string. -/
  | bare (before : Text)
  /-- An `=` and a string, each after some space. -/
  | value (before after : Text) (quoted : Quoted)
  deriving DecidableEq, Repr

def Assignment.text : Assignment → Text
  | .absent => []
  | .bare before => before ++ ['=']
  | .value before after quoted => before ++ '=' :: (after ++ quoted.text)

/-- An attribute of a start tag. -/
structure Attribute where
  name : Text
  assignment : Assignment
  deriving DecidableEq, Repr

namespace Attribute

def text (a : Attribute) : Text := a.name ++ a.assignment.text

/-- The value between the quotes, if there is a string. -/
def value (a : Attribute) : Option Text :=
  match a.assignment with
  | .value _ _ quoted => some quoted.body
  | _ => none

/-- Whether the value is a closed string. -/
def isClosed (a : Attribute) : Bool :=
  match a.assignment with
  | .value _ _ quoted => quoted.closed
  | _ => false

/-- Whether the attribute is well formed on its own. -/
def isValid (a : Attribute) : Bool := Text.isName a.name && a.isClosed

end Attribute

/-- What may stand in any tag besides names and attributes. -/
inductive Filler where
  | space (t : Text)
  /-- One token that has no business in the tag. -/
  | junk (t : Text)
  deriving DecidableEq, Repr

def Filler.text : Filler → Text
  | .space t => t
  | .junk t => t

/-- Whether the filler is a token that has no business in the tag. -/
def Filler.isJunk : Filler → Bool
  | .space _ => false
  | .junk _ => true

/-- What follows the name in a start tag. -/
inductive TagItem where
  | attribute (a : Attribute)
  | filler (f : Filler)
  deriving DecidableEq, Repr

namespace TagItem

def text : TagItem → Text
  | .attribute a => a.text
  | .filler f => f.text

def attribute? : TagItem → Option Attribute
  | .attribute a => some a
  | .filler _ => none

/-- Whether the item is a token that has no business in the tag. -/
def isJunk : TagItem → Bool
  | .attribute _ => false
  | .filler f => f.isJunk

end TagItem

/-- How a start tag ends. -/
inductive TagEnding where
  /-- With `>`: content follows. -/
  | content
  /-- With `/>`. -/
  | selfClosed
  /-- Not at all: another tag or the end of the text comes first. -/
  | missing
  deriving DecidableEq, Repr

def TagEnding.text : TagEnding → Text
  | .content => ['>']
  | .selfClosed => ['/', '>']
  | .missing => []

/-- A start tag. Its opener is `<`, or `<!` where a comment or a CDATA section was begun but not
completed. -/
structure StartTag where
  opener : Text
  name : Option Text
  items : List TagItem
  ending : TagEnding
  deriving DecidableEq, Repr

namespace StartTag

def text (tag : StartTag) : Text :=
  tag.opener ++ (tag.name.getD [] ++ (tag.items.flatMap TagItem.text ++ tag.ending.text))

def attributes (tag : StartTag) : List Attribute := tag.items.filterMap TagItem.attribute?

/-- Whether the tag opens an element: it has a name and ends with `>`. The content after a tag
without a name belongs to the element around it. -/
def opens (tag : StartTag) : Bool := tag.name.isSome && tag.ending == .content

end StartTag

/-- An end tag. -/
structure EndTag where
  name : Option Text
  fillers : List Filler
  closed : Bool
  deriving DecidableEq, Repr

def EndTag.opener : Text := ['<', '/']

def EndTag.text (tag : EndTag) : Text :=
  EndTag.opener ++
    (tag.name.getD [] ++ (tag.fillers.flatMap Filler.text ++ if tag.closed then ['>'] else []))

end ProjectFile.Markup
