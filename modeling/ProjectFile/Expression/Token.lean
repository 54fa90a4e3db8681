import ProjectFile.Text.Class
import ProjectFile.Source.Span

/-!
The tokens of embedded expressions. An expression is read as it stands in the markup, so `&lt;`,
`&gt;`, `&apos;` and `&quot;` act as the characters they encode. Every other entity is text as a
whole, which keeps its `;` from splitting a list.
-/

namespace ProjectFile.Expression

/-- The comparison operators. -/
inductive Comparison where
  | equal
  | notEqual
  | less
  | lessOrEqual
  | greater
  | greaterOrEqual
  deriving DecidableEq, Repr

/-- The operator as it is written. -/
def Comparison.text : Comparison → String
  | .equal => "=="
  | .notEqual => "!="
  | .less => "<"
  | .lessOrEqual => "<="
  | .greater => ">"
  | .greaterOrEqual => ">="

/-- The kinds of tokens. -/
inductive TokenKind where
  | propertyOpen
  | itemOpen
  | metadataOpen
  | leftParen
  | rightParen
  | quote
  | comparison (op : Comparison)
  | bang
  | arrow
  | comma
  | dot
  | semicolon
  | space
  | identifier
  | number
  /-- Characters that the grammar gives no meaning. -/
  | text
  deriving DecidableEq, Repr

namespace TokenKind

/-- Whether the token opens something that a `)` closes. -/
def opens : TokenKind → Bool
  | .propertyOpen => true
  | .itemOpen => true
  | .metadataOpen => true
  | .leftParen => true
  | _ => false

def isComparison : TokenKind → Bool
  | .comparison _ => true
  | _ => false

end TokenKind

/-- A token at an offset of the expression's text. -/
structure Token where
  kind : TokenKind
  start : Nat
  text : Text
  deriving DecidableEq, Repr

namespace Token

def span (t : Token) : Span := .ofSize t.start t.text.width

/-- Whether the token is the given word, in any letter case. -/
def isWord (t : Token) (word : Text) : Bool := t.kind == .identifier && Text.sameName t.text word

end Token

/-! ## Reading tokens -/

/-- Whether `c` may begin an identifier. -/
def isLetter (c : Char) : Bool := c.isAlpha || c == '_'

/-- Whether `c` may stand anywhere in an identifier. -/
def isWordChar (c : Char) : Bool := c.isAlphanum || c == '_'

/-- Whether `c` may continue the name of an entity. -/
def isEntityChar (c : Char) : Bool := isWordChar c || c == '.' || c == '-'

/-- Whether `c` is a hexadecimal digit. -/
def isHexDigit (c : Char) : Bool :=
  c.isDigit || ('a' ≤ c && c ≤ 'f') || ('A' ≤ c && c ≤ 'F')

/-- The number of characters in front that continue an identifier. A `-` joins two of its
characters but never ends it, so that `X->` is `X` and an arrow. -/
def identifierLength : Text → Nat
  | [] => 0
  | [c] => if isWordChar c then 1 else 0
  | c :: d :: t =>
    if isWordChar c then identifierLength (d :: t) + 1
    else if c == '-' && isWordChar d then identifierLength t + 2
    else 0

/-- The operator and quote entities with their kinds, longest first. -/
def operatorEntities : List (Text × TokenKind) :=
  [("&apos;".toList, .quote), ("&quot;".toList, .quote),
   ("&lt;=".toList, .comparison .lessOrEqual), ("&lt;".toList, .comparison .less),
   ("&gt;=".toList, .comparison .greaterOrEqual), ("&gt;".toList, .comparison .greater)]

/-- The number of characters of a reference body of `digits` characters, with the `;` that ends it
if there is one. -/
def closedLength (body : Nat) (rest : Text) : Nat :=
  if rest.head? = some ';' then body + 1 else body

/-- The number of characters of the entity whose `&` has just been read, the `&` not counted. An
unfinished entity reaches as far as it could be one. -/
def entityLength : Text → Nat
  | '#' :: 'x' :: t =>
    let n := Text.lengthWhile isHexDigit t
    if n = 0 then 1 else closedLength (n + 2) (t.drop n)
  | '#' :: t =>
    let n := Text.lengthWhile Char.isDigit t
    if n = 0 then 1 else closedLength (n + 1) (t.drop n)
  | c :: t =>
    if isLetter c then
      let n := Text.lengthWhile isEntityChar t
      closedLength (n + 1) (t.drop n)
    else 0
  | [] => 0

/-- The kind and the number of characters of the token that begins with an `&`. -/
def readEntity (t : Text) : TokenKind × Nat :=
  match operatorEntities.find? fun entity => entity.1.isPrefixOf t with
  | some entity => (entity.2, entity.1.length)
  | none => (.text, entityLength (t.drop 1) + 1)

/-- The kind and the number of characters of the token at a character. -/
def readToken (c : Char) (rest : Text) : TokenKind × Nat :=
  let followed (d : Char) : Bool := rest.head? == some d
  match c with
  | '$' => if followed '(' then (.propertyOpen, 2) else (.text, 1)
  | '@' => if followed '(' then (.itemOpen, 2) else (.text, 1)
  | '%' => if followed '(' then (.metadataOpen, 2) else (.text, 1)
  | '(' => (.leftParen, 1)
  | ')' => (.rightParen, 1)
  | '\'' => (.quote, 1)
  | '=' => if followed '=' then (.comparison .equal, 2) else (.text, 1)
  | '!' => if followed '=' then (.comparison .notEqual, 2) else (.bang, 1)
  | '<' => if followed '=' then (.comparison .lessOrEqual, 2) else (.comparison .less, 1)
  | '>' => if followed '=' then (.comparison .greaterOrEqual, 2) else (.comparison .greater, 1)
  | '-' => if followed '>' then (.arrow, 2) else (.text, 1)
  | ',' => (.comma, 1)
  | '.' => (.dot, 1)
  | ';' => (.semicolon, 1)
  | '&' => readEntity (c :: rest)
  | _ =>
    if Text.isMarkupSpace c then (.space, Text.lengthWhile Text.isMarkupSpace rest + 1)
    else if isLetter c then (.identifier, identifierLength rest + 1)
    else if c.isDigit then (.number, Text.lengthWhile Char.isDigit rest + 1)
    else (.text, 1)

/-- Puts a token in front of others. Adjacent texts are one token. -/
def Token.prepend (t : Token) : List Token → List Token
  | [] => [t]
  | u :: us =>
    if t.kind = .text ∧ u.kind = .text then { t with text := t.text ++ u.text } :: us
    else t :: u :: us

/-- The tokens of a text that stands at `offset`, after `skip` characters that belong to the token
before. -/
def tokensFrom (offset : Nat) : Nat → Text → List Token
  | _, [] => []
  | skip + 1, c :: rest => tokensFrom (offset + c.utf8Size) skip rest
  | 0, c :: rest =>
    let next := readToken c rest
    Token.prepend ⟨next.1, offset, (c :: rest).take next.2⟩
      (tokensFrom (offset + c.utf8Size) (next.2 - 1) rest)

def tokens (t : Text) : List Token := tokensFrom 0 0 t

end ProjectFile.Expression
