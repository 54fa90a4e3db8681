import ProjectFile.Markup.Tag

/-!
The flat reading of markup: a text falls into pieces, each a whole tag or a run of something else,
and the pieces joined are the text again.

Outside tags `<` opens a tag, a comment, a CDATA section, a processing instruction or a document
type, and everything up to the next `<` is character data. Inside a tag, names, `=`, strings and
space alternate until `>` or `/>`, or until the next `<`, which opens another tag whatever comes
after it: while a tag is not terminated, comments and sections are not recognised.
-/

namespace ProjectFile.Markup

/-- What a stretch of text outside tags is. -/
inductive RunKind where
  | text
  /-- Character data of nothing but markup space. -/
  | blank
  | comment
  | cdata
  | instruction
  | doctype
  deriving DecidableEq, Repr

/-- Whether a run that has a terminator ends with it. The lengths keep a terminator from
overlapping the opener. -/
def RunKind.isTerminated (kind : RunKind) (t : Text) : Bool :=
  match kind with
  | .comment => decide (7 ≤ Text.width t) && ['-', '-', '>'].isSuffixOf t
  | .cdata => decide (12 ≤ Text.width t) && [']', ']', '>'].isSuffixOf t
  | .instruction => decide (4 ≤ Text.width t) && ['?', '>'].isSuffixOf t
  | _ => true

/-- One piece of a text. -/
inductive Piece where
  | start (tag : StartTag)
  | stop (tag : EndTag)
  | run (kind : RunKind) (t : Text)
  deriving DecidableEq, Repr

def Piece.text : Piece → Text
  | .start tag => tag.text
  | .stop tag => tag.text
  | .run _ t => t

/-! ## The inside of a tag -/

/-- A token inside a tag. -/
inductive TagToken where
  | rightAngle
  | slashRightAngle
  | equals
  | name (t : Text)
  | space (t : Text)
  | string (q : Quoted)
  /-- A `/` that no `>` follows. -/
  | slash
  deriving DecidableEq, Repr

namespace TagToken

def text : TagToken → Text
  | .rightAngle => ['>']
  | .slashRightAngle => ['/', '>']
  | .equals => ['=']
  | .name t => t
  | .space t => t
  | .string q => q.text
  | .slash => ['/']

def isLast : TagToken → Bool
  | .rightAngle => true
  | .slashRightAngle => true
  | _ => false

/-- Whether `c` may stand in a name. -/
def isNameChar (c : Char) : Bool :=
  !(Text.isMarkupSpace c || c == '<' || c == '>' || c == '/' || c == '=' || c == '"' || c == '\'')

/-- The string whose opening quote has just been read. -/
def readString (quote : Char) (rest : Text) : Quoted :=
  let n := Text.lengthWhile (fun c => c != quote && c != '<') rest
  ⟨quote, rest.take n, (rest.drop n).head? == some quote⟩

/-- The token at a character inside a tag that is not `<`. -/
def read (c : Char) (rest : Text) : TagToken :=
  if c = '>' then .rightAngle
  else if c = '=' then .equals
  else if c = '/' then if rest.head? = some '>' then .slashRightAngle else .slash
  else if c = '"' ∨ c = '\'' then .string (readString c rest)
  else if Text.isMarkupSpace c then .space (c :: rest.take (Text.lengthWhile Text.isMarkupSpace rest))
  else .name (c :: rest.take (Text.lengthWhile isNameChar rest))

/-- The tokens of the tag whose opener has just been read, after `skip` more characters. They end
with the first `>` or `/>`, or before the first `<` outside a token. -/
def readAll : Nat → Text → List TagToken
  | _, [] => []
  | skip + 1, _ :: rest => readAll skip rest
  | 0, c :: rest =>
    if c = '<' then []
    else
      let token := read c rest
      if token.isLast then [token] else token :: readAll (token.text.length - 1) rest

end TagToken

/-- The assignment at the front of a tag's tokens, and the number of tokens it takes. Space counts
to it only in front of the `=` or the string it leads to. -/
def Assignment.read (tokens : List TagToken) : Assignment × Nat :=
  match tokens with
  | .space before :: .equals :: rest => value before 2 rest
  | .equals :: rest => value [] 1 rest
  | _ => (.absent, 0)
where
  /-- Reads on after the `=`, with `taken` tokens read before. -/
  value (before : Text) (taken : Nat) : List TagToken → Assignment × Nat
    | .space after :: .string q :: _ => (.value before after q, taken + 2)
    | .string q :: _ => (.value before [] q, taken + 1)
    | _ => (.bare before, taken)

/-- The items of a start tag from the tokens after its name, the first `skip` of which belong to
the attribute before. -/
def TagItem.readAll : Nat → List TagToken → List TagItem
  | _, [] => []
  | skip + 1, _ :: rest => TagItem.readAll skip rest
  | 0, token :: rest =>
    match token with
    | .rightAngle => []
    | .slashRightAngle => []
    | .name n =>
      let assignment := Assignment.read rest
      .attribute ⟨n, assignment.1⟩ :: TagItem.readAll assignment.2 rest
    | .space t => .filler (.space t) :: TagItem.readAll 0 rest
    | .equals => .filler (.junk token.text) :: TagItem.readAll 0 rest
    | .string _ => .filler (.junk token.text) :: TagItem.readAll 0 rest
    | .slash => .filler (.junk token.text) :: TagItem.readAll 0 rest

def TagToken.takeName : List TagToken → Option Text × List TagToken
  | .name n :: rest => (some n, rest)
  | tokens => (none, tokens)

def StartTag.ofTokens (opener : Text) (tokens : List TagToken) : StartTag :=
  let named := TagToken.takeName tokens
  { opener := opener
    name := named.1
    items := TagItem.readAll 0 named.2
    ending :=
      match tokens.getLast? with
      | some .rightAngle => .content
      | some .slashRightAngle => .selfClosed
      | _ => .missing }

/-- The fillers of an end tag from the tokens after its name. A `/>` ends the tag like the start
of another, but does not close it. -/
def Filler.ofTokens : List TagToken → List Filler
  | [] => []
  | .rightAngle :: _ => []
  | .space t :: rest => .space t :: Filler.ofTokens rest
  | token :: rest => .junk token.text :: Filler.ofTokens rest

/-- The end tag with the given tokens after its opener. -/
def EndTag.ofTokens (tokens : List TagToken) : EndTag :=
  let named := TagToken.takeName tokens
  { name := named.1
    fillers := Filler.ofTokens named.2
    closed := tokens.getLast? == some .rightAngle }

/-! ## Whole pieces -/

/-- Where the reader stands: outside tags, or in a tag that the next `<` leaves unterminated. -/
inductive Mode where
  | content
  | tag
  deriving DecidableEq, Repr

namespace Piece

/-- The run of markup of the given kind whose opener is the first `opener` characters of `t`. -/
def readRun (kind : RunKind) (opener : Nat) (stop t : Text) : Piece :=
  .run kind (t.take (opener + Text.lengthThrough stop (t.drop opener)))

def modeAfter (tokens : List TagToken) : Mode :=
  if tokens.any TagToken.isLast then .content else .tag

/-- The tag whose opener is the first `opener` characters of `t`. -/
def readStart (opener : Nat) (t : Text) : Piece × Mode :=
  let tokens := TagToken.readAll 0 (t.drop opener)
  (.start (.ofTokens (t.take opener) tokens), modeAfter tokens)

/-- The end tag at the front of `t`. -/
def readStop (t : Text) : Piece × Mode :=
  let tokens := TagToken.readAll 0 (t.drop 2)
  (.stop (.ofTokens tokens), modeAfter tokens)

/-- The piece that begins with the `<` in front of `t`, and the mode after it. A `<!` that a `-` or
a `[` follows, but no comment and no section, opens a tag. -/
def readMarkup (mode : Mode) (t : Text) : Piece × Mode :=
  if ['<', '/'].isPrefixOf t then readStop t
  else if mode = .tag then readStart 1 t
  else if ['<', '!', '-', '-'].isPrefixOf t then (readRun .comment 4 ['-', '-', '>'] t, .content)
  else if "<![CDATA[".toList.isPrefixOf t then (readRun .cdata 9 [']', ']', '>'] t, .content)
  else if ['<', '?'].isPrefixOf t then (readRun .instruction 2 ['?', '>'] t, .content)
  else if ['<', '!', '-'].isPrefixOf t || ['<', '!', '['].isPrefixOf t then readStart 2 t
  else if ['<', '!'].isPrefixOf t then (readRun .doctype 2 ['>'] t, .content)
  else readStart 1 t

/-- The character data at the front of `t`. -/
def readData (t : Text) : Piece :=
  let data := t.take (Text.lengthWhile (fun c => c != '<') t)
  .run (if Text.isMarkupBlank data then .blank else .text) data

/-- The pieces of a text, after `skip` characters that belong to the piece before. -/
def readAll : Mode → Nat → Text → List Piece
  | _, _, [] => []
  | mode, skip + 1, _ :: rest => readAll mode skip rest
  | mode, 0, c :: rest =>
    let next := if c = '<' then readMarkup mode (c :: rest) else (readData (c :: rest), .content)
    next.1 :: readAll next.2 (next.1.text.length - 1) rest

/-- The pieces of a text. -/
def ofText (t : Text) : List Piece := readAll .content 0 t

end Piece

end ProjectFile.Markup
