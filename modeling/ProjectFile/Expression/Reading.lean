import ProjectFile.Expression.Parser

/-!
The three ways to read an attribute value or a text: as one condition, as a list of items that
never fails, and as whatever it looks like.

A value falls into segments at each `;` outside quotes and parentheses. A segment that begins like a
condition has to be one. A segment with an operator somewhere inside is a condition if it can be
read as one, and else, like all other segments, a text run.
-/

namespace ProjectFile.Expression

/-- A stretch of a value between separators. -/
structure Segment where
  span : Span
  tokens : List Token
  deriving Repr

namespace Segment

def text (s : Segment) : Text := s.tokens.flatMap Token.text

/-- The span of the segment without the blanks at its ends. -/
def trimmedSpan (s : Segment) : Span :=
  let leading : Text := s.text.takeWhile Text.isBlank
  .ofSize (s.span.start + leading.width) (Text.trim s.text).width

end Segment

/-- The segments of a value that ends at `stop`, from the offset `start` on, at a depth of
parentheses and inside or outside quotes. -/
def segmentsFrom (stop start depth : Nat) (inQuote : Bool) : List Token → List Segment
  | [] => [⟨⟨start, stop⟩, []⟩]
  | t :: rest =>
    if t.kind = .semicolon ∧ depth = 0 ∧ inQuote = false then
      ⟨⟨start, t.start⟩, []⟩ :: segmentsFrom stop t.span.stop depth inQuote rest
    else
      let depth :=
        if inQuote then depth
        else if t.kind.opens then depth + 1
        else if t.kind = .rightParen then depth - 1
        else depth
      let inQuote := if t.kind = .quote then !inQuote else inQuote
      match segmentsFrom stop start depth inQuote rest with
      | [] => []
      | s :: segments => { s with tokens := t :: s.tokens } :: segments

def segments (t : Text) : List Segment := segmentsFrom t.width 0 0 false (tokens t)

/-! ## What a segment looks like -/

/-- How a segment looks before it is read. -/
inductive Look where
  /-- Like a condition: a quote, a parenthesis, a `!` or a call comes first. -/
  | condition
  /-- Like text with an operator inside. -/
  | operators
  | text
  deriving DecidableEq, Repr

/-- Whether a comparison, or `and` or `or` between spaces, stands outside quotes and parentheses in
some tokens. `spaced` tells whether a space comes before them. -/
def hasOperator (spaced : Bool) (depth : Nat) (inQuote : Bool) : List Token → Bool
  | [] => false
  | t :: rest =>
    let space := t.kind == .space
    if t.kind = .quote then hasOperator space depth (!inQuote) rest
    else if inQuote then hasOperator space depth inQuote rest
    else if t.kind.opens then hasOperator space (depth + 1) inQuote rest
    else if t.kind = .rightParen then hasOperator space (depth - 1) inQuote rest
    else
      (depth == 0 &&
        (t.kind.isComparison ||
          ((t.isWord andWord || t.isWord orWord) && spaced &&
            rest.head?.map Token.kind == some .space))) ||
      hasOperator space depth inQuote rest

def lookOf (tokens : List Token) : Look :=
  match skipSpace tokens with
  | [] => .text
  | t :: rest =>
    if t.kind = .quote ∨ t.kind = .leftParen ∨ t.kind = .bang ∨ beginsCall (t :: rest) then
      .condition
    else if hasOperator false 0 false tokens then .operators
    else .text

/-- Reads a segment as what it looks like. -/
def Segment.read (s : Segment) : Except ParseError Expr :=
  match lookOf s.tokens with
  | .condition => readCondition s.span.stop s.tokens
  | .operators =>
    match readCondition s.span.stop s.tokens with
    | .ok e => .ok e
    | .error _ => readText s.span s.tokens
  | .text => readText s.span s.tokens

def Segment.item (s : Segment) (e : Expr) : Expr :=
  if s.trimmedSpan.isEmpty then .emptyItem s.span
  else .listItem s.trimmedSpan s.span (Text.trim s.text) e

/-- Reads the segments of a list, and fails with the first that fails. -/
def readItemsOf : List Segment → Except ParseError (List Expr)
  | [] => .ok []
  | s :: rest => do
    let e ← s.read
    let items ← readItemsOf rest
    return s.item e :: items

/-- Reads an attribute value or a text as what it looks like: a single expression, or a list if it
has a separator. -/
def parseValue (t : Text) : Except ParseError Expr :=
  match segments t with
  | [s] => s.read
  | all => do
    let items ← readItemsOf all
    return SimpleList.toExpr ⟨⟨0, t.width⟩, items⟩

/-- Reads a whole text as one condition. A blank text is a literal. -/
def parseCondition (t : Text) : Except ParseError Expr :=
  let all := tokens t
  if (skipSpace all).isEmpty then .ok (.literal ⟨0, t.width⟩ t)
  else readCondition t.width all

/-- Reads a text as a list, which never fails: a segment that is no expression is a literal. -/
def parseList (t : Text) : SimpleList :=
  { span := ⟨0, t.width⟩
    items := (segments t).map fun s =>
      match s.read with
      | .ok e => s.item e
      | .error _ => s.item (.literal s.trimmedSpan (Text.trim s.text)) }

end ProjectFile.Expression
