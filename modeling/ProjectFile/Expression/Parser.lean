import ProjectFile.Expression.Tree

/-!
The reading of expressions from tokens.

A *text run* is text and references in turn. A *condition* is the disjunction of conjunctions of
negated comparisons of operands: `or` binds least, then `and`, then `!`, then the comparisons, which
do not chain. An operand is a quoted string, a parenthesis, a call or a text run without space.

The functions that call one another take a count of the calls they may still make, one inside the
other; `stepLimit` is more than any number of tokens can need.
-/

namespace ProjectFile.Expression

/-- The constructs that end with a closing parenthesis of their own. -/
inductive Construct where
  | propertyReference
  | itemReference
  | itemFunction
  | metadataReference
  deriving DecidableEq, Repr

def Construct.text : Construct → String
  | .propertyReference => "property reference"
  | .itemReference => "item reference"
  | .itemFunction => "item function"
  | .metadataReference => "metadata reference"

/-- Why a text is not an expression. -/
inductive Problem where
  | unexpected (found : Text)
  | unexpectedIn (found : Text) (construct : Construct)
  | unterminated (construct : Construct)
  | unterminatedQuote
  | unbalancedParenthesis
  | missingOperand
  | missingSeparator
  | missingTransform
  | nestedTooDeeply
  deriving DecidableEq, Repr

def Problem.message : Problem → String
  | .unexpected found => "unexpected `" ++ found.toString ++ "`"
  | .unexpectedIn found construct =>
    "unexpected `" ++ found.toString ++ "` in " ++ construct.text
  | .unterminated construct => "unterminated " ++ construct.text
  | .unterminatedQuote => "unterminated quote"
  | .unbalancedParenthesis => "unbalanced parenthesis"
  | .missingOperand => "missing operand"
  | .missingSeparator => "expected a quoted separator"
  | .missingTransform => "expected a transform"
  | .nestedTooDeeply => "expression is nested too deeply"

/-- A problem and the offset at which reading stopped. -/
structure ParseError where
  problem : Problem
  offset : Nat
  deriving DecidableEq, Repr

/-- What has been read from the front of some tokens, and the tokens left. -/
abbrev Taken (α : Type) := α × List Token

/-- The tokens of one expression, which ends at `stop`: the offset of the next of those left. -/
def offsetOf (stop : Nat) : List Token → Nat
  | [] => stop
  | t :: _ => t.start

/-- The tokens after any space in front. -/
def skipSpace (tokens : List Token) : List Token := tokens.dropWhile fun t => t.kind == .space

/-- An identifier in front, if there is one. -/
def takeSymbol : List Token → Option Symbol × List Token
  | [] => (none, [])
  | t :: rest => if t.kind = .identifier then (some ⟨t.span, t.text⟩, rest) else (none, t :: rest)

/-- Whether the tokens begin with an identifier and, right after it, a parenthesis. -/
def beginsCall : List Token → Bool
  | t :: u :: _ => t.kind == .identifier && u.kind == .leftParen
  | _ => false

/-- Reads the `)` at the end of a construct and gives the offset after it. -/
def closeConstruct (stop : Nat) (construct : Construct) : List Token → Except ParseError (Taken Nat)
  | [] => .error ⟨.unterminated construct, stop⟩
  | t :: rest =>
    if t.kind = .rightParen then .ok (t.span.stop, rest)
    else .error ⟨.unexpectedIn t.text construct, t.start⟩

/-- Reads the `)` at the end of a group or a call and gives the offset after it. A token found in
its place is passed over before the error is reported. -/
def closeParenthesis (stop : Nat) : List Token → Except ParseError (Taken Nat)
  | [] => .error ⟨.unbalancedParenthesis, stop⟩
  | t :: rest =>
    if t.kind = .rightParen then .ok (t.span.stop, rest)
    else .error ⟨.unbalancedParenthesis, offsetOf stop rest⟩

/-- The offset after the `)` that brings the depth of parentheses to zero, and the tokens left.
What is quoted does not count. -/
def skipBalanced (depth : Nat) (inQuote : Bool) : List Token → Option (Nat × List Token)
  | [] => none
  | t :: rest =>
    if t.kind = .quote then skipBalanced depth (!inQuote) rest
    else if inQuote then skipBalanced depth inQuote rest
    else if t.kind.opens then skipBalanced (depth + 1) inQuote rest
    else if t.kind = .rightParen then
      if depth ≤ 1 then some (t.span.stop, rest) else skipBalanced (depth - 1) inQuote rest
    else skipBalanced depth inQuote rest

/-- Reads a property reference from the tokens after its opener, which starts at `start`. -/
def readProperty (stop start : Nat) (tokens : List Token) : Except ParseError (Taken Expr) :=
  let named := takeSymbol (skipSpace tokens)
  let rest := skipSpace named.2
  let isFunction : Bool :=
    match rest with
    | [] => false
    | t :: _ =>
      (t.kind == .dot && named.1.isSome) ||
        (t.kind == .text && named.1.isNone && t.text.head? == some '[')
  if isFunction then
    match skipBalanced 1 false rest with
    | some (after, rest) => .ok (.property ⟨start, after⟩ named.1 true, rest)
    | none => .error ⟨.unterminated .propertyReference, stop⟩
  else do
    let (after, rest) ← closeConstruct stop .propertyReference rest
    return (.property ⟨start, after⟩ named.1 false, rest)

/-- Reads a metadata reference from the tokens after its opener, which starts at `start`. -/
def readMetadata (stop start : Nat) (tokens : List Token) : Except ParseError (Taken Expr) :=
  let first := takeSymbol (skipSpace tokens)
  match skipSpace first.2 with
  | t :: rest =>
    if t.kind = .dot then do
      let second := takeSymbol (skipSpace rest)
      let (after, rest) ← closeConstruct stop .metadataReference (skipSpace second.2)
      return (.metadata ⟨start, after⟩ first.1 second.1, rest)
    else do
      let (after, rest) ← closeConstruct stop .metadataReference (t :: rest)
      return (.metadata ⟨start, after⟩ none first.1, rest)
  | [] => .error ⟨.unterminated .metadataReference, stop⟩

/-- Puts a token of plain text in front of the parts of a text run. -/
def prependText (t : Token) : List Expr → List Expr
  | .literal s value :: parts => .literal ⟨t.start, s.stop⟩ (t.text ++ value) :: parts
  | parts => .literal t.span t.text :: parts

/-- The node of a text run: its only part, or all parts back to back. -/
def ofParts (whenEmpty : Span) : List Expr → Expr
  | [] => .literal whenEmpty []
  | [part] => part
  | first :: rest =>
    .concat (first.span.join ((rest.getLast?.map Expr.span).getD first.span)) (first :: rest)

/-- Whether a token ends an operand that is not quoted. -/
def endsOperand (kind : TokenKind) : Bool :=
  kind == .space || kind == .quote || kind == .bang || kind == .leftParen || kind == .rightParen ||
    kind == .comma || kind.isComparison

def orWord : Text := ['o', 'r']

def andWord : Text := ['a', 'n', 'd']

mutual

/-- Reads text and references up to the first token that `ends` the run. -/
def readRun (stop : Nat) (ends : TokenKind → Bool) : Nat → List Token → Except ParseError (Taken (List Expr))
  | _, [] => .ok ([], [])
  | 0, t :: _ => .error ⟨.nestedTooDeeply, t.start⟩
  | n + 1, t :: rest =>
    if ends t.kind then .ok ([], t :: rest)
    else
      match t.kind with
      | .propertyOpen => do
        let (part, rest) ← readProperty stop t.start rest
        let (parts, rest) ← readRun stop ends n rest
        return (part :: parts, rest)
      | .itemOpen => do
        let (part, rest) ← readItems stop n t.start rest
        let (parts, rest) ← readRun stop ends n rest
        return (part :: parts, rest)
      | .metadataOpen => do
        let (part, rest) ← readMetadata stop t.start rest
        let (parts, rest) ← readRun stop ends n rest
        return (part :: parts, rest)
      | _ => do
        let (parts, rest) ← readRun stop ends n rest
        return (prependText t parts, rest)

/-- Reads an item reference from the tokens after its opener, which starts at `start`. -/
def readItems (stop : Nat) : Nat → Nat → List Token → Except ParseError (Taken Expr)
  | 0, start, _ => .error ⟨.nestedTooDeeply, start⟩
  | n + 1, start, tokens => do
    let named := takeSymbol (skipSpace tokens)
    let (transform, rest) ← readTransform stop n (skipSpace named.2)
    let (separator, rest) ← readSeparator stop n rest
    let (after, rest) ← closeConstruct stop .itemReference rest
    return (.items ⟨start, after⟩ named.1 transform separator, rest)

/-- Reads the transform after a `->`, if there is one, and the space after it. -/
def readTransform (stop : Nat) : Nat → List Token → Except ParseError (Taken (Option Expr))
  | _, [] => .ok (none, [])
  | 0, t :: _ => .error ⟨.nestedTooDeeply, t.start⟩
  | n + 1, t :: rest =>
    if t.kind ≠ .arrow then .ok (none, t :: rest)
    else
      match skipSpace rest with
      | [] => .error ⟨.missingTransform, stop⟩
      | u :: rest =>
        if u.kind = .quote then do
          let (e, rest) ← readQuoted stop n u.start rest
          return (some e, skipSpace rest)
        else if beginsCall (u :: rest) then do
          let (arguments, rest) ← readArguments stop n (rest.drop 1)
          let (after, rest) ← closeConstruct stop .itemFunction rest
          return (some (.call ⟨u.start, after⟩ ⟨u.span, u.text⟩ arguments), skipSpace rest)
        else .error ⟨.missingTransform, u.start⟩

/-- Reads the quoted separator after a comma, if there is one, and the space after it. -/
def readSeparator (stop : Nat) : Nat → List Token → Except ParseError (Taken (Option Expr))
  | _, [] => .ok (none, [])
  | 0, t :: _ => .error ⟨.nestedTooDeeply, t.start⟩
  | n + 1, t :: rest =>
    if t.kind ≠ .comma then .ok (none, t :: rest)
    else
      match skipSpace rest with
      | [] => .error ⟨.missingSeparator, stop⟩
      | u :: rest =>
        if u.kind = .quote then do
          let (e, rest) ← readQuoted stop n u.start rest
          return (some e, skipSpace rest)
        else .error ⟨.missingSeparator, u.start⟩

/-- Reads a quoted string from the tokens after its opening quote, which starts at `start`. -/
def readQuoted (stop : Nat) : Nat → Nat → List Token → Except ParseError (Taken Expr)
  | 0, start, _ => .error ⟨.nestedTooDeeply, start⟩
  | n + 1, start, tokens => do
    let (parts, rest) ← readRun stop (fun kind => kind == .quote) n tokens
    match rest with
    | [] => .error ⟨.unterminatedQuote, stop⟩
    | t :: rest => return (.quoted ⟨start, t.span.stop⟩ parts, rest)

/-- Reads a disjunction, and any space after it. -/
def readOr (stop : Nat) : Nat → List Token → Except ParseError (Taken Expr)
  | 0, tokens => .error ⟨.nestedTooDeeply, offsetOf stop tokens⟩
  | n + 1, tokens => do
    let (first, rest) ← readAnd stop n tokens
    readMoreOr stop n first rest

/-- Reads on after the first operand of a disjunction. -/
def readMoreOr (stop : Nat) : Nat → Expr → List Token → Except ParseError (Taken Expr)
  | 0, _, tokens => .error ⟨.nestedTooDeeply, offsetOf stop tokens⟩
  | n + 1, left, tokens =>
    match skipSpace tokens with
    | [] => .ok (left, [])
    | t :: rest =>
      if t.isWord orWord then do
        let (right, rest) ← readAnd stop n rest
        readMoreOr stop n (.junction (left.span.join right.span) .disjunction left right) rest
      else .ok (left, t :: rest)

/-- Reads a conjunction, and any space after it. -/
def readAnd (stop : Nat) : Nat → List Token → Except ParseError (Taken Expr)
  | 0, tokens => .error ⟨.nestedTooDeeply, offsetOf stop tokens⟩
  | n + 1, tokens => do
    let (first, rest) ← readNot stop n tokens
    readMoreAnd stop n first rest

/-- Reads on after the first operand of a conjunction. -/
def readMoreAnd (stop : Nat) : Nat → Expr → List Token → Except ParseError (Taken Expr)
  | 0, _, tokens => .error ⟨.nestedTooDeeply, offsetOf stop tokens⟩
  | n + 1, left, tokens =>
    match skipSpace tokens with
    | [] => .ok (left, [])
    | t :: rest =>
      if t.isWord andWord then do
        let (right, rest) ← readNot stop n rest
        readMoreAnd stop n (.junction (left.span.join right.span) .conjunction left right) rest
      else .ok (left, t :: rest)

/-- Reads a comparison with any number of `!` in front. -/
def readNot (stop : Nat) : Nat → List Token → Except ParseError (Taken Expr)
  | 0, tokens => .error ⟨.nestedTooDeeply, offsetOf stop tokens⟩
  | n + 1, tokens =>
    match skipSpace tokens with
    | [] => .error ⟨.missingOperand, stop⟩
    | t :: rest =>
      if t.kind = .bang then do
        let (operand, rest) ← readNot stop n rest
        return (.negation ⟨t.start, operand.span.stop⟩ operand, rest)
      else do
        let (left, rest) ← readOperand stop n t rest
        match skipSpace rest with
        | [] => return (left, [])
        | u :: rest =>
          match u.kind, skipSpace rest with
          | .comparison _, [] => .error ⟨.missingOperand, stop⟩
          | .comparison op, v :: rest =>
            let (right, rest) ← readOperand stop n v rest
            return (.compare (left.span.join right.span) op left right, rest)
          | _, _ => return (left, u :: rest)

/-- Reads the operand that begins with the token `t`. -/
def readOperand (stop : Nat) : Nat → Token → List Token → Except ParseError (Taken Expr)
  | 0, t, _ => .error ⟨.nestedTooDeeply, t.start⟩
  | n + 1, t, rest =>
    if t.kind = .quote then readQuoted stop n t.start rest
    else if t.kind = .leftParen then do
      let (inner, rest) ← readOr stop n rest
      let (after, rest) ← closeParenthesis stop rest
      return (.group ⟨t.start, after⟩ inner, rest)
    else if beginsCall (t :: rest) then do
      let (arguments, rest) ← readArguments stop n (rest.drop 1)
      let (after, rest) ← closeParenthesis stop rest
      return (.call ⟨t.start, after⟩ ⟨t.span, t.text⟩ arguments, rest)
    else if t.isWord andWord || t.isWord orWord then .error ⟨.missingOperand, t.start⟩
    else do
      let (parts, rest) ← readRun stop endsOperand n (t :: rest)
      if parts.isEmpty then .error ⟨.missingOperand, t.start⟩
      else return (ofParts (.empty t.start) parts, rest)

/-- Reads the arguments of a call, and any space after them, from the tokens after its opening
parenthesis. -/
def readArguments (stop : Nat) : Nat → List Token → Except ParseError (Taken (List Expr))
  | 0, tokens => .error ⟨.nestedTooDeeply, offsetOf stop tokens⟩
  | n + 1, tokens =>
    let tokens := skipSpace tokens
    if (tokens.head?.map Token.kind) = some .rightParen then .ok ([], tokens)
    else readMoreArguments stop n tokens

/-- Reads one argument or more. -/
def readMoreArguments (stop : Nat) : Nat → List Token → Except ParseError (Taken (List Expr))
  | 0, tokens => .error ⟨.nestedTooDeeply, offsetOf stop tokens⟩
  | n + 1, tokens => do
    let (argument, rest) ← readOr stop n tokens
    match rest with
    | [] => return ([argument], [])
    | t :: rest =>
      if t.kind = .comma then do
        let (arguments, rest) ← readMoreArguments stop n rest
        return (argument :: arguments, rest)
      else return ([argument], t :: rest)

end

/-- The number of calls, one inside the other, allowed to the reading of some tokens. -/
def stepLimit (tokens : List Token) : Nat := 8 * (tokens.length + 1)

def readCondition (stop : Nat) (tokens : List Token) : Except ParseError Expr := do
  let (e, rest) ← readOr stop (stepLimit tokens) tokens
  match rest with
  | [] => return e
  | t :: _ => .error ⟨.unexpected t.text, t.start⟩

/-- Reads a text run that takes up all the tokens of a segment. -/
def readText (segment : Span) (tokens : List Token) : Except ParseError Expr := do
  let (parts, _) ← readRun segment.stop (fun _ => false) (stepLimit tokens) tokens
  return ofParts segment parts

end ProjectFile.Expression
