import ProjectFile.Expression.Reading

/-!
Conditions before they are text: quoted strings, calls, comparisons, `!`, `and` and `or`, how they are
written down with no more parentheses than they need, and the trees that they stand for.

What is between quotes, what a call names and how a word is spelled come with a proof that they can be
written, so that every condition of this type can be.
-/

namespace ProjectFile.Expression

/-! ## Conditions -/

/-- The characters that are not plain between quotes: a quote, or what an entity or a reference begins
with. -/
def isMark (c : Char) : Bool := c == '\'' || c == '&' || c == '$' || c == '@' || c == '%'

/-- A text that stands for itself between quotes. -/
structure PlainText where
  text : Text
  plain : ∀ c ∈ text, isMark c = false

/-- The word of a junction. -/
def Junction.word : Junction → Text
  | .conjunction => andWord
  | .disjunction => orWord

/-- The word of a junction in some spelling: each of its letters may be of either case. -/
structure Spelling (op : Junction) where
  text : Text
  same : Text.sameName text op.word = true

/-- Whether a text is one identifier from its start to its end. -/
def IsIdentifier (t : Text) : Prop :=
  ∃ c w, t = c :: w ∧ isLetter c = true ∧ identifierLength w = w.length

/-- A name that a call may have: any identifier, even the word of a junction. -/
structure FunctionName where
  text : Text
  isIdentifier : IsIdentifier text

/-- A condition to be written. -/
inductive WrittenCondition where
  | quoted (value : PlainText)
  | call (function : FunctionName) (arguments : List WrittenCondition)
  | compare (op : Comparison) (left right : WrittenCondition)
  | negation (operand : WrittenCondition)
  | junction (op : Junction) (word : Spelling op) (left right : WrittenCondition)

namespace WrittenCondition

/-! ## Writing -/

/-- How tightly the parts of a condition are bound. -/
inductive Strength where
  /-- As by `or`. -/
  | disjunction
  /-- As by `and`. -/
  | conjunction
  /-- As by `!` or a comparison. -/
  | term
  /-- As in a quoted string or a call, which need no parentheses anywhere. -/
  | operand
  deriving DecidableEq, Repr

/-- The strength as a number. -/
def Strength.rank : Strength → Nat
  | .disjunction => 0
  | .conjunction => 1
  | .term => 2
  | .operand => 3

def strength : WrittenCondition → Strength
  | .quoted _ => .operand
  | .call _ _ => .operand
  | .compare _ _ _ => .term
  | .negation _ => .term
  | .junction .conjunction _ _ _ => .conjunction
  | .junction .disjunction _ _ _ => .disjunction

/-- How tightly the left side of a junction has to be bound, which goes on to the left. -/
def leftStrength : Junction → Strength
  | .conjunction => .conjunction
  | .disjunction => .disjunction

/-- How tightly the right side of a junction has to be bound. -/
def rightStrength : Junction → Strength
  | .conjunction => .term
  | .disjunction => .conjunction

/-- Whether a condition needs parentheses where it has to be bound that tightly. -/
def isLoose (c : WrittenCondition) (needed : Strength) : Bool :=
  decide (c.strength.rank < needed.rank)

/-- A text, in parentheses if they are needed. -/
def enclose (loose : Bool) (t : Text) : Text := if loose then '(' :: (t ++ [')']) else t

mutual

/-- The condition as text. -/
def print : WrittenCondition → Text
  | .quoted value => '\'' :: (value.text ++ ['\''])
  | .call function arguments => function.text ++ '(' :: (printAll arguments ++ [')'])
  | .compare op left right =>
    enclose (left.isLoose .operand) left.print ++
      ' ' :: (op.text.toList ++ ' ' :: enclose (right.isLoose .operand) right.print)
  | .negation operand => '!' :: enclose (operand.isLoose .term) operand.print
  | .junction op word left right =>
    enclose (left.isLoose (leftStrength op)) left.print ++
      ' ' :: (word.text ++ ' ' :: enclose (right.isLoose (rightStrength op)) right.print)

/-- Arguments as text, with commas between them. -/
def printAll : List WrittenCondition → Text
  | [] => []
  | [c] => c.print
  | c :: d :: cs => c.print ++ ',' :: ' ' :: printAll (d :: cs)

end

/-! ## The tree -/

mutual

/-- The tree that the condition stands for, with no spans. -/
def expr : WrittenCondition → Expr
  | .quoted value => .quoted default (if value.text = [] then [] else [.literal default value.text])
  | .call function arguments => .call default ⟨default, function.text⟩ (exprAll arguments)
  | .compare op left right => .compare default op left.expr right.expr
  | .negation operand => .negation default operand.expr
  | .junction op _ left right => .junction default op left.expr right.expr

/-- The trees of some conditions. -/
def exprAll : List WrittenCondition → List Expr
  | [] => []
  | c :: cs => c.expr :: exprAll cs

end

end WrittenCondition

/-! ## Trees without spans and groups -/

namespace Expr

mutual

/-- The tree with all its spans changed by a function. -/
def mapSpan (f : Span → Span) : Expr → Expr
  | .literal s value => .literal (f s) value
  | .symbol s => .symbol ⟨f s.span, s.name⟩
  | .property s name isFunction =>
    .property (f s) (name.map fun n => ⟨f n.span, n.name⟩) isFunction
  | .items s itemType transform separator =>
    .items (f s) (itemType.map fun n => ⟨f n.span, n.name⟩) (mapSpanOption f transform)
      (mapSpanOption f separator)
  | .metadata s itemType name =>
    .metadata (f s) (itemType.map fun n => ⟨f n.span, n.name⟩) (name.map fun n => ⟨f n.span, n.name⟩)
  | .quoted s parts => .quoted (f s) (mapSpanAll f parts)
  | .call s function arguments =>
    .call (f s) ⟨f function.span, function.name⟩ (mapSpanAll f arguments)
  | .group s inner => .group (f s) (inner.mapSpan f)
  | .concat s parts => .concat (f s) (mapSpanAll f parts)
  | .compare s op left right => .compare (f s) op (left.mapSpan f) (right.mapSpan f)
  | .negation s operand => .negation (f s) (operand.mapSpan f)
  | .junction s op left right => .junction (f s) op (left.mapSpan f) (right.mapSpan f)
  | .list s entries => .list (f s) (mapSpanAll f entries)
  | .listItem s segment value expression =>
    .listItem (f s) (f segment) value (expression.mapSpan f)
  | .emptyItem s => .emptyItem (f s)

/-- Trees with all their spans changed. -/
def mapSpanAll (f : Span → Span) : List Expr → List Expr
  | [] => []
  | e :: es => e.mapSpan f :: mapSpanAll f es

/-- A tree that may be absent with all its spans changed. -/
def mapSpanOption (f : Span → Span) : Option Expr → Option Expr
  | none => none
  | some e => some (e.mapSpan f)

end

mutual

/-- The tree with what is in a group in the place of the group. -/
def ungrouped : Expr → Expr
  | .literal s value => .literal s value
  | .symbol s => .symbol s
  | .property s name isFunction => .property s name isFunction
  | .items s itemType transform separator =>
    .items s itemType (ungroupedOption transform) (ungroupedOption separator)
  | .metadata s itemType name => .metadata s itemType name
  | .quoted s parts => .quoted s (ungroupedAll parts)
  | .call s function arguments => .call s function (ungroupedAll arguments)
  | .group _ inner => inner.ungrouped
  | .concat s parts => .concat s (ungroupedAll parts)
  | .compare s op left right => .compare s op left.ungrouped right.ungrouped
  | .negation s operand => .negation s operand.ungrouped
  | .junction s op left right => .junction s op left.ungrouped right.ungrouped
  | .list s entries => .list s (ungroupedAll entries)
  | .listItem s segment value expression => .listItem s segment value expression.ungrouped
  | .emptyItem s => .emptyItem s

/-- Trees without groups. -/
def ungroupedAll : List Expr → List Expr
  | [] => []
  | e :: es => e.ungrouped :: ungroupedAll es

/-- A tree that may be absent without groups. -/
def ungroupedOption : Option Expr → Option Expr
  | none => none
  | some e => some e.ungrouped

end

/-- The tree with nothing known of where it stands and of the parentheses in it. -/
def bare (e : Expr) : Expr := e.ungrouped.mapSpan fun _ => default

end Expr

end ProjectFile.Expression
