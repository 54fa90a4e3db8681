import ProjectFile.Evaluation.Expansion
import ProjectFile.Evaluation.Number

/-!
The truth of conditions. Two operands that are both numbers are compared as numbers; else only
equality makes sense, and it ignores the case of letters.
-/

namespace ProjectFile.Evaluation

open Expression

/-- Why a condition has no truth value. -/
inductive ConditionProblem where
  | malformed (problem : Expression.Problem)
  | notBoolean (value : Text)
  | notNumeric (op : Comparison) (left right : Text)
  | wrongArguments (function : Text)
  | unknownFunction (function : Text)
  deriving DecidableEq, Repr

def ConditionProblem.message : ConditionProblem → String
  | .malformed problem => problem.message
  | .notBoolean value => "`" ++ value.toString ++ "` is not a boolean"
  | .notNumeric op left right =>
    "`" ++ op.text ++ "` needs numeric operands, found `" ++ left.toString ++ "` and `" ++
      right.toString ++ "`"
  | .wrongArguments function => "`" ++ function.toString ++ "` takes one argument"
  | .unknownFunction function => "unknown function `" ++ function.toString ++ "`"

/-- What a condition is evaluated against. -/
structure Surroundings where
  project : EvaluatedProject
  /-- Which paths exist. -/
  exists? : FilePath → Bool

/-- The text of an operand in the condition `t`, expanded; of a quoted string, its inside, one byte
shorter at each end. -/
def operandText (p : EvaluatedProject) (t : Text) (e : Expr) : Text :=
  match e with
  | .quoted span _ => expand p (Text.slice t (span.start + 1) (span.stop - 1))
  | _ => expand p (Text.slice t e.span.start e.span.stop)

/-- Compares two operands. -/
def compareTexts (op : Comparison) (left right : Text) : Except ConditionProblem Bool :=
  match number? left, number? right with
  | some l, some r =>
    .ok <|
      match op with
      | .equal => decide (l = r)
      | .notEqual => decide (l ≠ r)
      | .less => decide (l < r)
      | .lessOrEqual => decide (l ≤ r)
      | .greater => decide (r < l)
      | .greaterOrEqual => decide (r ≤ l)
  | _, _ =>
    match op with
    | .equal => .ok (Text.sameName left right)
    | .notEqual => .ok (!Text.sameName left right)
    | _ => .error (.notNumeric op left right)

def truthOfText (value : Text) : Except ConditionProblem Bool :=
  if Text.sameName value "true".toList then .ok true
  else if Text.sameName value "false".toList then .ok false
  else .error (.notBoolean value)

/-- Calls a function. A path is looked up from the directory of the project. -/
def callFunction (s : Surroundings) (name : Text) (value : Text) : Except ConditionProblem Bool :=
  if Text.sameName name "Exists".toList then
    let path := Text.trim value
    let base := s.project.path.parent?.getD ⟨[]⟩
    .ok (!path.isEmpty && s.exists? (base.join ⟨path⟩))
  else if Text.sameName name "HasTrailingSlash".toList then
    .ok (value.getLast? == some '/' || value.getLast? == some '\\')
  else .error (.unknownFunction name)

/-- The truth of a node of the condition `t`. The right operand of a conjunction or disjunction is
looked at only if the left one does not decide it. -/
def truth (s : Surroundings) (t : Text) : Expr → Except ConditionProblem Bool
  | .negation _ operand => do
    let b ← truth s t operand
    return !b
  | .junction _ .conjunction left right => do
    let b ← truth s t left
    if b then truth s t right else return false
  | .junction _ .disjunction left right => do
    let b ← truth s t left
    if b then return true else truth s t right
  | .group _ inner => truth s t inner
  | .compare _ op left right =>
    compareTexts op (operandText s.project t left) (operandText s.project t right)
  | .call _ function arguments =>
    match arguments with
    | [argument] => callFunction s function.name (operandText s.project t argument)
    | _ => .error (.wrongArguments function.name)
  | e => truthOfText (operandText s.project t e)

/-- The truth of a condition. A blank one is true. -/
def conditionHolds (s : Surroundings) (t : Text) : Except ConditionProblem Bool :=
  if (Text.trim t).isEmpty then .ok true
  else
    match parseCondition t with
    | .error e => .error (.malformed e.problem)
    | .ok e => truth s t e

end ProjectFile.Evaluation
