import ProjectFile.Evaluation.Model
import ProjectFile.Expression.Reading

/-!
The substitution of references in a text by what they refer to.
-/

namespace ProjectFile.Evaluation

open Expression

/-- Texts with a separator between every two. -/
def joinWith (separator : Text) : List Text → Text
  | [] => []
  | [t] => t
  | t :: rest => t ++ (separator ++ joinWith separator rest)

/-- The separator between the values of an item reference that starts at `start` and is written as
`raw`: the inside of the quoted string, one byte shorter at each end, or a semicolon. -/
def separatorText (start : Nat) (raw : Text) (separator : Option Expr) : Text :=
  match separator with
  | some e => Text.slice raw (e.span.start - start + 1) (e.span.stop - start - 1)
  | none => [';']

/-- What a reference written as `raw` stands for: the value of a property, the joined values of the
items of a type, or nothing for metadata. A property function stands for itself. -/
def referenceValue (p : EvaluatedProject) (reference : Expr) (raw : Text) : Text :=
  match reference with
  | .property _ _ true => raw
  | .property _ (some name) false => (p.propertyValue? name.name).getD []
  | .items span itemType _ separator =>
    let values :=
      match itemType with
      | some name => (p.itemsOfType name.name).map EvaluatedObject.value
      | none => []
    joinWith (separatorText span.start raw separator) values
  | _ => []

/-- The text from the byte offset `cursor` on with the references replaced by their values. A
reference inside one that has been replaced is passed over. -/
def replaceFrom (t : Text) (value : Expr → Text → Text) (cursor : Nat) : List Expr → Text
  | [] => Text.slice t cursor t.width
  | reference :: rest =>
    let span := reference.span
    if span.start < cursor then replaceFrom t value cursor rest
    else
      Text.slice t cursor span.start ++
        (value reference (Text.slice t span.start span.stop) ++
          replaceFrom t value span.stop rest)

/-- The text with its references replaced by what they stand for in a project. A text that cannot be
read as an expression is left as it is. -/
def expand (p : EvaluatedProject) (t : Text) : Text :=
  match parseValue t with
  | .error _ => t
  | .ok e => replaceFrom t (referenceValue p) 0 (e.descendants.filter Expr.isReference)

end ProjectFile.Evaluation
