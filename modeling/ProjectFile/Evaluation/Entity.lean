import ProjectFile.Text.Digits

/-!
Entities and character references in attribute values and texts.
-/

namespace ProjectFile.Evaluation

/-- The character of a code point, if it is one. -/
def charOf? (n : Nat) : Option Char := if n.isValidChar then some (Char.ofNat n) else none

/-- The characters that have an entity of their own, by its name. -/
def namedEntities : List (Text × Char) :=
  [("lt".toList, '<'), ("gt".toList, '>'), ("amp".toList, '&'), ("quot".toList, '"'),
   ("apos".toList, '\'')]

/-- The character that stands between an `&` and a `;`: a named one, or a code point in decimal
digits after `#` or in hexadecimal digits after `#x`. -/
def decodeEntity? (name : Text) : Option Char :=
  match namedEntities.lookup name with
  | some c => some c
  | none =>
    match name with
    | '#' :: 'x' :: digits => (Text.natural? 16 digits).bind charOf?
    | '#' :: digits => (Text.natural? 10 digits).bind charOf?
    | _ => none

/-- Decodes the references of a text, after `skip` more characters of the reference before. An `&`
that begins no reference stands for itself. -/
def unescapeFrom : Nat → Text → Text
  | _, [] => []
  | skip + 1, _ :: t => unescapeFrom skip t
  | 0, c :: t =>
    if c = '&' then
      match Text.cutAt ';' t with
      | none => c :: unescapeFrom 0 t
      | some (name, _) =>
        match decodeEntity? name with
        | some d => d :: unescapeFrom (name.length + 1) t
        | none => c :: unescapeFrom 0 t
    else c :: unescapeFrom 0 t

/-- Decodes every reference of a text once. -/
def unescape (t : Text) : Text := unescapeFrom 0 t

end ProjectFile.Evaluation
