import ProjectFile.Text.Digits
import ProjectFile.Text.Table

/-!
JSON values, their reading and their decoding.

Configurations are read by a general JSON library, with decoders that are derived from how their
records are declared. Neither is part of what is described here: `parse` and the functions under
*Decoding* stand for them, and do what these document. This is assumed, not derived from anything.

- Reading is strict: nothing may follow the value, and there are no comments, no leading zeros, no
  trailing commas and no raw control characters in strings.
- A string may spell half of a surrogate pair in an escape. Such a string is well formed but is no
  text, so it reads as `Json.broken`, and so does an object with such a key.
- Numbers are kept as they are written. A value that no decoder asks for need only be well formed,
  and may be of any size and depth.
- The members of a record may be in any order. One that is missing has its default, one that is
  given twice is refused, and one of another name is passed over (`member?`). A record may also be
  an array of its values, of which the last ones may be missing (`element?`).
- Of members of a table with the same key the last one counts, in the place of the first
  (`table?`).
-/

namespace ProjectFile

/-- A JSON value. -/
inductive Json where
  | null
  | bool (b : Bool)
  | number (t : Text)
  | string (t : Text)
  /-- A string, or a key of an object, that is no text. -/
  | broken
  | array (elements : List Json)
  | object (members : List (Text × Json))
  deriving Repr

namespace Json

/-- Whether `c` may stand between the tokens of JSON. -/
def isSpace (c : Char) : Bool := c == ' ' || c == '\t' || c == '\n' || c == '\r'

/-- The text without the space in front. -/
def skipSpace (t : Text) : Text := t.dropWhile isSpace

/-! ## Strings -/

/-- A piece of a string: a character, or the code unit of a numeric escape. -/
inductive Piece where
  | char (c : Char)
  | unit (n : Nat)
  deriving DecidableEq, Repr

/-- The character of a one-letter escape. -/
def escaped? : Char → Option Char
  | '"' => some '"'
  | '\\' => some '\\'
  | '/' => some '/'
  | 'b' => some '\x08'
  | 'f' => some '\x0c'
  | 'n' => some '\n'
  | 'r' => some '\r'
  | 't' => some '\t'
  | _ => none

/-- The code unit of four hexadecimal digits. -/
def unit? (a b c d : Char) : Option Nat := Text.digits? 16 [a, b, c, d]

/-- The pieces of the string whose opening quote has just been read, and the text after it. -/
def readPieces : Text → Option (List Piece × Text)
  | [] => none
  | '"' :: rest => some ([], rest)
  | '\\' :: 'u' :: a :: b :: c :: d :: rest =>
    match unit? a b c d with
    | some n => (readPieces rest).map fun r => (.unit n :: r.1, r.2)
    | none => none
  | '\\' :: e :: rest =>
    match escaped? e with
    | some c => (readPieces rest).map fun r => (.char c :: r.1, r.2)
    | none => none
  | c :: rest =>
    if c = '\\' ∨ c.toNat < 0x20 then none
    else (readPieces rest).map fun r => (.char c :: r.1, r.2)

/-- Whether a code unit is the first half of a surrogate pair. -/
def isHighHalf (n : Nat) : Bool := decide (0xd800 ≤ n) && decide (n < 0xdc00)

/-- Whether a code unit is the second half of a surrogate pair. -/
def isLowHalf (n : Nat) : Bool := decide (0xdc00 ≤ n) && decide (n < 0xe000)

/-- The text of some pieces, if every half of a surrogate pair has the other half beside it. -/
def assemble : List Piece → Option Text
  | [] => some []
  | .char c :: rest => (assemble rest).map fun t => c :: t
  | .unit n :: .unit m :: rest =>
    if isHighHalf n && isLowHalf m then
      (assemble rest).map fun t => Char.ofNat (0x10000 + (n - 0xd800) * 0x400 + (m - 0xdc00)) :: t
    else if isHighHalf n || isLowHalf n then none
    else (assemble (.unit m :: rest)).map fun t => Char.ofNat n :: t
  | .unit n :: rest =>
    if isHighHalf n || isLowHalf n then none
    else (assemble rest).map fun t => Char.ofNat n :: t

/-! ## Numbers -/

/-- The number of characters of one digit or more in front. -/
def digitsLength? (t : Text) : Option Nat :=
  let n := Text.lengthWhile Char.isDigit t
  if n = 0 then none else some n

/-- The number of characters of the whole part of a number: a zero, or digits that do not begin
with one. -/
def wholeLength? (t : Text) : Option Nat :=
  if t.head? = some '0' then some 1 else digitsLength? t

/-- The number of characters of the fraction in front, if any. -/
def fractionLength? : Text → Option Nat
  | '.' :: t => (digitsLength? t).map fun n => n + 1
  | _ => some 0

/-- The number of characters of the exponent in front, if any. -/
def exponentLength? : Text → Option Nat
  | [] => some 0
  | e :: t =>
    if e = 'e' ∨ e = 'E' then
      match t with
      | '+' :: t => (digitsLength? t).map fun n => n + 2
      | '-' :: t => (digitsLength? t).map fun n => n + 2
      | t => (digitsLength? t).map fun n => n + 1
    else some 0

/-- The number of characters of the number in front. -/
def numberLength? (t : Text) : Option Nat := do
  let sign := if t.head? = some '-' then 1 else 0
  let whole ← wholeLength? (t.drop sign)
  let fraction ← fractionLength? (t.drop (sign + whole))
  let exponent ← exponentLength? (t.drop (sign + whole + fraction))
  return sign + whole + fraction + exponent

/-! ## Values -/

/-- The object with the given members, whose keys may be no text. -/
def ofMembers (members : List (Option Text × Json)) : Json :=
  if members.all fun m => m.1.isSome then
    .object (members.filterMap fun m => m.1.map fun key => (key, m.2))
  else .broken

mutual

/-- Reads the value in front, and gives the text after it. The first argument bounds the depth. -/
def readValue : Nat → Text → Option (Json × Text)
  | 0, _ => none
  | depth + 1, t =>
    match skipSpace t with
    | 'n' :: 'u' :: 'l' :: 'l' :: rest => some (.null, rest)
    | 't' :: 'r' :: 'u' :: 'e' :: rest => some (.bool true, rest)
    | 'f' :: 'a' :: 'l' :: 's' :: 'e' :: rest => some (.bool false, rest)
    | '"' :: rest =>
      (readPieces rest).map fun r =>
        (match assemble r.1 with
          | some t => .string t
          | none => .broken, r.2)
    | '[' :: rest =>
      match skipSpace rest with
      | ']' :: rest => some (.array [], rest)
      | _ => (readElements depth rest).map fun r => (.array r.1, r.2)
    | '{' :: rest =>
      match skipSpace rest with
      | '}' :: rest => some (.object [], rest)
      | _ => (readMembers depth rest).map fun r => (ofMembers r.1, r.2)
    | t => (numberLength? t).map fun n => (.number (t.take n), t.drop n)

/-- Reads the elements of an array up to its end. -/
def readElements : Nat → Text → Option (List Json × Text)
  | 0, _ => none
  | depth + 1, t =>
    match readValue depth t with
    | none => none
    | some (value, rest) =>
      match skipSpace rest with
      | ',' :: rest => (readElements depth rest).map fun r => (value :: r.1, r.2)
      | ']' :: rest => some ([value], rest)
      | _ => none

/-- Reads the members of an object up to its end. -/
def readMembers : Nat → Text → Option (List (Option Text × Json) × Text)
  | 0, _ => none
  | depth + 1, t =>
    match skipSpace t with
    | '"' :: rest =>
      match readPieces rest with
      | none => none
      | some (pieces, rest) =>
        match skipSpace rest with
        | ':' :: rest =>
          match readValue depth rest with
          | none => none
          | some (value, rest) =>
            let member := (assemble pieces, value)
            match skipSpace rest with
            | ',' :: rest => (readMembers depth rest).map fun r => (member :: r.1, r.2)
            | '}' :: rest => some ([member], rest)
            | _ => none
        | _ => none
    | _ => none

end

def parse (t : Text) : Option Json :=
  match readValue (t.length + 1) t with
  | some (value, rest) => if (skipSpace rest).isEmpty then some value else none
  | none => none

/-! ## Decoding -/

/-- The text of a string. -/
def text? : Json → Option Text
  | .string t => some t
  | _ => none

/-- The table of an object whose values are strings. Of members with the same key the last one
counts, in the place of the first. -/
def table? : Json → Option Table
  | .object members =>
    (members.mapM fun (m : Text × Json) => m.2.text?.map fun value => (m.1, value)).map Table.ofList
  | _ => none

/-- The value of a member that may be missing but not be given twice. -/
def member? {α : Type} (members : List (Text × Json)) (name : Text) (decode : Json → Option α)
    (default : α) : Option α :=
  match members.filter fun m => m.1 == name with
  | [] => some default
  | [m] => decode m.2
  | _ => none

def element? {α : Type} (elements : List Json) (i : Nat) (decode : Json → Option α) (default : α) :
    Option α :=
  match elements[i]? with
  | some value => decode value
  | none => some default

end Json

end ProjectFile
