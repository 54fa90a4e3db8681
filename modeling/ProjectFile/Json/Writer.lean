import ProjectFile.Text.Table

/-!
The writing of compact JSON: strings and tables of strings.

As with reading, this stands for a general JSON library and does what that documents: nothing is
between the tokens, members keep their order, and in a string the quotes, the backslashes and the
characters below U+0020 are escaped, by a letter where there is one for them.
-/

namespace ProjectFile.Json

/-- A hexadecimal digit in small letters. -/
def hexDigit (n : Nat) : Char :=
  if n < 10 then Char.ofNat ('0'.toNat + n) else Char.ofNat ('a'.toNat + n - 10)

/-- A character inside a string. Quotes, backslashes and control characters are escaped. -/
def escape (c : Char) : Text :=
  match c with
  | '"' => ['\\', '"']
  | '\\' => ['\\', '\\']
  | '\x08' => ['\\', 'b']
  | '\x0c' => ['\\', 'f']
  | '\n' => ['\\', 'n']
  | '\r' => ['\\', 'r']
  | '\t' => ['\\', 't']
  | _ =>
    if c.toNat < 0x20 then
      ['\\', 'u', '0', '0', hexDigit (c.toNat / 16), hexDigit (c.toNat % 16)]
    else [c]

def writeString (t : Text) : Text := '"' :: (t.flatMap escape ++ ['"'])

def writeMember (key value : Text) : Text := writeString key ++ ':' :: value

/-- Members with commas between them. -/
def joinMembers : List Text → Text
  | [] => []
  | [m] => m
  | m :: rest => m ++ ',' :: joinMembers rest

def writeObject (members : List Text) : Text := '{' :: (joinMembers members ++ ['}'])

/-- A table as an object. -/
def writeTable (table : Table) : Text :=
  writeObject (table.map fun entry => writeMember entry.1 (writeString entry.2))

end ProjectFile.Json
