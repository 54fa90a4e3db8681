import ProjectFile.Json.Value

/-!
The grammar of JSON.

`Spells value t` says that a text is a value, without the space around it, and which value it is. There
is a rule for each form of a value, and none of them goes by the reader: a string is spelled piece by
piece, a number in its three parts, and arrays and objects in elements and members with space around
them. What may be written in several ways has a rule for each: a character of a string stands for
itself, or an escape stands for it.
-/

namespace ProjectFile.Json

/-- Whether a text is nothing but space. -/
def IsGap (t : Text) : Prop := ∀ c ∈ t, isSpace c = true

/-! ## Strings -/

/-- How a piece of a string is spelled. -/
inductive SpellsPiece : Piece → Text → Prop
  | char {c : Char} (hquote : c ≠ '"') (hescape : c ≠ '\\') (hcontrol : 0x20 ≤ c.toNat) :
    SpellsPiece (.char c) [c]
  | escape {e c : Char} (h : escaped? e = some c) : SpellsPiece (.char c) ['\\', e]
  | unit {a b c d : Char} {n : Nat} (h : unit? a b c d = some n) :
    SpellsPiece (.unit n) ['\\', 'u', a, b, c, d]

/-- How pieces are spelled one after the other. -/
inductive SpellsPieces : List Piece → Text → Prop
  | nil : SpellsPieces [] []
  | cons {p : Piece} {pieces : List Piece} {s t : Text} (h : SpellsPiece p s)
    (hmore : SpellsPieces pieces t) : SpellsPieces (p :: pieces) (s ++ t)

/-- How a string is spelled, with its quotes. There is no text to it if it has half of a surrogate pair
without the other half. -/
inductive SpellsString : Option Text → Text → Prop
  | quoted {pieces : List Piece} {content : Option Text} {body : Text} (h : SpellsPieces pieces body)
    (hcontent : assemble pieces = content) : SpellsString content ('"' :: (body ++ ['"']))

/-! ## Numbers -/

/-- One digit or more. -/
structure IsDigits (t : Text) : Prop where
  ne_nil : t ≠ []
  digits : ∀ c ∈ t, c.isDigit = true

/-- The whole part of a number: a zero, or digits that do not begin with one. -/
inductive IsWhole : Text → Prop
  | zero : IsWhole ['0']
  | digits {t : Text} (h : IsDigits t) (hzero : t.head? ≠ some '0') : IsWhole t

/-- The fraction of a number, if it has one. -/
inductive IsFraction : Text → Prop
  | none : IsFraction []
  | digits {t : Text} (h : IsDigits t) : IsFraction ('.' :: t)

/-- The exponent of a number, if it has one. -/
inductive IsExponent : Text → Prop
  | none : IsExponent []
  | digits {e : Char} {sign t : Text} (he : e = 'e' ∨ e = 'E')
    (hsign : sign = [] ∨ sign = ['+'] ∨ sign = ['-']) (h : IsDigits t) : IsExponent (e :: (sign ++ t))

/-- A number. -/
inductive IsNumber : Text → Prop
  | parts {sign whole fraction exponent : Text} (hsign : sign = [] ∨ sign = ['-'])
    (hwhole : IsWhole whole) (hfraction : IsFraction fraction) (hexponent : IsExponent exponent) :
    IsNumber (sign ++ (whole ++ (fraction ++ exponent)))

/-! ## Values -/

mutual

/-- How a value is spelled. -/
inductive Spells : Json → Text → Prop
  | nullWord : Spells .null ['n', 'u', 'l', 'l']
  | trueWord : Spells (.bool true) ['t', 'r', 'u', 'e']
  | falseWord : Spells (.bool false) ['f', 'a', 'l', 's', 'e']
  | number {t : Text} (h : IsNumber t) : Spells (.number t) t
  | string {content t : Text} (h : SpellsString (some content) t) : Spells (.string content) t
  | broken {t : Text} (h : SpellsString none t) : Spells .broken t
  | emptyArray {gap : Text} (h : IsGap gap) : Spells (.array []) ('[' :: (gap ++ [']']))
  | array {values : List Json} {t : Text} (h : SpellsElements values t) :
    Spells (.array values) ('[' :: (t ++ [']']))
  | emptyObject {gap : Text} (h : IsGap gap) : Spells (.object []) ('{' :: (gap ++ ['}']))
  | object {members : List (Option Text × Json)} {t : Text} (h : SpellsMembers members t) :
    Spells (ofMembers members) ('{' :: (t ++ ['}']))

/-- How a value is spelled with space around it. -/
inductive SpellsSpaced : Json → Text → Prop
  | around {value : Json} {front t back : Text} (hfront : IsGap front) (h : Spells value t)
    (hback : IsGap back) : SpellsSpaced value (front ++ (t ++ back))

/-- How the elements of an array are spelled, with commas between them. -/
inductive SpellsElements : List Json → Text → Prop
  | last {value : Json} {t : Text} (h : SpellsSpaced value t) : SpellsElements [value] t
  | more {value : Json} {values : List Json} {t s : Text} (h : SpellsSpaced value t)
    (hmore : SpellsElements values s) : SpellsElements (value :: values) (t ++ ',' :: s)

/-- How a member of an object is spelled. -/
inductive SpellsMember : Option Text × Json → Text → Prop
  | named {name : Option Text} {value : Json} {front key back t : Text} (hfront : IsGap front)
    (hkey : SpellsString name key) (hback : IsGap back) (h : SpellsSpaced value t) :
    SpellsMember (name, value) (front ++ (key ++ (back ++ ':' :: t)))

/-- How the members of an object are spelled, with commas between them. -/
inductive SpellsMembers : List (Option Text × Json) → Text → Prop
  | last {member : Option Text × Json} {t : Text} (h : SpellsMember member t) :
    SpellsMembers [member] t
  | more {member : Option Text × Json} {members : List (Option Text × Json)} {t s : Text}
    (h : SpellsMember member t) (hmore : SpellsMembers members s) :
    SpellsMembers (member :: members) (t ++ ',' :: s)

end

end ProjectFile.Json
