import ProjectFile.Text.Basic

/-!
Numbers written in digits.
-/

namespace ProjectFile.Text

/-- The value of a digit in a radix up to sixteen. -/
def digit? (radix : Nat) (c : Char) : Option Nat :=
  let value :=
    if '0' ≤ c ∧ c ≤ '9' then c.toNat - '0'.toNat
    else if 'a' ≤ c ∧ c ≤ 'f' then c.toNat - 'a'.toNat + 10
    else if 'A' ≤ c ∧ c ≤ 'F' then c.toNat - 'A'.toNat + 10
    else radix
  if value < radix then some value else none

def digitsFrom? (radix value : Nat) : Text → Option Nat
  | [] => some value
  | c :: t => (digit? radix c).bind fun d => digitsFrom? radix (value * radix + d) t

/-- The value of a text of one digit or more. -/
def digits? (radix : Nat) (t : Text) : Option Nat :=
  if t.isEmpty then none else digitsFrom? radix 0 t

/-- The value of digits that may have a `+` in front. -/
def natural? (radix : Nat) : Text → Option Nat
  | '+' :: t => digits? radix t
  | t => digits? radix t

/-- The value of digits that may have a sign in front. -/
def integer? (radix : Nat) : Text → Option Int
  | '-' :: t => (digits? radix t).map fun n => -(n : Int)
  | t => (natural? radix t).map fun n => (n : Int)

end ProjectFile.Text
