import ProjectFile.Text.Class
import ProjectFile.Text.Digits

/-!
The numbers that conditions compare: finite binary floating-point numbers of double precision.

Such a number is a whole multiple of the least positive one, so it is kept as that multiple, and
comparing numbers is comparing integers. A decimal is rounded to the nearest number, and of two
that are equally near to the one with the even significand.
-/

namespace ProjectFile.Evaluation

/-- A finite number, counted in units of 2 to the power of -1074. -/
abbrev Number := Int

def significandBits : Nat := 53

/-- The exponent of the unit, without its sign. -/
def unitExponent : Nat := 1074

/-- The least power of two that is too large for a number, in units. -/
def overflowExponent : Nat := unitExponent + 1024

/-- The whole number nearest to a quotient; of two, the even one. -/
def roundQuotient (num den : Nat) : Nat :=
  let q := num / den
  let r := num % den
  if den < 2 * r ∨ (2 * r = den ∧ q % 2 = 1) then q + 1 else q

/-- Rounds a quotient, in units, to the significand's bits. Nothing is left if the result is too
large. -/
def roundUnits? (num den : Nat) : Option Nat :=
  let bits := Nat.log2 (num / den) + 1
  let step := Nat.pow 2 (bits - significandBits)
  let rounded := roundQuotient num (den * step) * step
  if rounded < Nat.pow 2 overflowExponent then some rounded else none

/-- The number nearest to `digits * 10 ^ exponent`. Beyond the guarded exponents the result is known
without computing the power. -/
def ofDecimal? (digits : Nat) (exponent : Int) : Option Nat :=
  let magnitude : Int := (Nat.toDigits 10 digits).length + exponent
  if digits = 0 then some 0
  else if 310 < magnitude then none
  else if magnitude < -400 then some 0
  else if 0 ≤ exponent then
    roundUnits? (digits * Nat.pow 10 exponent.toNat * Nat.pow 2 unitExponent) 1
  else roundUnits? (digits * Nat.pow 2 unitExponent) (Nat.pow 10 (-exponent).toNat)

/-- The value of the exponent part of a decimal: nothing, or an `e` and an integer. -/
def exponent? : Text → Option Int
  | [] => some 0
  | 'e' :: t => Text.integer? 10 t
  | 'E' :: t => Text.integer? 10 t
  | _ => none

/-- The value of a decimal without a sign: digits with or without a point, at least one, and an
exponent or none. -/
def decimal? (t : Text) : Option Nat :=
  let whole := t.takeWhile Char.isDigit
  let afterWhole := t.dropWhile Char.isDigit
  let fraction :=
    match afterWhole with
    | '.' :: rest => rest.takeWhile Char.isDigit
    | _ => []
  let afterFraction :=
    match afterWhole with
    | '.' :: rest => rest.dropWhile Char.isDigit
    | rest => rest
  (Text.digits? 10 (whole ++ fraction)).bind fun digits =>
    (exponent? afterFraction).bind fun exponent =>
      ofDecimal? digits (exponent - fraction.length)

/-- The value of a hexadecimal integer of 64 bits, sign included. -/
def hexadecimal? (t : Text) : Option Number :=
  (Text.integer? 16 t).bind fun n =>
    if -Int.pow 2 63 ≤ n ∧ n < Int.pow 2 63 then
      (roundUnits? (n.natAbs * Nat.pow 2 unitExponent) 1).map fun m => if n < 0 then -(m : Int) else m
    else none

/-- The number that a text is, if it is one: a hexadecimal integer after `0x`, or a decimal. Blanks
around it do not count. -/
def number? (t : Text) : Option Number :=
  match Text.trim t with
  | '0' :: 'x' :: digits => hexadecimal? digits
  | '0' :: 'X' :: digits => hexadecimal? digits
  | '-' :: rest => (decimal? rest).map fun m => -(m : Int)
  | '+' :: rest => (decimal? rest).map fun m => (m : Int)
  | rest => (decimal? rest).map fun m => (m : Int)

end ProjectFile.Evaluation
