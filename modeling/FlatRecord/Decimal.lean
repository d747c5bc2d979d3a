import FlatRecord.Text

/-!
# Decimal numbers

A `Decimal` is a coefficient and a power of ten. Its text has ASCII digits with at most one point
before, among or after them, and may end in an exponent: `7`, `.5`, `5.`, `12.5e-3`.
-/

namespace FlatRecord

/-- The number `coefficient * 10 ^ exponent`. -/
structure Decimal where
  /-- The digits as a whole number. -/
  coefficient : Nat
  /-- The power of ten. -/
  exponent : Int
  deriving DecidableEq, Inhabited

namespace Decimal

/-- The number of decimal digits of the coefficient; zero has one. -/
def digits (d : Decimal) : List Char := Nat.toDigits 10 d.coefficient

/-- What follows the digits of a number: nothing, or `e`, an optional sign and digits. -/
def exponent? : List Char → Option Int
  | [] => some 0
  | c :: rest => if c = 'e' || c = 'E' then Text.integer? rest else none

/-- The digits before the point, those after it, and what follows them. -/
def split (cs : List Char) : List Char × List Char × List Char :=
  let whole := cs.takeWhile Char.isDigit
  match cs.dropWhile Char.isDigit with
  | '.' :: rest => (whole, rest.takeWhile Char.isDigit, rest.dropWhile Char.isDigit)
  | rest => (whole, [], rest)

/-- Reads a number without a sign; the digits before and after the point are not both missing. -/
def read? (cs : List Char) : Option Decimal :=
  let (whole, places, rest) := split cs
  match Text.natural? (whole ++ places), exponent? rest with
  | some coefficient, some exponent => some ⟨coefficient, exponent - places.length⟩
  | _, _ => none

/-- Moves the zeros at the end of a coefficient into the exponent, at most `fuel` of them. -/
def trimZeros (d : Decimal) : Nat → Decimal
  | 0 => d
  | fuel + 1 =>
    if d.coefficient ≠ 0 ∧ d.coefficient % 10 = 0 then
      trimZeros ⟨d.coefficient / 10, d.exponent + 1⟩ fuel
    else
      d

end Decimal

end FlatRecord
