import FlatRecord.Decimal

/-!
# Binary floating-point numbers of 64 bits

A number is not a number, an infinity, or a sign with `significand * 2 ^ exponent`. The significand
has at most 53 bits; it has exactly 53 unless the exponent is the least one, -1074, so every number
has one representation. All arithmetic is on whole numbers: `ofRatio` rounds a
quotient to the nearest number, a tie going to the even significand, and the other conversions
reduce to it.
-/

namespace FlatRecord

/-- A floating-point number of 64 bits. -/
inductive Binary64 where
  /-- Not a number. -/
  | nan
  /-- One of the infinities. -/
  | infinite (negative : Bool)
  /-- The number `significand * 2 ^ exponent` with a sign; zero has a sign too. -/
  | finite (negative : Bool) (significand : Nat) (exponent : Int)
  deriving DecidableEq, Inhabited

namespace Binary64

/-- The exponent of the smallest numbers. -/
def leastExponent : Int := -1074

/-- The exponent of the largest numbers. -/
def greatestExponent : Int := 971

/-- The number of bits of a significand. -/
def precision : Nat := 53

/-- Zero with a sign. -/
def zero (negative : Bool) : Binary64 := finite negative 0 leastExponent

/-! ## Rounding -/

/-- The quotient rounded to the nearest whole number, a tie to the even one. -/
def roundHalfEven (num den : Nat) : Nat :=
  let q := num / den
  let r := num % den
  if 2 * r > den || (2 * r = den && q % 2 = 1) then q + 1 else q

/-- The fraction `num / den * 2 ^ (-e)`, as a numerator and a denominator. -/
def scaleDown (num den : Nat) (e : Int) : Nat × Nat :=
  if 0 ≤ e then (num, den * Nat.pow 2 e.toNat) else (num * Nat.pow 2 (-e).toNat, den)

/-- The exponent at which `num / den` has a quotient of at most 53 bits. -/
def exponentFor (num den : Nat) : Int :=
  let estimate := max leastExponent ((num.log2 : Int) - den.log2 - precision)
  let (n, d) := scaleDown num den estimate
  if d * Nat.pow 2 precision ≤ n then estimate + 1 else estimate

/-- The number nearest to `num / den`; past the largest number it is infinite. -/
def ofRatio (negative : Bool) (num den : Nat) : Binary64 :=
  if num = 0 then zero negative
  else
    let e := exponentFor num den
    let (n, d) := scaleDown num den e
    let m := roundHalfEven n d
    let (m, e) := if m = Nat.pow 2 precision then (Nat.pow 2 (precision - 1), e + 1) else (m, e)
    if e > greatestExponent then infinite negative else finite negative m e

/-- The number nearest to a whole number. -/
def ofInt (n : Int) : Binary64 := ofRatio (n < 0) n.natAbs 1

/-- The number nearest to a decimal number with a sign. Decimals from `10 ^ 309` on are infinite
and those below `10 ^ (-324)` are zero, whatever their digits. -/
def ofDecimal (negative : Bool) (d : Decimal) : Binary64 :=
  let top := d.digits.length + d.exponent
  if d.coefficient = 0 || top ≤ -324 then zero negative
  else if top > 309 then infinite negative
  else if 0 ≤ d.exponent then ofRatio negative (d.coefficient * Nat.pow 10 d.exponent.toNat) 1
  else ofRatio negative d.coefficient (Nat.pow 10 (-d.exponent).toNat)

/-! ## Tests and conversions -/

/-- Whether two numbers are equal as numbers: the zeros are, and not-a-number equals nothing. -/
def sameNumber : Binary64 → Binary64 → Bool
  | infinite a, infinite b => a = b
  | finite _ 0 _, finite _ 0 _ => true
  | finite a m e, finite b n f => a = b && m = n && e = f
  | _, _ => false

/-- Whether the number is zero, of either sign. -/
def isZero : Binary64 → Bool
  | finite _ 0 _ => true
  | _ => false

/-- The whole part, toward zero, of a finite number. -/
def truncate? : Binary64 → Option Int
  | finite negative m e =>
    let magnitude := if 0 ≤ e then m * Nat.pow 2 e.toNat else m / Nat.pow 2 (-e).toNat
    some (if negative then -(magnitude : Int) else magnitude)
  | _ => none

/-- Whether a finite number has no fraction. -/
def isWhole : Binary64 → Bool
  | finite _ m e => 0 ≤ e || m % Nat.pow 2 (-e).toNat = 0
  | _ => false

/-- Whether a finite number is strictly between `-2 ^ 63` and `2 ^ 63`. -/
def isBelow63 (x : Binary64) : Bool :=
  match x.truncate? with
  | some n => -0x8000000000000000 < n && n < 0x8000000000000000
  | none => false

/-- The bit pattern: sign, exponent field of 11 bits, fraction of 52 bits. -/
def word : Binary64 → Nat
  | nan => 0x7ff8000000000000
  | infinite negative => (if negative then 0x8000000000000000 else 0) + 0x7ff0000000000000
  | finite negative m e =>
    let sign := if negative then 0x8000000000000000 else 0
    if m < Nat.pow 2 (precision - 1) then sign + m
    else sign + (e - leastExponent + 1).toNat * 0x10000000000000 + (m - 0x10000000000000)

/-! ## Scaling by a power of ten

A power of ten is itself rounded to a number of 64 bits before it multiplies or divides, and the
result is rounded once more. So a scaled number may differ in its last bits from the number nearest
to the exact value, unless both operands are exact: whole numbers up to `2 ^ 53` and powers of ten
up to `10 ^ 22`. -/

/-- The exponent of the greatest power of ten that is finite. -/
def greatestPower : Nat := 308

/-- The number nearest to a power of ten. -/
def power (k : Nat) : Binary64 := ofRatio false (Nat.pow 10 k) 1

/-- Whether the number has a minus sign. -/
def isNegative : Binary64 → Bool
  | finite negative _ _ => negative
  | infinite negative => negative
  | nan => false

/-- The magnitude of a finite number as a numerator and a denominator. -/
def fraction : Binary64 → Nat × Nat
  | finite _ m e => scaleDown m 1 (-e)
  | _ => (0, 1)

/-- A finite number times a power of ten. -/
def timesPower (x : Binary64) (k : Nat) : Binary64 :=
  let (a, b) := x.fraction
  let (c, d) := (power k).fraction
  ofRatio x.isNegative (a * c) (b * d)

/-- A finite number divided by a power of ten. -/
def overPower (x : Binary64) (k : Nat) : Binary64 :=
  let (a, b) := x.fraction
  let (c, d) := (power k).fraction
  ofRatio x.isNegative (a * d) (b * c)

/-- A finite number below `2 ^ 64` scaled by a power of ten, unless the result is too large. A
division by more than the greatest power takes a second step; two full steps bring any such number
to zero, so a third is not needed. -/
def scale? (x : Binary64) : Int → Option Binary64
  | .ofNat k =>
    if x.isZero then some x
    else if greatestPower < k then none
    else match x.timesPower k with
      | finite negative m e => some (finite negative m e)
      | _ => none
  | .negSucc k =>
    if k < greatestPower then some (x.overPower (k + 1))
    else some ((x.overPower greatestPower).overPower (min (k + 1 - greatestPower) greatestPower))

/-! ## Reading

The text is an optional sign and a decimal number, or one of the words `inf`, `infinity` and `nan`
in any case. Blanks are not part of it. -/

/-- Reads a number without its sign. -/
def unsigned? (negative : Bool) (cs : List Char) : Option Binary64 :=
  match Decimal.read? cs with
  | some decimal => some (ofDecimal negative decimal)
  | none =>
    let word := String.ofList (cs.map Char.toLower)
    if word = "inf" || word = "infinity" then some (infinite negative)
    else if word = "nan" then some nan
    else none

/-- Reads a number. -/
def numeral? (s : String) : Option Binary64 :=
  match s.toList with
  | '-' :: cs => unsigned? true cs
  | '+' :: cs => unsigned? false cs
  | cs => unsigned? false cs

end Binary64

end FlatRecord
