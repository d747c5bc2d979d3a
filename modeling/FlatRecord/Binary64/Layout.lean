import FlatRecord.Binary64

/-!
# The text of a floating-point number

A number is written with the shortest digits that read back (`shortest`). A `Layout` holds the other
decisions of a format: which powers of ten are written with a point, what follows a whole number, and
where a digit goes that is halfway between two. Two formats are in use, one for numbers in records
(`recordLayout`) and one for the text of float cells (`plainLayout`).
-/

namespace FlatRecord.Binary64

/-! ## The shortest decimal that reads back

The reals that round to a positive number `m * 2 ^ e` form an interval around it; its ends belong to
it when `m` is even. `shortest` takes the decimal grids of 1, 2, up to 17 digits in turn and looks
at the two grid points around the number. The first grid with a point in the interval wins: no
shorter decimal reads back. Of two such points the nearer is taken, and the caller says where a
point halfway goes. -/

/-- The position of the first digit: the `k` with `10 ^ (k - 1) ≤ m * 2 ^ e < 10 ^ k`. -/
def firstPlace (m : Nat) (e : Int) : Int :=
  let log := (m.log2 : Int) + e
  let k := log * 30103 / 100000 + 1
  let (n, d) := scaleDown m 1 (-e)
  let reached := if 0 ≤ k then d * Nat.pow 10 k.toNat ≤ n else d ≤ n * Nat.pow 10 (-k).toNat
  if reached then k + 1 else k

/-- The interval of reals that round to a number, on a grid of decimals: all four are multiples of
one unit. -/
structure Target where
  /-- The lower end. -/
  low : Nat
  /-- The number itself. -/
  value : Nat
  /-- The upper end. -/
  high : Nat
  /-- The distance of two neighbours on the grid. -/
  step : Nat
  /-- Whether the ends round to the number. -/
  closed : Bool

namespace Target

/-- The interval around `m * 2 ^ e` and the grid of the multiples of `10 ^ p`. The number below the
least significand of 53 bits is only half as far away as the one above. -/
def around (m : Nat) (e p : Int) : Target :=
  let below := if m = Nat.pow 2 (precision - 1) ∧ e > leastExponent then 1 else 2
  let two := Nat.pow 2 (e - 2).toNat * Nat.pow 10 (-p).toNat
  let ten := Nat.pow 2 (2 - e).toNat * Nat.pow 10 p.toNat
  ⟨(4 * m - below) * two, 4 * m * two, (4 * m + 2) * two, ten, m % 2 = 0⟩

/-- Whether a multiple of the grid's step lies in the interval. -/
def holds (t : Target) (multiple : Nat) : Bool :=
  let point := multiple * t.step
  if t.closed then t.low ≤ point && point ≤ t.high else t.low < point && point < t.high

/-- The grid point of the interval that is nearest to the number, as a multiple of the step; `up`
says that a number halfway between two goes to the larger, else to the even one. -/
def nearest? (t : Target) (up : Bool) : Option Nat :=
  let a := t.value / t.step
  let r := t.value % t.step
  let upper := 2 * r > t.step || (2 * r = t.step && (up || a % 2 = 1))
  match t.holds a, t.holds (a + 1) with
  | true, true => some (if upper then a + 1 else a)
  | true, false => some a
  | false, true => some (a + 1)
  | false, false => none

end Target

/-- The first hit among the grids of `digits`, `digits + 1`, ... digits, `fuel + 1` grids in all;
the last grid gives its lower point if nothing hits. -/
def searchGrids (m : Nat) (e place : Int) (up : Bool) (digits : Nat) : Nat → Decimal
  | 0 =>
    let t := Target.around m e (place - digits)
    ⟨(t.nearest? up).getD (t.value / t.step), place - digits⟩
  | fuel + 1 =>
    match (Target.around m e (place - digits)).nearest? up with
    | some multiple => ⟨multiple, place - digits⟩
    | none => searchGrids m e place up (digits + 1) fuel

/-- The shortest decimal that rounds to `m * 2 ^ e`, and the nearest of those; its coefficient does
not end in a zero. Zero is written with the one digit zero. -/
def shortest (m : Nat) (e : Int) (up : Bool) : Decimal :=
  if m = 0 then ⟨0, 0⟩
  else (searchGrids m e (firstPlace m e) up 1 16).trimZeros 17

/-! ## Layouts -/

/-- The decisions of a format for floating-point numbers. -/
structure Layout where
  /-- Whether a number whose first digit stands for this power of ten is written with a point and
  without an exponent. -/
  positional : Int → Bool
  /-- What follows a whole number. -/
  wholeSuffix : String
  /-- Whether a number halfway between two decimals goes to the larger one, else to the even one. -/
  up : Bool

/-- Numbers in records have a point between the powers -5 and 15 of ten, and `.0` after a whole
number. -/
def recordLayout : Layout := ⟨fun power => -5 ≤ power && power ≤ 15, ".0", false⟩

/-- The text of a cell never has an exponent, and nothing follows a whole number. -/
def plainLayout : Layout := ⟨fun _ => true, "", true⟩

/-- The digits with the point after the first `place` of them, filled up with zeros. -/
def positionalText (layout : Layout) (digits : List Char) (place : Int) : String :=
  if place ≤ 0 then
    "0." ++ .ofList (List.replicate (-place).toNat '0' ++ digits)
  else
    let whole := digits.take place.toNat
    let places := digits.drop place.toNat
    let zeros := List.replicate (place.toNat - digits.length) '0'
    if places.isEmpty then .ofList (whole ++ zeros) ++ layout.wholeSuffix
    else .ofList whole ++ "." ++ .ofList places

/-- One digit, the others after a point, and the power of ten with its sign. -/
def exponentText (digits : List Char) (power : Int) : String :=
  let others := digits.drop 1
  .ofList (digits.take 1) ++ (if others.isEmpty then "" else "." ++ .ofList others) ++ "e" ++
    (if power < 0 then "-" else "+") ++ toString power.natAbs

/-- The text of a magnitude. -/
def magnitudeText (layout : Layout) (m : Nat) (e : Int) : String :=
  if m = 0 then "0" ++ layout.wholeSuffix
  else
    let decimal := shortest m e layout.up
    let place := decimal.digits.length + decimal.exponent
    if layout.positional (place - 1) then positionalText layout decimal.digits place
    else exponentText decimal.digits (place - 1)

/-- The text of a number in a format. -/
def text (layout : Layout) : Binary64 → String
  | nan => "NaN"
  | infinite negative => if negative then "-inf" else "inf"
  | finite negative m e => (if negative then "-" else "") ++ magnitudeText layout m e

end FlatRecord.Binary64
