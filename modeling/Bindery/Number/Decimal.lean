/-!
Decimal text of binary64 numbers: the fewest digits that read back as the same number, written
without an exponent. A finite number is `m · 2^q` for natural `m`; the reals that round to it form
an interval around it, whose ends belong to it if `m` is even. The digits are found by exact
arithmetic: for each count of digits in turn, the two neighbours of the number on the grid of
decimals with that many digits are tried.
-/

namespace Bindery.Decimal

/-- A finite number other than zero, without its sign: `significand · 2^exponent`. -/
structure Magnitude where
  significand : Nat
  exponent : Int
  /-- Whether the next smaller number is only half as far away as the next larger one. -/
  narrowBelow : Bool

/-- What a binary64 pattern says about its number, its sign apart. -/
inductive Reading where
  | nan
  | infinite
  | zero
  | finite (magnitude : Magnitude)

def isNegative (bits : UInt64) : Bool := bits >>> 63 == 1

/-- Reads the exponent and the fraction of a pattern. The smallest exponent has no hidden bit. -/
def read (bits : UInt64) : Reading :=
  let fraction := (bits &&& 0xfffffffffffff).toNat
  let exponent := ((bits >>> 52) &&& 0x7ff).toNat
  if exponent = 0x7ff then if fraction = 0 then .infinite else .nan
  else if exponent = 0 then
    if fraction = 0 then .zero else .finite ⟨fraction, -1074, false⟩
  else .finite ⟨fraction + 0x10000000000000, exponent - 1075, fraction == 0 && exponent > 1⟩

structure Ratio where
  num : Nat
  den : Nat

def Ratio.scaled (n base : Nat) (exponent : Int) : Ratio :=
  if 0 ≤ exponent then ⟨n * base.pow exponent.toNat, 1⟩ else ⟨n, base.pow (-exponent).toNat⟩

def Ratio.lt (a b : Ratio) : Bool := a.num * b.den < b.num * a.den

def Ratio.le (a b : Ratio) : Bool := a.num * b.den ≤ b.num * a.den

namespace Magnitude

def value (x : Magnitude) : Ratio := .scaled x.significand 2 x.exponent

/-- The point half way to the next smaller number. -/
def lower (x : Magnitude) : Ratio :=
  if x.narrowBelow then .scaled (4 * x.significand - 1) 2 (x.exponent - 2)
  else .scaled (2 * x.significand - 1) 2 (x.exponent - 1)

/-- The point half way to the next larger number. -/
def upper (x : Magnitude) : Ratio := .scaled (2 * x.significand + 1) 2 (x.exponent - 1)

/-- Whether a fraction reads back as the number. A point half way between two numbers goes to the
one with the even significand. -/
def holds (x : Magnitude) (r : Ratio) : Bool :=
  if x.significand % 2 = 0 then x.lower.le r && r.le x.upper else x.lower.lt r && r.lt x.upper

/-- The largest `k` with `10^k` at most the number, given one that is too large by at most the
budget. -/
def leadingPlaceFrom (x : Magnitude) : (budget : Nat) → Int → Int
  | 0, k => k
  | budget + 1, k =>
    if (Ratio.scaled 1 10 k).le x.value then k else x.leadingPlaceFrom budget (k - 1)

def leadingPlace (x : Magnitude) : Int := x.leadingPlaceFrom 700 309

/-- The multiple of `10^place` that reads back as the number, if one of the two next to the number
does; the nearer one if both do, and of two equally near ones the larger. -/
def onGrid? (x : Magnitude) (place : Int) : Option Nat :=
  let unit := Ratio.scaled 1 10 place
  let value := x.value
  let num := value.num * unit.den
  let den := value.den * unit.num
  let below := num / den
  let above := below + 1
  match x.holds (.scaled below 10 place), x.holds (.scaled above 10 place) with
  | true, true => some (if 2 * (num % den) < den then below else above)
  | true, false => some below
  | false, true => some above
  | false, false => none

/-- The shortest digits from the given count of digits on, with the place of the last one. Digits
that carry into the next place are a single one there. -/
def shortestFrom (x : Magnitude) (leading : Int) : (budget : Nat) → (digits : Nat) → Nat × Int
  | 0, _ => (x.significand, 0)
  | budget + 1, digits =>
    let place := leading + 1 - digits
    match x.onGrid? place with
    | some n => if n = Nat.pow 10 digits then (1, leading + 1) else (n, place)
    | none => x.shortestFrom leading budget (digits + 1)

/-- The shortest digits that read back as the number, with the place of the last one. Seventeen
digits are always enough. -/
def shortest (x : Magnitude) : Nat × Int := x.shortestFrom x.leadingPlace 17 1

end Magnitude

/-- The text of a natural number `n` times `10^place`, without an exponent. -/
def positional (n : Nat) (place : Int) : String :=
  if 0 ≤ place then toString (n * Nat.pow 10 place.toNat)
  else
    let places := (-place).toNat
    let digits := Nat.toDigits 10 n
    let padded := List.replicate (places + 1 - digits.length) '0' ++ digits
    let whole := padded.take (padded.length - places)
    let fraction := padded.drop (padded.length - places)
    String.ofList (whole ++ '.' :: fraction)

/-- The text of the number with the given pattern. Zero keeps its sign, NaN has none. -/
def text (bits : UInt64) : String :=
  let sign := if isNegative bits then "-" else ""
  match read bits with
  | .nan => "NaN"
  | .infinite => sign ++ "inf"
  | .zero => sign ++ "0"
  | .finite x =>
    let (n, place) := x.shortest
    sign ++ positional n place

example : text 0x3fb999999999999a = "0.1" := by decide +kernel

example : text 0x8000000000000000 = "-0" := by decide +kernel

/-- No exponent is written, however large or small the number. -/
example : text 0x444b1ae4d6e2ef50 = "1000000000000000000000" ∧
    text 0x3e7ad7f29abcaf48 = "0.0000001" := by decide +kernel

/-- Half way between `…312` and `…313`, which both read back. -/
example : text 0x3ff0000800000000 = "1.0000076293945313" := by decide +kernel

end Bindery.Decimal
