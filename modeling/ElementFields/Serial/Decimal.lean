/-! Decimal numbers as they are written in JSON. The digits are kept as they are written, so a reader
can tell an integer from a number that merely has an integral value, and zero keeps its sign. -/
namespace ElementFields

structure Decimal where
  negative : Bool
  /-- The digits before the point. -/
  whole : List Nat
  /-- The digits behind the point, if there is one. -/
  fraction : Option (List Nat)
  exponent : Option Int
deriving DecidableEq, Repr

namespace Decimal

def digitValue (c : Char) : Nat := c.toNat - '0'.toNat

def digits? (s : List Char) : Option (List Nat × List Char) :=
  match s.span Char.isDigit with
  | ([], _) => none
  | (digits, rest) => some (digits.map digitValue, rest)

def ofDigits (digits : List Nat) : Nat := digits.foldl (fun n d => 10 * n + d) 0

def sign : List Char → Bool × List Char
  | '-' :: rest => (true, rest)
  | '+' :: rest => (false, rest)
  | s => (false, s)

def fraction? : List Char → Option (Option (List Nat) × List Char)
  | '.' :: rest => (digits? rest).map fun (digits, rest) => (some digits, rest)
  | s => some (none, s)

def exponent? (s : List Char) : Option (Option Int × List Char) :=
  match s with
  | c :: rest =>
    if c = 'e' ∨ c = 'E' then do
      let (negative, rest) := sign rest
      let (digits, rest) ← digits? rest
      let n : Int := ofDigits digits
      some (some (if negative then -n else n), rest)
    else some (none, s)
  | [] => some (none, s)

def read? (s : List Char) : Option (Decimal × List Char) := do
  let (negative, s) := if s.head? = some '-' then (true, s.tail) else (false, s)
  let (whole, s) ← digits? s
  guard (whole.length = 1 ∨ whole.head? ≠ some 0)
  let (fraction, s) ← fraction? s
  let (exponent, s) ← exponent? s
  some ({ negative, whole, fraction, exponent }, s)

def toNat? (d : Decimal) : Option Nat :=
  if d.fraction.isNone ∧ d.exponent.isNone ∧ ¬d.negative then some (ofDigits d.whole) else none

def significandBound : Nat := 18446744073709551616

/-- Appends digits to a significand up to the first one that does not fit. Returns the significand
and how many digits were left over. -/
def appendDigits : Nat → List Nat → Nat × Nat
  | n, [] => (n, 0)
  | n, d :: ds =>
    if 10 * n + d < significandBound then appendDigits (10 * n + d) ds else (n, ds.length + 1)

/-- The significand of a number and the power of ten that goes with it. A whole digit that was left
over raises the power by one, and a fractional digit that was taken lowers it by one. -/
def scaled (d : Decimal) : Nat × Int :=
  let fraction := d.fraction.getD []
  let (n, wholeLeft) := appendDigits 0 d.whole
  let (n, fractionLeft) := appendDigits n fraction
  (n, d.exponent.getD 0 + wholeLeft - (fraction.length - fractionLeft : Nat))

def maxPower : Nat := 308

def tenTo (k : Nat) : Float := Float.ofScientific 1 false k

/-- The number times a power of ten. Beyond the largest power only zero stays finite. -/
def timesPower (x : Float) (k : Nat) : Float :=
  if k ≤ maxPower then x * tenTo k else if x == 0 then 0 else 1.0 / 0.0

/-- The number divided by a power of ten, by the largest one as often as it takes. -/
def dividedByPower (x : Float) (k : Nat) : Float :=
  if k ≤ maxPower then x / tenTo k
  else if x == 0 then 0
  else dividedByPower (x / tenTo maxPower) (k - maxPower)
termination_by k
decreasing_by
  simp only [maxPower] at *
  omega

def magnitude (d : Decimal) : Float :=
  match d.scaled with
  | (n, .ofNat k) => timesPower (Float.ofNat n) k
  | (n, .negSucc k) => dividedByPower (Float.ofNat n) (k + 1)

def toFloat (d : Decimal) : Float := if d.negative then -d.magnitude else d.magnitude

end Decimal

end ElementFields
