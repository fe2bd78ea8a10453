import ElementFields.Quadrature.Rule

/-! Gauss-Legendre rules on the segment and their products, written out to stand for those of
`fenris-quadrature`, the library that the elements take their rules from. The points are found by
Newton's method, in descending order; in a product the first coordinate varies slowest. -/
namespace ElementFields

namespace Legendre

/-- The three-term recurrence at `x`, from the values `p` and `q` of the Legendre polynomials of
degree `k` and `k - 1` up by the given number of degrees. -/
def advance (x k p q : Float) : Nat → Float × Float
  | 0 => (p, q)
  | n + 1 => advance x (k + 1.0) (((2.0 * k + 1.0) * x * p - k * q) / (k + 1.0)) p n

def valueSlope (n : Nat) (x : Float) : Float × Float :=
  let (p, q) := advance x 0.0 1.0 0.0 n
  (p, Float.ofNat n * (x * p - q) / (x * x - 1.0))

def improve (n : Nat) (x : Float) : Float :=
  let (p, slope) := valueSlope n x
  x - p / slope

/-- The number of Newton steps: each one doubles the digits of the starting value. -/
def steps : Nat := 6

def root (n i : Nat) : Float :=
  let start := Float.cos (3.141592653589793 * (Float.ofNat i + 0.75) / (Float.ofNat n + 0.5))
  (List.range steps).foldl (fun x _ => improve n x) start

def weight (n : Nat) (x : Float) : Float :=
  let (_, slope) := valueSlope n x
  2.0 / ((1.0 - x * x) * (slope * slope))

def nodes (n : Nat) : List (Float × Float) :=
  (List.range n).map fun i =>
    let x := root n i
    (weight n x, x)

end Legendre

namespace QuadratureRule

def timesSegment (segment : List (Float × Float)) (l : List (Float × List Float)) :
    List (Float × List Float) :=
  segment.flatMap fun (w, x) => l.map fun (v, p) => (w * v, x :: p)

def gaussProduct (dim n : Nat) : Except QuadratureError (QuadratureRule Float) :=
  if n = 0 then .error .noRuleAvailable
  else
    let segment := Legendre.nodes n
    .ok (ofWeighted ((List.range dim).foldl (fun l _ => timesSegment segment l) [(1.0, [])]))

/-- The rule with `n` points on the segment, exact up to degree `2 n - 1`. -/
def gauss : Nat → Except QuadratureError (QuadratureRule Float) := gaussProduct 1

def squareGauss : Nat → Except QuadratureError (QuadratureRule Float) := gaussProduct 2

def cubeGauss : Nat → Except QuadratureError (QuadratureRule Float) := gaussProduct 3

end QuadratureRule

end ElementFields
