import ElementFields.Scalar

/-! Symmetric sets of points on a simplex, of which the rules are made that stand for those of
`fenris-quadrature`. An orbit is given by the values that occur among its barycentric coordinates and
how often. -/
namespace ElementFields

/-- The lists of length `n` in which every value occurs at most as often as its count says. With
counts that add up to `n` these are the orders of the values. -/
def arrangements {α : Type} : Nat → List (α × Nat) → List (List α)
  | 0, _ => [[]]
  | n + 1, counts =>
    (List.range counts.length).flatMap fun i =>
      match counts[i]? with
      | some (a, k + 1) => (arrangements n (counts.set i (a, k))).map (a :: ·)
      | _ => []

/-- An orbit of points with one weight. The values listed are those of the barycentric coordinates
and how often they occur; the coordinates that remain are equal and make the sum one. -/
structure Orbit where
  weight : Float
  values : List (Float × Nat)

namespace Orbit

def completed (o : Orbit) (vertices : Nat) : List (Float × Nat) :=
  let count := vertices - o.values.foldl (fun total (_, k) => total + k) 0
  let sum := o.values.foldl (fun sum (a, k) => sum + Float.ofNat k * a) 0
  o.values ++ [((1 - sum) / Float.ofNat count, count)]

/-- The point with the given barycentric coordinates on the simplex whose first vertex has all
coordinates minus one and whose other vertices are moved from there by two along one axis. -/
def place (barycentric : List Float) : List Float := barycentric.tail.map fun l => 2 * l - 1

def points (dim : Nat) (o : Orbit) : List (Float × List Float) :=
  (arrangements (dim + 1) (o.completed (dim + 1))).map fun l => (o.weight, place l)

end Orbit

example : arrangements 2 [(true, 1), (false, 1)] = [[true, false], [false, true]] ∧
    arrangements 2 [(true, 2)] = [[true, true]] := by decide

end ElementFields
