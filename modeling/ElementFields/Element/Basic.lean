import ElementFields.Element.Shape

namespace ElementFields

open Scalar

inductive Element where
  | segment
  | triangle
  | square
  | tetrahedron
  | cube
deriving DecidableEq, Repr

namespace Element

def dim : Element → Nat
  | segment => 1
  | triangle | square => 2
  | tetrahedron | cube => 3

def numNodes : Element → Nat
  | segment => 2
  | triangle => 3
  | square | tetrahedron => 4
  | cube => 8

/-- Whether the element is a simplex with its corner functions. The segment counts as a product. -/
def isSimplex : Element → Bool
  | triangle | tetrahedron => true
  | segment | square | cube => false

/-- The signs of the coordinates of the corners: `true` for plus one. -/
def corners : Element → List (List Bool)
  | segment => [[false], [true]]
  | triangle => [[false, false], [true, false], [false, true]]
  | square => [[false, false], [true, false], [true, true], [false, true]]
  | tetrahedron =>
    [[false, false, false], [true, false, false], [false, true, false], [false, false, true]]
  | cube =>
    [[false, false, false], [true, false, false], [true, true, false], [false, true, false],
      [false, false, true], [true, false, true], [true, true, true], [false, true, true]]

variable {K : Type} [Scalar K]

def nodes (e : Element) : List (Vec K) :=
  e.corners.map fun signs => (signs.map fun plus => if plus then 1 else -1).toArray

def shapeValues (e : Element) (ξ : Vec K) : Checked (Vec K) :=
  if e.isSimplex then simplexValues e.dim ξ else tensorValues e.dim e.nodes ξ

def shapeGradients (e : Element) (ξ : Vec K) : Checked (Mat K) :=
  if e.isSimplex then .ok (simplexGradients e.dim) else tensorGradients e.dim e.nodes ξ

theorem length_corners (e : Element) : e.corners.length = e.numNodes := by
  cases e <;> rfl

end Element

end ElementFields
