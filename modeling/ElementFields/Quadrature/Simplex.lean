import ElementFields.Quadrature.Rule
import ElementFields.Quadrature.TetrahedronTable
import ElementFields.Quadrature.TriangleTable

/-! Rules on the triangle and the tetrahedron by their strength, written out to stand for those of
`fenris-quadrature`: a rule of strength `s` integrates every polynomial of degree `s` exactly. -/
namespace ElementFields

namespace QuadratureRule

def ofOrbits (dim : Nat) (orbits : Option (List Orbit)) :
    Except QuadratureError (QuadratureRule Float) :=
  match orbits with
  | some orbits => .ok (ofWeighted (orbits.flatMap (Orbit.points dim)))
  | none => .error .noRuleAvailable

def triangle (strength : Nat) : Except QuadratureError (QuadratureRule Float) :=
  ofOrbits 2 (triangleOrbits strength)

def tetrahedron (strength : Nat) : Except QuadratureError (QuadratureRule Float) :=
  ofOrbits 3 (tetrahedronOrbits strength)

end QuadratureRule

end ElementFields
