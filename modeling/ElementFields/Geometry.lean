import ElementFields.Element.Basic

namespace ElementFields

structure Geometry (K : Type) where
  element : Element
  /-- The world positions of the nodes, as columns. -/
  vertices : Mat K

namespace Geometry

variable {K : Type} [Scalar K]

def ofVertexMatrix (element : Element) (vertices : Mat K) : Checked (Geometry K) :=
  .require (vertices.cols = element.numNodes) .nodeColumns { element, vertices }

/-- The element with the given vertices, one for each node. The first one fixes the dimension of
the world. -/
def ofVertices (element : Element) (vertices : List (Vec K)) : Checked (Geometry K) :=
  let worldDim := (vertices.headD #[]).size
  .require (vertices.length = element.numNodes) .nodeVertices
    { element, vertices := .ofFn worldDim vertices.length fun i j => (vertices.getD j #[]).entry i }

def referenceDim (g : Geometry K) : Nat := g.element.dim

def worldDim (g : Geometry K) : Nat := g.vertices.rows

def position (g : Geometry K) (ξ : Vec K) : Checked (Vec K) := do
  g.vertices.mulVec (← g.element.shapeValues ξ)

/-- The transposed Jacobian at `ξ`: row `i` holds the derivative of the world position along
reference coordinate `i`. -/
def jacobianTransposed (g : Geometry K) (ξ : Vec K) : Checked (Mat K) := do
  (← g.element.shapeGradients ξ).mul g.vertices.transpose

end Geometry

end ElementFields
