import ElementFields.Element.Cached
import ElementFields.Manifold.Coefficients
import ElementFields.PolynomialOrder

namespace ElementFields

structure LeafData (K : Type) where
  block : BlockId
  shapes : CachedShapes K
  coefficients : Coefficients K
  geometry : Option (Geometry K) := none

namespace LeafData

variable {K : Type}

def valueSize (l : LeafData K) : Nat := l.coefficients.valueSize

def correctionSize (l : LeafData K) : Nat := l.coefficients.correctionSize

def gridDim (l : LeafData K) : Nat := l.shapes.dim

def numCoefficients (l : LeafData K) : Nat := l.coefficients.size

variable [Scalar K]

def valuesAt (l : LeafData K) (site : Site K) : Outcome (Vec K) := l.shapes.valuesAt site.point

def gradientsIn (l : LeafData K) (site : Site K) : Outcome (Mat K) :=
  l.shapes.gradientsIn l.geometry site

end LeafData

/-- The value of a leaf and its derivatives: along one coordinate axis or all of them, with respect
to no, one or two coefficients. A derivative with respect to two coefficients is contracted with a
matrix. -/
structure Primitives (K : Type) where
  value : LeafData K → Site K → Outcome (Vec K)
  axis (l : LeafData K) (site : Site K) (k : Nat) : Outcome (Vec K)
  gradient : LeafData K → Site K → Outcome (Mat K)
  coefficient (l : LeafData K) (site : Site K) (i : Nat) : Outcome (Mat K)
  coefficientAxis (l : LeafData K) (site : Site K) (i k : Nat) : Outcome (Mat K)
  coefficientGradient (l : LeafData K) (site : Site K) (i : Nat) : Outcome (List (Mat K))
  second (l : LeafData K) (site : Site K) (i j : Nat) (along : Mat K) : Outcome (Mat K)
  thirdAxis (l : LeafData K) (site : Site K) (i j k : Nat) (along : Mat K) : Outcome (Mat K)
  thirdGradient (l : LeafData K) (site : Site K) (i j : Nat) (along : Mat K) : Outcome (Mat K)

def Primitives.vanishing {K : Type} [Scalar K] (value : LeafData K → Site K → Outcome (Vec K)) :
    Primitives K where
  value := value
  axis l _ _ := .ok (.zero l.valueSize)
  gradient l _ := .ok (.zero l.valueSize l.gridDim)
  coefficient l _ _ := .ok (.zero l.valueSize l.correctionSize)
  coefficientAxis l _ _ _ := .ok (.zero l.valueSize l.correctionSize)
  coefficientGradient l _ _ :=
    .ok (List.replicate l.gridDim (.zero l.valueSize l.correctionSize))
  second l _ _ _ _ := .ok (.zero l.correctionSize l.correctionSize)
  thirdAxis l _ _ _ _ _ := .ok (.zero l.correctionSize l.correctionSize)
  thirdGradient l _ _ _ _ := .ok (.zero l.correctionSize l.correctionSize)

structure Leaf (K : Type) extends LeafData K where
  order : PolynomialOrder
  primitives : Primitives K

namespace Leaf

variable {K : Type}

def withGeometry (l : Leaf K) (geometry : Geometry K) : Leaf K :=
  { l with geometry := some geometry }

def withShapes (l : Leaf K) (shapes : CachedShapes K) : Leaf K := { l with shapes }

def withCoefficients (l : Leaf K) (coefficients : Coefficients K) : Leaf K :=
  { l with coefficients }

variable [Scalar K]

def ofPrimitives (primitives : Primitives K) (order : PolynomialOrder) (element : Element)
    (coefficients : Coefficients K) (block : BlockId) : Checked (Leaf K) :=
  .require (coefficients.size = element.numNodes) .nodeCoefficients
    { block, shapes := .unbound element, coefficients, order, primitives }

def bind (l : Leaf K) (rule : QuadratureRule K) (orders : List Nat) : Leaf K × Outcome Unit :=
  let (shapes, result) := l.shapes.bind rule orders
  (l.withShapes shapes, result)

def update (l : Leaf K) (d : Vec K) : Checked (Leaf K) := do
  return l.withCoefficients (← l.coefficients.update d)

def addInEmbedding (l : Leaf K) (d : Vec K) : Checked (Leaf K) := do
  return l.withCoefficients (← l.coefficients.addInEmbedding d)

def reporting (l : Leaf K) (order : PolynomialOrder) : Leaf K := { l with order }

def withoutDerivatives (l : Leaf K) : Leaf K :=
  { l with primitives := .vanishing l.primitives.value }

end Leaf

end ElementFields
