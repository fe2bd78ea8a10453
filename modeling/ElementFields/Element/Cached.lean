import ElementFields.Element.Basic
import ElementFields.Failure
import ElementFields.Geometry
import ElementFields.Linear.Inverse
import ElementFields.Quadrature.Rule
import ElementFields.Request.Basic

/-! Shape functions bound to a quadrature rule. Binding replaces the cached values before the cached
gradients, and the rule last; it may stop in between, when a point does not fit the element. -/
namespace ElementFields

structure IntegrationPoint (K : Type) where
  index : Nat
  position : Vec K
  weight : K

structure CachedShapes (K : Type) where
  element : Element
  rule : Option (QuadratureRule K) := none
  /-- The derivative orders that were asked for, zero before one. -/
  orders : List Nat := []
  values : List (Vec K) := []
  gradients : List (Mat K) := []

namespace CachedShapes

variable {K : Type}

def unbound (element : Element) : CachedShapes K := { element }

def numNodes (s : CachedShapes K) : Nat := s.element.numNodes

def dim (s : CachedShapes K) : Nat := s.element.dim

def isBound (s : CachedShapes K) : Bool := s.rule.isSome

def integrationPoints (s : CachedShapes K) : Outcome (List (IntegrationPoint K)) := do
  let rule ← .ofOption .basisNotBound s.rule
  return rule.toList.zipIdx.map fun ((weight, position), index) => { index, position, weight }

def cacheable (orders : List Nat) : List Nat := [0, 1].filter (orders.contains ·)

def unsupported? (orders : List Nat) : Option Nat := (orders.filter (1 < ·)).min?

variable [Scalar K]

def isBoundLike (s t : CachedShapes K) : Bool := s.rule == t.rule && s.orders == t.orders

def cachedValues (element : Element) (rule : QuadratureRule K) (orders : List Nat) :
    Checked (List (Vec K)) :=
  if orders.contains 0 then rule.points.mapM element.shapeValues else .ok []

def cachedGradients (element : Element) (rule : QuadratureRule K) (orders : List Nat) :
    Checked (List (Mat K)) :=
  if orders.contains 1 then rule.points.mapM element.shapeGradients else .ok []

/-- Binds a rule and caches the given derivative orders at its points. Returns the state reached and
whether the binding succeeded. -/
def bind (s : CachedShapes K) (rule : QuadratureRule K) (orders : List Nat) :
    CachedShapes K × Outcome Unit :=
  match unsupported? orders with
  | some order => (s, .refuse (.unsupportedBasisOrder order))
  | none =>
    if rule.isEmpty = false ∧ rule.dim ≠ s.dim then
      (s, .refuse (.positionDimensionMismatch s.dim rule.dim))
    else
      -- From here on the state changes step by step, in this order.
      match cachedValues s.element rule orders with
      | .error v => (s, .error (.broken v))
      | .ok values =>
        match cachedGradients s.element rule orders with
        | .error v => ({ s with values }, .error (.broken v))
        | .ok gradients =>
          ({ s with rule := some rule, orders := cacheable orders, values, gradients }, .ok ())

def checkIndex (s : CachedShapes K) (index order : Nat) : Outcome Unit := do
  let rule ← .ofOption .basisNotBound s.rule
  -- The bound is the number of weights, also for a rule with another number of points.
  if rule.size ≤ index then .refuse (.integrationPointOutOfRange index rule.size)
  else if s.orders.contains order then return ()
  else .refuse (.missingBasisOrder order)

def checkPosition (s : CachedShapes K) (ξ : Vec K) : Outcome (Vec K) :=
  if ξ.size = s.dim then .ok ξ else .refuse (.positionDimensionMismatch s.dim ξ.size)

def lookUp {α : Type} (l : List α) (index : Nat) : Outcome α :=
  match l[index]? with
  | some a => .ok a
  | none => .error (.broken .misfit)

def position (s : CachedShapes K) : EvaluationPoint K → Outcome (Vec K)
  | .integrationPoint index => do
    let rule ← .ofOption .basisNotBound s.rule
    .ofOption (.integrationPointOutOfRange index rule.size) rule.points[index]?
  | .position ξ => s.checkPosition ξ

def valuesAt (s : CachedShapes K) : EvaluationPoint K → Outcome (Vec K)
  | .integrationPoint index => do
    s.checkIndex index 0
    lookUp s.values index
  | .position ξ => do s.element.shapeValues (← s.checkPosition ξ)

def gradientsAt (s : CachedShapes K) : EvaluationPoint K → Outcome (Mat K)
  | .integrationPoint index => do
    s.checkIndex index 1
    lookUp s.gradients index
  | .position ξ => do s.element.shapeGradients (← s.checkPosition ξ)

/-- The gradients at a site, expressed in its frame. World gradients are the reference gradients
times the inverse of the transposed Jacobian. -/
def gradientsIn (s : CachedShapes K) (geometry : Option (Geometry K)) (site : Site K) :
    Outcome (Mat K) := do
  let gradients ← s.gradientsAt site.point
  match site.transform with
  | .referenceElement => return gradients
  | .gridElement =>
    let geometry ← .ofOption .missingGeometry geometry
    let ξ ← s.position site.point
    let jacobian ← geometry.jacobianTransposed ξ
    if jacobian.rows = jacobian.cols then
      let inverse ← .ofOption .singularJacobian jacobian.inverse?
      inverse.mul gradients
    else .refuse (.nonSquareJacobian jacobian.rows jacobian.cols)

end CachedShapes

end ElementFields
