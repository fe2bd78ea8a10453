import ElementFields.Linear.Mat
import ElementFields.Request.Directions

namespace ElementFields

inductive Transform where
  /-- Derivatives with respect to the coordinates of the reference element. -/
  | referenceElement
  /-- Derivatives with respect to world coordinates. -/
  | gridElement
deriving DecidableEq, Repr

inductive EvaluationPoint (K : Type) where
  /-- The point with this index in the bound quadrature rule. -/
  | integrationPoint (index : Nat)
  /-- A position in reference coordinates. -/
  | position (coords : Vec K)

structure Site (K : Type) where
  point : EvaluationPoint K
  transform : Transform

structure Request (K : Type) where
  site : Site K
  directions : Directions
  /-- What the result is contracted with, over the value index, if two coefficients are named. -/
  along : Option (Mat K) := none

namespace Request

variable {K : Type}

def derived (r : Request K) (spatial : Option SpatialDirection) (coefficients : CoefficientPart)
    (along : Option (Mat K) := none) : Request K where
  site := r.site
  directions := { spatial, coefficients }
  along := along

def valuePart (r : Request K) : Request K := r.derived none .none

def spatialPart (r : Request K) : Request K := r.derived r.directions.spatial .none

def coefficientPart (r : Request K) (c : Coefficient) : Request K := r.derived none (.single c)

def mixedPart (r : Request K) (c : Coefficient) : Request K :=
  r.derived r.directions.spatial (.single c)

def withoutSpatialAlong (r : Request K) (along : Option (Mat K)) : Request K :=
  r.derived none r.directions.coefficients along

def withAlong (r : Request K) (along : Option (Mat K)) : Request K :=
  r.derived r.directions.spatial r.directions.coefficients along

end Request

end ElementFields
