import ElementFields.Expression.Derivative
import ElementFields.Expression.Tree

namespace ElementFields

/-- What a node sees of an operand: a value at every site and a derivative for every request. -/
structure Operand (K : Type) where
  value : Site K → Outcome (Mat K)
  derivative : Request K → Outcome (Derivative K)

namespace Operand

variable {K : Type} [Scalar K]

def derivativeMatrix (o : Operand K) (r : Request K) : Outcome (Mat K) := do
  (← o.derivative r).toMatrix

def spatialComponents (o : Operand K) (r : Request K) : Outcome (List (Mat K)) := do
  return (← o.derivativeMatrix r.spatialPart).splitColumns

def wrtCoefficient (o : Operand K) (r : Request K) (c : Coefficient) : Outcome (Mat K) :=
  o.derivativeMatrix (r.coefficientPart c)

def mixedComponents (o : Operand K) (r : Request K) (c : Coefficient) : Outcome (List (Mat K)) := do
  return (← o.derivative (r.mixedPart c)).toComponents

def secondAlong (o : Operand K) (r : Request K) (along : Mat K) : Outcome (Mat K) :=
  o.derivativeMatrix (r.withoutSpatialAlong (some along))

def thirdAlong (o : Operand K) (r : Request K) (along : Mat K) : Outcome (Mat K) :=
  o.derivativeMatrix (r.withAlong (some along))

end Operand

def componentAt {K : Type} (ms : List (Mat K)) (k : Nat) : Checked (Mat K) :=
  match ms[k]? with
  | some m => .ok m
  | none => .error .misfit

end ElementFields
