import ElementFields.Block

namespace ElementFields

inductive SpatialDirection where
  | single (k : Nat)
  | all
deriving DecidableEq, Repr

structure Coefficient where
  block : BlockId
  index : Nat
deriving DecidableEq, Repr

inductive CoefficientPart where
  | none
  | single (c : Coefficient)
  | two (c₁ c₂ : Coefficient)
deriving DecidableEq, Repr

def CoefficientPart.toList : CoefficientPart → List Coefficient
  | none => []
  | single c => [c]
  | two c₁ c₂ => [c₁, c₂]

structure Directions where
  spatial : Option SpatialDirection := none
  coefficients : CoefficientPart := .none
deriving DecidableEq, Repr

namespace Directions

def value : Directions := {}

def coefficientList (d : Directions) : List Coefficient := d.coefficients.toList

/-- The number of differentiations. All coordinates at once count as one. -/
def derivativeOrder (d : Directions) : Nat :=
  (if d.spatial.isSome then 1 else 0) + d.coefficientList.length

def coefficientOrderIn (d : Directions) (block : BlockId) : Nat :=
  (d.coefficientList.filter fun c => c.block = block).length

/-- The items of the directions as they are written in messages: coefficients first. -/
def items (d : Directions) : List String :=
  d.coefficientList.map (fun c => s!"coeff({c.block.index}, {c.index})") ++
    match d.spatial with
    | none => []
    | some (.single k) => [s!"spatial({k})"]
    | some .all => ["spatial_all"]

instance : ToString Directions where
  toString d := if d = value then "value" else "wrt(" ++ ", ".intercalate d.items ++ ")"

end Directions

end ElementFields
