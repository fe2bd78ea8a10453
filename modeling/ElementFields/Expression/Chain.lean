import ElementFields.Expression.Operand

namespace ElementFields

open Scalar

namespace Chain

variable {K : Type} [Scalar K]

def value (f : ScalarMap) (a : Operand K) (site : Site K) : Outcome (Mat K) := do
  return .scalar (f.apply (← (← a.value site).entryAt 0 0))

def mixed (t : Taylor K) (a : Operand K) (r : Request K) (c : Coefficient) :
    Outcome (Derivative K) := do
  let aₓ ← a.spatialComponents r
  let ac ← a.wrtCoefficient r c
  let aₓc ← a.mixedComponents r c
  -- The axis falls on the derivative of `f` or on that of the operand.
  let components ← (aₓ.zip aₓc).mapM fun (aₖ, aₖc) => do
    (ac.scale (t.second * (← aₖ.entryAt 0 0))).add (aₖc.scale t.first)
  Derivative.ofComponents r.directions 1 components

def second (t : Taylor K) (a : Operand K) (r : Request K) (c₁ c₂ : Coefficient) :
    Outcome (Derivative K) := do
  let s ← (← r.requireAlong).entryAt 0 0
  let a₁ ← a.wrtCoefficient r c₁
  let a₂ ← a.wrtCoefficient r c₂
  let result := (← a₁.transposeMul a₂).scale (s * t.second)
  return .matrix (← result.add (← a.secondAlong r (.scalar (s * t.first))))

/-- What the directions add up: the products of derivatives, and the number along which the second
derivative is taken. -/
structure Weighted (K : Type) where
  products : Mat K
  along : K

/-- The derivative with respect to two coefficients and the directions of the request. The
contraction argument has one weight for each direction. -/
def third (t : Taylor K) (a : Operand K) (r : Request K) (c₁ c₂ : Coefficient) :
    Outcome (Derivative K) := do
  let weights ← r.requireAlong
  let aₓ ← a.spatialComponents r
  let a₁ ← a.wrtCoefficient r c₁
  let a₂ ← a.wrtCoefficient r c₂
  let aₓ₁ ← a.mixedComponents r c₁
  let aₓ₂ ← a.mixedComponents r c₂
  let a₁₂ ← a₁.transposeMul a₂
  let start : Weighted K := { products := .zero a₁.cols a₂.cols, along := 0 }
  let sums : Weighted K ← weights.flatten.toList.zipIdx.foldlM (fun sums (s, k) => do
    let aₖ ← (← componentAt aₓ k).entryAt 0 0
    let mixedProducts ←
      (← (← componentAt aₓ₁ k).transposeMul a₂).add (← a₁.transposeMul (← componentAt aₓ₂ k))
    let products ← (a₁₂.scale (t.third * aₖ)).add (mixedProducts.scale t.second)
    return {
      products := ← sums.products.add (products.scale s)
      along := sums.along + s * t.second * aₖ }) start
  -- The second and the third derivative of the operand enter through the lower derivatives of `f`.
  let result ← sums.products.add (← a.secondAlong r (.scalar sums.along))
  return .matrix (← result.add (← a.thirdAlong r (weights.scale t.first)))

def derivative (f : ScalarMap) (a : Operand K) (r : Request K) : Outcome (Derivative K) := do
  let v ← (← a.value r.site).entryAt 0 0
  let t := f.derivatives v
  match r.directions.spatial, r.directions.coefficients with
  | none, .none => return .matrix (.scalar (f.apply v))
  | some _, .none | none, .single _ => return (← a.derivative r).scale t.first
  | some _, .single c => mixed t a r c
  | none, .two c₁ c₂ => second t a r c₁ c₂
  | some _, .two c₁ c₂ => third t a r c₁ c₂

end Chain

end ElementFields
