import ElementFields.Expression.Operand

namespace ElementFields

open Scalar

namespace Product

variable {K : Type} [Scalar K]

def crossSum (x m y n : Mat K) : Checked (Mat K) := do
  (← x.transposeMul m).add (← y.transposeMul n)

def addProduct (sum x m : Mat K) : Checked (Mat K) := do sum.add (← x.transposeMul m)

def value (a b : Operand K) (site : Site K) : Outcome (Mat K) := do
  let va ← a.value site
  let vb ← b.value site
  return .scalar (← va.dot vb)

def spatial (a b : Operand K) (r : Request K) (va vb : Mat K) : Outcome (Derivative K) := do
  let aₓ ← a.spatialComponents r
  let bₓ ← b.spatialComponents r
  let components ← (aₓ.zip bₓ).mapM fun (aₖ, bₖ) => do
    return Mat.scalar ((← aₖ.dot vb) + (← va.dot bₖ))
  Derivative.ofComponents r.directions 1 components

def coefficient (a b : Operand K) (r : Request K) (va vb : Mat K) (c : Coefficient) :
    Outcome (Derivative K) := do
  let ac ← a.wrtCoefficient r c
  let bc ← b.wrtCoefficient r c
  return .matrix (← crossSum vb ac va bc)

def mixed (a b : Operand K) (r : Request K) (va vb : Mat K) (c : Coefficient) :
    Outcome (Derivative K) := do
  let aₓ ← a.spatialComponents r
  let bₓ ← b.spatialComponents r
  let ac ← a.wrtCoefficient r c
  let bc ← b.wrtCoefficient r c
  let aₓc ← a.mixedComponents r c
  let bₓc ← b.mixedComponents r c
  -- Each of the two derivatives falls on either factor.
  let components ← ((aₓ.zip bₓ).zip (aₓc.zip bₓc)).mapM fun ((aₖ, bₖ), (aₖc, bₖc)) => do
    let sum ← crossSum bₖ ac vb aₖc
    addProduct (← addProduct sum aₖ bc) va bₖc
  Derivative.ofComponents r.directions 1 components

def second (a b : Operand K) (r : Request K) (va vb : Mat K) (c₁ c₂ : Coefficient) :
    Outcome (Derivative K) := do
  let s ← (← r.requireAlong).entryAt 0 0
  let a₁ ← a.wrtCoefficient r c₁
  let a₂ ← a.wrtCoefficient r c₂
  let b₁ ← b.wrtCoefficient r c₁
  let b₂ ← b.wrtCoefficient r c₂
  let result := (← crossSum a₁ b₂ b₁ a₂).scale s
  -- Either factor takes both derivatives, contracted with the other factor.
  let result ← result.add (← a.secondAlong r (vb.scale s))
  return .matrix (← result.add (← b.secondAlong r (va.scale s)))

/-- What the directions add up of first and mixed derivatives: the products of a first with a mixed
derivative, and the arguments along which the second derivatives of `a` and of `b` are taken. -/
structure Weighted (K : Type) where
  products : Mat K
  alongA : Mat K
  alongB : Mat K

/-- The derivative of the product with respect to two coefficients and the directions of the
request. The contraction argument has one weight for each direction. -/
def third (a b : Operand K) (r : Request K) (va vb : Mat K) (c₁ c₂ : Coefficient) :
    Outcome (Derivative K) := do
  let weights ← r.requireAlong
  let aₓ ← a.spatialComponents r
  let bₓ ← b.spatialComponents r
  let a₁ ← a.wrtCoefficient r c₁
  let a₂ ← a.wrtCoefficient r c₂
  let b₁ ← b.wrtCoefficient r c₁
  let b₂ ← b.wrtCoefficient r c₂
  let aₓ₁ ← a.mixedComponents r c₁
  let aₓ₂ ← a.mixedComponents r c₂
  let bₓ₁ ← b.mixedComponents r c₁
  let bₓ₂ ← b.mixedComponents r c₂
  -- In each direction, a first derivative of one operand meets a mixed derivative of the other.
  let start : Weighted K :=
    { products := .zero a₁.cols a₂.cols, alongA := .zero va.rows 1, alongB := .zero vb.rows 1 }
  let sums : Weighted K ← weights.flatten.toList.zipIdx.foldlM (fun sums (s, k) => do
    let sum ← crossSum (← componentAt aₓ₁ k) b₂ a₁ (← componentAt bₓ₂ k)
    let sum ← addProduct sum (← componentAt bₓ₁ k) a₂
    let sum ← addProduct sum b₁ (← componentAt aₓ₂ k)
    return {
      products := ← sums.products.add (sum.scale s)
      alongA := ← sums.alongA.add ((← componentAt bₓ k).scale s)
      alongB := ← sums.alongB.add ((← componentAt aₓ k).scale s) }) start
  -- One operand is differentiated twice and the other one along the direction.
  let result ← sums.products.add (← a.secondAlong r sums.alongA)
  let result ← result.add (← b.secondAlong r sums.alongB)
  -- One operand takes all three derivatives.
  let result ← result.add (← a.thirdAlong r (← vb.mul weights))
  return .matrix (← result.add (← b.thirdAlong r (← va.mul weights)))

def derivative (a b : Operand K) (r : Request K) : Outcome (Derivative K) := do
  let va ← a.value r.site
  let vb ← b.value r.site
  match r.directions.spatial, r.directions.coefficients with
  | none, .none => return .matrix (.scalar (← va.dot vb))
  | some _, .none => spatial a b r va vb
  | none, .single c => coefficient a b r va vb c
  | some _, .single c => mixed a b r va vb c
  | none, .two c₁ c₂ => second a b r va vb c₁ c₂
  | some _, .two c₁ c₂ => third a b r va vb c₁ c₂

end Product

end ElementFields
