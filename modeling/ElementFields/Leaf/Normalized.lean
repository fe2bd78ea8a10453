import ElementFields.Leaf.Basic
import ElementFields.Manifold.Normalization

namespace ElementFields

open Scalar

variable {K : Type} [Scalar K]

structure Interpolant (K : Type) where
  values : Vec K
  gradients : Mat K
  p : Vec K
  /-- The derivatives of `p`, one column for each direction. -/
  slopes : Mat K

namespace Normalization

def interpolate (l : LeafData K) (site : Site K) : Outcome (Vec K × Vec K) := do
  let φ ← l.valuesAt site
  return (φ, ← l.coefficients.matrix.mulVec φ)

def interpolant (l : LeafData K) (site : Site K) : Outcome (Interpolant K) := do
  let (values, p) ← interpolate l site
  let gradients ← l.gradientsIn site
  return { values, gradients, p, slopes := ← l.coefficients.matrix.mul gradients.transpose }

def betweenFrames (bᵢ m bⱼ : Mat K) : Checked (Mat K) := do bᵢ.transposeMul (← m.mul bⱼ)

def mixed (l : LeafData K) (f : Interpolant K) (i k : Nat) : Checked (Mat K) := do
  let pₖ ← f.slopes.columnAt k
  let frame ← l.coefficients.frame i
  -- Along the axis both the interpolant and the weight of the coefficient change.
  let moved := (← (← normalizationSecond f.p pₖ).mul frame).scale (← f.values.component i)
  let turned := (← (normalizationJacobian f.p).mul frame).scale (← f.gradients.entryAt k i)
  moved.add turned

/-- What the curvature of the retraction of coefficient `i` adds to the third derivative along axis
`k`. -/
def curvatureAlong (l : LeafData K) (f : Interpolant K) (i k : Nat) (pₖ along : Vec K) :
    Checked (Mat K) := do
  let projected ← (normalizationJacobian f.p).mulVec along
  let differentiated ← (← normalizationSecond f.p pₖ).mulVec along
  let fixed := (← l.coefficients.weingarten i projected).scale (← f.gradients.entryAt k i)
  fixed.add ((← l.coefficients.weingarten i differentiated).scale (← f.values.component i))

def third (l : LeafData K) (f : Interpolant K) (i j k : Nat) (along : Vec K) : Checked (Mat K) := do
  let pₖ ← f.slopes.columnAt k
  let bᵢ ← l.coefficients.frame i
  let bⱼ ← l.coefficients.frame j
  let φᵢ ← f.values.component i
  let φⱼ ← f.values.component j
  -- The product `φᵢ φⱼ`, differentiated along the axis.
  let weight := (← f.gradients.entryAt k i) * φⱼ + φᵢ * (← f.gradients.entryAt k j)
  let lower := (← betweenFrames bᵢ (← normalizationSecond f.p along) bⱼ).scale weight
  let upper := (← betweenFrames bᵢ (← normalizationThird f.p along pₖ) bⱼ).scale (φᵢ * φⱼ)
  let sum ← lower.add upper
  if i = j then sum.add (← curvatureAlong l f i k pₖ along) else return sum

def value (l : LeafData K) (site : Site K) : Outcome (Vec K) := do
  let (_, p) ← interpolate l site
  return normalized p

def axis (l : LeafData K) (site : Site K) (k : Nat) : Outcome (Vec K) := do
  let f ← interpolant l site
  (normalizationJacobian f.p).mulVec (← f.slopes.columnAt k)

def gradient (l : LeafData K) (site : Site K) : Outcome (Mat K) := do
  let f ← interpolant l site
  (normalizationJacobian f.p).mul f.slopes

/-- The derivative with respect to coefficient `i`: the Jacobian times the frame, times `Nᵢ`. -/
def coefficient (l : LeafData K) (site : Site K) (i : Nat) : Outcome (Mat K) := do
  let (φ, p) ← interpolate l site
  let turned ← (normalizationJacobian p).mul (← l.coefficients.frame i)
  return turned.scale (← φ.component i)

def coefficientAxis (l : LeafData K) (site : Site K) (i k : Nat) : Outcome (Mat K) := do
  mixed l (← interpolant l site) i k

/-- The derivatives with respect to coefficient `i` and along each axis. The coefficient has to
exist even if there is no axis. -/
def coefficientGradient (l : LeafData K) (site : Site K) (i : Nat) : Outcome (List (Mat K)) := do
  let f ← interpolant l site
  let _ ← l.coefficients.frame i
  (List.range f.gradients.rows).mapM fun k => do mixed l f i k

/-- The derivative with respect to coefficients `i` and `j`. A coefficient that is varied twice adds
the curvature of its retraction. -/
def second (l : LeafData K) (site : Site K) (i j : Nat) (along : Mat K) : Outcome (Mat K) := do
  let (φ, p) ← interpolate l site
  let along ← along.singleColumn
  let bᵢ ← l.coefficients.frame i
  let bⱼ ← l.coefficients.frame j
  let φᵢ ← φ.component i
  let φⱼ ← φ.component j
  let result := (← betweenFrames bᵢ (← normalizationSecond p along) bⱼ).scale (φᵢ * φⱼ)
  if i = j then
    let projected ← (normalizationJacobian p).mulVec along
    result.add ((← l.coefficients.weingarten i projected).scale φᵢ)
  else return result

def thirdAxis (l : LeafData K) (site : Site K) (i j k : Nat) (along : Mat K) : Outcome (Mat K) := do
  let f ← interpolant l site
  let along ← along.singleColumn
  third l f i j k along

def thirdGradient (l : LeafData K) (site : Site K) (i j : Nat) (along : Mat K) :
    Outcome (Mat K) := do
  let f ← interpolant l site
  (List.range f.gradients.rows).foldlM (fun sum k => do
    sum.add (← third l f i j k (← along.columnAt k))) (Mat.zero l.correctionSize l.correctionSize)

end Normalization

def Primitives.normalization : Primitives K where
  value := Normalization.value
  axis := Normalization.axis
  gradient := Normalization.gradient
  coefficient := Normalization.coefficient
  coefficientAxis := Normalization.coefficientAxis
  coefficientGradient := Normalization.coefficientGradient
  second := Normalization.second
  thirdAxis := Normalization.thirdAxis
  thirdGradient := Normalization.thirdGradient

def Leaf.normalized (element : Element) (coefficients : Coefficients K) (block : BlockId) :
    Checked (Leaf K) :=
  Leaf.ofPrimitives .normalization .nonlinear element coefficients block

end ElementFields
