import ElementFields.Leaf.Basic

namespace ElementFields

open Scalar

variable {K : Type} [Scalar K]

/-- The combination of the coefficients with the first `n` weights, as far as there are both. -/
def Coefficients.combine (c : Coefficients K) (n : Nat) (weights : Nat → K) : Vec K :=
  .ofFn c.valueSize fun d => sumTo (min n c.size) fun i => weights i * c.entry d i

namespace Interpolation

/-- The derivatives with respect to coefficients `i` and `j` are zero without further ado: the
coefficients differ, or their space is flat. -/
def Flat (l : LeafData K) (i j : Nat) : Prop := i ≠ j ∨ l.coefficients.manifold.isEuclidean = true

instance (l : LeafData K) (i j : Nat) : Decidable (Flat l i j) :=
  inferInstanceAs (Decidable (_ ∨ _))

def noCurvature (l : LeafData K) : Mat K := .zero l.correctionSize l.correctionSize

def value (l : LeafData K) (site : Site K) : Outcome (Vec K) := do
  let φ ← l.valuesAt site
  return l.coefficients.combine φ.size φ.entry

def axis (l : LeafData K) (site : Site K) (k : Nat) : Outcome (Vec K) := do
  let g ← l.gradientsIn site
  if k < g.rows then return l.coefficients.combine g.cols (g.entry k) else .error (.broken .misfit)

def gradient (l : LeafData K) (site : Site K) : Outcome (Mat K) := do
  let g ← l.gradientsIn site
  l.coefficients.matrix.mul g.transpose

/-- The derivative with respect to coefficient `i`: its frame times `Nᵢ`. -/
def coefficient (l : LeafData K) (site : Site K) (i : Nat) : Outcome (Mat K) := do
  let φ ← l.valuesAt site
  let frame ← l.coefficients.frame i
  return frame.scale (← φ.component i)

def coefficientAxis (l : LeafData K) (site : Site K) (i k : Nat) : Outcome (Mat K) := do
  let g ← l.gradientsIn site
  let frame ← l.coefficients.frame i
  return frame.scale (← g.entryAt k i)

def coefficientGradient (l : LeafData K) (site : Site K) (i : Nat) : Outcome (List (Mat K)) := do
  let g ← l.gradientsIn site
  let frame ← l.coefficients.frame i
  (List.range g.rows).mapM fun k => do return frame.scale (← g.entryAt k i)

/-- The derivative with respect to coefficients `i` and `j`: the curvature at `xᵢ` times `Nᵢ`, if
the two are the same. -/
def second (l : LeafData K) (site : Site K) (i j : Nat) (along : Mat K) : Outcome (Mat K) :=
  if Flat l i j then return noCurvature l
  else do
    let φ ← l.valuesAt site
    let curvature ← l.coefficients.weingarten i along.flatten
    return curvature.scale (← φ.component i)

def thirdAxis (l : LeafData K) (site : Site K) (i j k : Nat) (along : Mat K) : Outcome (Mat K) :=
  if Flat l i j then return noCurvature l
  else do
    let g ← l.gradientsIn site
    let curvature ← l.coefficients.weingarten i along.flatten
    return curvature.scale (← g.entryAt k i)

/-- The second derivative differentiated along every axis, each contracted with its column. -/
def thirdGradient (l : LeafData K) (site : Site K) (i j : Nat) (along : Mat K) : Outcome (Mat K) :=
  if Flat l i j then return noCurvature l
  else do
    let g ← l.gradientsIn site
    (List.range along.cols).foldlM (fun sum k => do
      let curvature ← l.coefficients.weingarten i (along.columnVec k)
      sum.add (curvature.scale (← g.entryAt k i))) (noCurvature l)

end Interpolation

def Primitives.interpolation : Primitives K where
  value := Interpolation.value
  axis := Interpolation.axis
  gradient := Interpolation.gradient
  coefficient := Interpolation.coefficient
  coefficientAxis := Interpolation.coefficientAxis
  coefficientGradient := Interpolation.coefficientGradient
  second := Interpolation.second
  thirdAxis := Interpolation.thirdAxis
  thirdGradient := Interpolation.thirdGradient

def Leaf.interpolated (element : Element) (coefficients : Coefficients K) (block : BlockId) :
    Checked (Leaf K) :=
  Leaf.ofPrimitives .interpolation
    (if coefficients.manifold.isEuclidean then .linear else .nonlinear) element coefficients block

end ElementFields
