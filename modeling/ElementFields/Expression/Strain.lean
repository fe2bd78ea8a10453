import ElementFields.Expression.Operand

/-! Green-Lagrange strains in Voigt notation. With the reference tangents `Aᵢ`, the derivatives `uᵢ` of
the displacement and `aᵢ = Aᵢ + uᵢ`, the components are `½ (aᵢ·aᵢ - Aᵢ·Aᵢ)` and `aᵢ·aⱼ - Aᵢ·Aⱼ`, both
written out in `u`. -/
namespace ElementFields

open Scalar

namespace Strain

variable {K : Type} [Scalar K]

def operation : String := "Green-Lagrange strain"

/-- The pairs of axes of the shear components, in the order of the components. -/
def shearPairs (dim : Nat) : List (Nat × Nat) :=
  match dim with
  | 2 => [(0, 1)]
  | 3 => [(1, 2), (0, 2), (0, 1)]
  | _ => []

def displacementGradient (u : Operand K) (r : Request K) : Outcome (Mat K) :=
  u.derivativeMatrix (r.derived (some .all) .none)

def variation (u : Operand K) (r : Request K) (c : Coefficient) : Outcome (List (Mat K)) := do
  return (← u.derivative (r.derived (some .all) (.single c))).toComponents

def width (ms : List (Mat K)) : Nat := (ms.head?.map Mat.cols).getD 0

def diagonal (reference gradient : Mat K) (i : Nat) : Checked K := do
  let uᵢ ← gradient.columnAt i
  return (← (← reference.columnAt i).dot uᵢ) + 1 / (2 : Nat) * uᵢ.inner uᵢ

def shear (reference gradient : Mat K) (i j : Nat) : Checked K := do
  let uᵢ ← gradient.columnAt i
  let uⱼ ← gradient.columnAt j
  return (← (← reference.columnAt i).dot uⱼ) + (← uᵢ.dot (← reference.columnAt j)) + (← uᵢ.dot uⱼ)

def value (dim : Nat) (reference : Site K → Outcome (Mat K)) (u : Operand K) (site : Site K) :
    Outcome (Mat K) := do
  let A ← reference site
  let gradient ← displacementGradient u { site, directions := .value }
  let diagonals ← (List.range dim).mapM fun i => do diagonal A gradient i
  let shears ← (shearPairs dim).mapM fun (i, j) => do shear A gradient i j
  return .column (diagonals ++ shears).toArray

def tangentRow (tangents : Mat K) (i : Nat) (m : Mat K) : Checked (Mat K) := do
  (Mat.column (← tangents.columnAt i)).transposeMul m

def coefficient (dim : Nat) (reference : Site K → Outcome (Mat K)) (u : Operand K) (r : Request K)
    (c : Coefficient) : Outcome (Derivative K) := do
  let A ← reference r.site
  let tangents ← A.add (← displacementGradient u r)
  let δ ← variation u r c
  let diagonals ← (List.range dim).mapM fun i => do tangentRow tangents i (← componentAt δ i)
  let shears ← (shearPairs dim).mapM fun (i, j) => do
    (← tangentRow tangents j (← componentAt δ i)).add (← tangentRow tangents i (← componentAt δ j))
  return .matrix (← Mat.ofRows (width δ) (diagonals ++ shears))

/-- The derivative of the strains with respect to two coefficients, contracted with a stress. The
displacement is linear in its coefficients, so only products of first variations remain. -/
def second (dim : Nat) (u : Operand K) (r : Request K) (c₁ c₂ : Coefficient) :
    Outcome (Derivative K) := do
  let stress ← r.requireAlong
  let δ ← variation u r c₁
  let ε ← variation u r c₂
  let diagonals ← (List.range dim).foldlM (fun sum i => do
    let product ← (← componentAt δ i).transposeMul (← componentAt ε i)
    sum.add (product.scale (← stress.flatten.component i))) (Mat.zero (width δ) (width ε))
  -- A shear component pairs the axes in both orders.
  let all ← (shearPairs dim).zipIdx.foldlM (fun sum ((i, j), m) => do
    let product ← (← componentAt δ i).transposeMul (← componentAt ε j)
    let swapped ← (← componentAt δ j).transposeMul (← componentAt ε i)
    sum.add ((← product.add swapped).scale (← stress.flatten.component (dim + m)))) diagonals
  return .matrix all

def derivative (dim : Nat) (reference : Site K → Outcome (Mat K)) (u : Operand K) (r : Request K) :
    Outcome (Derivative K) :=
  match r.directions.spatial, r.directions.coefficients with
  | none, .none => do return .matrix (← value dim reference u r.site)
  | none, .single c => coefficient dim reference u r c
  | none, .two c₁ c₂ => second dim u r c₁ c₂
  | some _, _ => .refuse (.notImplemented operation r.directions)

end Strain

end ElementFields
