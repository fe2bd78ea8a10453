import ElementFields.Linear.Mat

namespace ElementFields

open Scalar

/-- A space of coefficients, embedded in the Euclidean space of the given dimension. -/
inductive Manifold where
  | euclidean (dim : Nat)
  | sphere (dim : Nat)
deriving DecidableEq, Repr

namespace Manifold

def valueSize : Manifold → Nat
  | euclidean dim | sphere dim => dim

def correctionSize : Manifold → Nat
  | euclidean dim => dim
  | sphere dim => dim - 1

def isEuclidean : Manifold → Bool
  | euclidean _ => true
  | sphere _ => false

structure Point (M : Manifold) (K : Type) where
  coords : Vec K
  size_coords : coords.size = M.valueSize

variable {M : Manifold} {K : Type}

def Point.ofFn (f : Nat → K) : M.Point K := ⟨Vec.ofFn M.valueSize f, Vec.size_ofFn _ f⟩

variable [Scalar K]

/-- The direction with equal components, which stands in for a vector without direction. -/
def diagonal (M : Manifold) : M.Point K := .ofFn fun _ => 1 / sqrt ((M.valueSize : Nat) : K)

/-- The direction of `v`, unless its length is zero or not finite. -/
def direction? (M : Manifold) (v : Vec K) : Option (M.Point K) :=
  let r := v.norm
  if isLength r then some (.ofFn fun i => v.entry i / r) else none

def Point.last (x : M.Point K) : Nat := x.coords.size - 1

/-- The stereographic coordinates of a point of the sphere, seen from the pole farther away. -/
def Point.stereographic (x : M.Point K) : Vec K :=
  let z := x.coords.entry x.last
  let denominator := if isPositive z then 1 + z else 1 - z
  .ofFn x.last fun i => x.coords.entry i / denominator

/-- The Jacobian of the inverse stereographic projection, up to a factor. Its columns are
orthogonal to each other. -/
def Point.stereographicJacobian (x : M.Point K) : Mat K :=
  let s := x.stereographic
  let bottomSign : K := if isPositive (x.coords.entry x.last) then -1 else 1
  .ofFn x.coords.size x.last fun i j =>
    if i < x.last then
      (if i = j then (2 : Nat) * (1 + s.inner s) else 0) - (4 : Nat) * s.entry i * s.entry j
    else (4 : Nat) * s.entry j * bottomSign

def Point.sphereFrame (x : M.Point K) : Mat K :=
  let jacobian := x.stereographicJacobian
  .ofFn x.coords.size x.last fun i j => jacobian.entry i j / (jacobian.columnVec j).norm

def default : (M : Manifold) → M.Point K
  | euclidean _ => .ofFn fun _ => 0
  | sphere dim => diagonal (.sphere dim)

/-- The point with the given coordinates, normalized on the sphere. A vector without direction is
replaced by the diagonal one. -/
def place : (M : Manifold) → Vec K → M.Point K
  | euclidean _, v => .ofFn v.entry
  | sphere dim, v => ((sphere dim).direction? v).getD (diagonal (.sphere dim))

def ofVec (M : Manifold) (v : Vec K) : Checked (M.Point K) :=
  .require (M.isEuclidean ∨ 2 ≤ M.valueSize) .unitComponents (M.place v)

def ofCoordinates (M : Manifold) (v : Vec K) : Checked (M.Point K) :=
  if v.size = M.valueSize then M.ofVec v else .error .coordinateCount

/-- The point at the given embedding coordinates, projected to the space. On the sphere, coordinates
without direction leave the point where it is. -/
def Point.moveTo : {M : Manifold} → M.Point K → Vec K → M.Point K
  | .euclidean _, _, v => .ofFn v.entry
  | .sphere dim, x, v => ((Manifold.sphere dim).direction? v).getD x

def Point.frame : {M : Manifold} → M.Point K → Mat K
  | .euclidean dim, _ => .identity dim
  | .sphere _, x => x.sphereFrame

def tangentViolation : Manifold → Violation
  | euclidean _ => .realCorrection
  | sphere _ => .tangentCorrection

def embeddingViolation : Manifold → Violation
  | euclidean _ => .realCorrection
  | sphere _ => .embeddingCorrection

/-- The embedding coordinates reached from `x` by a step along the tangent space, whose basis in
Euclidean space is the standard one. -/
def Point.step (x : M.Point K) (d : Vec K) : Vec K :=
  if M.isEuclidean then x.coords.add d
  else
    let frame := x.frame
    .ofFn x.coords.size fun i =>
      x.coords.entry i + sumTo d.size fun k => frame.entry i k * d.entry k

def Point.update (x : M.Point K) (d : Vec K) : Checked (M.Point K) :=
  .require (d.size = M.correctionSize) M.tangentViolation (x.moveTo (x.step d))

def Point.addInEmbedding (x : M.Point K) (d : Vec K) : Checked (M.Point K) :=
  .require (d.size = M.valueSize) M.embeddingViolation (x.moveTo (x.coords.add d))

/-- The square matrix of the given size that curvature contributes in the direction `u`: minus the
component of `u` along the point, and zero where the space is flat. -/
def Point.curvature (x : M.Point K) (size : Nat) (u : Vec K) : Checked (Mat K) :=
  if M.isEuclidean then .ok (.zero size size)
  else do return .scaledIdentity size (-(← x.coords.dot u))

/-- The second derivative of the retraction, contracted with the direction `u`. -/
def Point.weingarten (x : M.Point K) (u : Vec K) : Checked (Mat K) := x.curvature M.correctionSize u

def Point.weingartenEmbedded (x : M.Point K) (u : Vec K) : Checked (Mat K) :=
  x.curvature M.valueSize u

def Point.normalPart (x : M.Point K) (v : Vec K) : Checked (Vec K) :=
  if M.isEuclidean then .ok (.zero M.valueSize)
  else do return x.coords.scale (← x.coords.dot v)

end Manifold

end ElementFields
