import ElementFields.Manifold.Basic

namespace ElementFields

open Scalar

structure Coefficients (K : Type) where
  manifold : Manifold
  points : List (manifold.Point K)

namespace Coefficients

variable {K : Type}

def size (c : Coefficients K) : Nat := c.points.length

def valueSize (c : Coefficients K) : Nat := c.manifold.valueSize

def correctionSize (c : Coefficients K) : Nat := c.manifold.correctionSize

def point (c : Coefficients K) (i : Nat) : Checked (c.manifold.Point K) :=
  match c.points[i]? with
  | some x => .ok x
  | none => .error .misfit

variable [Scalar K]

def ofCoordinates (M : Manifold) (coords : List (Vec K)) : Checked (Coefficients K) := do
  return { manifold := M, points := ← coords.mapM M.ofCoordinates }

def entry (c : Coefficients K) (d i : Nat) : K :=
  match c.points[i]? with
  | some x => x.coords.entry d
  | none => 0

def matrix (c : Coefficients K) : Mat K := .ofFn c.valueSize c.size c.entry

def frame (c : Coefficients K) (i : Nat) : Checked (Mat K) := do return (← c.point i).frame

def weingarten (c : Coefficients K) (i : Nat) (u : Vec K) : Checked (Mat K) := do
  (← c.point i).weingarten u

/-- Applies `move` to every coefficient with its part of `d`, `width` components each. -/
def moveAll (c : Coefficients K) (width : Nat)
    (move : c.manifold.Point K → Vec K → Checked (c.manifold.Point K)) (d : Vec K) :
    Checked (Coefficients K) := do
  let points ← c.points.zipIdx.mapM fun (x, i) => move x (d.slice (i * width) width)
  return { manifold := c.manifold, points }

def update (c : Coefficients K) (d : Vec K) : Checked (Coefficients K) :=
  if d.size = c.size * c.correctionSize then c.moveAll c.correctionSize (·.update ·) d
  else .error .stackedTangent

def addInEmbedding (c : Coefficients K) (d : Vec K) : Checked (Coefficients K) :=
  if d.size = c.size * c.valueSize then c.moveAll c.valueSize (·.addInEmbedding ·) d
  else .error .stackedEmbedding

end Coefficients

end ElementFields
