import ElementFields.Linear.Columns
import ElementFields.Request.Basic
import ElementFields.Failure

namespace ElementFields

inductive Derivative (K : Type) where
  | matrix (m : Mat K)
  /-- One matrix for each spatial direction. -/
  | perDirection (ms : List (Mat K))

namespace Derivative

variable {K : Type}

def toComponents : Derivative K → List (Mat K)
  | matrix m => [m]
  | perDirection ms => ms

def matrix? : Derivative K → Option (Mat K)
  | matrix m => some m
  | perDirection _ => none

def perDirection? : Derivative K → Option (List (Mat K))
  | matrix _ => none
  | perDirection ms => some ms

variable [Scalar K]

def toMatrix : Derivative K → Checked (Mat K)
  | matrix m => .ok m
  | perDirection ms => Mat.hstack ((ms.head?.map Mat.rows).getD 0) ms

/-- The sum, by directions unless both are single matrices. -/
def add : Derivative K → Derivative K → Checked (Derivative K)
  | matrix m, matrix n => do return matrix (← m.add n)
  | d, e => do
    return perDirection (← (d.toComponents.zip e.toComponents).mapM fun (m, n) => m.add n)

def scale (d : Derivative K) (s : K) : Derivative K :=
  match d with
  | matrix m => matrix (m.scale s)
  | perDirection ms => perDirection (ms.map (·.scale s))

def negate (d : Derivative K) : Derivative K := d.scale (-1)

instance : BEq (Derivative K) where
  beq
    | matrix m, matrix n => m == n
    | perDirection ms, perDirection ns => ms == ns
    | _, _ => false

def ofComponents (d : Directions) (rows : Nat) (components : List (Mat K)) :
    Checked (Derivative K) :=
  match d.spatial, d.coefficients with
  | some .all, .single _ => .ok (perDirection components)
  | _, _ => do return matrix (← Mat.hstack rows components)

end Derivative

def Request.requireAlong {K : Type} (r : Request K) : Outcome (Mat K) :=
  .ofOption (.missingAlong r.directions) r.along

end ElementFields
