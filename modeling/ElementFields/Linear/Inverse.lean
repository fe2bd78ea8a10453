import ElementFields.Linear.Mat

namespace ElementFields

open Scalar

variable {K : Type} [Scalar K]

/-- The index that takes the place of `k` once index `j` is left out. -/
def skipIndex (j k : Nat) : Nat := if k < j then k else k + 1

def alternatingSum : Nat → (Nat → K) → K
  | 0, _ => 0
  | n + 1, f => if n % 2 = 0 then alternatingSum n f + f n else alternatingSum n f - f n

def determinant : Nat → (Nat → Nat → K) → K
  | 0, _ => 1
  | n + 1, a =>
    -- Expanded along the first row.
    alternatingSum (n + 1) fun j => a 0 j * determinant n fun i k => a (i + 1) (skipIndex j k)

def minor (n : Nat) (a : Nat → Nat → K) (i j : Nat) : K :=
  determinant (n - 1) fun r c => a (skipIndex i r) (skipIndex j c)

namespace Mat

/-- The inverse of a square matrix, unless its determinant is zero. -/
def inverse? (m : Mat K) : Option (Mat K) :=
  let det := determinant m.rows m.entry
  if det == 0 then none
  else some (ofFn m.rows m.rows fun i j =>
    let cofactor := minor m.rows m.entry j i
    (if (i + j) % 2 = 0 then cofactor else -cofactor) / det)

end Mat

end ElementFields
