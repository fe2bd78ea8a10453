import ElementFields.Linear.Mat

namespace ElementFields

open Scalar

variable {K : Type} [Scalar K]

/-- The line that is one at `α` and zero at `-α`, for `α` plus or minus one. -/
def hat (α ξ : K) : K := (1 + α * ξ) / (2 : Nat)

def productTo (start : K) (indices : List Nat) (f : Nat → K) : K :=
  indices.foldl (fun product e => product * f e) start

def tensorValue (dim : Nat) (node ξ : Vec K) : K :=
  productTo 1 (List.range dim) fun e => hat (node.entry e) (ξ.entry e)

def tensorSlope (dim : Nat) (node ξ : Vec K) (d : Nat) : K :=
  productTo (node.entry d / (2 : Nat)) ((List.range dim).filter (· ≠ d)) fun e =>
    hat (node.entry e) (ξ.entry e)

def tensorValues (dim : Nat) (nodes : List (Vec K)) (ξ : Vec K) : Checked (Vec K) :=
  .require (ξ.size = dim) .misfit
    (.ofFn nodes.length fun i => tensorValue dim (nodes.getD i #[]) ξ)

def tensorGradients (dim : Nat) (nodes : List (Vec K)) (ξ : Vec K) : Checked (Mat K) :=
  .require (ξ.size = dim) .misfit
    (.ofFn dim nodes.length fun d i => tensorSlope dim (nodes.getD i #[]) ξ d)

def axisValue (ξ : Vec K) (k : Nat) : K := (1 + ξ.entry k) / (2 : Nat)

def simplexValues (dim : Nat) (ξ : Vec K) : Checked (Vec K) :=
  .require (ξ.size = dim) .misfit
    (.ofFn (dim + 1) fun
      -- What the functions of the other nodes lack to one.
      | 0 => 1 - sumTo dim (axisValue ξ)
      | k + 1 => axisValue ξ k)

/-- The gradients of the functions of all nodes of a simplex, as columns. They are constant, so the
point is not even looked at. -/
def simplexGradients (dim : Nat) : Mat K :=
  .ofFn dim (dim + 1) fun
    | _, 0 => -1 / (2 : Nat)
    | d, i + 1 => if i = d then 1 / (2 : Nat) else 0

end ElementFields
