import ElementFields.Linear.Vec

namespace ElementFields

open Scalar

/-- Why no quadrature rule is available: nothing offered is exact enough, or no points are asked
for. -/
inductive QuadratureError where
  | noRuleAvailable
deriving DecidableEq, Repr

def QuadratureError.message : QuadratureError → String
  | noRuleAvailable => "There is no quadrature rule satisfying the requirements available"

structure QuadratureRule (K : Type) where
  weights : List K
  points : List (Vec K)

namespace QuadratureRule

variable {K : Type}

def dim (r : QuadratureRule K) : Nat :=
  match r.points with
  | [] => 0
  | p :: _ => p.size

def Regular (r : QuadratureRule K) : Prop :=
  r.weights.length = r.points.length ∧ ∀ p ∈ r.points, p.size = r.dim

instance (r : QuadratureRule K) : Decidable r.Regular :=
  inferInstanceAs (Decidable (_ ∧ _))

def ofLists (weights : List K) (points : List (Vec K)) : Checked (QuadratureRule K) :=
  let r : QuadratureRule K := { weights, points }
  if weights.length = points.length then
    .require (∀ p ∈ points, p.size = r.dim) .ruleDimensions r
  else .error .ruleLengths

/-- Lists make up a rule exactly if it is regular. -/
theorem ofLists_eq_ok_iff {weights : List K} {points : List (Vec K)} {r : QuadratureRule K} :
    ofLists weights points = .ok r ↔ r = { weights, points } ∧ r.Regular := by
  simp only [ofLists]
  split
  · rename_i h
    rw [Checked.require_eq_ok_iff]
    constructor
    · rintro ⟨hp, rfl⟩
      exact ⟨rfl, h, hp⟩
    · rintro ⟨rfl, _, hp⟩
      exact ⟨hp, rfl⟩
  · rename_i h
    constructor
    · intro he
      exact absurd he (by simp)
    · rintro ⟨rfl, hl, _⟩
      exact absurd hl h

def ofWeighted (l : List (K × List K)) : QuadratureRule K where
  weights := l.map Prod.fst
  points := l.map fun p => p.2.toArray

def size (r : QuadratureRule K) : Nat := r.weights.length

def isEmpty (r : QuadratureRule K) : Bool := r.weights.isEmpty

/-- The points with their weights, as far as there are both. -/
def toList (r : QuadratureRule K) : List (K × Vec K) := r.weights.zip r.points

variable [Scalar K]

def totalWeight (r : QuadratureRule K) : K := r.weights.foldl (· + ·) 0

def integrate (r : QuadratureRule K) (f : Vec K → Checked K) : Checked K :=
  r.toList.foldlM (fun sum (w, p) => do return sum + (← f p) * w) 0

instance : BEq (QuadratureRule K) where
  beq r s := r.weights == s.weights && r.points == s.points

end QuadratureRule

end ElementFields
