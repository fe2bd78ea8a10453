namespace ElementFields

/-- The degree of a polynomial up to three, or no bound at all. -/
inductive PolynomialOrder where
  | constant
  | linear
  | quadratic
  | cubic
  | nonlinear
deriving DecidableEq, Repr, Ord

namespace PolynomialOrder

def ofDegree : Nat → PolynomialOrder
  | 0 => constant
  | 1 => linear
  | 2 => quadratic
  | 3 => cubic
  | _ => nonlinear

def degree? : PolynomialOrder → Option Nat
  | constant => some 0
  | linear => some 1
  | quadratic => some 2
  | cubic => some 3
  | nonlinear => none

instance : LE PolynomialOrder := leOfOrd

instance : Max PolynomialOrder := maxOfLe

/-- The order of a product: degrees add up, and beyond three nothing is known. -/
protected def mul (a b : PolynomialOrder) : PolynomialOrder :=
  match a.degree?, b.degree? with
  | some m, some n => ofDegree (m + n)
  | _, _ => nonlinear

instance : Mul PolynomialOrder := ⟨PolynomialOrder.mul⟩

/-- Whether every derivative of order `n` vanishes. -/
def annihilatedBy (a : PolynomialOrder) (n : Nat) : Bool :=
  match a.degree? with
  | some d => d < n
  | none => false

/-- The order of a function of an expression that is not a polynomial in it: a constant stays
constant. -/
def unlessConstant (a : PolynomialOrder) (result : PolynomialOrder) : PolynomialOrder :=
  if a = constant then constant else result

theorem annihilatedBy_iff {a : PolynomialOrder} {n : Nat} :
    a.annihilatedBy n = true ↔ ∃ d, a.degree? = some d ∧ d < n := by
  cases a <;> simp [annihilatedBy, degree?]

end PolynomialOrder

end ElementFields
