import ElementFields.Linear.Vec

namespace ElementFields

variable {K : Type} [Scalar K]

/-- The product of `r` with a natural power of `x`, by repeated squaring: the lowest binary digit of
the exponent says whether a factor `x` is left over. -/
def powerTimes (r x : K) (n : Nat) : K :=
  if n = 0 then r
  else powerTimes (if n % 2 = 1 then r * x else r) (x * x) (n / 2)
termination_by n
decreasing_by omega

def power (x : K) (n : Nat) : K := powerTimes 1 x n

/-- A product of powers of components: the exponent at index `d` belongs to component `d`. -/
structure Monomial where
  exponents : List Nat

def Monomial.eval (m : Monomial) (x : Vec K) : Checked K :=
  m.exponents.zipIdx.foldlM (fun product (e, d) => do
    return product * power (← Vec.component x d) e) 1

structure Polynomial (K : Type) where
  terms : List (K × Monomial)

def Polynomial.eval (p : Polynomial K) (x : Vec K) : Checked K :=
  p.terms.foldlM (fun sum (c, m) => do return sum + c * (← m.eval x)) 0

end ElementFields
