namespace ElementFields

/-- Numbers with the four operations, the two functions that scalar nodes apply, and the tests that
the computations branch on. -/
class Scalar (K : Type) extends
    Zero K, One K, Add K, Sub K, Neg K, Mul K, Div K, NatCast K, BEq K where
  /-- The square root of a positive number. -/
  sqrt : K → K
  /-- The natural logarithm of a positive number. -/
  log : K → K
  isPositive : K → Bool
  /-- Whether the number is neither infinite nor undefined. -/
  isFinite : K → Bool

instance : Scalar Float where
  zero := 0.0
  one := 1.0
  add x y := x + y
  sub x y := x - y
  neg x := -x
  mul x y := x * y
  div x y := x / y
  natCast n := Float.ofNat n
  beq x y := x == y
  sqrt x := x.sqrt
  log x := x.log
  isPositive x := 0.0 < x
  isFinite x := x.isFinite

namespace Scalar

variable {K : Type} [Scalar K]

/-- `f 0 + f 1 + … + f (n - 1)`, added from the left. -/
def sumTo : Nat → (Nat → K) → K
  | 0, _ => 0
  | n + 1, f => sumTo n f + f n

@[simp] theorem sumTo_zero (f : Nat → K) : sumTo 0 f = 0 := rfl

@[simp] theorem sumTo_succ (n : Nat) (f : Nat → K) : sumTo (n + 1) f = sumTo n f + f n := rfl

theorem sumTo_congr {n : Nat} {f g : Nat → K} (h : ∀ k, k < n → f k = g k) :
    sumTo n f = sumTo n g := by
  induction n with
  | zero => rfl
  | succ n ih => rw [sumTo_succ, sumTo_succ, ih fun k hk => h k (by omega), h n (by omega)]

def delta (i j : Nat) : K := if i = j then 1 else 0

/-- Whether dividing by a length leaves a vector of length one: it has to be positive and finite. -/
def isLength (r : K) : Bool := isPositive r && isFinite r

end Scalar

end ElementFields
