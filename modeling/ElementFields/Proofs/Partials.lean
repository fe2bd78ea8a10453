import ElementFields.Proofs.Form
import ElementFields.Proofs.Orders
import ElementFields.Expression.Tree

/-! Tables of partial derivatives at one point: with respect to at most one axis and at most two
coordinates of coefficients, each at most once. They multiply as numbers do that are extended by three
independent nilpotent perturbations. -/
namespace ElementFields
open Scalar
open scoped BigOperators

/-- A coordinate of the tangent space of a coefficient, as a variable. -/
structure Variable where
  coefficient : Coefficient
  coordinate : ℕ

def Variable.block (α : Variable) : BlockId := α.coefficient.block

/-- A number perturbed along one axis by `x` and along two variables by `p` and `q`, of which each
square is zero: the coefficients of the monomials. -/
@[ext] structure Jet (K : Type) where
  v : K
  x : K
  p : K
  q : K
  xp : K
  xq : K
  pq : K
  xpq : K

namespace Jet

variable {K : Type} [ExactScalar K]

def const (c : K) : Jet K := ⟨c, 0, 0, 0, 0, 0, 0, 0⟩

def scale (j : Jet K) (s : K) : Jet K :=
  ⟨j.v * s, j.x * s, j.p * s, j.q * s, j.xp * s, j.xq * s, j.pq * s, j.xpq * s⟩

def add (j l : Jet K) : Jet K :=
  ⟨j.v + l.v, j.x + l.x, j.p + l.p, j.q + l.q, j.xp + l.xp, j.xq + l.xq, j.pq + l.pq,
    j.xpq + l.xpq⟩

/-- The product, in which every perturbation occurs at most once. -/
def mul (j l : Jet K) : Jet K where
  v := j.v * l.v
  x := j.x * l.v + j.v * l.x
  p := j.p * l.v + j.v * l.p
  q := j.q * l.v + j.v * l.q
  xp := j.xp * l.v + j.x * l.p + j.p * l.x + j.v * l.xp
  xq := j.xq * l.v + j.x * l.q + j.q * l.x + j.v * l.xq
  pq := j.pq * l.v + j.p * l.q + j.q * l.p + j.v * l.pq
  xpq := j.xpq * l.v + j.xp * l.q + j.xq * l.p + j.x * l.pq + j.pq * l.x + j.p * l.xq +
    j.q * l.xp + j.v * l.xpq

def map (y : K) (t : Taylor K) (j : Jet K) : Jet K where
  v := y
  x := t.first * j.x
  p := t.first * j.p
  q := t.first * j.q
  xp := t.second * (j.x * j.p) + t.first * j.xp
  xq := t.second * (j.x * j.q) + t.first * j.xq
  pq := t.second * (j.p * j.q) + t.first * j.pq
  xpq := t.third * (j.x * j.p * j.q) + t.second * (j.x * j.pq + j.p * j.xq + j.q * j.xp) +
    t.first * j.xpq

def sum (n : ℕ) (f : ℕ → Jet K) : Jet K where
  v := ∑ d ∈ Finset.range n, (f d).v
  x := ∑ d ∈ Finset.range n, (f d).x
  p := ∑ d ∈ Finset.range n, (f d).p
  q := ∑ d ∈ Finset.range n, (f d).q
  xp := ∑ d ∈ Finset.range n, (f d).xp
  xq := ∑ d ∈ Finset.range n, (f d).xq
  pq := ∑ d ∈ Finset.range n, (f d).pq
  xpq := ∑ d ∈ Finset.range n, (f d).xpq

theorem sum_succ (n : ℕ) (f : ℕ → Jet K) : sum (n + 1) f = (sum n f).add (f n) := by
  simp only [sum, add, Finset.sum_range_succ]

end Jet

/-- A table of partial derivatives, for each component of a field. -/
structure Partials (K : Type) where
  value (i : ℕ) : K
  /-- Along an axis. -/
  slope (k i : ℕ) : K
  /-- With respect to a variable. -/
  varied (α : Variable) (i : ℕ) : K
  /-- Along an axis and with respect to a variable. -/
  mixed (k : ℕ) (α : Variable) (i : ℕ) : K
  /-- With respect to two variables. -/
  twice (α β : Variable) (i : ℕ) : K
  /-- Along an axis and with respect to two variables. -/
  thrice (k : ℕ) (α β : Variable) (i : ℕ) : K

namespace Partials

variable {K : Type} [ExactScalar K]

def jet (T : Partials K) (k : ℕ) (α β : Variable) (i : ℕ) : Jet K :=
  ⟨T.value i, T.slope k i, T.varied α i, T.varied β i, T.mixed k α i, T.mixed k β i, T.twice α β i,
    T.thrice k α β i⟩

def const (c : K) : Partials K where
  value _ := c
  slope _ _ := 0
  varied _ _ := 0
  mixed _ _ _ := 0
  twice _ _ _ := 0
  thrice _ _ _ _ := 0

def scale (T : Partials K) (s : K) : Partials K where
  value i := T.value i * s
  slope k i := T.slope k i * s
  varied α i := T.varied α i * s
  mixed k α i := T.mixed k α i * s
  twice α β i := T.twice α β i * s
  thrice k α β i := T.thrice k α β i * s

def add (A B : Partials K) : Partials K where
  value i := A.value i + B.value i
  slope k i := A.slope k i + B.slope k i
  varied α i := A.varied α i + B.varied α i
  mixed k α i := A.mixed k α i + B.mixed k α i
  twice α β i := A.twice α β i + B.twice α β i
  thrice k α β i := A.thrice k α β i + B.thrice k α β i

def inner (V : ℕ) (A B : Partials K) : Partials K where
  value _ := ∑ d ∈ Finset.range V, A.value d * B.value d
  slope k _ := ∑ d ∈ Finset.range V, (A.slope k d * B.value d + A.value d * B.slope k d)
  varied α _ := ∑ d ∈ Finset.range V, (A.varied α d * B.value d + A.value d * B.varied α d)
  mixed k α _ := ∑ d ∈ Finset.range V, (A.mixed k α d * B.value d + A.slope k d * B.varied α d +
    A.varied α d * B.slope k d + A.value d * B.mixed k α d)
  twice α β _ := ∑ d ∈ Finset.range V, (A.twice α β d * B.value d + A.varied α d * B.varied β d +
    A.varied β d * B.varied α d + A.value d * B.twice α β d)
  thrice k α β _ := ∑ d ∈ Finset.range V, (A.thrice k α β d * B.value d +
    A.mixed k α d * B.varied β d + A.mixed k β d * B.varied α d + A.slope k d * B.twice α β d +
    A.twice α β d * B.slope k d + A.varied α d * B.mixed k β d + A.varied β d * B.mixed k α d +
    A.value d * B.thrice k α β d)

def map (y : K) (t : Taylor K) (T : Partials K) : Partials K where
  value _ := y
  slope k _ := t.first * T.slope k 0
  varied α _ := t.first * T.varied α 0
  mixed k α _ := t.second * (T.slope k 0 * T.varied α 0) + t.first * T.mixed k α 0
  twice α β _ := t.second * (T.varied α 0 * T.varied β 0) + t.first * T.twice α β 0
  thrice k α β _ := t.third * (T.slope k 0 * T.varied α 0 * T.varied β 0) +
    t.second * (T.slope k 0 * T.twice α β 0 + T.varied α 0 * T.mixed k β 0 +
      T.varied β 0 * T.mixed k α 0) + t.first * T.thrice k α β 0

section Jets

variable (A B T : Partials K) (k : ℕ) (α β : Variable) (i : ℕ)

theorem jet_const (c : K) : (const c).jet k α β i = Jet.const c := rfl

theorem jet_scale (s : K) : (T.scale s).jet k α β i = (T.jet k α β i).scale s := rfl

theorem jet_add : (A.add B).jet k α β i = (A.jet k α β i).add (B.jet k α β i) := rfl

theorem jet_inner (V : ℕ) : (inner V A B).jet k α β i =
    Jet.sum V fun d => (A.jet k α β d).mul (B.jet k α β d) := rfl

theorem jet_map (y : K) (t : Taylor K) : (map y t T).jet k α β i = (T.jet k α β 0).map y t := rfl

end Jets

/-- What a derivative says if its entries are those of the table. A derivative with respect to two
coefficients is contracted over the components, and over the directions in space. -/
def ReadBy (T : Partials K) (V G : ℕ) (C : BlockId → ℕ) (r : Request K) (D : Derivative K) : Prop :=
  D.HasForm (r.directions.form V G C) ∧
  match r.directions.spatial, r.directions.coefficients with
  | none, .none => ∀ i < V, D.entry 0 i 0 = T.value i
  | some s, .none => ∀ i < V, ∀ k < s.count G, D.entry 0 i k = T.slope (s.axis k) i
  | none, .single c => ∀ i < V, ∀ a < C c.block, D.entry 0 i a = T.varied ⟨c, a⟩ i
  | some s, .single c => ∀ k < s.count G, ∀ i < V, ∀ a < C c.block,
    D.entry k i a = T.mixed (s.axis k) ⟨c, a⟩ i
  | none, .two c₁ c₂ => ∀ W, r.along = some W → ∀ a < C c₁.block, ∀ b < C c₂.block,
    D.entry 0 a b = ∑ i ∈ Finset.range V, W.entry i 0 * T.twice ⟨c₁, a⟩ ⟨c₂, b⟩ i
  | some s, .two c₁ c₂ => ∀ W, r.along = some W → ∀ a < C c₁.block, ∀ b < C c₂.block,
    D.entry 0 a b = ∑ k ∈ Finset.range (s.count G), ∑ i ∈ Finset.range V,
      W.entry i k * T.thrice (s.axis k) ⟨c₁, a⟩ ⟨c₂, b⟩ i

/-- The entries that a field of the given orders cannot have: those with more variables of one block
than the order in it. -/
structure Obeys (T : Partials K) (V : ℕ) (order : BlockId → PolynomialOrder) : Prop where
  constant : ∀ α, order α.block = .constant → ∀ i < V, T.varied α i = 0 ∧
    (∀ k, T.mixed k α i = 0) ∧ ∀ β, (T.twice α β i = 0 ∧ T.twice β α i = 0) ∧
      ∀ k, T.thrice k α β i = 0 ∧ T.thrice k β α i = 0
  linear : ∀ α β, α.block = β.block → (order α.block).annihilatedBy 2 = true → ∀ i < V,
    T.twice α β i = 0 ∧ ∀ k, T.thrice k α β i = 0

end Partials

namespace Expr

variable {K : Type} [ExactScalar K]

def StrainFree : Expr K → Prop
  | leaf _ _ | constant _ => True
  | unary .strain _ => False
  | unary _ a => a.StrainFree
  | binary _ a b => a.StrainFree ∧ b.StrainFree

def partials (T : ℕ → Partials K) : Expr K → Partials K
  | leaf slot _ => T slot
  | constant x => .const x
  | unary .negate a => (a.partials T).scale (-1)
  | unary (.scale s) a => (a.partials T).scale s
  | unary (.map g) a =>
    .map (g.apply ((a.partials T).value 0)) (g.derivatives ((a.partials T).value 0)) (a.partials T)
  | unary .strain _ => .const 0
  | binary .sum a b => (a.partials T).add (b.partials T)
  | binary .dot a b => .inner a.valueSize (a.partials T) (b.partials T)

end Expr

end ElementFields
