import Mathlib.Algebra.BigOperators.Field
import Mathlib.Algebra.BigOperators.Group.Finset.Sigma
import Mathlib.Algebra.BigOperators.Intervals
import Mathlib.Algebra.BigOperators.Ring.Finset
import Mathlib.Algebra.CharZero.Defs
import Mathlib.Algebra.Field.Basic
import Mathlib.Tactic.FieldSimp
import Mathlib.Tactic.Ring
import ElementFields.Scalar

namespace ElementFields
open Scalar
open scoped BigOperators

/-- Numbers without rounding: a field of characteristic zero in which numbers compare as equal only
if they are equal. -/
class ExactScalar (K : Type) extends Field K, Scalar K where
  charZero : CharZero K
  beq_iff : ∀ x y : K, (x == y) = true ↔ x = y

attribute [instance] ExactScalar.charZero

-- The numeral in a definition such as that of a half refers to this, and holds no proof of its own.
instance atLeastTwo : Nat.AtLeastTwo 2 := inferInstance

variable {K : Type} [ExactScalar K]

theorem sumTo_eq_sum (n : ℕ) (f : ℕ → K) : sumTo n f = ∑ k ∈ Finset.range n, f k := by
  induction n with
  | zero => rw [sumTo_zero, Finset.range_zero, Finset.sum_empty]
  | succ n ih => rw [sumTo_succ, ih, Finset.sum_range_succ]

theorem delta_comm (i j : ℕ) : (delta i j : K) = delta j i := by
  simp only [delta, eq_comm]

/-- Only the term at `k` remains of a sum against a unit vector. -/
theorem sum_delta_mul {n k : ℕ} (hk : k < n) (f : ℕ → K) :
    ∑ i ∈ Finset.range n, delta k i * f i = f k := by
  rw [Finset.sum_eq_single_of_mem k (Finset.mem_range.mpr hk)]
  · rw [delta, if_pos rfl, one_mul]
  · intro i _ hik
    rw [delta, if_neg (Ne.symm hik), zero_mul]

/-- A list with its indices adds up to a sum over the indices. -/
theorem sum_map_zipIdx {α M : Type} [AddCommMonoid M] (d : α) (l : List α) (g : α × ℕ → M)
    (start : ℕ) :
    ((l.zipIdx start).map g).sum =
      ∑ i ∈ Finset.range l.length, g (l.getD i d, start + i) := by
  induction l generalizing start with
  | nil => simp
  | cons x rest ih =>
    rw [List.zipIdx_cons, List.map_cons, List.sum_cons, ih, List.length_cons,
      Finset.sum_range_succ', add_comm]
    have hs (i : ℕ) : start + 1 + i = start + (i + 1) := by omega
    simp only [hs, List.getD_cons_succ, List.getD_cons_zero, Nat.add_zero]

theorem sum_map_range {M : Type} [AddCommMonoid M] (n : ℕ) (g : ℕ → M) :
    ((List.range n).map g).sum = ∑ i ∈ Finset.range n, g i := by
  induction n with
  | zero => rfl
  | succ n ih =>
    rw [List.range_succ, List.map_append, List.sum_append, ih, Finset.sum_range_succ,
      List.map_singleton, List.sum_singleton]

end ElementFields
