import Mathlib.Analysis.SpecialFunctions.Log.Deriv
import Mathlib.Analysis.SpecialFunctions.Sqrt
import Mathlib.Topology.Algebra.Module.ModuleTopology
import ElementFields.Expression.Tree
import ElementFields.Proofs.Exact

namespace ElementFields
open Scalar

noncomputable instance : ExactScalar ℝ where
  sqrt := Real.sqrt
  log := Real.log
  isPositive x := open Classical in decide (0 < x)
  isFinite _ := true
  beq x y := open Classical in decide (x = y)
  charZero := inferInstance
  beq_iff x y := by simp

namespace ScalarMap

variable {v : ℝ}

theorem hasDerivAt_apply (g : ScalarMap) (hv : 0 < v) :
    HasDerivAt g.apply (g.derivatives v).first v := by
  cases g with
  | sqrt => exact (Real.hasDerivAt_sqrt hv.ne').congr_deriv (by simp only [derivatives]; norm_cast)
  | log => exact (Real.hasDerivAt_log hv.ne').congr_deriv (one_div v).symm

/-- The derivative of a fraction with a constant numerator. -/
theorem hasDerivAt_const_div {f : ℝ → ℝ} {f' : ℝ} (c : ℝ) (hf : HasDerivAt f f' v)
    (hne : f v ≠ 0) : HasDerivAt (fun y => c / f y) (-(c * f') / (f v * f v)) v := by
  refine ((hasDerivAt_const v c).div hf hne).congr_deriv ?_
  ring

theorem hasDerivAt_first (g : ScalarMap) (hv : 0 < v) :
    HasDerivAt (fun y => (g.derivatives y).first) (g.derivatives v).second v := by
  cases g with
  | sqrt =>
    have hs : Real.sqrt v ≠ 0 := (Real.sqrt_pos.2 hv).ne'
    have hvs : Real.sqrt v * Real.sqrt v = v := Real.mul_self_sqrt hv.le
    have h := hasDerivAt_const_div 1 ((Real.hasDerivAt_sqrt hv.ne').const_mul 2)
      (mul_ne_zero two_ne_zero hs)
    show HasDerivAt (fun y => 1 / (((2 : ℕ) : ℝ) * Real.sqrt y))
      (-1 / (((4 : ℕ) : ℝ) * v * Real.sqrt v)) v
    push_cast
    refine h.congr_deriv ?_
    nth_rewrite 4 [← hvs]
    field_simp
    norm_num
  | log =>
    have h := hasDerivAt_const_div 1 (hasDerivAt_id v) hv.ne'
    exact h.congr_deriv (by simp [derivatives])

theorem hasDerivAt_second (g : ScalarMap) (hv : 0 < v) :
    HasDerivAt (fun y => (g.derivatives y).second) (g.derivatives v).third v := by
  cases g with
  | sqrt =>
    have hs : Real.sqrt v ≠ 0 := (Real.sqrt_pos.2 hv).ne'
    have hvs : Real.sqrt v * Real.sqrt v = v := Real.mul_self_sqrt hv.le
    have h := hasDerivAt_const_div (-1)
      (((hasDerivAt_id v).const_mul 4).mul (Real.hasDerivAt_sqrt hv.ne'))
      (mul_ne_zero (mul_ne_zero four_ne_zero hv.ne') hs)
    show HasDerivAt (fun y => -1 / (((4 : ℕ) : ℝ) * y * Real.sqrt y))
      (((3 : ℕ) : ℝ) / (((8 : ℕ) : ℝ) * v * v * Real.sqrt v)) v
    push_cast
    refine h.congr_deriv ?_
    simp only [id, Pi.mul_apply]
    field_simp
    rw [Real.sq_sqrt hv.le]
    ring
  | log =>
    have h := hasDerivAt_const_div (-1) ((hasDerivAt_id v).mul (hasDerivAt_id v))
      (mul_ne_zero hv.ne' hv.ne')
    refine h.congr_deriv ?_
    simp only [derivatives, id, Pi.mul_apply]
    push_cast
    field_simp
    ring

end ScalarMap

end ElementFields
