import Mathlib.LinearAlgebra.Matrix.Adjugate
import Mathlib.LinearAlgebra.Matrix.NonsingularInverse
import ElementFields.Linear.Inverse
import ElementFields.Proofs.Entries

namespace ElementFields
open Scalar
open scoped BigOperators

variable {K : Type} [ExactScalar K]

theorem alternatingSum_eq_sum (n : ℕ) (f : ℕ → K) :
    alternatingSum n f = ∑ j ∈ Finset.range n, (-1) ^ j * f j := by
  induction n with
  | zero => rfl
  | succ n ih =>
    rw [alternatingSum, ih, Finset.sum_range_succ]
    rcases Nat.even_or_odd n with hn | hn
    · rw [if_pos (Nat.even_iff.1 hn), hn.neg_one_pow, one_mul]
    · rw [if_neg (by rw [Nat.odd_iff.1 hn]; exact one_ne_zero), hn.neg_one_pow, neg_one_mul,
        sub_eq_add_neg]

theorem val_succAbove {n : ℕ} (j : Fin (n + 1)) (k : Fin n) :
    ((j.succAbove k : Fin (n + 1)) : ℕ) = skipIndex j k := by
  rw [skipIndex]
  split
  · rename_i h
    rw [Fin.succAbove_of_castSucc_lt j k h, Fin.val_castSucc]
  · rename_i h
    rw [Fin.succAbove_of_le_castSucc j k (Nat.le_of_not_lt h), Fin.val_succ]

def matrixOf (n : ℕ) (a : ℕ → ℕ → K) : Matrix (Fin n) (Fin n) K := Matrix.of fun i j => a i j

theorem determinant_eq_det (n : ℕ) (a : ℕ → ℕ → K) : determinant n a = (matrixOf n a).det := by
  induction n generalizing a with
  | zero => rw [Matrix.det_fin_zero, determinant]
  | succ n ih =>
    rw [determinant, alternatingSum_eq_sum, Matrix.det_succ_row_zero, Finset.sum_range]
    refine Finset.sum_congr rfl fun j _ => ?_
    rw [ih, mul_assoc]
    congr 2
    congr 1
    ext i k
    show a (i + 1) (skipIndex j k) = a (Fin.succ i) (j.succAbove k)
    rw [val_succAbove, Fin.val_succ]

theorem minor_eq_det {n : ℕ} (a : ℕ → ℕ → K) (i j : Fin (n + 1)) :
    minor (n + 1) a i j = ((matrixOf (n + 1) a).submatrix i.succAbove j.succAbove).det := by
  rw [minor, Nat.add_sub_cancel, determinant_eq_det]
  congr 1
  ext r c
  show a (skipIndex i r) (skipIndex j c) = a (i.succAbove r) (j.succAbove c)
  rw [val_succAbove, val_succAbove]

/-- The signed minors are the entries of the adjugate. -/
theorem cofactor_eq_adjugate {n : ℕ} (a : ℕ → ℕ → K) (i j : Fin n) :
    (if ((i : ℕ) + j) % 2 = 0 then minor n a j i else -minor n a j i) =
      (matrixOf n a).adjugate i j := by
  cases n with
  | zero => exact i.elim0
  | succ n =>
    rw [Matrix.adjugate_fin_succ_eq_det_submatrix, ← minor_eq_det, Nat.add_comm (i : ℕ) j]
    rcases Nat.even_or_odd ((j : ℕ) + i) with h | h
    · rw [if_pos (Nat.even_iff.1 h), h.neg_one_pow, one_mul]
    · rw [if_neg (by rw [Nat.odd_iff.1 h]; exact one_ne_zero), h.neg_one_pow, neg_one_mul]

namespace Mat

def Invertible (m : Mat K) : Prop := m.rows = m.cols ∧ ∃ N : Mat K, N.mul m = .ok (identity m.rows)

variable {m : Mat K}

theorem Invertible.det_ne_zero (h : m.Invertible) : (matrixOf m.rows m.entry).det ≠ 0 := by
  obtain ⟨hsquare, N, hN⟩ := h
  obtain ⟨hcols, ⟨hrows, -⟩, hentry⟩ := Mat.mul_eq_ok hN
  have hmul : matrixOf m.rows N.entry * matrixOf m.rows m.entry = 1 := by
    ext i j
    have hij := hentry i j
    rw [Mat.entry_identity i.2 j.2, hcols, Finset.sum_range] at hij
    rw [Matrix.mul_apply, Matrix.one_apply]
    refine hij.symm.trans ?_
    rw [delta]
    exact if_congr Fin.ext_iff.symm rfl rfl
  have hdet := congrArg Matrix.det hmul
  rw [Matrix.det_mul, Matrix.det_one] at hdet
  exact right_ne_zero_of_mul_eq_one hdet

/-- An invertible matrix has an inverse of its size, and this is one from both sides. -/
theorem Invertible.exists_inverse? (h : m.Invertible) :
    ∃ N, m.inverse? = some N ∧ N.rows = m.rows ∧ N.cols = m.rows ∧
      ∀ i < m.rows, ∀ j < m.rows,
        ∑ k ∈ Finset.range m.rows, m.entry i k * N.entry k j = delta i j := by
  have hdet := h.det_ne_zero
  have hne : ¬(determinant m.rows m.entry == 0) = true := by
    rw [ExactScalar.beq_iff, determinant_eq_det]
    exact hdet
  refine ⟨_, if_neg hne, rfl, rfl, fun i hi j hj => ?_⟩
  have hadjugate := congrFun₂ (Matrix.mul_adjugate (matrixOf m.rows m.entry)) ⟨i, hi⟩ ⟨j, hj⟩
  rw [Matrix.mul_apply, Matrix.smul_apply, Matrix.one_apply, smul_eq_mul] at hadjugate
  -- The signed minors are the entries of the adjugate.
  calc _ = ∑ k : Fin m.rows, m.entry i k *
        ((matrixOf m.rows m.entry).adjugate k ⟨j, hj⟩ / (matrixOf m.rows m.entry).det) := by
        rw [Finset.sum_range]
        refine Finset.sum_congr rfl fun k _ => ?_
        rw [Mat.entry_ofFn _ k.2 hj, determinant_eq_det, ← cofactor_eq_adjugate]
    _ = (∑ k : Fin m.rows, m.entry i k * (matrixOf m.rows m.entry).adjugate k ⟨j, hj⟩) /
        (matrixOf m.rows m.entry).det := by
        rw [Finset.sum_div]
        exact Finset.sum_congr rfl fun k _ => (mul_div_assoc _ _ _).symm
    _ = delta i j := by
        refine (div_eq_iff hdet).2 ?_
        refine Eq.trans hadjugate ?_
        rw [mul_comm, delta]
        exact congrArg (· * _) (if_congr Fin.ext_iff rfl rfl)

/-- A square matrix of which the inverse is found is invertible. -/
theorem invertible_of_inverse? {N : Mat K} (hsquare : m.rows = m.cols) (h : m.inverse? = some N) :
    m.Invertible := by
  have hdet : (matrixOf m.rows m.entry).det ≠ 0 := by
    rw [← determinant_eq_det]
    intro hzero
    rw [inverse?, if_pos ((ExactScalar.beq_iff _ _).2 hzero)] at h
    nomatch h
  have hmul := Matrix.nonsing_inv_mul (matrixOf m.rows m.entry) (Ne.isUnit hdet)
  refine ⟨hsquare, .ofFn m.rows m.rows fun i j =>
    if h : i < m.rows ∧ j < m.rows then (matrixOf m.rows m.entry)⁻¹ ⟨i, h.1⟩ ⟨j, h.2⟩ else 0, ?_⟩
  refine Mat.mul_eq_of_entry rfl ⟨rfl, hsquare⟩ fun i hi j hj => ?_
  have hi : i < m.rows := hi
  have hj : j < m.rows := hsquare ▸ hj
  have hentry := congrFun₂ hmul ⟨i, hi⟩ ⟨j, hj⟩
  simp only [Matrix.mul_apply, Matrix.one_apply, Fin.mk.injEq] at hentry
  rw [Mat.entry_identity hi hj, Mat.cols_ofFn, Finset.sum_range, delta, ← hentry]
  refine Finset.sum_congr rfl fun k _ => ?_
  rw [Mat.entry_ofFn _ hi k.2, dif_pos ⟨hi, k.2⟩]
  rfl

end Mat

end ElementFields
