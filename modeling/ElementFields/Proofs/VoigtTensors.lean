import ElementFields.Proofs.Frames
import ElementFields.Proofs.StrainRule
import Mathlib.Tactic.IntervalCases

namespace ElementFields
open Scalar
open scoped BigOperators

variable {K : Type}

def Mat.Congruent [Scalar K] (J A B : Mat K) : Prop :=
  ∃ P, J.transposeMul A = .ok P ∧ P.mul J = .ok B

variable [ExactScalar K]

theorem Mat.congruent_of_entry {J A B : Mat K} {n : ℕ} (hJ : J.rows = n ∧ J.cols = n)
    (hA : A.rows = n ∧ A.cols = n) (hB : B.rows = n ∧ B.cols = n)
    (h : ∀ i < n, ∀ j < n, B.entry i j = ∑ k ∈ Finset.range n, ∑ m ∈ Finset.range n,
      J.entry m i * A.entry m k * J.entry k j) : J.Congruent A B := by
  obtain ⟨P, hP⟩ : ∃ P, J.transposeMul A = .ok P := ⟨_, require_eq_ok.2 ⟨hJ.1.trans hA.1.symm, rfl⟩⟩
  obtain ⟨-, ⟨hrows, hcols⟩, hentry⟩ := Mat.transposeMul_eq_ok hP
  have hPcols : P.cols = n := hcols.trans hA.2
  refine ⟨P, hP, Mat.mul_eq_of_entry (hPcols.trans hJ.1.symm)
    ⟨hB.1.trans (hrows.trans hJ.2).symm, hB.2.trans hJ.2.symm⟩ fun i hi j hj => ?_⟩
  have hi : i < n := hJ.2 ▸ hrows ▸ hi
  have hj : j < n := hJ.2 ▸ hj
  rw [h i hi j hj, hPcols]
  apply Finset.sum_congr rfl
  intro k _
  rw [hentry, hJ.1, Finset.sum_mul]

namespace Strain

/-- Component `m` of the symmetric part of a tensor in `dim` dimensions, in Voigt notation: the entry
on the diagonal, and the two entries off the diagonal together. -/
def voigt (dim : ℕ) (E : ℕ → ℕ → K) (m : ℕ) : K :=
  let p := voigtPair dim m
  voigtWeight p * (E p.1 p.2 + E p.2 p.1)

def tensor (dim : ℕ) (v : Mat K) : Mat K :=
  .ofFn dim dim fun i j =>
    if i = j then v.entry i 0
    else 1 / 2 * v.entry (dim + (shearPairs dim).idxOf (min i j, max i j)) 0

/-- What the change of axes by `J` does to strains in `dim` dimensions. -/
def pullBack (dim : ℕ) (J : Mat K) : Mat K :=
  .ofFn (strainSize dim) (strainSize dim) fun q m =>
    voigt dim (fun i j => J.entry (voigtPair dim m).1 i * J.entry (voigtPair dim m).2 j) q

variable {dim : ℕ}

theorem pairing_eq_voigt (n : ℕ) (x y : ℕ → ℕ → K) (m : ℕ) :
    pairing n dim x y m = voigt dim (fun i j => ∑ d ∈ Finset.range n, x d i * y d j) m := by
  rw [pairing, voigt, ← Finset.sum_add_distrib]
  congr 1
  apply Finset.sum_congr rfl
  intro d _
  rw [mul_comm (y d _)]

/-- The components see the symmetric part only. -/
theorem voigt_congr {E F : ℕ → ℕ → K} (hdim : dim ≤ 3)
    (h : ∀ i < dim, ∀ j < dim, E i j + E j i = F i j + F j i) {m : ℕ} (hm : m < strainSize dim) :
    voigt dim E m = voigt dim F m := by
  rw [← add_length_shearPairs hdim] at hm
  obtain ⟨hi, hj⟩ := voigtPair_lt hm
  rw [voigt, voigt, h _ hi _ hj]

theorem voigt_add (E F : ℕ → ℕ → K) (m : ℕ) :
    voigt dim (fun i j => E i j + F i j) m = voigt dim E m + voigt dim F m := by
  simp only [voigt]
  ring

theorem voigt_mul (s : K) (E : ℕ → ℕ → K) (m : ℕ) :
    voigt dim (fun i j => s * E i j) m = s * voigt dim E m := by
  simp only [voigt]
  ring

theorem voigt_sum (n : ℕ) (E : ℕ → ℕ → ℕ → K) (m : ℕ) :
    voigt dim (fun i j => ∑ k ∈ Finset.range n, E k i j) m =
      ∑ k ∈ Finset.range n, voigt dim (E k) m := by
  simp only [voigt, ← Finset.sum_add_distrib, Finset.mul_sum]

/-- Two axes have a shear component of their own. -/
theorem mem_shearPairs {i j : ℕ} (hdim : dim ≤ 3) (hij : i < j) (hj : j < dim) :
    (i, j) ∈ shearPairs dim := by
  rcases (by omega : dim = 2 ∨ dim = 3) with rfl | rfl
  · obtain ⟨rfl, rfl⟩ : i = 0 ∧ j = 1 := by omega
    decide
  · rcases (by omega : i = 0 ∧ j = 1 ∨ i = 0 ∧ j = 2 ∨ i = 1 ∧ j = 2) with
      ⟨rfl, rfl⟩ | ⟨rfl, rfl⟩ | ⟨rfl, rfl⟩ <;> decide

theorem lt_of_shearPair {i j : ℕ} (h : (i, j) ∈ shearPairs dim) : i < j := by
  unfold shearPairs at h
  split at h
  · simp only [List.mem_singleton, Prod.mk.injEq] at h
    omega
  · simp only [List.mem_cons, Prod.mk.injEq, List.not_mem_nil, or_false] at h
    omega
  · exact absurd h List.not_mem_nil

theorem nodup_shearPairs (dim : ℕ) : (shearPairs dim).Nodup := by
  unfold shearPairs
  split <;> decide

theorem voigtPair_shear {q : ℕ} {p : ℕ × ℕ} (h : (shearPairs dim)[q]? = some p) :
    voigtPair dim (dim + q) = p := by
  rw [voigtPair, if_neg (by omega), Nat.add_sub_cancel_left, List.getD_eq_getElem?_getD, h]
  rfl

/-- A sum over all entries, one factor being symmetric, is a sum over the Voigt components. -/
theorem sum_sum_eq_sum_voigt (hdim : dim ≤ 3) {B : ℕ → ℕ → K} (hB : ∀ i j, B i j = B j i)
    (E : ℕ → ℕ → K) :
    ∑ i ∈ Finset.range dim, ∑ j ∈ Finset.range dim, B i j * E i j =
      ∑ m ∈ Finset.range (strainSize dim),
        B (voigtPair dim m).1 (voigtPair dim m).2 * voigt dim E m := by
  -- The components are enumerated anew in each dimension.
  rcases (by omega : dim = 0 ∨ dim = 1 ∨ dim = 2 ∨ dim = 3) with rfl | rfl | rfl | rfl
  · rfl
  · have hsize : strainSize 1 = 1 := rfl
    rw [hsize, Finset.sum_range_one, Finset.sum_range_one, Finset.sum_range_one, voigt, voigtPair,
      if_pos Nat.zero_lt_one, voigtWeight, if_pos rfl]
    ring
  · simp only [strainSize, voigt, voigtPair, voigtWeight, shearPairs, Finset.sum_range_succ]
    norm_num [hB 1 0]
    ring
  · simp only [strainSize, voigt, voigtPair, voigtWeight, shearPairs, Finset.sum_range_succ]
    norm_num [hB 1 0, hB 2 0, hB 2 1]
    ring

theorem entry_tensor_comm (v : Mat K) {i j : ℕ} (hi : i < dim) (hj : j < dim) :
    (tensor dim v).entry i j = (tensor dim v).entry j i := by
  simp only [tensor, Mat.entry_ofFn _ hi hj, Mat.entry_ofFn _ hj hi, min_comm j, max_comm j,
    eq_comm (a := j)]
  by_cases hij : i = j
  · rw [hij]
  · rw [if_neg hij, if_neg hij]

/-- The tensor of the components of a symmetric tensor is that tensor. -/
theorem entry_tensor (hdim : dim ≤ 3) {v : Mat K} {E : ℕ → ℕ → K}
    (hE : ∀ i j, E i j = E j i) (h : ∀ m < strainSize dim, v.entry m 0 = voigt dim E m) {i j : ℕ}
    (hi : i < dim) (hj : j < dim) : (tensor dim v).entry i j = E i j := by
  rw [← add_length_shearPairs hdim] at h
  rw [tensor, Mat.entry_ofFn _ hi hj]
  by_cases hij : i = j
  · subst hij
    rw [if_pos rfl, h i (by omega), voigt, voigtPair, if_pos hi, voigtWeight, if_pos rfl]
    ring
  · -- The shear is filed under the ordered pair, whichever way round the two axes come.
    have hmem : (min i j, max i j) ∈ shearPairs dim := mem_shearPairs hdim (by omega) (by omega)
    have hlt := List.idxOf_lt_length_of_mem hmem
    have hget : (shearPairs dim)[(shearPairs dim).idxOf (min i j, max i j)]? =
        some (min i j, max i j) := by
      rw [List.getElem?_eq_getElem hlt, List.getElem_idxOf hlt]
    have hsym : E (min i j) (max i j) = E i j := by
      rcases Nat.lt_or_gt_of_ne hij with hlt | hgt
      · rw [min_eq_left hlt.le, max_eq_right hlt.le]
      · rw [min_eq_right hgt.le, max_eq_left hgt.le, hE]
    rw [if_neg hij, h _ (by omega), voigt, voigtPair_shear hget, voigtWeight,
      if_neg (ne_of_mem_shearPairs hmem), hE (max i j), hsym]
    ring

/-- The components of the tensor of a column are the column. -/
theorem voigt_tensor (hdim : dim ≤ 3) (v : Mat K) {m : ℕ} (hm : m < strainSize dim) :
    voigt dim (tensor dim v).entry m = v.entry m 0 := by
  rw [← add_length_shearPairs hdim] at hm
  obtain ⟨hi, hj⟩ := voigtPair_lt hm
  rw [voigt, entry_tensor_comm v hj hi, tensor, Mat.entry_ofFn _ hi hj]
  by_cases hmd : m < dim
  · rw [voigtPair, if_pos hmd, voigtWeight, if_pos rfl, if_pos rfl]
    ring
  · -- A shear is found again at its own place, since no pair is listed twice.
    obtain ⟨q, rfl⟩ := Nat.exists_eq_add_of_le (Nat.le_of_not_lt hmd)
    obtain ⟨i, j, hij⟩ := exists_shearPair (show q < (shearPairs dim).length by omega)
    have hmem := List.mem_of_getElem? hij
    have hlt := lt_of_shearPair hmem
    have hindex : (shearPairs dim).idxOf (i, j) = q := by
      obtain ⟨hq, hget⟩ := List.getElem?_eq_some_iff.1 hij
      rw [← hget, (nodup_shearPairs dim).idxOf_getElem]
    rw [voigtPair_shear hij, voigtWeight, if_neg hlt.ne, if_neg hlt.ne, min_eq_left hlt.le,
      max_eq_right hlt.le, hindex]
    ring

/-- The components of `Jᵀ E J` depend linearly on those of `E`. -/
theorem voigt_congruence (hdim : dim ≤ 3) (J : Mat K) (E : ℕ → ℕ → K) {q : ℕ}
    (hq : q < strainSize dim) :
    Combines (strainSize dim) ((pullBack dim J).entry q)
      (voigt dim (fun i j => ∑ m ∈ Finset.range dim, ∑ n ∈ Finset.range dim,
        J.entry m i * J.entry n j * E m n) q) (voigt dim E) := by
  let B (m n : ℕ) : K := voigt dim (fun i j => J.entry m i * J.entry n j) q
  have hB (m n : ℕ) : B m n = B n m := by
    simp only [B, voigt]
    ring
  -- The sum over all pairs of axes is folded onto the ordered ones.
  calc voigt dim (fun i j => ∑ m ∈ Finset.range dim, ∑ n ∈ Finset.range dim,
        J.entry m i * J.entry n j * E m n) q
      = ∑ m ∈ Finset.range dim, ∑ n ∈ Finset.range dim, B m n * E m n := by
        simp only [voigt_sum, B, mul_comm _ (E _ _), voigt_mul]
    _ = ∑ m ∈ Finset.range (strainSize dim),
          B (voigtPair dim m).1 (voigtPair dim m).2 * voigt dim E m :=
        sum_sum_eq_sum_voigt hdim hB E
    _ = ∑ m ∈ Finset.range (strainSize dim), (pullBack dim J).entry q m * voigt dim E m := by
        apply Finset.sum_congr rfl
        intro m hm
        rw [pullBack, Mat.entry_ofFn _ hq (Finset.mem_range.mp hm)]

/-- If two families of tangents turn by `J`, then their pairing follows. -/
theorem pairing_of_turned (hdim : dim ≤ 3) {n : ℕ} {J : Mat K} {x x' y y' : ℕ → ℕ → K}
    (hx : ∀ d < n, ∀ k < dim, Combines dim (fun m => J.entry m k) (x d k) (x' d))
    (hy : ∀ d < n, ∀ k < dim, Combines dim (fun m => J.entry m k) (y d k) (y' d)) {q : ℕ}
    (hq : q < strainSize dim) :
    Combines (strainSize dim) ((pullBack dim J).entry q) (pairing n dim x y q)
      (pairing n dim x' y') := by
  have hlt := hq
  rw [← add_length_shearPairs hdim] at hlt
  have hentry (i : ℕ) (hi : i < dim) (j : ℕ) (hj : j < dim) :
      ∑ d ∈ Finset.range n, x d i * y d j = ∑ m ∈ Finset.range dim, ∑ k ∈ Finset.range dim,
        J.entry m i * J.entry k j * ∑ d ∈ Finset.range n, x' d m * y' d k := by
    calc ∑ d ∈ Finset.range n, x d i * y d j
        = ∑ d ∈ Finset.range n, ∑ m ∈ Finset.range dim, ∑ k ∈ Finset.range dim,
            J.entry m i * J.entry k j * (x' d m * y' d k) := by
          apply Finset.sum_congr rfl
          intro d hd
          have hd := Finset.mem_range.mp hd
          rw [hx d hd i hi, hy d hd j hj, Finset.sum_mul_sum]
          apply Finset.sum_congr rfl
          intro m _
          apply Finset.sum_congr rfl
          intro k _
          ring
      _ = _ := by
          rw [Finset.sum_comm]
          apply Finset.sum_congr rfl
          intro m _
          rw [Finset.sum_comm]
          simp only [Finset.mul_sum]
  calc pairing n dim x y q
      = voigt dim (fun i j => ∑ d ∈ Finset.range n, x d i * y d j) q := pairing_eq_voigt n x y q
    _ = voigt dim (fun i j => ∑ m ∈ Finset.range dim, ∑ k ∈ Finset.range dim,
          J.entry m i * J.entry k j * ∑ d ∈ Finset.range n, x' d m * y' d k) q := by
        apply voigt_congr hdim _ hq
        intro i hi j hj
        rw [hentry i hi j hj, hentry j hj i hi]
    _ = ∑ m ∈ Finset.range (strainSize dim), (pullBack dim J).entry q m *
          voigt dim (fun m k => ∑ d ∈ Finset.range n, x' d m * y' d k) m :=
        voigt_congruence hdim J _ hq
    _ = ∑ m ∈ Finset.range (strainSize dim), (pullBack dim J).entry q m *
          pairing n dim x' y' m := by
        simp only [pairing_eq_voigt]

/-- The change of axes takes strains to the components of the turned tensor. -/
theorem congruent_tensor (hdim : dim ≤ 3) {J v w : Mat K} (hJ : J.rows = dim ∧ J.cols = dim)
    (h : (pullBack dim J).mul v = .ok w) :
    J.Congruent (tensor dim v) (tensor dim w) := by
  obtain ⟨-, -, hentry⟩ := Mat.mul_eq_ok h
  let E (i j : ℕ) : K := ∑ m ∈ Finset.range dim, ∑ n ∈ Finset.range dim,
    J.entry m i * J.entry n j * (tensor dim v).entry m n
  have hE (i j : ℕ) : E i j = E j i := by
    simp only [E]
    rw [Finset.sum_comm]
    apply Finset.sum_congr rfl
    intro n hn
    apply Finset.sum_congr rfl
    intro m hm
    rw [entry_tensor_comm v (Finset.mem_range.mp hm) (Finset.mem_range.mp hn)]
    ring
  have hcomponents (q : ℕ) (hq : q < strainSize dim) : w.entry q 0 = voigt dim E q := by
    rw [hentry]
    have hturned := voigt_congruence hdim J (tensor dim v).entry hq
    exact (hturned.congr fun m hm => (voigt_tensor hdim v hm).symm).symm
  apply Mat.congruent_of_entry hJ ⟨rfl, rfl⟩ ⟨rfl, rfl⟩
  intro i hi j hj
  rw [entry_tensor hdim hE hcomponents hi hj, Finset.sum_comm]
  apply Finset.sum_congr rfl
  intro n _
  apply Finset.sum_congr rfl
  intro m _
  ring

theorem pullBack_mul_eq {J v w : Mat K} (hw : w.rows = strainSize dim ∧ w.cols = v.cols)
    (hv : v.rows = strainSize dim) (h : ∀ q < strainSize dim, ∀ a < v.cols,
      Combines (strainSize dim) ((pullBack dim J).entry q) (w.entry q a) fun m => v.entry m a) :
    (pullBack dim J).mul v = .ok w :=
  Mat.mul_eq_of_entry hv.symm hw h

end Strain

end ElementFields
