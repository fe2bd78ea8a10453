import Mathlib.Algebra.BigOperators.Pi
import ElementFields.Expression.Strain
import ElementFields.Expression.Tree
import ElementFields.Proofs.Form

namespace ElementFields
open Scalar
open scoped BigOperators

variable {K : Type} [ExactScalar K]

namespace Strain

def voigtPair (dim m : ℕ) : ℕ × ℕ :=
  if m < dim then (m, m) else (shearPairs dim).getD (m - dim) (0, 0)

/-- A diagonal component counts the product of its axes once, a shear component twice. -/
def voigtWeight (p : ℕ × ℕ) : K := if p.1 = p.2 then 1 / 2 else 1

/-- The symmetric pairing of two families of vectors with `n` components, in the Voigt component `m`.
Component `d` of the vector for axis `k` is `x d k`. -/
def pairing (n dim : ℕ) (x y : ℕ → ℕ → K) (m : ℕ) : K :=
  voigtWeight (voigtPair dim m) * ∑ d ∈ Finset.range n,
    (x d (voigtPair dim m).1 * y d (voigtPair dim m).2 +
      y d (voigtPair dim m).1 * x d (voigtPair dim m).2)

theorem ne_of_mem_shearPairs {dim : ℕ} {p : ℕ × ℕ} (h : p ∈ shearPairs dim) : p.1 ≠ p.2 := by
  unfold shearPairs at h
  split at h
  · simp only [List.mem_singleton] at h
    subst h
    decide
  · simp only [List.mem_cons, List.not_mem_nil, or_false] at h
    rcases h with rfl | rfl | rfl <;> decide
  · exact absurd h List.not_mem_nil

/-- The axes of a shear component exist. -/
theorem lt_of_mem_shearPairs {dim i j : ℕ} (h : (i, j) ∈ shearPairs dim) : i < dim ∧ j < dim := by
  unfold shearPairs at h
  split at h
  · obtain ⟨rfl, rfl⟩ := Prod.ext_iff.1 (List.mem_singleton.1 h)
    omega
  · simp only [List.mem_cons, Prod.mk.injEq, List.not_mem_nil, or_false] at h
    omega
  · exact absurd h List.not_mem_nil

theorem exists_shearPair {dim q : ℕ} (h : q < (shearPairs dim).length) :
    ∃ i j, (shearPairs dim)[q]? = some (i, j) :=
  ⟨_, _, List.getElem?_eq_getElem h⟩

theorem add_length_shearPairs {dim : ℕ} (h : dim ≤ 3) :
    dim + (shearPairs dim).length = strainSize dim := by
  rcases (by omega : dim = 0 ∨ dim = 1 ∨ dim = 2 ∨ dim = 3) with rfl | rfl | rfl | rfl <;> rfl

theorem lt_of_mem_strainSize {dim s : ℕ} (hdim : dim ≤ 3) (h : s ∈ Finset.range (strainSize dim)) :
    s < dim + (shearPairs dim).length := by
  rw [add_length_shearPairs hdim]
  exact Finset.mem_range.mp h

section Pairing

variable {n dim m : ℕ}

theorem pairing_diagonal (hm : m < dim) (x y : ℕ → ℕ → K) :
    pairing n dim x y m = 1 / 2 * ∑ d ∈ Finset.range n, (x d m * y d m + y d m * x d m) := by
  simp only [pairing, voigtPair, voigtWeight, if_pos hm, if_true]

theorem pairing_shear {i j q : ℕ} (hq : (shearPairs dim)[q]? = some (i, j)) (x y : ℕ → ℕ → K) :
    pairing n dim x y (dim + q) = ∑ d ∈ Finset.range n, (x d i * y d j + y d i * x d j) := by
  have hp : voigtPair dim (dim + q) = (i, j) := by
    rw [voigtPair, if_neg (by omega), Nat.add_sub_cancel_left, List.getD_eq_getElem?_getD, hq]
    rfl
  have hne : i ≠ j := ne_of_mem_shearPairs (List.mem_of_getElem? hq)
  simp only [pairing, hp, voigtWeight, if_neg hne, one_mul]

theorem pairing_comm (x y : ℕ → ℕ → K) (m : ℕ) : pairing n dim x y m = pairing n dim y x m := by
  simp only [pairing, add_comm]

/-- The axes of a component are axes of the element. -/
theorem voigtPair_lt {m : ℕ} (hm : m < dim + (shearPairs dim).length) :
    (voigtPair dim m).1 < dim ∧ (voigtPair dim m).2 < dim := by
  by_cases hmd : m < dim
  · rw [voigtPair, if_pos hmd]
    exact ⟨hmd, hmd⟩
  · obtain ⟨i, j, hij⟩ := exists_shearPair (show m - dim < (shearPairs dim).length by omega)
    rw [voigtPair, if_neg hmd, List.getD_eq_getElem?_getD, hij]
    exact lt_of_mem_shearPairs (List.mem_of_getElem? hij)

theorem pairing_congr {x x' y y' : ℕ → ℕ → K}
    (hx : ∀ d < n, ∀ k < dim, x d k = x' d k) (hy : ∀ d < n, ∀ k < dim, y d k = y' d k) {m : ℕ}
    (hm : m < dim + (shearPairs dim).length) : pairing n dim x y m = pairing n dim x' y' m := by
  obtain ⟨h₁, h₂⟩ := voigtPair_lt hm
  rw [pairing, pairing]
  congr 1
  refine Finset.sum_congr rfl fun d hd => ?_
  have hd := Finset.mem_range.mp hd
  rw [hx d hd _ h₁, hx d hd _ h₂, hy d hd _ h₁, hy d hd _ h₂]

theorem pairing_add (x y z : ℕ → ℕ → K) (m : ℕ) :
    pairing n dim x (fun d k => y d k + z d k) m = pairing n dim x y m + pairing n dim x z m := by
  simp only [pairing, ← mul_add, ← Finset.sum_add_distrib]
  congr 1
  exact Finset.sum_congr rfl fun d _ => by ring

theorem pairing_add_left (x y z : ℕ → ℕ → K) (m : ℕ) :
    pairing n dim (fun d k => x d k + y d k) z m = pairing n dim x z m + pairing n dim y z m := by
  rw [pairing_comm, pairing_add, pairing_comm z x, pairing_comm z y]

theorem pairing_eq_zero {x y : ℕ → ℕ → K}
    (h : (∀ d k, x d k = 0) ∨ ∀ d k, y d k = 0) : pairing n dim x y m = 0 := by
  have hterm (d i j : ℕ) : x d i * y d j + y d i * x d j = 0 := by
    rcases h with h | h
    · rw [h, h, zero_mul, mul_zero, add_zero]
    · rw [h, h, zero_mul, mul_zero, add_zero]
  simp only [pairing, hterm, Finset.sum_const_zero, mul_zero]

end Pairing

def gradientRequest (site : Site K) : Request K := { site, directions := { spatial := some .all } }

def variationRequest (site : Site K) (c : Coefficient) : Request K :=
  { site, directions := { spatial := some .all, coefficients := .single c } }

def gradientOf (u : Operand K) (site : Site K) (d k : ℕ) : K := u.entry (gradientRequest site) 0 d k

def variationOf (u : Operand K) (site : Site K) (c : Coefficient) (a d k : ℕ) : K :=
  u.entry (variationRequest site c) k d a

theorem diagonal_eq_ok {A S : Mat K} {i : ℕ} {x : K} (h : diagonal A S i = .ok x) :
    A.rows = S.rows ∧ x = ∑ d ∈ Finset.range S.rows, A.entry d i * S.entry d i +
      1 / 2 * ∑ d ∈ Finset.range S.rows, S.entry d i * S.entry d i := by
  obtain ⟨ui, hui, h⟩ := bind_eq_ok_iff.1 h
  obtain ⟨Ai, hAi, h⟩ := bind_eq_ok_iff.1 h
  obtain ⟨y, hy, h⟩ := bind_eq_ok_iff.1 h
  rw [pure_eq_ok_iff] at h
  obtain ⟨-, rfl⟩ := Mat.columnAt_eq_ok hui
  obtain ⟨-, rfl⟩ := Mat.columnAt_eq_ok hAi
  obtain ⟨hs, rfl⟩ := require_eq_ok.1 hy
  rw [Mat.size_columnVec, Mat.size_columnVec] at hs
  refine ⟨hs, ?_⟩
  rw [← h, Vec.inner_eq_sum, Vec.inner_eq_sum, Mat.size_columnVec, Mat.size_columnVec, hs]
  simp only [Mat.entry_columnVec, Nat.cast_ofNat]

theorem shear_eq_ok {A S : Mat K} {i j : ℕ} {x : K} (h : shear A S i j = .ok x) :
    A.rows = S.rows ∧ x = ∑ d ∈ Finset.range S.rows, A.entry d i * S.entry d j +
      ∑ d ∈ Finset.range S.rows, S.entry d i * A.entry d j +
      ∑ d ∈ Finset.range S.rows, S.entry d i * S.entry d j := by
  obtain ⟨ui, hui, h⟩ := bind_eq_ok_iff.1 h
  obtain ⟨uj, huj, h⟩ := bind_eq_ok_iff.1 h
  obtain ⟨Ai, hAi, h⟩ := bind_eq_ok_iff.1 h
  obtain ⟨y, hy, h⟩ := bind_eq_ok_iff.1 h
  obtain ⟨Aj, hAj, h⟩ := bind_eq_ok_iff.1 h
  obtain ⟨z, hz, h⟩ := bind_eq_ok_iff.1 h
  obtain ⟨w, hw, h⟩ := bind_eq_ok_iff.1 h
  rw [pure_eq_ok_iff] at h
  obtain ⟨-, rfl⟩ := Mat.columnAt_eq_ok hui
  obtain ⟨-, rfl⟩ := Mat.columnAt_eq_ok huj
  obtain ⟨-, rfl⟩ := Mat.columnAt_eq_ok hAi
  obtain ⟨-, rfl⟩ := Mat.columnAt_eq_ok hAj
  obtain ⟨hs, rfl⟩ := require_eq_ok.1 hy
  obtain ⟨-, rfl⟩ := require_eq_ok.1 hz
  obtain ⟨-, rfl⟩ := require_eq_ok.1 hw
  rw [Mat.size_columnVec, Mat.size_columnVec] at hs
  refine ⟨hs, ?_⟩
  rw [← h, Vec.inner_eq_sum, Vec.inner_eq_sum, Vec.inner_eq_sum, Mat.size_columnVec,
    Mat.size_columnVec, hs]
  simp only [Mat.entry_columnVec]

section Shapes

variable {A S S' : Mat K} (hr : S'.rows = S.rows) (hc : S'.cols = S.cols)
include hr hc

theorem exists_diagonal {i : ℕ} {x : K} (h : diagonal A S i = .ok x) :
    ∃ x', diagonal A S' i = .ok x' := by
  obtain ⟨ui, hui, h⟩ := bind_eq_ok_iff.1 h
  obtain ⟨Ai, hAi, h⟩ := bind_eq_ok_iff.1 h
  obtain ⟨y, hy, -⟩ := bind_eq_ok_iff.1 h
  obtain ⟨hi, rfl⟩ := Mat.columnAt_eq_ok hui
  obtain ⟨hs, -⟩ := require_eq_ok.1 hy
  have hs' : Ai.size = (S'.columnVec i).size := by
    rw [hs, Mat.size_columnVec, Mat.size_columnVec, hr]
  have hcolumn : S'.columnAt i = .ok (S'.columnVec i) := require_eq_ok.2 ⟨hc.symm ▸ hi, rfl⟩
  have hdot : Ai.dot (S'.columnVec i) = .ok (Ai.inner (S'.columnVec i)) :=
    require_eq_ok.2 ⟨hs', rfl⟩
  exact ⟨_, bind_eq_ok_iff.2 ⟨_, hcolumn, bind_eq_ok_iff.2 ⟨Ai, hAi,
    bind_eq_ok_iff.2 ⟨_, hdot, rfl⟩⟩⟩⟩

theorem exists_shear {i j : ℕ} {x : K} (h : shear A S i j = .ok x) :
    ∃ x', shear A S' i j = .ok x' := by
  obtain ⟨ui, hui, h⟩ := bind_eq_ok_iff.1 h
  obtain ⟨uj, huj, h⟩ := bind_eq_ok_iff.1 h
  obtain ⟨Ai, hAi, h⟩ := bind_eq_ok_iff.1 h
  obtain ⟨y, hy, h⟩ := bind_eq_ok_iff.1 h
  obtain ⟨Aj, hAj, h⟩ := bind_eq_ok_iff.1 h
  obtain ⟨z, hz, -⟩ := bind_eq_ok_iff.1 h
  obtain ⟨hi, rfl⟩ := Mat.columnAt_eq_ok hui
  obtain ⟨hj, rfl⟩ := Mat.columnAt_eq_ok huj
  obtain ⟨hy, -⟩ := require_eq_ok.1 hy
  obtain ⟨hz, -⟩ := require_eq_ok.1 hz
  have hsize (k : ℕ) : (S'.columnVec k).size = (S.columnVec k).size := by
    rw [Mat.size_columnVec, Mat.size_columnVec, hr]
  have hcolumn {k : ℕ} (hk : k < S.cols) : S'.columnAt k = .ok (S'.columnVec k) :=
    require_eq_ok.2 ⟨hc.symm ▸ hk, rfl⟩
  have hdot {v w : Vec K} (hvw : v.size = w.size) : v.dot w = .ok (v.inner w) :=
    require_eq_ok.2 ⟨hvw, rfl⟩
  have hy' := hdot (hy.trans (hsize j).symm)
  have hz' := hdot ((hsize i).trans hz)
  have hw' := hdot (v := S'.columnVec i) (w := S'.columnVec j) (by simp only [Mat.size_columnVec])
  exact ⟨_, bind_eq_ok_iff.2 ⟨_, hcolumn hi, bind_eq_ok_iff.2 ⟨_, hcolumn hj,
    bind_eq_ok_iff.2 ⟨Ai, hAi, bind_eq_ok_iff.2 ⟨_, hy', bind_eq_ok_iff.2 ⟨Aj, hAj,
      bind_eq_ok_iff.2 ⟨_, hz', bind_eq_ok_iff.2 ⟨_, hw', rfl⟩⟩⟩⟩⟩⟩⟩⟩

end Shapes

variable {u : Operand K} {dim : ℕ} {C : BlockId → ℕ} {r : Request K} {D : Derivative K}
  {reference : Site K → Outcome (Mat K)}

/-- The displacement gradient, entry by entry. -/
theorem displacementGradient_eq_ok {d : Directions} (hu : u.Formed dim dim C d) {S : Mat K}
    (h : displacementGradient u r = .ok S) :
    u.Answers (gradientRequest r.site) ∧ (S.rows = dim ∧ S.cols = dim) ∧
      ∀ i j, S.entry i j = gradientOf u r.site i j :=
  Operand.derivativeMatrix_eq_ok hu
    ⟨Or.inr (Or.inr rfl), fun _ hc => absurd hc List.not_mem_nil⟩ (Request.fits_of_none rfl)
    (Directions.form_spatial (s := .all) rfl rfl) h

omit [ExactScalar K] in
theorem width_eq {ms : List (Mat K)} {cols : ℕ} (hl : 0 < ms.length)
    (h : ∀ k, k < ms.length → ∃ m, ms[k]? = some m ∧ m.cols = cols) : width ms = cols := by
  obtain ⟨m, hm, hc⟩ := h 0 hl
  rw [width, List.head?_eq_getElem?, hm]
  exact hc

structure IsVariation (u : Operand K) (site : Site K) (dim : ℕ) (C : BlockId → ℕ) (c : Coefficient)
    (ms : List (Mat K)) : Prop where
  width : 0 < dim → width ms = C c.block
  component : ∀ {k m}, (liftM (componentAt ms k) : Outcome (Mat K)) = .ok m →
    k < dim ∧ (m.rows = dim ∧ m.cols = C c.block) ∧ ∀ i a, m.entry i a = variationOf u site c a i k

theorem variation_eq_ok {d : Directions} (hu : u.Formed dim dim C d) {c : Coefficient}
    (hc : c ∈ d.coefficientList) {ms : List (Mat K)} (h : variation u r c = .ok ms) :
    u.Answers (variationRequest r.site c) ∧ IsVariation u r.site dim C c ms := by
  obtain ⟨D, hD, h⟩ := bind_eq_ok_iff.1 h
  rw [pure_eq_ok_iff] at h
  subst h
  have hF := hu.derivative (variationRequest r.site c) D
    ⟨Or.inr (Or.inr rfl), fun _ hm => List.mem_singleton.1 hm ▸ hc⟩ (Request.fits_of_single rfl) hD
  rw [Directions.form_all (c := c) rfl rfl] at hF
  obtain ⟨ms, rfl, hl, hm⟩ := hF.exists_perDirection
  have hget (k : ℕ) (hk : k < dim) : ∃ m, ms[k]? = some m ∧ (m.rows = dim ∧ m.cols = C c.block) ∧
      ∀ i a, m.entry i a = variationOf u r.site c a i k := by
    have hk' : k < ms.length := hl ▸ hk
    have hg : ms[k]? = some ms[k] := List.getElem?_eq_getElem hk'
    refine ⟨ms[k], hg, hm _ (List.getElem_mem hk'), fun i a => ?_⟩
    rw [variationOf, Operand.entry_of_ok (r := variationRequest r.site c) hD,
      Derivative.entry_perDirection hg]
  refine ⟨⟨_, hD⟩, fun hdim => width_eq (hl ▸ hdim) fun k hk => ?_, componentAt_eq_ok hl hget⟩
  obtain ⟨m, hm, hs, -⟩ := hget k (hl ▸ hk)
  exact ⟨m, hm, hs.2⟩

theorem value_eq_ok {d : Directions} (hu : u.Formed dim dim C d) {site : Site K} {m : Mat K}
    (h : value dim reference u site = .ok m) :
    ∃ A, reference site = .ok A ∧ u.Answers (gradientRequest site) ∧ (0 < dim → A.rows = dim) ∧
      (m.rows = dim + (shearPairs dim).length ∧ m.cols = 1) ∧
      ∀ q, q < dim + (shearPairs dim).length → m.entry q 0 =
        pairing dim dim A.entry (gradientOf u site) q +
          1 / 2 * pairing dim dim (gradientOf u site) (gradientOf u site) q := by
  obtain ⟨A, hA, h⟩ := bind_eq_ok_iff.1 h
  obtain ⟨S, hS, h⟩ := bind_eq_ok_iff.1 h
  obtain ⟨xs, hxs, h⟩ := bind_eq_ok_iff.1 h
  obtain ⟨ys, hys, h⟩ := bind_eq_ok_iff.1 h
  rw [pure_eq_ok_iff] at h
  subst h
  obtain ⟨hans, ⟨hSr, -⟩, hSe⟩ := displacementGradient_eq_ok hu hS
  have hSe (i j : ℕ) : S.entry i j = gradientOf u site i j := hSe i j
  obtain ⟨hxl, hxe⟩ := mapM_eq_ok hxs
  obtain ⟨hyl, hye⟩ := mapM_eq_ok hys
  rw [List.length_range] at hxl
  have hdiag (i : ℕ) (hi : i < dim) : A.rows = dim ∧ xs[i]? = some
      (∑ d ∈ Finset.range dim, A.entry d i * gradientOf u site d i +
        1 / 2 * ∑ d ∈ Finset.range dim, gradientOf u site d i * gradientOf u site d i) := by
    obtain ⟨x, hx, hd⟩ := hxe i i (List.getElem?_range hi)
    obtain ⟨hAr, rfl⟩ := diagonal_eq_ok (lift_eq_ok_iff.1 hd)
    rw [hSr] at hAr
    simp only [hSr, hSe] at hx
    exact ⟨hAr, hx⟩
  refine ⟨A, hA, hans, fun h0 => (hdiag 0 h0).1, ⟨by simp [hxl, hyl], rfl⟩, ?_⟩
  intro q hq
  rw [Mat.entry_column, Vec.entry, Array.getD_eq_getD_getElem?, List.getElem?_toArray]
  by_cases hqd : q < dim
  · rw [List.getElem?_append_left (hxl ▸ hqd), (hdiag q hqd).2, pairing_diagonal hqd,
      pairing_diagonal hqd, Option.getD_some]
    simp only [Finset.sum_add_distrib, mul_comm (gradientOf u site _ q) (A.entry _ q)]
    ring
  · obtain ⟨p, rfl⟩ := Nat.exists_eq_add_of_le (Nat.le_of_not_lt hqd)
    have hp : p < (shearPairs dim).length := by omega
    obtain ⟨i, j, hij⟩ := exists_shearPair hp
    obtain ⟨y, hy, hd⟩ := hye p (i, j) hij
    obtain ⟨-, rfl⟩ := shear_eq_ok (lift_eq_ok_iff.1 hd)
    rw [List.getElem?_append_right (by omega), hxl, Nat.add_sub_cancel_left, hy, Option.getD_some,
      pairing_shear hij, pairing_shear hij]
    simp only [hSr, hSe, Finset.sum_add_distrib]
    ring

/-- Whether the strains are answered depends on the shape of the gradient only. -/
theorem exists_value {d : Directions} {u' : Operand K} {site : Site K}
    (hu : u.Formed dim dim C d) (hu' : u'.Formed dim dim C d) {m : Mat K}
    (h : value dim reference u site = .ok m) (h' : u'.Answers (gradientRequest site)) :
    ∃ m', value dim reference u' site = .ok m' := by
  obtain ⟨A, hA, h⟩ := bind_eq_ok_iff.1 h
  obtain ⟨S, hS, h⟩ := bind_eq_ok_iff.1 h
  obtain ⟨xs, hxs, h⟩ := bind_eq_ok_iff.1 h
  obtain ⟨ys, hys, -⟩ := bind_eq_ok_iff.1 h
  obtain ⟨S', hS'⟩ : ∃ S', displacementGradient u' { site, directions := .value } = .ok S' :=
    Operand.exists_derivativeMatrix hu'
      ⟨Or.inr (Or.inr rfl), fun _ hc => absurd hc List.not_mem_nil⟩ (Request.fits_of_none rfl)
      (Directions.form_spatial (s := .all) rfl rfl) h'
  obtain ⟨-, hshape, -⟩ := displacementGradient_eq_ok hu hS
  obtain ⟨-, hshape', -⟩ := displacementGradient_eq_ok hu' hS'
  have hrows : S'.rows = S.rows := hshape'.1.trans hshape.1.symm
  have hcols : S'.cols = S.cols := hshape'.2.trans hshape.2.symm
  have hdiagonal : ∀ i ∈ List.range dim, ∃ x, (liftM (diagonal A S' i) : Outcome K) = .ok x := by
    intro i hi
    obtain ⟨x, hx⟩ := exists_of_mem_mapM hxs hi
    exact (exists_diagonal hrows hcols (lift_eq_ok_iff.1 hx)).imp fun _ => lift_eq_ok_iff.2
  have hshear : ∀ p ∈ shearPairs dim,
      ∃ x, (liftM (shear A S' p.1 p.2) : Outcome K) = .ok x := by
    intro p hp
    obtain ⟨y, hy⟩ := exists_of_mem_mapM hys hp
    exact (exists_shear hrows hcols (lift_eq_ok_iff.1 hy)).imp fun _ => lift_eq_ok_iff.2
  obtain ⟨xs', hxs'⟩ := exists_mapM hdiagonal
  obtain ⟨ys', hys'⟩ := exists_mapM hshear
  exact ⟨_, bind_eq_ok_iff.2 ⟨A, hA, bind_eq_ok_iff.2 ⟨S', hS', bind_eq_ok_iff.2 ⟨xs', hxs',
    bind_eq_ok_iff.2 ⟨ys', hys', rfl⟩⟩⟩⟩⟩

theorem tangentRow_eq_ok {T m x : Mat K} {i : ℕ} (h : tangentRow T i m = .ok x) :
    (x.rows = 1 ∧ x.cols = m.cols) ∧
      ∀ a, x.entry 0 a = ∑ d ∈ Finset.range T.rows, T.entry d i * m.entry d a := by
  obtain ⟨v, hv, h⟩ := bind_eq_ok_iff.1 h
  obtain ⟨-, rfl⟩ := Mat.columnAt_eq_ok hv
  obtain ⟨-, hs, he⟩ := Mat.transposeMul_eq_ok h
  refine ⟨hs, ?_⟩
  intro a
  rw [he, Mat.rows_column, Mat.size_columnVec]
  simp only [Mat.entry_column, Mat.entry_columnVec]

/-- The first derivative pairs the current tangents, the reference tangents plus the gradient, with
the variation of the gradient. -/
theorem coefficient_eq_ok (hu : u.Formed dim dim C r.directions) (hdim : 0 < dim)
    {c : Coefficient} (hs : r.directions.spatial = none) (hc : r.directions.coefficients = .single c)
    (h : coefficient dim reference u r c = .ok D) :
    ∃ A, reference r.site = .ok A ∧ A.rows = dim ∧
      (u.Answers (gradientRequest r.site) ∧ u.Answers (variationRequest r.site c)) ∧
      D.HasForm (r.directions.form (dim + (shearPairs dim).length) dim C) ∧
      ∀ q, q < dim + (shearPairs dim).length → ∀ a, a < C c.block → D.entry 0 q a =
        pairing dim dim (fun d k => A.entry d k + gradientOf u r.site d k)
          (variationOf u r.site c a) q := by
  obtain ⟨A, hA, h⟩ := bind_eq_ok_iff.1 h
  obtain ⟨S, hS, h⟩ := bind_eq_ok_iff.1 h
  obtain ⟨T, hT, h⟩ := bind_eq_ok_iff.1 h
  obtain ⟨δ, hδ, h⟩ := bind_eq_ok_iff.1 h
  obtain ⟨xs, hxs, h⟩ := bind_eq_ok_iff.1 h
  obtain ⟨ys, hys, h⟩ := bind_eq_ok_iff.1 h
  obtain ⟨m, hm, h⟩ := bind_eq_ok_iff.1 h
  rw [pure_eq_ok_iff] at h
  subst h
  obtain ⟨h1, ⟨hSr, -⟩, hSe⟩ := displacementGradient_eq_ok hu hS
  obtain ⟨h2, hδ⟩ := variation_eq_ok hu (Directions.mem_coefficientList hc) hδ
  obtain ⟨⟨hAr, -⟩, ⟨hTr, -⟩, hTe⟩ := Mat.add_eq_ok (lift_eq_ok_iff.1 hT)
  obtain ⟨hxl, hxe⟩ := mapM_eq_ok hxs
  obtain ⟨hyl, hye⟩ := mapM_eq_ok hys
  rw [List.length_range] at hxl
  rw [hAr.trans hSr] at hTr
  obtain ⟨-, hms, hme⟩ := Mat.ofRows_eq_ok (lift_eq_ok_iff.1 hm)
  rw [hδ.width hdim] at hms hme
  refine ⟨A, hA, hAr.trans hSr, ⟨h1, h2⟩, ?_, ?_⟩
  · rw [Directions.form_single hs hc]
    exact ⟨by rw [hms.1, List.length_append, hxl, hyl], hms.2⟩
  intro q hq a ha
  rw [Derivative.entry_matrix]
  -- The rows of the diagonal strains come first, those of the shears behind them.
  by_cases hqd : q < dim
  · obtain ⟨x, hx, hd⟩ := hxe q q (List.getElem?_range hqd)
    obtain ⟨n, hn, hd⟩ := bind_eq_ok_iff.1 hd
    obtain ⟨-, hre⟩ := tangentRow_eq_ok (lift_eq_ok_iff.1 hd)
    obtain ⟨-, -, hne⟩ := hδ.component hn
    rw [hme q x (by rw [List.getElem?_append_left (hxl ▸ hqd), hx]) a ha, hre, hTr,
      pairing_diagonal hqd]
    simp only [hTe, hSe, hne, Finset.sum_add_distrib,
      mul_comm (variationOf u r.site c a _ q) (_ + _)]
    ring
  · obtain ⟨p, rfl⟩ := Nat.exists_eq_add_of_le (Nat.le_of_not_lt hqd)
    have hp : p < (shearPairs dim).length := by omega
    obtain ⟨i, j, hij⟩ := exists_shearPair hp
    obtain ⟨y, hy, hd⟩ := hye p (i, j) hij
    obtain ⟨δi, hδi, hd⟩ := bind_eq_ok_iff.1 hd
    obtain ⟨z, hz, hd⟩ := bind_eq_ok_iff.1 hd
    obtain ⟨δj, hδj, hd⟩ := bind_eq_ok_iff.1 hd
    obtain ⟨w, hw, hd⟩ := bind_eq_ok_iff.1 hd
    obtain ⟨-, -, hδie⟩ := hδ.component hδi
    obtain ⟨-, -, hδje⟩ := hδ.component hδj
    obtain ⟨-, hze⟩ := tangentRow_eq_ok (lift_eq_ok_iff.1 hz)
    obtain ⟨-, hwe⟩ := tangentRow_eq_ok (lift_eq_ok_iff.1 hw)
    obtain ⟨-, -, hye⟩ := Mat.add_eq_ok (lift_eq_ok_iff.1 hd)
    have hmy : m.entry (dim + p) a = y.entry 0 a := by
      refine hme (dim + p) y ?_ a ha
      rw [List.getElem?_append_right (by omega), hxl, Nat.add_sub_cancel_left, hy]
    rw [hmy, hye, hze, hwe, hTr, pairing_shear hij]
    simp only [hTe, hSe, hδie, hδje, Finset.sum_add_distrib, mul_comm (variationOf u r.site c a _ i)]
    ring

section Pairs

variable {site : Site K} {c₁ c₂ : Coefficient} {δ ε : List (Mat K)} {stress : Vec K} {sum z : Mat K}
  (hδ : IsVariation u site dim C c₁ δ) (hε : IsVariation u site dim C c₂ ε)
  (hsum : sum.rows = C c₁.block ∧ sum.cols = C c₂.block)
include hδ hε hsum

/-- What the diagonal strain `i` adds to the sum. -/
theorem addDiagonal_eq_ok {i : ℕ}
    (h : (do
      let product ← (← componentAt δ i).transposeMul (← componentAt ε i)
      sum.add (product.scale (← stress.component i)) : Outcome (Mat K)) = .ok z) :
    (z.rows = C c₁.block ∧ z.cols = C c₂.block) ∧ z.entry = sum.entry + fun a b =>
      stress.entry i * pairing dim dim (variationOf u site c₁ a) (variationOf u site c₂ b) i := by
  obtain ⟨δi, hδi, h⟩ := bind_eq_ok_iff.1 h
  obtain ⟨εi, hεi, h⟩ := bind_eq_ok_iff.1 h
  obtain ⟨p, hp, h⟩ := bind_eq_ok_iff.1 h
  obtain ⟨w, hw, h⟩ := bind_eq_ok_iff.1 h
  obtain ⟨hi, hδis, hδie⟩ := hδ.component hδi
  obtain ⟨-, -, hεie⟩ := hε.component hεi
  obtain ⟨-, -, hpe⟩ := Mat.transposeMul_eq_ok (lift_eq_ok_iff.1 hp)
  obtain ⟨-, rfl⟩ := require_eq_ok.1 (lift_eq_ok_iff.1 hw)
  obtain ⟨-, hzs, hze⟩ := Mat.add_eq_ok (lift_eq_ok_iff.1 h)
  refine ⟨⟨hzs.1.trans hsum.1, hzs.2.trans hsum.2⟩, ?_⟩
  funext a b
  rw [Pi.add_apply, Pi.add_apply, hze, Mat.entry_scale, hpe, hδis.1, pairing_diagonal hi]
  simp only [hδie, hεie, Finset.sum_add_distrib, mul_comm (variationOf u site c₂ b _ i)]
  ring

/-- What the shear of the axes `i` and `j` adds to the sum. -/
theorem addShear_eq_ok {i j q : ℕ}
    (h : (do
      let product ← (← componentAt δ i).transposeMul (← componentAt ε j)
      let swapped ← (← componentAt δ j).transposeMul (← componentAt ε i)
      sum.add ((← product.add swapped).scale (← stress.component (dim + q))) :
        Outcome (Mat K)) = .ok z) :
    (z.rows = C c₁.block ∧ z.cols = C c₂.block) ∧ z.entry = sum.entry + fun a b =>
      stress.entry (dim + q) * ∑ d ∈ Finset.range dim,
        (variationOf u site c₁ a d i * variationOf u site c₂ b d j +
          variationOf u site c₂ b d i * variationOf u site c₁ a d j) := by
  obtain ⟨δi, hδi, h⟩ := bind_eq_ok_iff.1 h
  obtain ⟨εj, hεj, h⟩ := bind_eq_ok_iff.1 h
  obtain ⟨p, hp, h⟩ := bind_eq_ok_iff.1 h
  obtain ⟨δj, hδj, h⟩ := bind_eq_ok_iff.1 h
  obtain ⟨εi, hεi, h⟩ := bind_eq_ok_iff.1 h
  obtain ⟨p', hp', h⟩ := bind_eq_ok_iff.1 h
  obtain ⟨v, hv, h⟩ := bind_eq_ok_iff.1 h
  obtain ⟨w, hw, h⟩ := bind_eq_ok_iff.1 h
  obtain ⟨-, hδis, hδie⟩ := hδ.component hδi
  obtain ⟨-, hδjs, hδje⟩ := hδ.component hδj
  obtain ⟨-, -, hεie⟩ := hε.component hεi
  obtain ⟨-, -, hεje⟩ := hε.component hεj
  obtain ⟨-, -, hpe⟩ := Mat.transposeMul_eq_ok (lift_eq_ok_iff.1 hp)
  obtain ⟨-, -, hpe'⟩ := Mat.transposeMul_eq_ok (lift_eq_ok_iff.1 hp')
  obtain ⟨-, -, hve⟩ := Mat.add_eq_ok (lift_eq_ok_iff.1 hv)
  obtain ⟨-, rfl⟩ := require_eq_ok.1 (lift_eq_ok_iff.1 hw)
  obtain ⟨-, hzs, hze⟩ := Mat.add_eq_ok (lift_eq_ok_iff.1 h)
  refine ⟨⟨hzs.1.trans hsum.1, hzs.2.trans hsum.2⟩, ?_⟩
  funext a b
  rw [Pi.add_apply, Pi.add_apply, hze, Mat.entry_scale, hve, hpe, hpe', hδis.1, hδjs.1]
  simp only [hδie, hδje, hεie, hεje, Finset.sum_add_distrib, mul_comm (variationOf u site c₁ a _ j)]
  ring

end Pairs

/-- The second derivative pairs the two variations, weighted by the stress. -/
theorem second_eq_ok (hu : u.Formed dim dim C r.directions) (hdim : 0 < dim)
    {c₁ c₂ : Coefficient} (hc : r.directions.coefficients = .two c₁ c₂)
    (h : second dim u r c₁ c₂ = .ok D) :
    ∃ W, r.along = some W ∧
      (u.Answers (variationRequest r.site c₁) ∧ u.Answers (variationRequest r.site c₂)) ∧
      D.HasForm (r.directions.form (dim + (shearPairs dim).length) dim C) ∧
      ∀ a b, D.entry 0 a b = ∑ q ∈ Finset.range (dim + (shearPairs dim).length),
        W.flatten.entry q *
          pairing dim dim (variationOf u r.site c₁ a) (variationOf u r.site c₂ b) q := by
  obtain ⟨hmem₁, hmem₂⟩ := Directions.mem_coefficientList_two hc
  obtain ⟨W, hW, h⟩ := bind_eq_ok_iff.1 h
  obtain ⟨δ, hδ, h⟩ := bind_eq_ok_iff.1 h
  obtain ⟨ε, hε, h⟩ := bind_eq_ok_iff.1 h
  obtain ⟨x, hx, h⟩ := bind_eq_ok_iff.1 h
  obtain ⟨y, hy, h⟩ := bind_eq_ok_iff.1 h
  rw [pure_eq_ok_iff] at h
  subst h
  obtain ⟨h1, hδ⟩ := variation_eq_ok hu hmem₁ hδ
  obtain ⟨h2, hε⟩ := variation_eq_ok hu hmem₂ hε
  -- Two folds into one sum: the diagonal strains first, then the shears, on top of the result.
  obtain ⟨hxs, hxe⟩ := foldlM_adds (fun m : Mat K => m.rows = C c₁.block ∧ m.cols = C c₂.block)
    Mat.entry _ (fun m i z hm hz => addDiagonal_eq_ok hδ hε hm hz) ⟨hδ.width hdim, hε.width hdim⟩ hx
  obtain ⟨hys, hye⟩ := foldlM_adds (fun m : Mat K => m.rows = C c₁.block ∧ m.cols = C c₂.block)
    Mat.entry _ (fun m item z hm hz => addShear_eq_ok hδ hε hm hz) hxs hy
  refine ⟨W, ofOption_eq_ok_iff.1 hW, ⟨h1, h2⟩, ?_, fun a b => ?_⟩
  · rw [Directions.form_two hc]
    exact hys
  · have hzero : (Mat.zero (width δ) (width ε) : Mat K).entry = 0 := by
      funext i j
      exact Mat.entry_zero _ _ i j
    rw [Derivative.entry_matrix, hye, hxe, hzero, zero_add, sum_map_range, sum_map_zipIdx (0, 0),
      Finset.sum_range_add]
    simp only [Pi.add_apply, Finset.sum_apply]
    congr 1
    refine Finset.sum_congr rfl fun q hq => ?_
    obtain ⟨i, j, hij⟩ := exists_shearPair (Finset.mem_range.mp hq)
    rw [pairing_shear hij, List.getD_eq_getElem?_getD, hij, Option.getD_some, Nat.zero_add]

theorem derivative_hasForm (hu : u.Formed dim dim C r.directions) (hdim : 1 ≤ dim ∧ dim ≤ 3)
    (h : derivative dim reference u r = .ok D) :
    D.HasForm (r.directions.form (strainSize dim) dim C) := by
  rw [← add_length_shearPairs hdim.2]
  rcases hs : r.directions.spatial with _ | s <;>
    rcases hc : r.directions.coefficients with _ | c | ⟨c₁, c₂⟩ <;>
    simp only [derivative, hs, hc] at h
  case none.none =>
    obtain ⟨m, hm, h⟩ := bind_eq_ok_iff.1 h
    rw [pure_eq_ok_iff] at h
    subst h
    obtain ⟨A, -, -, -, hms, -⟩ := value_eq_ok hu hm
    rw [Directions.form, hs, hc]
    exact hms
  case none.single =>
    obtain ⟨A, -, -, -, hF, -⟩ := coefficient_eq_ok hu hdim.1 hs hc h
    exact hF
  case none.two =>
    obtain ⟨W, -, -, hF, -⟩ := second_eq_ok hu hdim.1 hc h
    exact hF
  all_goals cases h

end Strain

end ElementFields
