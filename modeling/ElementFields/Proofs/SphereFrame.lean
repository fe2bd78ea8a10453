import ElementFields.Proofs.RealScalar
import ElementFields.Proofs.Entries
import ElementFields.Manifold.Basic

/-! The tangent frame of the unit sphere. Every column of the stereographic Jacobian has the length
`2 (1 + S)`, where `S` is the square of the stereographic coordinates, and at a unit point this is
`4 / (1 + |z|)` for the last coordinate `z`. -/
namespace ElementFields
open Scalar
open scoped BigOperators

theorem isPositive_iff {x : ℝ} : isPositive x = true ↔ 0 < x := by
  show decide (0 < x) = true ↔ 0 < x
  exact decide_eq_true_iff

def innerTo {K : Type} [ExactScalar K] (V : ℕ) (a b : ℕ → K) : K :=
  ∑ d ∈ Finset.range V, a d * b d

theorem Vec.inner_ofFn {K : Type} [ExactScalar K] (V : ℕ) (a b : ℕ → K) :
    (Vec.ofFn V a).inner (.ofFn V b) = innerTo V a b := by
  rw [Vec.inner_eq_sum, Vec.size_ofFn]
  refine Finset.sum_congr rfl fun d hd => ?_
  rw [Vec.entry_ofFn _ (Finset.mem_range.1 hd), Vec.entry_ofFn _ (Finset.mem_range.1 hd)]

namespace Vec

variable (v : Vec ℝ)

theorem inner_self_nonneg : 0 ≤ v.inner v := by
  rw [inner_eq_sum]
  exact Finset.sum_nonneg fun i _ => mul_self_nonneg (v.entry i)

theorem norm_nonneg : 0 ≤ v.norm := Real.sqrt_nonneg _

theorem norm_mul_self : v.norm * v.norm = v.inner v := Real.mul_self_sqrt v.inner_self_nonneg

theorem norm_eq_one_iff : v.norm = 1 ↔ v.inner v = 1 := Real.sqrt_eq_one

theorem norm_eq_zero_iff : v.norm = 0 ↔ v.inner v = 0 := Real.sqrt_eq_zero v.inner_self_nonneg

end Vec

namespace Mat

variable {K : Type} [ExactScalar K] {a b m : Mat K} {v w : Vec K}

/-- A product with a vector is known by its entries. -/
theorem mulVec_eq_of_entry (h : a.cols = v.size) (hw : w.size = a.rows)
    (he : ∀ i < a.rows, w.entry i = ∑ k ∈ Finset.range a.cols, a.entry i k * v.entry k) :
    a.mulVec v = .ok w := by
  refine Checked.require_eq_ok_iff.2 ⟨h, Vec.ext_entry ?_ fun i hi => ?_⟩
  · exact (Vec.size_ofFn _ _).trans hw.symm
  · rw [Vec.size_ofFn] at hi
    rw [Vec.entry_ofFn _ hi, sumTo_eq_sum, he i hi]

/-- A product with a transpose is known by its entries. -/
theorem transposeMul_eq_of_entry (h : a.rows = b.rows) (hm : m.rows = a.cols ∧ m.cols = b.cols)
    (he : ∀ i < a.cols, ∀ j < b.cols,
      m.entry i j = ∑ k ∈ Finset.range a.rows, a.entry k i * b.entry k j) :
    a.transposeMul b = .ok m := by
  refine Checked.require_eq_ok_iff.2 ⟨h, ext_entry hm.1.symm hm.2.symm fun i j hi hj => ?_⟩
  rw [entry_ofFn _ (by exact hi) (by exact hj), sumTo_eq_sum, he i hi j hj]

end Mat

namespace Manifold.Point

variable {dim : ℕ} (x : (Manifold.sphere dim).Point ℝ)

theorem last_eq : x.last = dim - 1 := congrArg (· - 1) x.size_coords

noncomputable def height : ℝ := x.coords.entry (dim - 1)

/-- The sign of the hemisphere. The equator counts as southern. -/
noncomputable def side : ℝ := if 0 < x.height then 1 else -1

theorem side_mul_self : x.side * x.side = 1 := by
  rw [side]
  split
  · exact one_mul 1
  · exact neg_one_mul (-1) |>.trans (neg_neg 1)

noncomputable def elevation : ℝ := x.side * x.height

theorem elevation_nonneg : 0 ≤ x.elevation := by
  rw [elevation, side]
  split
  · rename_i h
    rw [one_mul]
    exact h.le
  · rename_i h
    rw [neg_one_mul]
    exact neg_nonneg.2 (not_lt.1 h)

theorem side_mul_elevation : x.side * x.elevation = x.height := by
  rw [elevation, ← mul_assoc, side_mul_self, one_mul]

theorem elevation_mul_self : x.elevation * x.elevation = x.height * x.height := by
  calc x.elevation * x.elevation = x.side * x.side * (x.height * x.height) := by
        rw [elevation]
        ring
    _ = x.height * x.height := by rw [side_mul_self, one_mul]

theorem one_add_elevation_ne_zero : 1 + x.elevation ≠ 0 := by
  have := x.elevation_nonneg
  linarith

theorem isPositive_last : isPositive (x.coords.entry x.last) = decide (0 < x.height) := by
  rw [last_eq]
  rfl

/-- Both hemispheres are projected by one formula. -/
theorem entry_stereographic {i : ℕ} (hi : i < dim - 1) :
    x.stereographic.entry i = x.coords.entry i / (1 + x.elevation) := by
  have hlast : x.coords.entry x.last = x.height := by rw [last_eq, height]
  rw [stereographic, Vec.entry_ofFn _ (by rwa [last_eq]), isPositive_last, hlast, elevation, side]
  by_cases h : 0 < x.height
  · simp only [h, decide_true, if_true, one_mul]
  · simp only [h, decide_false, if_false, Bool.false_eq_true, neg_one_mul, sub_eq_add_neg]

noncomputable def spread : ℝ := x.stereographic.inner x.stereographic

theorem sum_stereographic :
    ∑ i ∈ Finset.range (dim - 1), x.stereographic.entry i * x.stereographic.entry i = x.spread := by
  rw [spread, Vec.inner_eq_sum, stereographic, Vec.size_ofFn, last_eq]

theorem entry_jacobian {i j : ℕ} (hi : i < dim - 1) (hj : j < dim - 1) :
    x.stereographicJacobian.entry i j = 2 * (1 + x.spread) * delta i j -
      4 * x.stereographic.entry i * x.stereographic.entry j := by
  have hsize : x.coords.size = dim := x.size_coords
  have hlast := x.last_eq
  rw [stereographicJacobian, Mat.entry_ofFn _ (by omega) (by omega), if_pos (by omega), delta,
    spread]
  split <;> push_cast <;> ring

theorem entry_jacobian_last {j : ℕ} (hj : j < dim - 1) :
    x.stereographicJacobian.entry (dim - 1) j = -(4 * x.stereographic.entry j * x.side) := by
  have hsize : x.coords.size = dim := x.size_coords
  have hlast := x.last_eq
  rw [stereographicJacobian, Mat.entry_ofFn _ (by omega) (by omega), if_neg (by omega),
    isPositive_last, side]
  split <;> rename_i h
  · rw [if_pos (decide_eq_true_iff.1 h)]
    push_cast
    ring
  · rw [if_neg fun hp => h (decide_eq_true hp)]
    push_cast
    ring

theorem norm_jacobian {j : ℕ} (hj : j < dim - 1) :
    (x.stereographicJacobian.columnVec j).norm = 2 * (1 + x.spread) := by
  have hspread : 0 ≤ x.spread := Vec.inner_self_nonneg _
  have hrows : x.stereographicJacobian.rows = dim - 1 + 1 := by
    have hsize : x.coords.size = dim := x.size_coords
    rw [stereographicJacobian, Mat.rows_ofFn]
    omega
  set s := x.stereographic.entry with hs
  set q := x.spread with hq
  have hdelta (f : ℕ → ℝ) : ∑ i ∈ Finset.range (dim - 1), delta i j * f i = f j := by
    simp only [delta_comm _ j]
    exact sum_delta_mul hj f
  -- The terms with `s j` cancel: the square of the length is the same for every column.
  have hsquare : (x.stereographicJacobian.columnVec j).inner
      (x.stereographicJacobian.columnVec j) = (2 * (1 + q)) * (2 * (1 + q)) := by
    calc _ = (∑ i ∈ Finset.range (dim - 1), x.stereographicJacobian.entry i j *
            x.stereographicJacobian.entry i j) +
          x.stereographicJacobian.entry (dim - 1) j * x.stereographicJacobian.entry (dim - 1) j := by
          simp only [Vec.inner_eq_sum, Mat.size_columnVec, hrows, Finset.sum_range_succ,
            Mat.entry_columnVec]
      _ = (∑ i ∈ Finset.range (dim - 1), (delta i j * (4 * (1 + q) * (1 + q) * delta i j -
            16 * (1 + q) * s j * s i) + 16 * s j * s j * (s i * s i))) +
          16 * s j * s j * (x.side * x.side) := by
          congr 1
          · refine Finset.sum_congr rfl fun i hi => ?_
            rw [x.entry_jacobian (Finset.mem_range.1 hi) hj]
            ring
          · rw [x.entry_jacobian_last hj]
            ring
      _ = 4 * (1 + q) * (1 + q) - 16 * (1 + q) * s j * s j + 16 * s j * s j * q +
          16 * s j * s j := by
          rw [Finset.sum_add_distrib, hdelta, ← Finset.mul_sum, sum_stereographic, side_mul_self,
            delta, if_pos rfl]
          ring
      _ = (2 * (1 + q)) * (2 * (1 + q)) := by ring
  rw [Vec.norm, hsquare]
  exact Real.sqrt_mul_self (by linarith)

section Unit

variable {x} (hx : x.coords.norm = 1)

include hx

theorem dim_pos : 0 < dim := by
  by_contra h
  have hsize : x.coords.size = 0 := x.size_coords.trans (Nat.eq_zero_of_not_pos h)
  have hone := (Vec.norm_eq_one_iff _).1 hx
  rw [Vec.inner_eq_sum, hsize, Finset.sum_range_zero] at hone
  exact zero_ne_one hone

theorem sum_coords_mul_self :
    ∑ i ∈ Finset.range dim, x.coords.entry i * x.coords.entry i = 1 := by
  have hsize : x.coords.size = dim := x.size_coords
  rw [← (Vec.norm_eq_one_iff _).1 hx, Vec.inner_eq_sum, hsize]

theorem sum_range_dim (f : ℕ → ℝ) :
    ∑ i ∈ Finset.range dim, f i = ∑ i ∈ Finset.range (dim - 1), f i + f (dim - 1) := by
  rw [← Finset.sum_range_succ, Nat.sub_add_cancel (dim_pos hx)]

/-- The coordinates apart from the last one. -/
theorem sum_equatorial :
    ∑ i ∈ Finset.range (dim - 1), x.coords.entry i * x.coords.entry i =
      (1 - x.elevation) * (1 + x.elevation) := by
  have hsum := sum_coords_mul_self hx
  rw [sum_range_dim hx] at hsum
  have hsquare : x.coords.entry (dim - 1) * x.coords.entry (dim - 1) =
      x.elevation * x.elevation := (elevation_mul_self x).symm
  linarith

theorem one_add_spread : 1 + x.spread = 2 / (1 + x.elevation) := by
  have hne := x.one_add_elevation_ne_zero
  have hspread : x.spread = (1 - x.elevation) / (1 + x.elevation) := by
    calc x.spread = ∑ i ∈ Finset.range (dim - 1), x.coords.entry i * x.coords.entry i /
          ((1 + x.elevation) * (1 + x.elevation)) := by
          rw [← sum_stereographic]
          refine Finset.sum_congr rfl fun i hi => ?_
          rw [x.entry_stereographic (Finset.mem_range.1 hi), div_mul_div_comm]
      _ = _ := by
          rw [← Finset.sum_div, sum_equatorial hx]
          field_simp
  rw [hspread]
  field_simp
  ring

/-- Above the last row the frame is the identity, corrected along the point. -/
theorem entry_sphereFrame {i j : ℕ} (hi : i < dim - 1) (hj : j < dim - 1) :
    x.frame.entry i j =
      delta i j - x.coords.entry i / (1 + x.elevation) * x.coords.entry j := by
  have hsize : x.coords.size = dim := x.size_coords
  have hlast := x.last_eq
  have hne := x.one_add_elevation_ne_zero
  show x.sphereFrame.entry i j = _
  rw [sphereFrame, Mat.entry_ofFn _ (by omega) (by omega), x.norm_jacobian hj,
    x.entry_jacobian hi hj, one_add_spread hx, x.entry_stereographic hi, x.entry_stereographic hj]
  field_simp
  ring

/-- Without its last row the frame is symmetric. -/
theorem entry_sphereFrame_comm {i j : ℕ} (hi : i < dim - 1) (hj : j < dim - 1) :
    x.frame.entry i j = x.frame.entry j i := by
  rw [entry_sphereFrame hx hi hj, entry_sphereFrame hx hj hi, delta_comm]
  ring

theorem entry_sphereFrame_last {j : ℕ} (hj : j < dim - 1) :
    x.frame.entry (dim - 1) j = -(x.side * x.coords.entry j) := by
  have hsize : x.coords.size = dim := x.size_coords
  have hlast := x.last_eq
  have hne := x.one_add_elevation_ne_zero
  show x.sphereFrame.entry (dim - 1) j = _
  rw [sphereFrame, Mat.entry_ofFn _ (by omega) (by omega), x.norm_jacobian hj,
    x.entry_jacobian_last hj, one_add_spread hx, x.entry_stereographic hj]
  field_simp
  ring

/-- A row of the frame above the last one, against a vector. -/
theorem sum_frame_row (f : ℕ → ℝ) {i : ℕ} (hi : i < dim - 1) :
    ∑ k ∈ Finset.range (dim - 1), x.frame.entry i k * f k =
      f i - x.coords.entry i / (1 + x.elevation) *
        ∑ k ∈ Finset.range (dim - 1), x.coords.entry k * f k := by
  calc _ = ∑ k ∈ Finset.range (dim - 1), (delta i k * f k -
        x.coords.entry i / (1 + x.elevation) * (x.coords.entry k * f k)) := by
        refine Finset.sum_congr rfl fun k hk => ?_
        rw [entry_sphereFrame hx hi (Finset.mem_range.1 hk)]
        ring
    _ = _ := by rw [Finset.sum_sub_distrib, sum_delta_mul hi, ← Finset.mul_sum]

/-- A row of the frame above the last one, against the point. -/
theorem sum_frame_row_coords {i : ℕ} (hi : i < dim - 1) :
    ∑ k ∈ Finset.range (dim - 1), x.frame.entry i k * x.coords.entry k =
      x.coords.entry i * x.elevation := by
  have hne := x.one_add_elevation_ne_zero
  rw [sum_frame_row hx _ hi, sum_equatorial hx]
  field_simp
  ring

/-- A column of the frame against a vector. -/
theorem sum_frame_column (f : ℕ → ℝ) {j : ℕ} (hj : j < dim - 1) :
    ∑ i ∈ Finset.range dim, x.frame.entry i j * f i =
      f j - x.coords.entry j / (1 + x.elevation) *
        (∑ i ∈ Finset.range (dim - 1), x.coords.entry i * f i) -
        x.side * x.coords.entry j * f (dim - 1) := by
  calc _ = (∑ i ∈ Finset.range (dim - 1), x.frame.entry i j * f i) +
        x.frame.entry (dim - 1) j * f (dim - 1) := sum_range_dim hx _
    _ = (∑ i ∈ Finset.range (dim - 1), x.frame.entry j i * f i) +
        x.frame.entry (dim - 1) j * f (dim - 1) := by
        congr 1
        refine Finset.sum_congr rfl fun i hi => ?_
        rw [entry_sphereFrame_comm hx (Finset.mem_range.1 hi) hj]
    _ = _ := by
        rw [sum_frame_row hx f hj, entry_sphereFrame_last hx hj]
        ring

theorem sum_frame_coords {j : ℕ} (hj : j < dim - 1) :
    ∑ i ∈ Finset.range dim, x.frame.entry i j * x.coords.entry i = 0 := by
  have hne := x.one_add_elevation_ne_zero
  have hheight : x.coords.entry (dim - 1) = x.side * x.elevation := (side_mul_elevation x).symm
  calc _ = x.coords.entry j - x.coords.entry j / (1 + x.elevation) *
        ((1 - x.elevation) * (1 + x.elevation)) -
        x.coords.entry j * x.elevation * (x.side * x.side) := by
        rw [sum_frame_column hx _ hj, sum_equatorial hx, hheight]
        ring
    _ = 0 := by
        rw [side_mul_self]
        field_simp
        ring

/-- The columns of the frame are orthonormal. -/
theorem sum_frame_frame {j k : ℕ} (hj : j < dim - 1) (hk : k < dim - 1) :
    ∑ i ∈ Finset.range dim, x.frame.entry i j * x.frame.entry i k = delta j k := by
  have hne := x.one_add_elevation_ne_zero
  have hsum : ∑ i ∈ Finset.range (dim - 1), x.coords.entry i * x.frame.entry i k =
      x.coords.entry k * x.elevation := by
    calc _ = ∑ i ∈ Finset.range (dim - 1), x.frame.entry k i * x.coords.entry i := by
          refine Finset.sum_congr rfl fun i hi => ?_
          rw [entry_sphereFrame_comm hx (Finset.mem_range.1 hi) hk, mul_comm]
      _ = _ := sum_frame_row_coords hx hk
  calc _ = delta j k - x.coords.entry j / (1 + x.elevation) * x.coords.entry k -
        x.coords.entry j / (1 + x.elevation) * (x.coords.entry k * x.elevation) +
        x.coords.entry j * x.coords.entry k * (x.side * x.side) := by
        rw [sum_frame_column hx _ hj, hsum, entry_sphereFrame hx hj hk, entry_sphereFrame_last hx hk]
        ring
    _ = delta j k := by
        rw [side_mul_self]
        field_simp
        ring

/-- The columns of the frame and the point span the space: the rows of the two are orthonormal. -/
theorem sum_frame_rows {i j : ℕ} (hi : i < dim) (hj : j < dim) :
    ∑ k ∈ Finset.range (dim - 1), x.frame.entry i k * x.frame.entry j k =
      delta i j - x.coords.entry i * x.coords.entry j := by
  have hne := x.one_add_elevation_ne_zero
  have hheight : x.coords.entry (dim - 1) = x.side * x.elevation := (side_mul_elevation x).symm
  -- The last row against a row above it.
  have hlast {i : ℕ} (hi : i < dim - 1) :
      ∑ k ∈ Finset.range (dim - 1), x.frame.entry i k * x.frame.entry (dim - 1) k =
        -(x.coords.entry i * x.coords.entry (dim - 1)) := by
    calc _ = ∑ k ∈ Finset.range (dim - 1), x.frame.entry i k * (-(x.side * x.coords.entry k)) := by
          refine Finset.sum_congr rfl fun k hk => ?_
          rw [entry_sphereFrame_last hx (Finset.mem_range.1 hk)]
      _ = -(x.side * ∑ k ∈ Finset.range (dim - 1), x.frame.entry i k * x.coords.entry k) := by
          rw [Finset.mul_sum, ← Finset.sum_neg_distrib]
          exact Finset.sum_congr rfl fun k _ => by ring
      _ = _ := by
          rw [sum_frame_row_coords hx hi, hheight]
          ring
  rcases Nat.lt_or_ge i (dim - 1) with hi' | hi' <;> rcases Nat.lt_or_ge j (dim - 1) with hj' | hj'
  · have hrow : ∑ k ∈ Finset.range (dim - 1), x.coords.entry k * x.frame.entry j k =
        x.coords.entry j * x.elevation := by
      rw [← sum_frame_row_coords hx hj']
      exact Finset.sum_congr rfl fun k _ => mul_comm _ _
    rw [sum_frame_row hx _ hi', hrow, entry_sphereFrame hx hj' hi', delta_comm]
    field_simp
    ring
  · obtain rfl : j = dim - 1 := by omega
    rw [hlast hi', delta, if_neg (by omega), zero_sub]
  · obtain rfl : i = dim - 1 := by omega
    simp only [mul_comm (x.frame.entry (dim - 1) _)]
    rw [hlast hj', delta, if_neg (by omega), zero_sub, mul_comm]
  · obtain rfl : i = dim - 1 := by omega
    obtain rfl : j = dim - 1 := by omega
    calc _ = ∑ k ∈ Finset.range (dim - 1), x.side * x.side *
          (x.coords.entry k * x.coords.entry k) := by
          refine Finset.sum_congr rfl fun k hk => ?_
          rw [entry_sphereFrame_last hx (Finset.mem_range.1 hk)]
          ring
      _ = (1 - x.elevation) * (1 + x.elevation) := by
          rw [← Finset.mul_sum, sum_equatorial hx, side_mul_self, one_mul]
      _ = 1 - x.side * x.side * (x.elevation * x.elevation) := by
          rw [side_mul_self]
          ring
      _ = _ := by
          rw [delta, if_pos rfl, hheight]
          ring

noncomputable def tangentOf (x : (Manifold.sphere dim).Point ℝ) (s : ℕ → ℝ) (i : ℕ) : ℝ :=
  ∑ a ∈ Finset.range (dim - 1), x.frame.entry i a * s a

/-- A tangent vector is orthogonal to the point. -/
theorem innerTo_tangentOf (s : ℕ → ℝ) : innerTo dim x.coords.entry (x.tangentOf s) = 0 := by
  calc _ = ∑ a ∈ Finset.range (dim - 1),
        (∑ i ∈ Finset.range dim, x.frame.entry i a * x.coords.entry i) * s a := by
        simp only [innerTo, tangentOf, Finset.mul_sum, Finset.sum_mul]
        rw [Finset.sum_comm]
        exact Finset.sum_congr rfl fun a _ => Finset.sum_congr rfl fun i _ => by ring
    _ = 0 := by
        refine Finset.sum_eq_zero fun a ha => ?_
        rw [sum_frame_coords hx (Finset.mem_range.1 ha), zero_mul]

/-- The frame keeps inner products. -/
theorem innerTo_tangentOf_tangentOf (s r : ℕ → ℝ) :
    innerTo dim (x.tangentOf s) (x.tangentOf r) = innerTo (dim - 1) s r := by
  calc _ = ∑ i ∈ Finset.range dim, ∑ a ∈ Finset.range (dim - 1), ∑ b ∈ Finset.range (dim - 1),
        x.frame.entry i a * x.frame.entry i b * (s a * r b) := by
        simp only [innerTo, tangentOf, Finset.sum_mul_sum]
        exact Finset.sum_congr rfl fun i _ => Finset.sum_congr rfl fun a _ =>
          Finset.sum_congr rfl fun b _ => by ring
    _ = ∑ a ∈ Finset.range (dim - 1), ∑ b ∈ Finset.range (dim - 1), delta a b * (s a * r b) := by
        rw [Finset.sum_comm]
        refine Finset.sum_congr rfl fun a ha => ?_
        rw [Finset.sum_comm]
        refine Finset.sum_congr rfl fun b hb => ?_
        rw [← Finset.sum_mul, sum_frame_frame hx (Finset.mem_range.1 ha) (Finset.mem_range.1 hb)]
    _ = innerTo (dim - 1) s r :=
        Finset.sum_congr rfl fun a ha => sum_delta_mul (Finset.mem_range.1 ha) fun b => s a * r b

omit hx in
theorem rows_frame : x.frame.rows = dim := x.size_coords

omit hx in
theorem cols_frame : x.frame.cols = dim - 1 := x.last_eq

omit hx in
theorem inner_coords (v : Vec ℝ) :
    x.coords.inner v = ∑ i ∈ Finset.range dim, x.coords.entry i * v.entry i := by
  have hsize : x.coords.size = dim := x.size_coords
  rw [Vec.inner_eq_sum, hsize]

theorem frame_orthonormal : x.frame.transposeMul x.frame = .ok (.identity (dim - 1)) := by
  refine Mat.transposeMul_eq_of_entry rfl ⟨cols_frame.symm, cols_frame.symm⟩ fun j hj k hk => ?_
  rw [cols_frame] at hj hk
  rw [Mat.entry_identity hj hk, rows_frame, sum_frame_frame hx hj hk]

theorem frame_tangent : x.frame.transposeMul (.column x.coords) = .ok (.zero (dim - 1) 1) := by
  refine Mat.transposeMul_eq_of_entry rfl ⟨cols_frame.symm, rfl⟩ fun j hj k hk => ?_
  rw [cols_frame] at hj
  obtain rfl : k = 0 := Nat.lt_one_iff.1 hk
  simp only [Mat.entry_column]
  rw [Mat.entry_zero, rows_frame, sum_frame_coords hx hj]

omit hx in
/-- The part of a vector in the normal space, along the point. -/
theorem normalPart_eq {v : Vec ℝ} (hv : v.size = dim) :
    x.normalPart v = .ok (x.coords.scale (x.coords.inner v)) := by
  have hdot : x.coords.dot v = .ok (x.coords.inner v) :=
    Checked.require_eq_ok_iff.2 ⟨x.size_coords.trans hv.symm, rfl⟩
  show (do return x.coords.scale (← x.coords.dot v)) = _
  rw [hdot]
  rfl

omit hx in
theorem entry_normal (c : ℝ) {i : ℕ} (hi : i < dim) :
    (x.coords.scale c).entry i = x.coords.entry i * c :=
  Vec.entry_ofFn _ (hi.trans_eq x.size_coords.symm)

/-- The components of `v` in the frame, and the tangent vector that has them. -/
theorem exists_tangentPart {v : Vec ℝ} (hv : v.size = dim) :
    ∃ c t, x.frame.transpose.mulVec v = .ok c ∧ x.frame.mulVec c = .ok t ∧ t.size = dim ∧
      ∀ i < dim, t.entry i = v.entry i - x.coords.entry i * x.coords.inner v := by
  let c : Vec ℝ := .ofFn (dim - 1) fun k => ∑ i ∈ Finset.range dim, x.frame.entry i k * v.entry i
  let t : Vec ℝ := .ofFn dim fun i => v.entry i - x.coords.entry i * x.coords.inner v
  have hc : c.size = dim - 1 := Vec.size_ofFn _ _
  have ht : t.size = dim := Vec.size_ofFn _ _
  refine ⟨c, t, ?_, ?_, ht, fun i hi => Vec.entry_ofFn _ hi⟩
  · refine Mat.mulVec_eq_of_entry (rows_frame.trans hv.symm) (hc.trans cols_frame.symm)
      fun k hk => ?_
    rw [Mat.rows_transpose, cols_frame] at hk
    rw [Vec.entry_ofFn _ hk, Mat.cols_transpose, rows_frame]
    simp only [Mat.entry_transpose]
  · refine Mat.mulVec_eq_of_entry (cols_frame.trans hc.symm) (ht.trans rows_frame.symm)
      fun i hi => ?_
    rw [rows_frame] at hi
    rw [Vec.entry_ofFn _ hi, cols_frame]
    -- By rows, `B Bᵀ` is the identity less the projection onto the point.
    calc v.entry i - x.coords.entry i * x.coords.inner v
        = ∑ j ∈ Finset.range dim, (delta i j * v.entry j -
            x.coords.entry i * (x.coords.entry j * v.entry j)) := by
          rw [Finset.sum_sub_distrib, sum_delta_mul hi, ← Finset.mul_sum, inner_coords]
      _ = ∑ j ∈ Finset.range dim, ∑ k ∈ Finset.range (dim - 1),
            x.frame.entry i k * x.frame.entry j k * v.entry j := by
          refine Finset.sum_congr rfl fun j hj => ?_
          rw [← Finset.sum_mul, sum_frame_rows hx hi (Finset.mem_range.1 hj)]
          ring
      _ = ∑ k ∈ Finset.range (dim - 1), x.frame.entry i k * c.entry k := by
          rw [Finset.sum_comm]
          refine Finset.sum_congr rfl fun k hk => ?_
          rw [Vec.entry_ofFn _ (Finset.mem_range.1 hk), Finset.mul_sum]
          exact Finset.sum_congr rfl fun j _ => mul_assoc _ _ _

theorem frame_normal (c : ℝ) :
    x.frame.transpose.mulVec (x.coords.scale c) = .ok (.zero (dim - 1)) := by
  refine Mat.mulVec_eq_of_entry ?_ ((Vec.size_ofFn _ _).trans cols_frame.symm) fun k hk => ?_
  · exact (Vec.size_ofFn _ _).symm
  · rw [Mat.rows_transpose, cols_frame] at hk
    rw [Vec.zero, Vec.entry_ofFn _ hk, Mat.cols_transpose, rows_frame]
    calc (0 : ℝ) = c * ∑ i ∈ Finset.range dim, x.frame.entry i k * x.coords.entry i := by
          rw [sum_frame_coords hx hk, mul_zero]
      _ = _ := by
          rw [Finset.mul_sum]
          refine Finset.sum_congr rfl fun i hi => ?_
          rw [Mat.entry_transpose, entry_normal c (Finset.mem_range.1 hi)]
          ring

theorem normalPart_normal (c : ℝ) : x.normalPart (x.coords.scale c) = .ok (x.coords.scale c) := by
  have hinner : x.coords.inner (x.coords.scale c) = c := by
    calc _ = c * ∑ i ∈ Finset.range dim, x.coords.entry i * x.coords.entry i := by
          rw [inner_coords, Finset.mul_sum]
          refine Finset.sum_congr rfl fun i hi => ?_
          rw [entry_normal c (Finset.mem_range.1 hi)]
          ring
      _ = c := by rw [sum_coords_mul_self hx, mul_one]
  have hsize : (x.coords.scale c).size = dim := (Vec.size_ofFn _ _).trans x.size_coords
  rw [normalPart_eq hsize, hinner]

omit hx in
theorem curvature_eq (size : ℕ) {v : Vec ℝ} (hv : v.size = dim) :
    x.curvature size v = .ok (.scaledIdentity size (-x.coords.inner v)) := by
  have hdot : x.coords.dot v = .ok (x.coords.inner v) :=
    Checked.require_eq_ok_iff.2 ⟨x.size_coords.trans hv.symm, rfl⟩
  show (do return Mat.scaledIdentity size (-(← x.coords.dot v))) = _
  rw [hdot]
  rfl

/-- The curvature in the tangent space is that of the embedding space, seen in the frame. -/
theorem frame_scaledIdentity (s : ℝ) :
    ∃ E, (Mat.scaledIdentity dim s).mul x.frame = .ok E ∧
      x.frame.transposeMul E = .ok (.scaledIdentity (dim - 1) s) := by
  have hE : (Mat.scaledIdentity dim s).mul x.frame = .ok (x.frame.scale s) := by
    refine Mat.mul_eq_of_entry rows_frame.symm ⟨rows_frame, rfl⟩ fun i hi j _ => ?_
    have hterm (k : ℕ) (hk : k ∈ Finset.range dim) :
        (Mat.scaledIdentity dim s).entry i k * x.frame.entry k j =
          delta i k * (x.frame.entry k j * s) := by
      have hdelta : (Mat.identity dim : Mat ℝ).entry i k = delta i k :=
        Mat.entry_identity hi (Finset.mem_range.1 hk)
      rw [Mat.scaledIdentity, Mat.entry_scale, hdelta]
      ring
    rw [Mat.entry_scale]
    exact ((Finset.sum_congr rfl hterm).trans (sum_delta_mul hi _)).symm
  refine ⟨_, hE, Mat.transposeMul_eq_of_entry rfl ⟨cols_frame.symm, cols_frame.symm⟩
    fun j hj k hk => ?_⟩
  rw [Mat.cols_scale, cols_frame] at hk
  rw [cols_frame] at hj
  calc _ = delta j k * s := by rw [Mat.scaledIdentity, Mat.entry_scale, Mat.entry_identity hj hk]
    _ = ∑ i ∈ Finset.range dim, x.frame.entry i j * x.frame.entry i k * s := by
        rw [← Finset.sum_mul, sum_frame_frame hx hj hk]
    _ = _ := by
        rw [rows_frame]
        refine Finset.sum_congr rfl fun i _ => ?_
        rw [Mat.entry_scale, mul_assoc]

/-- The frame `B` at `x` and the normal projection split the space, as `v` shows. -/
structure SplitsSpace (x : (Manifold.sphere dim).Point ℝ) (v : Vec ℝ) : Prop where
  /-- `Bᵀ B` is the identity. -/
  orthonormal : x.frame.transposeMul x.frame = .ok (.identity (dim - 1))
  /-- `Bᵀ x` is zero. -/
  tangent : x.frame.transposeMul (.column x.coords) = .ok (.zero (dim - 1) 1)
  /-- `v` is the sum of `B Bᵀ v` and its normal part `n`. The frame does not see `n`, which is its own
  normal part. -/
  parts : ∃ c t n, (x.frame.transpose.mulVec v = .ok c ∧ x.frame.mulVec c = .ok t) ∧
    x.normalPart v = .ok n ∧ v = t.add n ∧ x.frame.transpose.mulVec n = .ok (.zero (dim - 1)) ∧
      x.normalPart n = .ok n
  /-- The curvature in the tangent space is `Bᵀ E B` for the curvature `E` in the embedding space. -/
  curvature : ∃ W E EB, x.weingarten v = .ok W ∧ x.weingartenEmbedded v = .ok E ∧
    E.mul x.frame = .ok EB ∧ x.frame.transposeMul EB = .ok W

/-- At every unit point, on either hemisphere, at the equator and at the poles, the frame and the
normal projection split the space. -/
theorem frame_splits_space {v : Vec ℝ} (hv : v.size = dim) : x.SplitsSpace v where
  orthonormal := frame_orthonormal hx
  tangent := frame_tangent hx
  parts := by
    obtain ⟨c, t, hc, ht, htsize, htentry⟩ := exists_tangentPart hx hv
    refine ⟨c, t, _, ⟨hc, ht⟩, normalPart_eq hv, ?_, frame_normal hx _, normalPart_normal hx _⟩
    refine Vec.ext_entry (hv.trans (htsize.symm.trans (Vec.size_ofFn _ _).symm)) fun i hi => ?_
    rw [hv] at hi
    rw [Vec.add, Vec.entry_ofFn _ (hi.trans_eq htsize.symm), htentry i hi, entry_normal _ hi,
      sub_add_cancel]
  curvature := by
    obtain ⟨EB, hEB, hW⟩ := frame_scaledIdentity hx (-x.coords.inner v)
    exact ⟨_, _, EB, curvature_eq _ hv, curvature_eq _ hv, hEB, hW⟩

end Unit

/-- At a point of the southern hemisphere. -/
theorem frame_splits_space_south :
    ∃ x : (Manifold.sphere 2).Point ℝ, x.coords.norm = 1 ∧ x.height < 0 ∧ x.SplitsSpace #[1, 0] := by
  let x : (Manifold.sphere 2).Point ℝ := ⟨#[3 / 5, -4 / 5], rfl⟩
  have hx : x.coords.norm = 1 := by
    rw [Vec.norm_eq_one_iff, Vec.inner_eq_sum]
    show ∑ i ∈ Finset.range 2, _ = _
    rw [Finset.sum_range_succ, Finset.sum_range_one]
    show (3 / 5 : ℝ) * (3 / 5) + -4 / 5 * (-4 / 5) = 1
    norm_num
  refine ⟨x, hx, ?_, frame_splits_space hx rfl⟩
  show (-4 / 5 : ℝ) < 0
  norm_num

end Manifold.Point

end ElementFields
