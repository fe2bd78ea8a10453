import ElementFields.Proofs.SphereFrame

namespace ElementFields
open Scalar
open scoped BigOperators

namespace Vec

variable {v : Vec ℝ}

@[simp] theorem size_divide (v : Vec ℝ) (s : ℝ) : (v.divide s).size = v.size := size_ofFn _ _

@[simp] theorem size_add (u v : Vec ℝ) : (u.add v).size = u.size := size_ofFn _ _

theorem entry_divide (v : Vec ℝ) (s : ℝ) (i : ℕ) : (v.divide s).entry i = v.entry i / s := by
  by_cases hi : i < v.size
  · exact entry_ofFn _ hi
  · have hi := Nat.le_of_not_lt hi
    rw [entry_of_size_le hi, entry_of_size_le (by rwa [size_divide]), zero_div]

theorem eq_zero_of_inner_self (h : v.inner v = 0) : v = zero v.size := by
  rw [inner_eq_sum, Finset.sum_eq_zero_iff_of_nonneg fun i _ => mul_self_nonneg (v.entry i)] at h
  refine ext_entry (size_ofFn _ _).symm fun i hi => ?_
  rw [zero, entry_ofFn _ hi]
  exact mul_self_eq_zero.1 (h i (Finset.mem_range.2 hi))

theorem norm_eq_zero_iff_eq_zero : v.norm = 0 ↔ v = zero v.size := by
  rw [norm_eq_zero_iff]
  refine ⟨eq_zero_of_inner_self, fun h => ?_⟩
  rw [inner_eq_sum]
  refine Finset.sum_eq_zero fun i hi => ?_
  rw [h, zero, entry_ofFn _ (Finset.mem_range.1 hi), zero_mul]

theorem norm_divide (h : v.norm ≠ 0) : (v.divide v.norm).norm = 1 := by
  rw [norm_eq_one_iff, inner_eq_sum, size_divide]
  calc _ = (∑ i ∈ Finset.range v.size, v.entry i * v.entry i) / (v.norm * v.norm) := by
        rw [Finset.sum_div]
        refine Finset.sum_congr rfl fun i _ => ?_
        rw [entry_divide, div_mul_div_comm]
    _ = v.norm * v.norm / (v.norm * v.norm) := by rw [← inner_eq_sum, norm_mul_self]
    _ = 1 := div_self (mul_ne_zero h h)

theorem isLength_norm : isLength v.norm = true ↔ v.norm ≠ 0 := by
  have hfinite : isFinite v.norm = true := rfl
  rw [isLength, hfinite, Bool.and_true, isPositive_iff]
  exact ⟨fun h => h.ne', fun h => lt_of_le_of_ne v.norm_nonneg (Ne.symm h)⟩

end Vec

namespace Manifold

variable {dim : ℕ} {x y : (Manifold.sphere dim).Point ℝ} {v w d : Vec ℝ}

theorem direction?_eq_none (h : v.norm = 0) : (sphere dim).direction? v = none :=
  if_neg fun hl => Vec.isLength_norm.1 hl h

theorem direction?_of_norm_ne_zero (hv : v.size = dim) (h : v.norm ≠ 0) :
    ∃ y, (sphere dim).direction? v = some y ∧ y.coords = v.divide v.norm := by
  have hsize : v.divide v.norm = Vec.ofFn dim fun i => v.entry i / v.norm := by
    rw [Vec.divide, hv]
  exact ⟨.ofFn fun i => v.entry i / v.norm, if_pos (Vec.isLength_norm.2 h), hsize.symm⟩

theorem norm_direction (hv : v.size = dim) (h : (sphere dim).direction? v = some y) :
    y.coords.norm = 1 := by
  by_cases hr : v.norm = 0
  · rw [direction?_eq_none hr] at h
    nomatch h
  · obtain ⟨y', hy', hcoords⟩ := direction?_of_norm_ne_zero hv hr
    rw [h, Option.some.injEq] at hy'
    rw [hy', hcoords]
    exact Vec.norm_divide hr

theorem norm_diagonal (hdim : 0 < dim) : ((sphere dim).diagonal : Point _ ℝ).coords.norm = 1 := by
  have hpos : (0 : ℝ) < dim := Nat.cast_pos.2 hdim
  rw [Vec.norm_eq_one_iff, Point.inner_coords]
  calc _ = ∑ _i ∈ Finset.range dim, 1 / (Real.sqrt dim * Real.sqrt dim) := by
        refine Finset.sum_congr rfl fun i hi => ?_
        have hentry : ((sphere dim).diagonal : Point _ ℝ).coords.entry i = 1 / Real.sqrt dim :=
          Vec.entry_ofFn _ (Finset.mem_range.1 hi)
        rw [hentry, div_mul_div_comm, one_mul]
    _ = 1 := by
        rw [Finset.sum_const, Finset.card_range, nsmul_eq_mul, Real.mul_self_sqrt hpos.le]
        exact mul_one_div_cancel hpos.ne'

/-- What stands in for a vector without a direction is a unit vector, so all results are. -/
theorem norm_direction_getD (hv : v.size = dim) (hx : x.coords.norm = 1) :
    (((sphere dim).direction? v).getD x).coords.norm = 1 := by
  cases h : (sphere dim).direction? v with
  | none => exact hx
  | some y => exact norm_direction hv h

theorem norm_place (hdim : 0 < dim) (hv : v.size = dim) :
    ((sphere dim).place v).coords.norm = 1 := norm_direction_getD hv (norm_diagonal hdim)

namespace Point

theorem norm_moveTo (hx : x.coords.norm = 1) (hv : v.size = dim) :
    (x.moveTo v).coords.norm = 1 := norm_direction_getD hv hx

theorem step_eq (d : Vec ℝ) : x.step d = .ofFn x.coords.size fun i =>
    x.coords.entry i + sumTo d.size fun k => x.frame.entry i k * d.entry k := rfl

theorem size_step (d : Vec ℝ) : (x.step d).size = dim := by
  rw [step_eq, Vec.size_ofFn]
  exact x.size_coords

/-- A step adds the tangent vector whose components in the frame are given. -/
theorem entry_step (hd : d.size = dim - 1) {i : ℕ} (hi : i < dim) :
    (x.step d).entry i = x.coords.entry i + x.tangentOf d.entry i := by
  rw [step_eq, Vec.entry_ofFn _ (hi.trans_eq x.size_coords.symm), sumTo_eq_sum, hd, tangentOf]

theorem step_eq_add (hd : d.size = dim - 1) :
    ∃ t, x.frame.mulVec d = .ok t ∧ x.step d = x.coords.add t := by
  have hsize : x.coords.size = dim := x.size_coords
  refine ⟨.ofFn dim (x.tangentOf d.entry), ?_, Vec.ext_entry ?_ fun i hi => ?_⟩
  · refine Mat.mulVec_eq_of_entry (cols_frame.trans hd.symm)
      ((Vec.size_ofFn _ _).trans rows_frame.symm) fun i hi => ?_
    rw [rows_frame] at hi
    rw [Vec.entry_ofFn _ hi, cols_frame, tangentOf]
  · rw [size_step, Vec.size_add, hsize]
  · rw [size_step] at hi
    rw [entry_step hd hi, Vec.add, Vec.entry_ofFn _ (hi.trans_eq hsize.symm),
      Vec.entry_ofFn _ hi]

/-- The square of the length that a step reaches: the step is orthogonal to the point. -/
theorem inner_step (hx : x.coords.norm = 1) (hd : d.size = dim - 1) :
    (x.step d).inner (x.step d) = 1 + d.inner d := by
  have horthogonal := innerTo_tangentOf hx d.entry
  have hisometric : innerTo dim (x.tangentOf d.entry) (x.tangentOf d.entry) = d.inner d := by
    rw [innerTo_tangentOf_tangentOf hx, Vec.inner_eq_sum, hd, innerTo]
  rw [innerTo] at horthogonal hisometric
  calc _ = ∑ i ∈ Finset.range dim, (x.coords.entry i * x.coords.entry i +
        x.tangentOf d.entry i * x.tangentOf d.entry i +
        2 * (x.coords.entry i * x.tangentOf d.entry i)) := by
        rw [Vec.inner_eq_sum, size_step]
        refine Finset.sum_congr rfl fun i hi => ?_
        rw [entry_step hd (Finset.mem_range.1 hi)]
        ring
    _ = 1 + d.inner d := by
        rw [Finset.sum_add_distrib, Finset.sum_add_distrib, ← Finset.mul_sum, horthogonal,
          hisometric, sum_coords_mul_self hx, mul_zero, add_zero]

theorem norm_step (hx : x.coords.norm = 1) (hd : d.size = dim - 1) :
    (x.step d).norm = Real.sqrt (1 + d.inner d) := by
  rw [Vec.norm, inner_step hx hd]
  rfl

theorem norm_step_ne_zero (hx : x.coords.norm = 1) (hd : d.size = dim - 1) :
    (x.step d).norm ≠ 0 := by
  have hinner : 0 ≤ d.inner d := d.inner_self_nonneg
  rw [norm_step hx hd]
  exact (Real.sqrt_pos.2 (by linarith)).ne'

/-- A tangent correction of a unit point is retracted, never discarded. -/
theorem exists_direction_step (hx : x.coords.norm = 1) (hd : d.size = dim - 1) :
    ∃ y, (sphere dim).direction? (x.step d) = some y ∧ x.update d = .ok y ∧
      y.coords = (x.step d).divide (x.step d).norm := by
  obtain ⟨y, hy, hcoords⟩ := direction?_of_norm_ne_zero (size_step d) (norm_step_ne_zero hx hd)
  refine ⟨y, hy, Checked.require_eq_ok_iff.2 ⟨hd, ?_⟩, hcoords⟩
  show ((sphere dim).direction? (x.step d)).getD x = y
  rw [hy]
  rfl

/-- The points that a run can reach: made from a vector, from coordinates or by default, and then given
a new value, corrected along the tangent space or corrected in the embedding space. -/
inductive Reachable : (Manifold.sphere dim).Point ℝ → Prop where
  | ofVec {v : Vec ℝ} {x : (Manifold.sphere dim).Point ℝ} :
      v.size = dim → (sphere dim).ofVec v = .ok x → Reachable x
  | ofCoordinates {v : Vec ℝ} {x : (Manifold.sphere dim).Point ℝ} :
      (sphere dim).ofCoordinates v = .ok x → Reachable x
  | default : Reachable (Manifold.default (.sphere dim))
  | setValue {x : (Manifold.sphere dim).Point ℝ} {v : Vec ℝ} :
      Reachable x → v.size = dim → Reachable ((sphere dim).place v)
  | update {x y : (Manifold.sphere dim).Point ℝ} {d : Vec ℝ} :
      Reachable x → x.update d = .ok y → Reachable y
  | addInEmbedding {x y : (Manifold.sphere dim).Point ℝ} {w : Vec ℝ} :
      Reachable x → x.addInEmbedding w = .ok y → Reachable y

theorem norm_ofVec (hdim : 0 < dim) (hv : v.size = dim) (h : (sphere dim).ofVec v = .ok x) :
    x.coords.norm = 1 := by
  obtain ⟨-, rfl⟩ := Checked.require_eq_ok_iff.1 h
  exact norm_place hdim hv

theorem norm_update (hx : x.coords.norm = 1) (h : x.update d = .ok y) : y.coords.norm = 1 := by
  obtain ⟨-, rfl⟩ := Checked.require_eq_ok_iff.1 h
  exact norm_moveTo hx (size_step d)

theorem norm_addInEmbedding (hx : x.coords.norm = 1) (h : x.addInEmbedding w = .ok y) :
    y.coords.norm = 1 := by
  obtain ⟨-, rfl⟩ := Checked.require_eq_ok_iff.1 h
  exact norm_moveTo hx ((Vec.size_add _ _).trans x.size_coords)

theorem Reachable.norm_eq_one (hdim : 0 < dim) (h : x.Reachable) : x.coords.norm = 1 := by
  -- A value that is set is a unit vector whatever it replaces; a correction can leave the point where
  -- it was, so only the last two cases use that the run was on the sphere before.
  induction h with
  | ofVec hv hx => exact norm_ofVec hdim hv hx
  | ofCoordinates hx =>
    rw [Manifold.ofCoordinates] at hx
    split at hx
    · rename_i hv
      exact norm_ofVec hdim hv hx
    · nomatch hx
  | default => exact norm_diagonal hdim
  | setValue _ hv _ => exact norm_place hdim hv
  | update _ hy ih => exact norm_update ih hy
  | addInEmbedding _ hy ih => exact norm_addInEmbedding ih hy

theorem exists_addInEmbedding (x : (Manifold.sphere dim).Point ℝ) (hw : w.size = dim) :
    ∃ y, x.addInEmbedding w = .ok y ∧ (x.coords.add w = .zero dim → y = x) ∧
      (x.coords.add w ≠ .zero dim →
        y.coords = (x.coords.add w).divide (x.coords.add w).norm) := by
  have hsize : (x.coords.add w).size = dim := (Vec.size_add _ _).trans x.size_coords
  refine ⟨_, Checked.require_eq_ok_iff.2 ⟨hw, rfl⟩, fun h => ?_, fun h => ?_⟩
  · have hnorm : (x.coords.add w).norm = 0 :=
      Vec.norm_eq_zero_iff_eq_zero.2 (h.trans (congrArg Vec.zero hsize).symm)
    show ((sphere dim).direction? (x.coords.add w)).getD x = x
    rw [direction?_eq_none hnorm]
    rfl
  · have hnorm : (x.coords.add w).norm ≠ 0 := fun h0 =>
      h ((Vec.norm_eq_zero_iff_eq_zero.1 h0).trans (congrArg Vec.zero hsize))
    obtain ⟨y, hy, hcoords⟩ := direction?_of_norm_ne_zero hsize hnorm
    show (((sphere dim).direction? (x.coords.add w)).getD x).coords = _
    rw [hy]
    exact hcoords

/-- Every point that a run reaches is a unit vector. A tangent correction `d` of it is never discarded
and moves it to `(x + B d) / √(1 + |d|²)`; a correction `w` in the embedding space moves it to
`(x + w) / |x + w|`, unless `x + w` is zero, when the point stays where it is. -/
theorem Reachable.stays_on_sphere (hdim : 2 ≤ dim) (h : x.Reachable) :
    x.coords.norm = 1 ∧
    (∀ d : Vec ℝ, d.size = dim - 1 → ∃ t y, x.frame.mulVec d = .ok t ∧
      (sphere dim).direction? (x.step d) = some y ∧ x.update d = .ok y ∧
      y.coords = (x.coords.add t).divide (Real.sqrt (1 + d.inner d))) ∧
    ∀ w : Vec ℝ, w.size = dim → ∃ y, x.addInEmbedding w = .ok y ∧
      (x.coords.add w = .zero dim → y = x) ∧
      (x.coords.add w ≠ .zero dim →
        y.coords = (x.coords.add w).divide (x.coords.add w).norm) := by
  have hx := h.norm_eq_one (by omega)
  refine ⟨hx, fun d hd => ?_, fun w hw => exists_addInEmbedding x hw⟩
  obtain ⟨t, ht, hstep⟩ := step_eq_add (x := x) hd
  obtain ⟨y, hy, hupdate, hcoords⟩ := exists_direction_step hx hd
  refine ⟨t, y, ht, hy, hupdate, ?_⟩
  rw [hcoords, norm_step hx hd, hstep]

/-- The default point, corrected along its tangent space, is still a unit vector. -/
theorem Reachable.stays_on_sphere_corrected :
    ∃ x y : (Manifold.sphere 2).Point ℝ, x.Reachable ∧ x.update #[3] = .ok y ∧ y.Reachable ∧
      y.coords.norm = 1 := by
  obtain ⟨-, hupdate, -⟩ := Reachable.default.stays_on_sphere (le_refl 2)
  obtain ⟨t, y, -, -, hy, -⟩ := hupdate #[3] rfl
  have hreached : y.Reachable := Reachable.default.update hy
  exact ⟨_, y, .default, hy, hreached, (hreached.stays_on_sphere (le_refl 2)).1⟩

end Point

end Manifold

end ElementFields
