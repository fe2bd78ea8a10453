import Mathlib.Analysis.Calculus.LineDeriv.Basic
import Mathlib.Analysis.Calculus.FDeriv.Pi
import ElementFields.Proofs.NormalizedJets
import ElementFields.Proofs.ShapeSlopes
import ElementFields.Proofs.Symmetry

namespace ElementFields

open Scalar
open scoped BigOperators

namespace Vec

variable {n : ℕ}

def ofPoint (x : Fin n → ℝ) : Vec ℝ := Array.ofFn x

noncomputable def point (p : Vec ℝ) : Fin p.size → ℝ := fun i => p.entry i

@[simp] theorem size_ofPoint (x : Fin n → ℝ) : (ofPoint x).size = n := Array.size_ofFn

@[simp] theorem entry_ofPoint (x : Fin n → ℝ) (i : Fin n) : (ofPoint x).entry i = x i := by
  simp [entry, ofPoint, Array.getD]

theorem ofPoint_point (p : Vec ℝ) : ofPoint p.point = p := by
  refine ext_entry (size_ofPoint _) fun i hi => ?_
  rw [size_ofPoint] at hi
  exact entry_ofPoint p.point ⟨i, hi⟩

/-- A line through a point is the line through its vector. -/
theorem ofPoint_line (p : Vec ℝ) (x : Fin p.size → ℝ) (t : ℝ) :
    ofPoint (p.point + t • x) = p.along (ofPoint x).entry t := by
  refine ext_entry (by simp) fun i hi => ?_
  rw [size_ofPoint] at hi
  rw [along, entry_ofFn _ hi, entry_ofPoint _ ⟨i, hi⟩, entry_ofPoint x ⟨i, hi⟩]
  rfl

noncomputable def linearForm (n : ℕ) (a : ℕ → ℝ) : (Fin n → ℝ) →L[ℝ] ℝ :=
  ∑ j : Fin n, a j • ContinuousLinearMap.proj j

theorem linearForm_apply (a : ℕ → ℝ) (x : Fin n → ℝ) :
    linearForm n a x = innerTo n a (ofPoint x).entry := by
  simp [linearForm, innerTo, Finset.sum_range]

end Vec

structure HasJacobian (F : Vec ℝ → Checked (Vec ℝ)) (m : Mat ℝ) (p : Vec ℝ) : Prop where
  cols : m.cols = p.size
  /-- The function is defined at every vector of the dimension of `p`. -/
  defined : ∀ x, x.size = p.size → ∃ v, F x = .ok v ∧ v.size = m.rows
  /-- Entry `i j` is the derivative of component `i` in coordinate `j`. -/
  entry : ∀ G : (Fin p.size → ℝ) → Vec ℝ, (∀ x, F (.ofPoint x) = .ok (G x)) → ∀ i < m.rows,
    HasFDerivAt (fun x => (G x).entry i) (Vec.linearForm p.size (m.entry i)) p.point

structure HasDirectional (F : Vec ℝ → Checked (Mat ℝ)) (m : Mat ℝ) (p w : Vec ℝ) : Prop where
  /-- The function is defined at every vector of the dimension of `p`. -/
  defined : ∀ x, x.size = p.size → ∃ n, F x = .ok n ∧ n.shape = m.shape
  entry : ∀ G : Vec ℝ → Mat ℝ, (∀ x, x.size = p.size → F x = .ok (G x)) →
    ∀ i < m.rows, ∀ j < m.cols,
      HasDerivAt (fun t => (G (p.along w.entry t)).entry i j) (m.entry i j) 0

/-- A function that is differentiable has the total derivative that its derivatives along lines show. -/
theorem hasFDerivAt_of_lines {p : Vec ℝ} {f : Vec ℝ → ℝ} {a : ℕ → ℝ}
    (hd : DifferentiableAt ℝ (fun x => f (.ofPoint x)) p.point)
    (h : ∀ w : ℕ → ℝ, HasDerivAt (fun t => f (p.along w t)) (innerTo p.size a w) 0) :
    HasFDerivAt (fun x => f (.ofPoint x)) (Vec.linearForm p.size a) p.point := by
  refine hd.hasFDerivAt.congr_fderiv (ContinuousLinearMap.ext fun x => ?_)
  have hline : HasLineDerivAt ℝ (fun x => f (.ofPoint x)) (Vec.linearForm p.size a x) p.point x := by
    rw [HasLineDerivAt, Vec.linearForm_apply]
    simpa only [Vec.ofPoint_line] using h (Vec.ofPoint x).entry
  exact (hd.hasFDerivAt.hasLineDerivAt x).unique hline

section Lines

variable {p : Vec ℝ} (hp : p.norm ≠ 0) (w u : ℕ → ℝ) {i j : ℕ}

include hp

/-- The length changes with the component of the direction along the vector. -/
theorem hasDerivAt_norm : HasDerivAt (fun t => (p.along w t).norm)
    (innerTo p.size (normalized p).entry w) 0 := by
  have hinner : HasDerivAt (fun t => ∑ i ∈ Finset.range p.size,
      (p.along w t).entry i * (p.along w t).entry i) (2 * innerTo p.size p.entry w) 0 := by
    have hentry : ∀ i ∈ Finset.range p.size,
        HasDerivAt (fun t => (p.along w t).entry i * (p.along w t).entry i)
          (2 * (p.entry i * w i)) 0 := by
      intro i hi
      have h := Vec.hasDerivAt_along (w := w) (Finset.mem_range.1 hi)
      refine (h.mul h).congr_deriv ?_
      rw [Vec.along_zero]
      ring
    rw [innerTo, Finset.mul_sum]
    exact HasDerivAt.fun_sum hentry
  have hne : ∑ i ∈ Finset.range p.size, (p.along w 0).entry i * (p.along w 0).entry i ≠ 0 := by
    rw [Vec.along_zero, ← Vec.inner_eq_sum]
    exact fun h => hp (p.norm_eq_zero_iff.2 h)
  have hnorm (t : ℝ) : (p.along w t).norm = Real.sqrt (∑ i ∈ Finset.range p.size,
      (p.along w t).entry i * (p.along w t).entry i) := by
    rw [Vec.norm, Vec.inner_eq_sum, Vec.size_along]
    rfl
  have hscaled : innerTo p.size (normalized p).entry w = innerTo p.size p.entry w / p.norm := by
    rw [innerTo, innerTo, Finset.sum_div]
    refine Finset.sum_congr rfl fun d _ => ?_
    rw [normalized, Vec.entry_divide]
    ring
  have h := hinner.sqrt hne
  simp only [← hnorm] at h
  refine h.congr_deriv ?_
  rw [Vec.along_zero, hscaled]
  field_simp

/-- Component `i` of the unit vector. -/
theorem hasDerivAt_normalized (hi : i < p.size) :
    HasDerivAt (fun t => (normalized (p.along w t)).entry i)
      ((w i - (normalized p).entry i * innerTo p.size (normalized p).entry w) / p.norm) 0 := by
  have hentry (t : ℝ) : (normalized (p.along w t)).entry i =
      (p.along w t).entry i / (p.along w t).norm := Vec.entry_divide _ _ _
  have hp' : (p.along w 0).norm ≠ 0 := by rwa [Vec.along_zero]
  simp only [hentry]
  refine ((Vec.hasDerivAt_along hi).fun_div (hasDerivAt_norm hp w) hp').congr_deriv ?_
  rw [Vec.along_zero, normalized, Vec.entry_divide]
  field_simp

/-- The inner product of the unit vector with a fixed one. -/
theorem hasDerivAt_inner :
    HasDerivAt (fun t => innerTo p.size (normalized (p.along w t)).entry u)
      ((innerTo p.size w u - innerTo p.size (normalized p).entry u *
        innerTo p.size (normalized p).entry w) / p.norm) 0 := by
  have h : ∀ i ∈ Finset.range p.size,
      HasDerivAt (fun t => (normalized (p.along w t)).entry i * u i) _ 0 :=
    fun i hi => (hasDerivAt_normalized hp w (Finset.mem_range.1 hi)).mul_const (u i)
  refine (HasDerivAt.fun_sum h).congr_deriv ?_
  simp only [innerTo, Finset.sum_mul, ← Finset.sum_sub_distrib, Finset.sum_div]
  refine Finset.sum_congr rfl fun d _ => ?_
  ring

/-- Component `i` of the transposed Jacobian applied to `u`. -/
theorem hasDerivAt_sum_jacobianEntry (hi : i < p.size) :
    HasDerivAt (fun t => ∑ d ∈ Finset.range p.size, jacobianEntry (p.along w t) d i * u d)
      (innerTo p.size (hessianEntry p u i) w) 0 := by
  have hentry (t : ℝ) : ∑ d ∈ Finset.range p.size, jacobianEntry (p.along w t) d i * u d =
      (u i - (normalized (p.along w t)).entry i *
        innerTo p.size (normalized (p.along w t)).entry u) / (p.along w t).norm := by
    simp only [jacobianEntry_comm _ _ i]
    exact sum_jacobianEntry hi u
  have hp' : (p.along w 0).norm ≠ 0 := by rwa [Vec.along_zero]
  have hfrac := (((hasDerivAt_normalized hp w hi).fun_mul (hasDerivAt_inner hp w u)).const_sub
    (u i)).fun_div (hasDerivAt_norm hp w) hp'
  have hsum : innerTo p.size (hessianEntry p u i) w = _ := sum_hessianEntry rfl hi w u
  simp only [hentry]
  refine hfrac.congr_deriv ?_
  rw [Vec.along_zero, hsum, innerTo_comm p.size w u]
  field_simp
  ring

/-- An entry of the second derivative. -/
theorem hasDerivAt_hessianEntry (hi : i < p.size) (hj : j < p.size) :
    HasDerivAt (fun t => hessianEntry (p.along w t) u i j) (thirdEntry p u w i j) 0 := by
  have hp' : (p.along w 0).norm * (p.along w 0).norm ≠ 0 := by
    rw [Vec.along_zero]
    exact mul_ne_zero hp hp
  have hnᵢ := hasDerivAt_normalized hp w hi
  have hnⱼ := hasDerivAt_normalized hp w hj
  have hnorm := hasDerivAt_norm hp w
  have hentry (t : ℝ) : hessianEntry (p.along w t) u i j =
      (((normalized (p.along w t)).entry i * (normalized (p.along w t)).entry j * (3 : ℕ) -
          delta i j) * innerTo p.size (normalized (p.along w t)).entry u -
        u i * (normalized (p.along w t)).entry j - (normalized (p.along w t)).entry i * u j) /
        ((p.along w t).norm * (p.along w t).norm) := by
    rw [hessianEntry, Vec.size_along]
    rfl
  have hfrac := ((((((hnᵢ.fun_mul hnⱼ).mul_const ((3 : ℕ) : ℝ)).sub_const (delta i j)).fun_mul
    (hasDerivAt_inner hp w u)).fun_sub (hnⱼ.const_mul (u i))).fun_sub
      (hnᵢ.mul_const (u j))).fun_div (hnorm.fun_mul hnorm) hp'
  simp only [hentry]
  refine hfrac.congr_deriv ?_
  rw [Vec.along_zero, thirdEntry, halfThird, halfThird, delta_comm j i, ← innerTo, ← innerTo,
    ← innerTo, innerTo_comm p.size w u]
  generalize (normalized p).entry = n at *
  generalize p.norm = r at *
  push_cast
  field_simp
  ring

end Lines

section Closed

variable {p u w : Vec ℝ}

theorem differentiableAt_norm (hp : p.norm ≠ 0) :
    DifferentiableAt ℝ (fun x : Fin p.size → ℝ => (Vec.ofPoint x).norm) p.point := by
  have hnorm (x : Fin p.size → ℝ) : (Vec.ofPoint x).norm = Real.sqrt (∑ i, x i * x i) := by
    rw [Vec.norm, Vec.inner_eq_sum, Vec.size_ofPoint, Finset.sum_range]
    simp only [Vec.entry_ofPoint]
    rfl
  have hne : ∑ i, p.point i * p.point i ≠ 0 := by
    intro h
    refine hp (p.norm_eq_zero_iff.2 ?_)
    rw [Vec.inner_eq_sum, Finset.sum_range]
    exact h
  simp only [hnorm]
  exact DifferentiableAt.sqrt (by fun_prop) hne

theorem differentiableAt_div_norm (hp : p.norm ≠ 0) {f : (Fin p.size → ℝ) → ℝ}
    (hf : DifferentiableAt ℝ f p.point) :
    DifferentiableAt ℝ (fun x => f x / (Vec.ofPoint x).norm) p.point := by
  simp only [div_eq_mul_inv]
  exact hf.fun_mul ((differentiableAt_norm hp).fun_inv (by rwa [Vec.ofPoint_point]))

theorem differentiableAt_normalized (hp : p.norm ≠ 0) {i : ℕ} (hi : i < p.size) :
    DifferentiableAt ℝ (fun x : Fin p.size → ℝ => (normalized (Vec.ofPoint x)).entry i) p.point := by
  have hentry (x : Fin p.size → ℝ) :
      (normalized (Vec.ofPoint x)).entry i = x ⟨i, hi⟩ / (Vec.ofPoint x).norm := by
    rw [normalized, Vec.entry_divide, Vec.entry_ofPoint x ⟨i, hi⟩]
  simp only [hentry]
  exact differentiableAt_div_norm hp (by fun_prop)

theorem differentiableAt_jacobianEntry (hp : p.norm ≠ 0) {i j : ℕ} (hi : i < p.size)
    (hj : j < p.size) : DifferentiableAt ℝ
      (fun x : Fin p.size → ℝ => jacobianEntry (.ofPoint x) i j) p.point := by
  have hproduct := (differentiableAt_normalized hp hi).fun_mul (differentiableAt_normalized hp hj)
  exact differentiableAt_div_norm hp (hproduct.const_sub (delta i j))

/-- The first closed form is the total derivative of the normalization. -/
theorem hasJacobian_normalized (hp : p.norm ≠ 0) :
    HasJacobian (fun x => .ok (normalized x)) (normalizationJacobian p) p where
  cols := rfl
  defined x hx := ⟨normalized x, rfl, (Vec.size_ofFn _ _).trans hx⟩
  entry G hG i hi := by
    have hi : i < p.size := hi
    have hentry (x : Fin p.size → ℝ) : G x = normalized (.ofPoint x) := (Except.ok.inj (hG x)).symm
    simp only [hentry]
    refine hasFDerivAt_of_lines (f := fun v => (normalized v).entry i)
      (differentiableAt_normalized hp hi) fun w => ?_
    refine (hasDerivAt_normalized hp w hi).congr_deriv ?_
    rw [← sum_jacobianEntry hi w]
    refine Finset.sum_congr rfl fun d hd => ?_
    rw [entry_normalizationJacobian hi (Finset.mem_range.1 hd)]

/-- The entries of the transposed Jacobian applied to a vector. -/
theorem transposed_mulVec_eq_ok {v : Vec ℝ}
    (h : (normalizationJacobian p).transpose.mulVec u = .ok v) {i : ℕ} (hi : i < p.size) :
    v.entry i = ∑ d ∈ Finset.range p.size, jacobianEntry p d i * u.entry d := by
  rw [(Mat.mulVec_eq_ok h).2.2]
  refine Finset.sum_congr rfl fun d hd => ?_
  rw [Mat.entry_transpose, entry_normalizationJacobian (Finset.mem_range.1 hd) hi]

/-- The second one is that of the transposed Jacobian applied to a fixed vector. -/
theorem hasJacobian_transposed (hp : p.norm ≠ 0) {second : Mat ℝ}
    (h : normalizationSecond p u = .ok second) :
    HasJacobian (fun x => (normalizationJacobian x).transpose.mulVec u) second p := by
  obtain ⟨hu, hentry⟩ := normalizationSecond_eq_ok h
  obtain ⟨hrows, hcols⟩ := Normalization.shape_second h
  refine ⟨hcols, fun x hx => ?_, fun G hG i hi => ?_⟩
  · have hsquare : (normalizationJacobian x).transpose.HasShape x.size x.size := ⟨rfl, rfl⟩
    obtain ⟨v, hv, hsize⟩ := Mat.yields_mulVec hsquare (hu.trans hx.symm)
    exact ⟨v, hv, hsize.trans (hx.trans hrows.symm)⟩
  · rw [hrows] at hi
    have hsum (x : Fin p.size → ℝ) : (G x).entry i =
        ∑ d ∈ Finset.range p.size, jacobianEntry (.ofPoint x) d i * u.entry d := by
      have hx := Vec.size_ofPoint x
      rw [transposed_mulVec_eq_ok (hG x) (hx.symm ▸ hi), hx]
    have hdifferentiable := DifferentiableAt.fun_sum fun d hd =>
      (differentiableAt_jacobianEntry hp (Finset.mem_range.1 hd) hi).mul_const (u.entry d)
    simp only [hsum]
    refine hasFDerivAt_of_lines
      (f := fun v => ∑ d ∈ Finset.range p.size, jacobianEntry v d i * u.entry d) hdifferentiable
      fun w => (hasDerivAt_sum_jacobianEntry hp w u.entry hi).congr_deriv ?_
    refine Finset.sum_congr rfl fun d hd => ?_
    rw [hentry i hi d (Finset.mem_range.1 hd)]

theorem shape_normalizationThird {third : Mat ℝ} (h : normalizationThird p u w = .ok third) :
    third.rows = p.size ∧ third.cols = p.size := by
  obtain ⟨-, rfl⟩ := Checked.require_eq_ok_iff.1 h
  exact ⟨rfl, rfl⟩

theorem exists_normalizationSecond (hu : u.size = p.size) :
    ∃ second, normalizationSecond p u = .ok second :=
  ⟨_, Checked.require_eq_ok_iff.2 ⟨hu, rfl⟩⟩

theorem exists_normalizationThird (hu : u.size = p.size) (hw : w.size = p.size) :
    ∃ third, normalizationThird p u w = .ok third :=
  ⟨_, Checked.require_eq_ok_iff.2 ⟨⟨hu, hw⟩, rfl⟩⟩

/-- The third one is the derivative of the second one in a direction. -/
theorem hasDirectional_second (hp : p.norm ≠ 0) (hu : u.size = p.size) {third : Mat ℝ}
    (h : normalizationThird p u w = .ok third) :
    HasDirectional (fun x => normalizationSecond x u) third p w := by
  obtain ⟨-, hentry⟩ := normalizationThird_eq_ok h
  obtain ⟨hrows, hcols⟩ := shape_normalizationThird h
  refine ⟨fun x hx => ?_, fun G hG i hi j hj => ?_⟩
  · obtain ⟨m, hm⟩ := exists_normalizationSecond (hu.trans hx.symm)
    obtain ⟨hr, hc⟩ := Normalization.shape_second hm
    exact ⟨m, hm, Prod.ext ((hr.trans hx).trans hrows.symm) ((hc.trans hx).trans hcols.symm)⟩
  · rw [hrows] at hi
    rw [hcols] at hj
    have hsecond (t : ℝ) : (G (p.along w.entry t)).entry i j =
        hessianEntry (p.along w.entry t) u.entry i j := by
      have hx := p.size_along w.entry t
      exact (normalizationSecond_eq_ok (hG _ hx)).2 i (hx.symm ▸ hi) j (hx.symm ▸ hj)
    rw [hentry i hi j hj]
    simp only [hsecond]
    exact hasDerivAt_hessianEntry hp w.entry u.entry hi hj

/-- A square matrix with symmetric entries is its own transpose. -/
theorem transpose_eq_of_entry {m : Mat ℝ} (hrows : m.rows = p.size) (hcols : m.cols = p.size)
    (h : ∀ i < p.size, ∀ j < p.size, m.entry i j = m.entry j i) : m.transpose = m := by
  refine Mat.ext_entry (hcols.trans hrows.symm) (hrows.trans hcols.symm) fun i j hi hj => ?_
  rw [Mat.entry_transpose, h i (hcols ▸ hi) j (hrows ▸ hj)]

theorem thirdEntry_swap (p : Vec ℝ) (u w : ℕ → ℝ) (i j : ℕ) :
    thirdEntry p u w i j = thirdEntry p w u i j := by
  simp only [thirdEntry, halfThird, delta_comm j i, mul_comm (w _) (u _)]
  ring

theorem normalizationThird_swap {third : Mat ℝ} (hu : u.size = p.size) (hw : w.size = p.size)
    (h : normalizationThird p u w = .ok third) : normalizationThird p w u = .ok third := by
  obtain ⟨swapped, hs⟩ := exists_normalizationThird hw hu
  obtain ⟨hrows, hcols⟩ := shape_normalizationThird h
  obtain ⟨hrows', hcols'⟩ := shape_normalizationThird hs
  have heq : swapped = third := by
    refine Mat.ext_entry (hrows'.trans hrows.symm) (hcols'.trans hcols.symm) fun i j hi hj => ?_
    rw [hrows'] at hi
    rw [hcols'] at hj
    rw [(normalizationThird_eq_ok hs).2 i hi j hj, (normalizationThird_eq_ok h).2 i hi j hj,
      thirdEntry_swap]
  exact heq ▸ hs

/-- In every dimension and at every vector that is not zero, the closed forms are what they are named
for: the total derivative of the normalization; the total derivative of its transposed Jacobian, applied
to a fixed vector; and the derivative of that in a direction. They are square and symmetric, and the
third one does not change if the contracted vector and the direction are exchanged. -/
theorem normalization_derivatives {p u w : Vec ℝ} (hp : p ≠ .zero p.size) (hu : u.size = p.size)
    (hw : w.size = p.size) : ∃ second third : Mat ℝ,
      (normalizationSecond p u = .ok second ∧ normalizationThird p u w = .ok third) ∧
      HasJacobian (fun x => .ok (normalized x)) (normalizationJacobian p) p ∧
      HasJacobian (fun x => (normalizationJacobian x).transpose.mulVec u) second p ∧
      HasDirectional (fun x => normalizationSecond x u) third p w ∧
      ((normalizationJacobian p).transpose = normalizationJacobian p ∧ second.transpose = second ∧
        third.transpose = third) ∧
      ((normalizationJacobian p).shape = (p.size, p.size) ∧ second.shape = (p.size, p.size) ∧
        third.shape = (p.size, p.size)) ∧
      normalizationThird p w u = .ok third := by
  obtain ⟨second, hs⟩ := exists_normalizationSecond hu
  obtain ⟨third, ht⟩ := exists_normalizationThird hu hw
  obtain ⟨hsr, hsc⟩ := Normalization.shape_second hs
  obtain ⟨htr, htc⟩ := shape_normalizationThird ht
  have hn : p.norm ≠ 0 := mt Vec.norm_eq_zero_iff_eq_zero.1 hp
  refine ⟨second, third, ⟨hs, ht⟩, hasJacobian_normalized hn, hasJacobian_transposed hn hs,
    hasDirectional_second hn hu ht, ⟨?_, ?_, ?_⟩,
    ⟨rfl, Prod.ext hsr hsc, Prod.ext htr htc⟩, normalizationThird_swap hu hw ht⟩
  · refine transpose_eq_of_entry (p := p) rfl rfl fun i hi j hj => ?_
    rw [entry_normalizationJacobian hi hj, entry_normalizationJacobian hj hi, jacobianEntry_comm]
  · have hentry := (normalizationSecond_eq_ok hs).2
    refine transpose_eq_of_entry hsr hsc fun i hi j hj => ?_
    rw [hentry i hi j hj, hentry j hj i hi, hessianEntry_comm]
  · have hentry := (normalizationThird_eq_ok ht).2
    refine transpose_eq_of_entry htr htc fun i hi j hj => ?_
    rw [hentry i hi j hj, hentry j hj i hi, thirdEntry_comm]

/-- At a vector of length five in the plane. -/
theorem normalization_derivatives_plane :
    let p : Vec ℝ := #[3, 4]
    let u : Vec ℝ := #[1, 2]
    let w : Vec ℝ := #[0, 1]
    (p ≠ .zero p.size ∧ u.size = p.size ∧ w.size = p.size) ∧ ∃ second third : Mat ℝ,
      normalizationSecond p u = .ok second ∧ normalizationThird p u w = .ok third ∧
      HasJacobian (fun x => .ok (normalized x)) (normalizationJacobian p) p ∧
      HasJacobian (fun x => (normalizationJacobian x).transpose.mulVec u) second p ∧
      HasDirectional (fun x => normalizationSecond x u) third p w := by
  intro p u w
  have hp : p ≠ .zero p.size := by
    intro h
    have hentry : (3 : ℝ) = 0 := congrArg (fun v : Vec ℝ => v.entry 0) h
    norm_num at hentry
  obtain ⟨second, third, ⟨hs, ht⟩, hfirst, hsecond, hthird, -⟩ :=
    normalization_derivatives hp (u := u) (w := w) rfl rfl
  exact ⟨⟨hp, rfl, rfl⟩, second, third, hs, ht, hfirst, hsecond, hthird⟩

end Closed

end ElementFields
