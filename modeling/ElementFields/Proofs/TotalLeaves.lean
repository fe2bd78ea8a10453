import ElementFields.Proofs.LeafShapes
import ElementFields.Proofs.Shapes

namespace ElementFields

variable {K : Type} [Scalar K] {E : EvaluationError → Prop}

theorem Manifold.Point.yields_weingarten {M : Manifold} (x : M.Point K) {u : Vec K}
    (hu : u.size = M.valueSize) :
    Yields (x.weingarten u) (·.HasShape M.correctionSize M.correctionSize) := by
  unfold weingarten curvature
  split
  · exact Yields.pure ⟨rfl, rfl⟩
  · have hsize : x.coords.size = u.size := x.size_coords.trans hu.symm
    exact (Vec.yields_dot hsize).bind fun _ _ => Yields.pure ⟨rfl, rfl⟩

namespace Coefficients

variable {c : Coefficients K} {i : ℕ}

omit [Scalar K] in
theorem yields_point (hi : i < c.size) : Yields (c.point i) fun _ => True := by
  have hget : c.points[i]? = some c.points[i] := List.getElem?_eq_getElem hi
  exact ⟨c.points[i], by rw [point, hget], trivial⟩

theorem yields_frame (hi : i < c.size) :
    Yields (c.frame i) (·.HasShape c.valueSize c.correctionSize) :=
  (yields_point hi).bind fun x _ => Yields.pure x.shape_frame

theorem yields_weingarten {u : Vec K} (hi : i < c.size) (hu : u.size = c.valueSize) :
    Yields (c.weingarten i u) (·.HasShape c.correctionSize c.correctionSize) :=
  (yields_point hi).bind fun x _ => x.yields_weingarten hu

theorem hasShape_matrix (c : Coefficients K) : c.matrix.HasShape c.valueSize c.size := ⟨rfl, rfl⟩

end Coefficients

/-- At a site, the shape functions have a value and a gradient for each coefficient, or they are
refused for a reason in `E`. -/
structure LeafData.Tabulated (E : EvaluationError → Prop) (l : LeafData K) (site : Site K) :
    Prop where
  values : Meets E (l.valuesAt site) fun φ => φ.size = l.numCoefficients
  gradients : Meets E (l.gradientsIn site) (·.HasShape l.gridDim l.numCoefficients)

/-- At a site, the primitives without a derivative in space answer for the coefficients that a leaf
has, contracted with something of the right shape. -/
structure Primitives.ServeValues (E : EvaluationError → Prop) (p : Primitives K) (l : LeafData K)
    (site : Site K) : Prop where
  value : Meets E (p.value l site) fun v => v.size = l.valueSize
  coefficient : ∀ {i}, i < l.numCoefficients →
    Meets E (p.coefficient l site i) (·.HasShape l.valueSize l.correctionSize)
  second : ∀ {i j along}, i < l.numCoefficients → j < l.numCoefficients →
    along.HasShape l.valueSize 1 →
    Meets E (p.second l site i j along) (·.HasShape l.correctionSize l.correctionSize)

structure Primitives.ServeGradients (E : EvaluationError → Prop) (p : Primitives K) (l : LeafData K)
    (site : Site K) : Prop where
  axis : ∀ {k}, k < l.gridDim → Meets E (p.axis l site k) fun v => v.size = l.valueSize
  gradient : Meets E (p.gradient l site) (·.HasShape l.valueSize l.gridDim)
  coefficientAxis : ∀ {i k}, i < l.numCoefficients → k < l.gridDim →
    Meets E (p.coefficientAxis l site i k) (·.HasShape l.valueSize l.correctionSize)
  coefficientGradient : ∀ {i}, i < l.numCoefficients →
    Meets E (p.coefficientGradient l site i)
      (Mat.AllShaped · l.gridDim l.valueSize l.correctionSize)
  thirdAxis : ∀ {i j k along}, i < l.numCoefficients → j < l.numCoefficients → k < l.gridDim →
    along.HasShape l.valueSize 1 →
    Meets E (p.thirdAxis l site i j k along) (·.HasShape l.correctionSize l.correctionSize)
  thirdGradient : ∀ {i j along}, i < l.numCoefficients → j < l.numCoefficients →
    along.HasShape l.valueSize l.gridDim →
    Meets E (p.thirdGradient l site i j along) (·.HasShape l.correctionSize l.correctionSize)

omit [Scalar K] in
/-- One matrix is made for each of the axes. -/
theorem Meets.mapM_range {n rows cols : ℕ} {g : ℕ → Outcome (Mat K)}
    (h : ∀ k, k < n → Meets E (g k) (·.HasShape rows cols)) :
    Meets E ((List.range n).mapM g) (Mat.AllShaped · n rows cols) := by
  refine (Meets.mapM fun k hk => h k (List.mem_range.1 hk)).imp fun ms hms => ⟨?_, hms.2⟩
  rw [hms.1, List.length_range]

namespace Interpolation

variable {l : LeafData K} {site : Site K}

theorem serveValues (h : Meets E (l.valuesAt site) fun φ => φ.size = l.numCoefficients) :
    (Primitives.interpolation : Primitives K).ServeValues E l site where
  value := h.bind fun φ _ => Meets.pure (Vec.size_ofFn _ _)
  coefficient {i} hi := by
    refine h.bind fun φ hφ => ?_
    refine (Meets.lift (Coefficients.yields_frame hi)).bind fun frame hframe => ?_
    refine (Meets.lift (Vec.yields_component (hφ ▸ hi))).bind fun x _ => Meets.pure ?_
    exact hframe.scale x
  second {i j along} hi _ halong := by
    show Meets E (Interpolation.second l site i j along) _
    rw [Interpolation.second]
    split
    · exact Meets.pure ⟨rfl, rfl⟩
    · refine h.bind fun φ hφ => ?_
      have hsize := (Mat.size_flatten halong).trans (Nat.mul_one _)
      refine (Meets.lift (Coefficients.yields_weingarten hi hsize)).bind fun m hm => ?_
      refine (Meets.lift (Vec.yields_component (hφ ▸ hi))).bind fun x _ => Meets.pure ?_
      exact hm.scale x

theorem serveGradients
    (h : Meets E (l.gradientsIn site) (·.HasShape l.gridDim l.numCoefficients)) :
    (Primitives.interpolation : Primitives K).ServeGradients E l site where
  axis {k} hk := by
    refine h.bind fun g hg => ?_
    rw [if_pos (by rw [hg.1]; exact hk)]
    exact Meets.pure (Vec.size_ofFn _ _)
  gradient := by
    refine h.bind fun g hg => Meets.lift ?_
    exact Mat.yields_mul l.coefficients.hasShape_matrix ⟨hg.2, hg.1⟩
  coefficientAxis {i k} hi hk := by
    refine h.bind fun g hg => ?_
    refine (Meets.lift (Coefficients.yields_frame hi)).bind fun frame hframe => ?_
    refine (Meets.lift (Mat.yields_entryAt hg hk hi)).bind fun x _ => Meets.pure ?_
    exact hframe.scale x
  coefficientGradient {i} hi := by
    refine h.bind fun g hg => ?_
    refine (Meets.lift (Coefficients.yields_frame hi)).bind fun frame hframe => ?_
    rw [hg.1]
    refine Meets.mapM_range fun k hk => ?_
    refine (Meets.lift (Mat.yields_entryAt hg hk hi)).bind fun x _ => Meets.pure ?_
    exact hframe.scale x
  thirdAxis {i j k along} hi _ hk halong := by
    show Meets E (Interpolation.thirdAxis l site i j k along) _
    rw [Interpolation.thirdAxis]
    split
    · exact Meets.pure ⟨rfl, rfl⟩
    · refine h.bind fun g hg => ?_
      have hsize := (Mat.size_flatten halong).trans (Nat.mul_one _)
      refine (Meets.lift (Coefficients.yields_weingarten hi hsize)).bind fun m hm => ?_
      refine (Meets.lift (Mat.yields_entryAt hg hk hi)).bind fun x _ => Meets.pure ?_
      exact hm.scale x
  thirdGradient {i j along} hi _ halong := by
    show Meets E (Interpolation.thirdGradient l site i j along) _
    rw [Interpolation.thirdGradient]
    split
    · exact Meets.pure ⟨rfl, rfl⟩
    · refine h.bind fun g hg => ?_
      refine Meets.foldlM (fun m : Mat K => m.HasShape l.correctionSize l.correctionSize) ⟨rfl, rfl⟩ ?_
      intro sum hsum k hk
      -- The fold runs over the columns of the argument, which are as many as the axes.
      rw [List.mem_range, halong.2] at hk
      have hsize : (along.columnVec k).size = l.valueSize := by
        rw [Mat.columnVec, Vec.size_ofFn, halong.1]
      refine (Meets.lift (Coefficients.yields_weingarten hi hsize)).bind fun m hm => ?_
      refine (Meets.lift (Mat.yields_entryAt hg hk hi)).bind fun x _ => ?_
      exact Meets.lift (Mat.yields_add hsum (hm.scale x))

end Interpolation

namespace Normalization

variable {l : LeafData K} {site : Site K} {p u w : Vec K} {n : ℕ}

theorem hasShape_jacobian (hp : p.size = n) : (normalizationJacobian p).HasShape n n := ⟨hp, hp⟩

theorem yields_second (hp : p.size = n) (hu : u.size = n) :
    Yields (normalizationSecond p u) (·.HasShape n n) :=
  Yields.require (hu.trans hp.symm) ⟨hp, hp⟩

theorem yields_third (hp : p.size = n) (hu : u.size = n) (hw : w.size = n) :
    Yields (normalizationThird p u w) (·.HasShape n n) :=
  Yields.require ⟨hu.trans hp.symm, hw.trans hp.symm⟩ ⟨hp, hp⟩

theorem yields_betweenFrames {bᵢ m bⱼ : Mat K} {q : ℕ} (hi : bᵢ.HasShape n q)
    (hm : m.HasShape n n) (hj : bⱼ.HasShape n q) :
    Yields (betweenFrames bᵢ m bⱼ) (·.HasShape q q) :=
  (Mat.yields_mul hm hj).bind fun _ hturned => Mat.yields_transposeMul hi hturned

structure Matches (l : LeafData K) (f : Interpolant K) : Prop where
  values : f.values.size = l.numCoefficients
  gradients : f.gradients.HasShape l.gridDim l.numCoefficients
  p : f.p.size = l.valueSize
  slopes : f.slopes.HasShape l.valueSize l.gridDim

theorem meets_interpolate (h : Meets E (l.valuesAt site) fun φ => φ.size = l.numCoefficients) :
    Meets E (interpolate l site) fun x => x.1.size = l.numCoefficients ∧ x.2.size = l.valueSize := by
  refine h.bind fun φ hφ => ?_
  refine (Meets.lift (Mat.yields_mulVec l.coefficients.hasShape_matrix hφ)).bind fun p hp => ?_
  exact Meets.pure ⟨hφ, hp⟩

theorem meets_interpolant (h : l.Tabulated E site) : Meets E (interpolant l site) (Matches l) := by
  refine (meets_interpolate h.values).bind fun ⟨φ, p⟩ ⟨hφ, hp⟩ => ?_
  refine h.gradients.bind fun g hg => ?_
  have hslopes := Mat.yields_mul l.coefficients.hasShape_matrix
    (show g.transpose.HasShape l.numCoefficients l.gridDim from ⟨hg.2, hg.1⟩)
  exact (Meets.lift hslopes).bind fun slopes hslopes => Meets.pure ⟨hφ, hg, hp, hslopes⟩

variable {f : Interpolant K} (hf : Matches l f) {i j k : ℕ} (hi : i < l.numCoefficients)
  (hk : k < l.gridDim)
include hf hi hk

theorem yields_mixed :
    Yields (mixed l f i k) (·.HasShape l.valueSize l.correctionSize) := by
  refine (Mat.yields_columnAt hf.slopes hk).bind fun pₖ hpₖ => ?_
  refine (Coefficients.yields_frame hi).bind fun frame hframe => ?_
  refine (yields_second hf.p hpₖ).bind fun second hsecond => ?_
  refine (Mat.yields_mul hsecond hframe).bind fun moved hmoved => ?_
  refine (Vec.yields_component (hf.values ▸ hi)).bind fun φᵢ _ => ?_
  refine (Mat.yields_mul (hasShape_jacobian hf.p) hframe).bind fun turned hturned => ?_
  refine (Mat.yields_entryAt hf.gradients hk hi).bind fun gᵢ _ => ?_
  exact Mat.yields_add (hmoved.scale φᵢ) (hturned.scale gᵢ)

theorem yields_curvatureAlong {pₖ along : Vec K} (hpₖ : pₖ.size = l.valueSize)
    (halong : along.size = l.valueSize) :
    Yields (curvatureAlong l f i k pₖ along) (·.HasShape l.correctionSize l.correctionSize) := by
  refine (Mat.yields_mulVec (hasShape_jacobian hf.p) halong).bind fun projected hprojected => ?_
  refine (yields_second hf.p hpₖ).bind fun second hsecond => ?_
  refine (Mat.yields_mulVec hsecond halong).bind fun differentiated hdifferentiated => ?_
  refine (Coefficients.yields_weingarten hi hprojected).bind fun fixed hfixed => ?_
  refine (Mat.yields_entryAt hf.gradients hk hi).bind fun gᵢ _ => ?_
  refine (Coefficients.yields_weingarten hi hdifferentiated).bind fun moved hmoved => ?_
  refine (Vec.yields_component (hf.values ▸ hi)).bind fun φᵢ _ => ?_
  exact Mat.yields_add (hfixed.scale gᵢ) (hmoved.scale φᵢ)

theorem yields_thirdDerivative (hj : j < l.numCoefficients) {along : Vec K}
    (halong : along.size = l.valueSize) :
    Yields (third l f i j k along) (·.HasShape l.correctionSize l.correctionSize) := by
  refine (Mat.yields_columnAt hf.slopes hk).bind fun pₖ hpₖ => ?_
  refine (Coefficients.yields_frame hi).bind fun bᵢ hbᵢ => ?_
  refine (Coefficients.yields_frame hj).bind fun bⱼ hbⱼ => ?_
  refine (Vec.yields_component (hf.values ▸ hi)).bind fun φᵢ _ => ?_
  refine (Vec.yields_component (hf.values ▸ hj)).bind fun φⱼ _ => ?_
  refine (Mat.yields_entryAt hf.gradients hk hi).bind fun gᵢ _ => ?_
  refine (Mat.yields_entryAt hf.gradients hk hj).bind fun gⱼ _ => ?_
  refine (yields_second hf.p halong).bind fun second hsecond => ?_
  refine (yields_betweenFrames hbᵢ hsecond hbⱼ).bind fun lower hlower => ?_
  refine (yields_third hf.p halong hpₖ).bind fun third hthird => ?_
  refine (yields_betweenFrames hbᵢ hthird hbⱼ).bind fun upper hupper => ?_
  refine (Mat.yields_add (hlower.scale _) (hupper.scale _)).bind fun sum hsum => ?_
  -- The curvature of the sphere enters only if the two coefficients are one and the same.
  split
  · refine (yields_curvatureAlong hf hi hk hpₖ halong).bind fun curvature hcurvature => ?_
    exact Mat.yields_add hsum hcurvature
  · exact Yields.pure hsum

omit hf hi hk in
theorem serveValues (h : Meets E (l.valuesAt site) fun φ => φ.size = l.numCoefficients) :
    (Primitives.normalization : Primitives K).ServeValues E l site where
  value := by
    refine (meets_interpolate h).bind fun ⟨φ, p⟩ ⟨_, hp⟩ => Meets.pure ?_
    exact (Vec.size_ofFn _ _).trans hp
  coefficient {i} hi := by
    refine (meets_interpolate h).bind fun ⟨φ, p⟩ ⟨hφ, hp⟩ => ?_
    have hφ : φ.size = l.numCoefficients := hφ
    refine (Meets.lift (Coefficients.yields_frame hi)).bind fun frame hframe => ?_
    refine (Meets.lift (Mat.yields_mul (hasShape_jacobian hp) hframe)).bind
      fun turned hturned => ?_
    refine (Meets.lift (Vec.yields_component (hφ ▸ hi))).bind fun x _ => Meets.pure ?_
    exact hturned.scale x
  second {i j along} hi hj halong := by
    refine (meets_interpolate h).bind fun ⟨φ, p⟩ ⟨hφ, hp⟩ => ?_
    have hφ : φ.size = l.numCoefficients := hφ
    refine (Meets.lift (Mat.yields_singleColumn halong)).bind fun u hu => ?_
    refine (Meets.lift (Coefficients.yields_frame hi)).bind fun bᵢ hbᵢ => ?_
    refine (Meets.lift (Coefficients.yields_frame hj)).bind fun bⱼ hbⱼ => ?_
    refine (Meets.lift (Vec.yields_component (hφ ▸ hi))).bind fun φᵢ _ => ?_
    refine (Meets.lift (Vec.yields_component (hφ ▸ hj))).bind fun φⱼ _ => ?_
    refine (Meets.lift (yields_second hp hu)).bind fun second hsecond => ?_
    refine (Meets.lift (yields_betweenFrames hbᵢ hsecond hbⱼ)).bind fun between hbetween => ?_
    split
    · refine (Meets.lift (Mat.yields_mulVec (hasShape_jacobian hp) hu)).bind
        fun projected hprojected => ?_
      refine (Meets.lift (Coefficients.yields_weingarten hi hprojected)).bind
        fun curvature hcurvature => ?_
      exact Meets.lift (Mat.yields_add (hbetween.scale _) (hcurvature.scale _))
    · exact Meets.pure (hbetween.scale _)

omit hf hi hk in
theorem serveGradients (h : l.Tabulated E site) :
    (Primitives.normalization : Primitives K).ServeGradients E l site where
  axis {k} hk := by
    refine (meets_interpolant h).bind fun f hf => ?_
    refine (Meets.lift (Mat.yields_columnAt hf.slopes hk)).bind fun pₖ hpₖ => Meets.lift ?_
    exact Mat.yields_mulVec (hasShape_jacobian hf.p) hpₖ
  gradient := by
    refine (meets_interpolant h).bind fun f hf => Meets.lift ?_
    exact Mat.yields_mul (hasShape_jacobian hf.p) hf.slopes
  coefficientAxis {i k} hi hk :=
    (meets_interpolant h).bind fun f hf => Meets.lift (yields_mixed hf hi hk)
  coefficientGradient {i} hi := by
    refine (meets_interpolant h).bind fun f hf => ?_
    refine (Meets.lift (Coefficients.yields_frame hi)).bind fun _ _ => ?_
    rw [hf.gradients.1]
    exact Meets.mapM_range fun k hk => Meets.lift (yields_mixed hf hi hk)
  thirdAxis {i j k along} hi hj hk halong := by
    refine (meets_interpolant h).bind fun f hf => ?_
    refine (Meets.lift (Mat.yields_singleColumn halong)).bind fun u hu => Meets.lift ?_
    exact yields_thirdDerivative hf hi hk hj hu
  thirdGradient {i j along} hi hj halong := by
    refine (meets_interpolant h).bind fun f hf => ?_
    refine Meets.foldlM (fun m : Mat K => m.HasShape l.correctionSize l.correctionSize) ⟨rfl, rfl⟩ ?_
    intro sum hsum k hk
    rw [List.mem_range, hf.gradients.1] at hk
    refine (Meets.lift (Mat.yields_columnAt halong hk)).bind fun u hu => ?_
    refine (Meets.lift (yields_thirdDerivative hf hi hk hj hu)).bind fun third hthird => ?_
    exact Meets.lift (Mat.yields_add hsum hthird)

end Normalization

namespace Leaf

/-- At a site, the leaf answers every request that it accepts in the form of the directions, or
refuses for a reason in `E`. -/
structure Serves (E : EvaluationError → Prop) (l : Leaf K) (site : Site K) : Prop where
  value : Meets E (l.primitives.value l.toLeafData site) fun v => v.size = l.valueSize
  answer : ∀ r : Request K, r.site = site → l.Accepts r → Meets E (l.answer r)
    (·.HasForm (r.directions.form l.valueSize l.gridDim fun _ => l.correctionSize))

variable {l : Leaf K} {r : Request K} (hr : l.Accepts r)
include hr

omit [Scalar K] in
theorem Accepts.index_lt {c : Coefficient} (hc : r.directions.coefficients = .single c) :
    c.index < l.numCoefficients := (hr.coefficient c (Directions.mem_coefficientList hc)).2

omit [Scalar K] in
theorem Accepts.indices_lt {c₁ c₂ : Coefficient} (hc : r.directions.coefficients = .two c₁ c₂) :
    c₁.index < l.numCoefficients ∧ c₂.index < l.numCoefficients := by
  obtain ⟨hmem₁, hmem₂⟩ := Directions.mem_coefficientList_two hc
  exact ⟨(hr.coefficient c₁ hmem₁).2, (hr.coefficient c₂ hmem₂).2⟩

/-- A request without a direction in space needs the primitives without derivatives in space. -/
theorem meets_answer_of_values (h : l.primitives.ServeValues E l.toLeafData r.site)
    (hs : r.directions.spatial = none) : Meets E (l.answer r)
      (·.HasForm (r.directions.form l.valueSize l.gridDim fun _ => l.correctionSize)) := by
  unfold answer Directions.form
  rcases hc : r.directions.coefficients with _ | c | ⟨c₁, c₂⟩ <;> simp only [hs]
  case none => exact h.value.bind fun v hv => Meets.pure ⟨hv, rfl⟩
  case single => exact (h.coefficient (hr.index_lt hc)).bind fun m hm => Meets.pure hm
  case two =>
    obtain ⟨h₁, h₂⟩ := hr.indices_lt hc
    refine (hr.fits.meets_column hs hc).bind fun W hW => ?_
    exact (h.second h₁ h₂ hW).bind fun m hm => Meets.pure hm

/-- A request with a direction in space needs those with derivatives in space. -/
theorem meets_answer_of_gradients (h : l.primitives.ServeGradients E l.toLeafData r.site)
    {s : SpatialDirection} (hs : r.directions.spatial = some s) : Meets E (l.answer r)
      (·.HasForm (r.directions.form l.valueSize l.gridDim fun _ => l.correctionSize)) := by
  unfold answer Directions.form
  rcases s with k | _ <;> rcases hc : r.directions.coefficients with _ | c | ⟨c₁, c₂⟩ <;>
    simp only [hs]
  case single.none => exact (h.axis (hr.axis k hs)).bind fun v hv => Meets.pure ⟨hv, rfl⟩
  case single.single =>
    exact (h.coefficientAxis (hr.index_lt hc) (hr.axis k hs)).bind fun m hm => Meets.pure hm
  case single.two =>
    obtain ⟨h₁, h₂⟩ := hr.indices_lt hc
    refine (hr.fits.meets_columns hs hc).bind fun W hW => ?_
    exact (h.thirdAxis h₁ h₂ (hr.axis k hs) hW).bind fun m hm => Meets.pure hm
  case all.none => exact h.gradient.bind fun m hm => Meets.pure hm
  case all.single =>
    exact (h.coefficientGradient (hr.index_lt hc)).bind fun ms hms => Meets.pure hms
  case all.two =>
    obtain ⟨h₁, h₂⟩ := hr.indices_lt hc
    refine (hr.fits.meets_columns hs hc).bind fun W hW => ?_
    exact (h.thirdGradient h₁ h₂ hW).bind fun m hm => Meets.pure hm

omit hr in
theorem serves_of_primitives {site : Site K}
    (hvalues : l.primitives.ServeValues E l.toLeafData site)
    (hgradients : l.primitives.ServeGradients E l.toLeafData site) : l.Serves E site := by
  refine ⟨hvalues.value, ?_⟩
  rintro r rfl hr
  cases hs : r.directions.spatial with
  | none => exact meets_answer_of_values hr hvalues hs
  | some s => exact meets_answer_of_gradients hr hgradients hs

end Leaf

end ElementFields
