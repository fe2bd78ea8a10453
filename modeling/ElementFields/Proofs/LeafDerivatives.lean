import ElementFields.Proofs.CoefficientVariations
import ElementFields.Proofs.ShapeSlopes

namespace ElementFields
open Scalar
open scoped BigOperators

theorem Element.shape_of_size_ne {e : Element} {ξ : Vec ℝ} (h : ξ.size ≠ e.dim) (j : ℕ) :
    e.shape ξ j = 0 := by
  rw [shape]
  split
  · rename_i φ hφ
    exact absurd (CachedShapes.size_of_shapeValues hφ) h
  · rfl

namespace LeafData

variable {l : LeafData ℝ} {α β : Variable} {φ : ℕ → ℝ} {g : ℕ → ℕ → ℝ}

noncomputable def interpolant (l : LeafData ℝ) (x : ℕ → ℕ → ℝ) (ζ : Vec ℝ) : Vec ℝ :=
  .ofFn l.valueSize fun d =>
    ∑ j ∈ Finset.range l.numCoefficients, l.shapes.element.shape ζ j * x d j

noncomputable def director (l : LeafData ℝ) (x : ℕ → ℕ → ℝ) (ζ : Vec ℝ) : Vec ℝ :=
  normalized (l.interpolant x ζ)

theorem size_interpolant (x : ℕ → ℕ → ℝ) (ζ : Vec ℝ) :
    (l.interpolant x ζ).size = l.valueSize := Vec.size_ofFn _ _

theorem inner_interpolant (ξ : Vec ℝ) (g : ℕ → ℕ → ℝ) :
    (l.interpolant l.coefficients.entry ξ).inner (l.interpolant l.coefficients.entry ξ) =
      innerTo l.valueSize (l.table (l.shapes.element.shape ξ) g).value
        (l.table (l.shapes.element.shape ξ) g).value :=
  Vec.inner_ofFn _ _ _

/-- The shape functions are those of points with the coordinates of the element. -/
theorem size_of_interpolant_ne_zero {x : ℕ → ℕ → ℝ} {ζ : Vec ℝ}
    (h : l.interpolant x ζ ≠ .zero l.valueSize) : ζ.size = l.gridDim := by
  by_contra hsize
  refine h (Vec.ext_entry ((size_interpolant x ζ).trans (Vec.size_ofFn _ _).symm) fun d hd => ?_)
  rw [size_interpolant] at hd
  rw [interpolant, Vec.zero, Vec.entry_ofFn _ hd, Vec.entry_ofFn _ hd]
  refine Finset.sum_eq_zero fun j _ => ?_
  rw [Element.shape_of_size_ne hsize, zero_mul]

theorem tangent_of_le (h : l.numCoefficients ≤ α.coefficient.index) (d : ℕ) : l.tangent α d = 0 := by
  rw [tangent, Coefficients.tangentEntry, List.getElem?_eq_none h, ite_self]

theorem bend_of_le (h : l.numCoefficients ≤ α.coefficient.index) (d : ℕ) : l.bend α β d = 0 := by
  rw [bend, Coefficients.bendEntry, Coefficients.entry, List.getElem?_eq_none h]
  simp only [mul_zero, neg_zero, ite_self]

/-- Of a sum over the coefficients, the one that a variable stands for remains. -/
theorem sum_own (w : ℕ → ℝ) {y : ℝ} (hy : l.numCoefficients ≤ α.coefficient.index → y = 0) :
    ∑ j ∈ Finset.range l.numCoefficients, w j * (if j = α.coefficient.index then y else 0) =
      w α.coefficient.index * y := by
  simp only [mul_ite, mul_zero, Finset.sum_ite_eq', Finset.mem_range]
  split
  · rfl
  · rename_i h
    rw [hy (Nat.le_of_not_lt h), mul_zero]

section Line

variable (hon : ∀ x ∈ l.coefficients.points, x.OnManifold)
  (hα : α.coordinate < l.correctionSize) (hβ : β.coordinate < l.correctionSize)
  {line : ℝ → Vec ℝ} {k : ℕ} (hvalue : ∀ j, l.shapes.element.shape (line 0) j = φ j)
  (hslope : ∀ j, HasDerivAt (fun t => l.shapes.element.shape (line t) j) (g k j) 0) {i : ℕ}
  (hi : i < l.valueSize)
include hon hα hβ hvalue hslope hi

/-- Along a line on which the shape functions have the slopes `g k`, the interpolant has the partial
derivatives that the table lists. -/
theorem hasPartials_interpolant :
    HasPartials (fun p q t => (l.interpolant
      (l.coefficients.moved (·.updated ·) (l.correctionOf α β p q)) (line t)).entry i)
      ((l.table φ g).jet k α β i) := by
  have hterm (j : ℕ) (_ : j < l.numCoefficients) :=
    (HasPartials.of_position (hslope j)).mul (hasVariations_moved hon hα hβ hi j)
  have hsum := HasPartials.sum hterm
  simp only [interpolant, Vec.entry_ofFn _ hi]
  -- The sums agree in each derivative: a shape function does not vary with the corrections, and a
  -- coefficient does not change along the line.
  convert hsum using 1
  simp only [Jet.sum, Jet.mul, Jet.const, hvalue, mul_zero, zero_mul, add_zero, zero_add]
  have htangent (γ : Variable) (w : ℕ → ℝ) : ∑ j ∈ Finset.range l.numCoefficients,
      w j * (if j = γ.coefficient.index then l.tangent γ i else 0) =
        w γ.coefficient.index * l.tangent γ i := sum_own w fun h => tangent_of_le h i
  have hbend (w : ℕ → ℝ) : ∑ j ∈ Finset.range l.numCoefficients,
      w j * (if j = α.coefficient.index then l.bend α β i else 0) =
        w α.coefficient.index * l.bend α β i := sum_own w fun h => bend_of_le h i
  simp only [htangent, hbend]
  rfl

/-- The interpolant divided by its length has the partial derivatives of the normalized table. -/
theorem hasPartials_director
    (hpos : 0 < innerTo l.valueSize (l.table φ g).value (l.table φ g).value) :
    HasPartials (fun p q t => (l.director
      (l.coefficients.moved (·.updated ·) (l.correctionOf α β p q)) (line t)).entry i)
      (((l.table φ g).normalize l.valueSize).jet k α β i) := by
  have hall := HasPartials.normalized
    (fun d hd => hasPartials_interpolant hon hα hβ hvalue hslope hd) hpos hi
  rw [Partials.jet_normalize k α β hpos hi]
  simp only [director, entry_normalized (size_interpolant _ _)]
  exact hall

end Line

/-- From the reference coordinates `ξ` of a site, the table `T` lists the derivatives of the field `F`,
whose coordinates `α` and `β` of coefficients are corrected by `p` and by `q`: those with respect to
the corrections, and where the shape functions have gradients, those along each line that heads for an
axis of the frame. -/
structure DerivativesAt (l : LeafData ℝ) (site : Site ℝ) (ξ : Vec ℝ)
    (F : Variable → Variable → ℝ → ℝ → Vec ℝ → Vec ℝ) (T : Partials ℝ) : Prop where
  variations : ∀ {α β}, α.coordinate < l.correctionSize → β.coordinate < l.correctionSize →
    ∀ i < l.valueSize, HasVariations (fun p q => (F α β p q ξ).entry i) (T.value i) (T.varied α i)
      (T.varied β i) (T.twice α β i)
  heads : ∀ {m}, l.gradientsIn site = .ok m → ∀ k < l.gridDim, ∃ w, l.Heads ξ site.transform k w
  slopes : ∀ {m}, l.gradientsIn site = .ok m → ∀ k < l.gridDim, ∀ w,
    l.Heads ξ site.transform k w → ∀ {α β}, α.coordinate < l.correctionSize →
      β.coordinate < l.correctionSize → ∀ i < l.valueSize,
        HasPartials (fun p q t => (F α β p q (ξ.along w t)).entry i) (T.jet k α β i)

section Site

variable {site : Site ℝ} {ξ : Vec ℝ} (ht : l.shapes.Truthful) (hs : l.shapes.Sound)
  (hξ : l.shapes.position site.point = .ok ξ) (hsize : ξ.size = l.gridDim)
include ht hs hξ hsize

/-- A table that follows from the slopes of the shape functions along every line through a point lists
the derivatives there. -/
theorem derivativesAt_of_lines {F : Variable → Variable → ℝ → ℝ → Vec ℝ → Vec ℝ}
    {T : (ℕ → ℕ → ℝ) → Partials ℝ}
    (hT : ∀ g, ((T g).value = (T 0).value ∧ (T g).varied = (T 0).varied) ∧
      (T g).twice = (T 0).twice)
    (hF : ∀ {line : ℝ → Vec ℝ} {g k α β}, α.coordinate < l.correctionSize →
      β.coordinate < l.correctionSize → line 0 = ξ →
      (∀ j, HasDerivAt (fun t => l.shapes.element.shape (line t) j) (g k j) 0) →
      ∀ i < l.valueSize,
        HasPartials (fun p q t => (F α β p q (line t)).entry i) ((T g).jet k α β i)) :
    l.DerivativesAt site ξ F (T (l.gradientEntry site)) where
  variations {α β} hα hβ i hi := by
    -- On a line that stays where it is there are no slopes.
    have hrest (j : ℕ) : HasDerivAt (fun _ : ℝ => l.shapes.element.shape ξ j) 0 0 :=
      hasDerivAt_const 0 _
    obtain ⟨⟨hvalue, hvaried⟩, htwice⟩ := hT (l.gradientEntry site)
    rw [hvalue, hvaried, htwice]
    have hall : HasPartials (fun p q _ => (F α β p q ξ).entry i) ((T 0).jet 0 α β i) :=
      hF hα hβ rfl hrest i hi
    exact hall.hasVariations
  heads hm k hk := exists_heads hs hξ hsize hm hk
  slopes {m} hm k hk w hw α β hα hβ i hi := by
    refine hF hα hβ (Vec.along_zero ξ w) (fun j => ?_) i hi
    rw [← entry_gradientsIn hm]
    exact hasDerivAt_shape_of_heads ht hs hξ hsize hm hk hw j

variable (hon : ∀ x ∈ l.coefficients.points, x.OnManifold)
include hon

/-- The table of an interpolation lists the derivatives of the interpolant. -/
theorem derivativesAt_interpolant :
    l.DerivativesAt site ξ
      (fun α β p q => l.interpolant (l.coefficients.moved (·.updated ·) (l.correctionOf α β p q)))
      (l.table (l.shapes.element.shape ξ) (l.gradientEntry site)) :=
  derivativesAt_of_lines ht hs hξ hsize (T := l.table (l.shapes.element.shape ξ))
    (fun _ => ⟨⟨rfl, rfl⟩, rfl⟩) fun hα hβ hzero hslope _ hi =>
      hasPartials_interpolant hon hα hβ (fun j => by rw [hzero]) hslope hi

/-- Once normalized, it lists those of the interpolant divided by its length, unless that is zero. -/
theorem derivativesAt_director
    (hne : l.interpolant l.coefficients.entry ξ ≠ .zero l.valueSize) :
    l.DerivativesAt site ξ
      (fun α β p q => l.director (l.coefficients.moved (·.updated ·) (l.correctionOf α β p q)))
      ((l.table (l.shapes.element.shape ξ) (l.gradientEntry site)).normalize l.valueSize) := by
  have hpos (g : ℕ → ℕ → ℝ) : 0 < innerTo l.valueSize
      (l.table (l.shapes.element.shape ξ) g).value (l.table (l.shapes.element.shape ξ) g).value := by
    rw [← inner_interpolant]
    refine lt_of_le_of_ne (Vec.inner_self_nonneg _) fun h => hne ?_
    rw [Vec.eq_zero_of_inner_self h.symm, size_interpolant]
  exact derivativesAt_of_lines ht hs hξ hsize
    (T := fun g => (l.table (l.shapes.element.shape ξ) g).normalize l.valueSize)
    (fun _ => ⟨⟨rfl, rfl⟩, rfl⟩) fun hα hβ hzero hslope _ hi =>
      hasPartials_director hon hα hβ (fun j => by rw [hzero]) hslope hi (hpos _)

end Site

section Position

variable {site : Site ℝ} {ξ ζ : Vec ℝ} (hξ : l.shapes.position site.point = .ok ξ)
  (hζ : site.point = .position ζ)
include hξ hζ

theorem checkPosition_eq : l.shapes.checkPosition ζ = .ok ξ ∧ ξ.size = l.shapes.element.dim := by
  rw [hζ] at hξ
  have hcheck : l.shapes.checkPosition ζ = .ok ξ := hξ
  refine ⟨hcheck, ?_⟩
  rw [CachedShapes.checkPosition] at hcheck
  split at hcheck
  · rename_i hsize
    exact Except.ok.inj hcheck ▸ hsize
  · nomatch hcheck

/-- At a position the shape functions have values. -/
theorem exists_valuesAt_position : ∃ φ, l.valuesAt site = .ok φ := by
  obtain ⟨hcheck, hsize⟩ := checkPosition_eq hξ hζ
  obtain ⟨φ, hφ, -⟩ := Element.yields_shapeValues hsize
  refine ⟨φ, ?_⟩
  rw [valuesAt, hζ]
  exact bind_eq_ok_iff.2 ⟨ξ, hcheck, lift_eq_ok_iff.2 hφ⟩

/-- At a position the shape functions have gradients, in the frame of the grid element if its Jacobian
has an inverse. -/
theorem exists_gradientsIn_position (hs : l.shapes.Sound)
    (hmapped : site.transform = .gridElement → ∃ Jt, l.MappedAt site.point Jt) :
    ∃ m, l.gradientsIn site = .ok m := by
  obtain ⟨hcheck, hsize⟩ := checkPosition_eq hξ hζ
  obtain ⟨m, hm, -⟩ := Element.yields_shapeGradients hsize
  have hm : l.shapes.gradientsAt site.point = .ok m := by
    rw [hζ]
    exact bind_eq_ok_iff.2 ⟨ξ, hcheck, lift_eq_ok_iff.2 hm⟩
  obtain ⟨p, transform⟩ := site
  cases transform with
  | referenceElement => exact ⟨m, (l.shapes.gradientsIn_reference _ p).trans hm⟩
  | gridElement =>
    obtain ⟨Jt, hJt⟩ := hmapped rfl
    obtain ⟨m', hm', -⟩ := hJt.exists_gradientsIn hs hm
    exact ⟨m', hm'⟩

end Position

end LeafData

namespace Leaf

/-- At a site with the reference coordinates `ξ`, the answers of a leaf are the derivatives of the field
`F`. Where the shape functions have values, nothing is refused that has no derivative in space; where
they have gradients too, nothing at all. -/
structure DifferentiatesAt (l : Leaf ℝ) (site : Site ℝ) (ξ : Vec ℝ)
    (F : Variable → Variable → ℝ → ℝ → Vec ℝ → Vec ℝ) : Prop where
  answers : ∃ T, l.primitives.Reads l.toLeafData site T ∧ l.toLeafData.DerivativesAt site ξ F T
  values : ∀ {φ}, l.valuesAt site = .ok φ →
    l.primitives.ServeValues (fun _ => False) l.toLeafData site
  gradients : ∀ {φ m}, l.valuesAt site = .ok φ → l.gradientsIn site = .ok m →
    l.primitives.ServeGradients (fun _ => False) l.toLeafData site
  /-- Shape functions have values at every position, and gradients if the Jacobian is invertible. -/
  position : ∀ {ζ}, site.point = .position ζ → (∃ φ, l.valuesAt site = .ok φ) ∧
    ((site.transform = .gridElement → ∃ Jt, l.MappedAt site.point Jt) →
      ∃ m, l.gradientsIn site = .ok m)

/-- What a leaf answers to two coefficients. There is nothing for different ones. For the same one
there is its shape function times the second derivative of the corrected point, contracted; along all
axes, the derivatives of the shape function take the place of its value. -/
structure CurvesAt (l : Leaf ℝ) (site : Site ℝ) (ξ : Vec ℝ) : Prop where
  second : ∀ {i x u m}, l.coefficients.points[i]? = some x → u.rows = l.valueSize ∧ u.cols = 1 →
    l.primitives.second l.toLeafData site i i u = .ok m →
    ∀ a < l.correctionSize, ∀ b < l.correctionSize, ∃ s,
      HasMixed (fun p q => ∑ d ∈ Finset.range l.valueSize,
        u.entry d 0 * x.updated (.onAxes l.correctionSize a b p q) d) s ∧
      m.entry a b = l.shapes.element.shape ξ i * s
  third : ∀ {i x W m}, l.coefficients.points[i]? = some x →
    W.rows = l.valueSize ∧ W.cols = l.gridDim → (∃ G, l.gradientsIn site = .ok G) →
    l.primitives.thirdGradient l.toLeafData site i i W = .ok m →
    ∀ a < l.correctionSize, ∀ b < l.correctionSize, ∃ g s : ℕ → ℝ,
      (∀ k < l.gridDim, ∀ w, l.Heads ξ site.transform k w →
        HasDerivAt (fun t => l.shapes.element.shape (ξ.along w t) i) (g k) 0) ∧
      (∀ k, HasMixed (fun p q => ∑ d ∈ Finset.range l.valueSize,
        W.entry d k * x.updated (.onAxes l.correctionSize a b p q) d) (s k)) ∧
      m.entry a b = ∑ k ∈ Finset.range l.gridDim, g k * s k
  second_of_ne : ∀ {i j u m}, i ≠ j → l.primitives.second l.toLeafData site i j u = .ok m →
    m = .zero l.correctionSize l.correctionSize
  third_of_ne : ∀ {i j W m}, i ≠ j → l.primitives.thirdGradient l.toLeafData site i j W = .ok m →
    m = .zero l.correctionSize l.correctionSize

section Sheared

variable {M : Manifold} {hM : 2 = M.valueSize} {order : PolynomialOrder} {primitives : Primitives ℝ}
  {block : BlockId}

theorem mappedAt_onSheared : (onSheared M hM order primitives block).MappedAt (.position #[0, 0])
    Geometry.shear where
  jacobian := ⟨.sheared, #[0, 0], rfl, rfl, Geometry.jacobianTransposed_sheared _⟩
  invertible := Geometry.invertible_shear
  rows := rfl

theorem norm_onSheared : ∀ x ∈ (onSheared M hM order primitives block).coefficients.points,
    x.coords.norm = 1 := by
  have hunit (a b : ℝ) (h : a * a + b * b = 1) : Vec.norm (K := ℝ) #[a, b] = 1 := by
    rw [Vec.norm_eq_one_iff, Vec.inner_eq_sum]
    show ∑ i ∈ Finset.range 2, _ = _
    rw [Finset.sum_range_succ, Finset.sum_range_one]
    exact h
  intro x hx
  have hmem : x ∈ [⟨#[1, 0], hM⟩, ⟨#[0, 1], hM⟩, ⟨#[0, 1], hM⟩] := hx
  simp only [List.mem_cons, List.not_mem_nil, or_false] at hmem
  rcases hmem with rfl | rfl | rfl
  · exact hunit 1 0 (by norm_num)
  all_goals exact hunit 0 1 (by norm_num)

/-- In the middle of a side the interpolant is the point at its ends. -/
theorem interpolant_onSheared_ne_zero :
    (onSheared M hM order primitives block).interpolant
      (onSheared M hM order primitives block).coefficients.entry #[0, 0] ≠
        .zero (onSheared M hM order primitives block).valueSize := by
  intro hzero
  have hsize : 1 < M.valueSize := hM ▸ Nat.one_lt_two
  have hdim : Array.size (#[0, 0] : Vec ℝ) = Element.triangle.dim := rfl
  have hshape : ∀ k < 2, Element.shape .triangle #[0, 0] (k + 1) = axisValue #[0, 0] k :=
    (Element.shape_of_simplex rfl hdim).2
  have hsum : ∑ j ∈ Finset.range 3, Element.shape .triangle #[0, 0] j *
      (onSheared M hM order primitives block).coefficients.entry 1 j = 0 := by
    refine (Vec.entry_ofFn _ hsize).symm.trans ((congrArg (Vec.entry · 1) hzero).trans ?_)
    exact Vec.entry_ofFn _ hsize
  have haxis (k : ℕ) (hk : k < 2) : axisValue (#[0, 0] : Vec ℝ) k = 1 / 2 := by
    have hentry : Vec.entry (#[0, 0] : Vec ℝ) k = 0 := by interval_cases k <;> rfl
    rw [axisValue, hentry, add_zero, Nat.cast_ofNat]
  have hpoints : (onSheared M hM order primitives block).coefficients.entry 1 0 = 0 ∧
      (onSheared M hM order primitives block).coefficients.entry 1 1 = 1 ∧
      (onSheared M hM order primitives block).coefficients.entry 1 2 = 1 := ⟨rfl, rfl, rfl⟩
  rw [Finset.sum_range_succ, Finset.sum_range_succ, Finset.sum_range_one, hshape 0 Nat.two_pos,
    hshape 1 Nat.one_lt_two, haxis 0 Nat.two_pos, haxis 1 Nat.one_lt_two, hpoints.1, hpoints.2.1,
    hpoints.2.2] at hsum
  norm_num at hsum

theorem valueSize_circle : 2 = (Manifold.sphere 2).valueSize := rfl

/-- The interpolation of unit vectors, which leaves the sphere. -/
noncomputable def chordal (block : BlockId) : Leaf ℝ :=
  onSheared (.sphere 2) valueSize_circle .nonlinear .interpolation block

theorem standard_chordal (block : BlockId) : (chordal block).Standard := by
  have h : Leaf.interpolated .triangle (chordal block).coefficients block =
      .ok { chordal block with geometry := none } := rfl
  exact (Standard.interpolated h).withGeometry .sheared

end Sheared

namespace Standard

variable {l : Leaf ℝ} {site : Site ℝ} {ξ : Vec ℝ}

section Answers

variable (h : l.Standard)
include h

theorem entry_valuesAt (hξ : l.shapes.position site.point = .ok ξ) {v : Vec ℝ}
    (hv : l.valuesAt site = .ok v) (j : ℕ) : v.entry j = l.shapes.element.shape ξ j :=
  Element.entry_shapeValues (h.truthful.shapeValues_eq hξ hv) j

theorem meets_valuesAt {φ : Vec ℝ} (hφ : l.valuesAt site = .ok φ) :
    Meets (fun _ => False) (l.valuesAt site) fun φ => φ.size = l.numCoefficients := by
  rw [hφ, h.numCoefficients_eq]
  exact Meets.pure (h.kind.sound.size_valuesAt hφ)

theorem tabulated {φ : Vec ℝ} {m : Mat ℝ} (hφ : l.valuesAt site = .ok φ)
    (hm : l.gradientsIn site = .ok m) : l.Tabulated (fun _ => False) site := by
  refine ⟨h.meets_valuesAt hφ, ?_⟩
  rw [hm, h.numCoefficients_eq]
  exact Meets.pure (h.kind.sound.shape_gradientsIn hm)

theorem known_at_position {ζ : Vec ℝ} (hξ : l.shapes.position site.point = .ok ξ)
    (hζ : site.point = .position ζ) : (∃ φ, l.valuesAt site = .ok φ) ∧
      ((site.transform = .gridElement → ∃ Jt, l.MappedAt site.point Jt) →
        ∃ m, l.gradientsIn site = .ok m) :=
  ⟨LeafData.exists_valuesAt_position hξ hζ,
    LeafData.exists_gradientsIn_position hξ hζ h.kind.sound⟩

theorem curvesAt_of_interpolation (hp : l.primitives = .interpolation)
    (hon : ∀ x ∈ l.coefficients.points, x.OnManifold)
    (hξ : l.shapes.position site.point = .ok ξ) (hsize : ξ.size = l.gridDim) :
    l.CurvesAt site ξ := by
  have hsound := h.kind.sound
  have hreads := Interpolation.reads (fun v hv => h.entry_valuesAt hξ hv)
    (fun m hm => LeafData.entry_gradientsIn hm)
  have hbend {i : ℕ} {x : l.coefficients.manifold.Point ℝ} (hx : l.coefficients.points[i]? = some x)
      (a b d : ℕ) : l.bend ⟨⟨l.block, i⟩, a⟩ ⟨⟨l.block, i⟩, b⟩ d =
        if l.coefficients.manifold.isEuclidean then 0 else -(delta a b * x.coords.entry d) := by
    rw [LeafData.bend_own rfl, Coefficients.bendEntry, Coefficients.entry, hx]
  rw [← hp] at hreads
  refine ⟨fun {i x u m} hx hu hm a ha b hb => ?_, fun {i x W m} hx hW hG hm a ha b hb => ?_,
    fun hne hm => ?_, fun hne hm => ?_⟩
  · let c : Coefficient := ⟨l.block, i⟩
    have hm : l.primitives.second l.toLeafData site c.index c.index u = .ok m := hm
    refine ⟨_, Manifold.Point.hasMixed_updated (hon x (List.mem_of_getElem? hx)) _ ha, ?_⟩
    rw [hreads.second rfl rfl hu hm a ha b hb, Finset.mul_sum]
    refine Finset.sum_congr rfl fun d _ => ?_
    rw [← hbend hx]
    exact mul_left_comm _ _ _
  · let c : Coefficient := ⟨l.block, i⟩
    have hm : l.primitives.thirdGradient l.toLeafData site c.index c.index W = .ok m := hm
    obtain ⟨G, hG⟩ := hG
    refine ⟨fun k => G.entry k i, _, fun k hk w hw => ?_, fun k =>
      Manifold.Point.hasMixed_updated (hon x (List.mem_of_getElem? hx)) _ ha, ?_⟩
    · exact LeafData.hasDerivAt_shape_of_heads h.truthful hsound hξ hsize hG hk hw i
    · rw [hreads.thirdGradient rfl rfl hW hm a ha b hb]
      refine Finset.sum_congr rfl fun k _ => ?_
      show _ = G.entry k i * _
      rw [LeafData.entry_gradientsIn hG, Finset.mul_sum]
      refine Finset.sum_congr rfl fun d _ => ?_
      rw [← hbend hx]
      exact mul_left_comm _ _ _
  -- Before anything is computed, different coefficients are answered by zero.
  all_goals
    rw [hp] at hm
    exact (Except.ok.inj ((if_pos (Or.inl hne)).symm.trans hm)).symm

end Answers

/-- A field of unit vectors is answered exactly wherever the interpolant `p` is not zero: the answers
are the derivatives of `p / |p|`, each coefficient moved by the retraction `(x + B v) / |x + B v|`. -/
theorem normalization_exact (h : l.Standard) (hp : l.primitives = .normalization) {dim : ℕ}
    (hM : l.coefficients.manifold = .sphere dim)
    (hunit : ∀ x ∈ l.coefficients.points, x.coords.norm = 1)
    (hξ : l.shapes.position site.point = .ok ξ)
    (hne : l.interpolant l.coefficients.entry ξ ≠ .zero l.valueSize) :
    l.DifferentiatesAt site ξ fun α β p q =>
      l.director (l.coefficients.moved (·.retracted ·) (l.correctionOf α β p q)) := by
  have hsound := h.kind.sound
  have hreads := Normalization.reads (fun v hv => h.entry_valuesAt hξ hv)
    (fun m hm => LeafData.entry_gradientsIn hm) hsound
  refine ⟨⟨_, hp ▸ hreads, ?_⟩, fun hφ => ?_, fun hφ hm => ?_, h.known_at_position hξ⟩
  · simp only [LeafData.moved_retracted hM hunit]
    exact LeafData.derivativesAt_director h.truthful hsound hξ
      (LeafData.size_of_interpolant_ne_zero hne)
      (fun x hx => Manifold.Point.onManifold_of_norm (hunit x hx)) hne
  · exact hp ▸ Normalization.serveValues (h.meets_valuesAt hφ)
  · exact hp ▸ Normalization.serveGradients (h.tabulated hφ hm)

/-- In the frame of the sheared triangle, in the middle of a side. -/
theorem normalization_exact_directed :
    let l : Leaf ℝ := .directed ⟨0⟩
    let site : Site ℝ := ⟨.position #[0, 0], .gridElement⟩
    (l.Standard ∧ l.primitives = .normalization ∧ l.coefficients.manifold = .sphere 2 ∧
      (∀ x ∈ l.coefficients.points, x.coords.norm = 1) ∧
      l.shapes.position site.point = .ok #[0, 0] ∧
      l.interpolant l.coefficients.entry #[0, 0] ≠ .zero l.valueSize) ∧
    (l.DifferentiatesAt site #[0, 0] fun α β p q =>
      l.director (l.coefficients.moved (·.retracted ·) (l.correctionOf α β p q))) ∧
    l.primitives.ServeGradients (fun _ => False) l.toLeafData site := by
  intro l site
  have hl : l.Standard := standard_directed ⟨0⟩
  have hξ : l.shapes.position site.point = .ok #[0, 0] := rfl
  have hexact := hl.normalization_exact rfl rfl norm_onSheared hξ interpolant_onSheared_ne_zero
  obtain ⟨⟨φ, hφ⟩, hgradients⟩ := hexact.position rfl
  obtain ⟨m, hm⟩ := hgradients fun _ => ⟨_, mappedAt_onSheared⟩
  exact ⟨⟨hl, rfl, rfl, norm_onSheared, hξ, interpolant_onSheared_ne_zero⟩, hexact,
    hexact.gradients hφ hm⟩

/-- An interpolation is answered exactly: the answers are the derivatives of the sum of the shape
functions times the coefficients, each of them moved by its corrections. -/
theorem interpolation_exact (h : l.Standard) (hp : l.primitives = .interpolation)
    (hon : ∀ x ∈ l.coefficients.points, x.OnManifold)
    (hξ : l.shapes.position site.point = .ok ξ) (hsize : ξ.size = l.gridDim) :
    (l.DifferentiatesAt site ξ fun α β p q =>
      l.interpolant (l.coefficients.moved (·.updated ·) (l.correctionOf α β p q))) ∧
    l.CurvesAt site ξ := by
  have hreads := Interpolation.reads (fun v hv => h.entry_valuesAt hξ hv)
    (fun m hm => LeafData.entry_gradientsIn hm)
  refine ⟨⟨⟨_, hp ▸ hreads, ?_⟩, fun hφ => ?_, fun hφ hm => ?_, h.known_at_position hξ⟩,
    h.curvesAt_of_interpolation hp hon hξ hsize⟩
  · exact LeafData.derivativesAt_interpolant h.truthful h.kind.sound hξ hsize hon
  · exact hp ▸ Interpolation.serveValues (h.meets_valuesAt hφ)
  · exact hp ▸ Interpolation.serveGradients (h.tabulated hφ hm).gradients

/-- Unit vectors in the frame of the sheared triangle. -/
theorem interpolation_exact_chordal :
    let l : Leaf ℝ := chordal ⟨0⟩
    let site : Site ℝ := ⟨.position #[0, 0], .gridElement⟩
    (l.Standard ∧ l.primitives = .interpolation ∧ (∀ x ∈ l.coefficients.points, x.OnManifold) ∧
      l.shapes.position site.point = .ok #[0, 0] ∧ Array.size (#[0, 0] : Vec ℝ) = l.gridDim) ∧
    (l.DifferentiatesAt site #[0, 0] fun α β p q =>
      l.interpolant (l.coefficients.moved (·.updated ·) (l.correctionOf α β p q))) ∧
    l.CurvesAt site #[0, 0] ∧ l.primitives.ServeGradients (fun _ => False) l.toLeafData site := by
  intro l site
  have hl : l.Standard := standard_chordal ⟨0⟩
  have hon : ∀ x ∈ l.coefficients.points, x.OnManifold :=
    fun x hx => Manifold.Point.onManifold_of_norm (norm_onSheared x hx)
  have hξ : l.shapes.position site.point = .ok #[0, 0] := rfl
  obtain ⟨hexact, hcurves⟩ := hl.interpolation_exact rfl hon hξ rfl
  obtain ⟨⟨φ, hφ⟩, hgradients⟩ := hexact.position rfl
  obtain ⟨m, hm⟩ := hgradients fun _ => ⟨_, mappedAt_onSheared⟩
  exact ⟨⟨hl, rfl, hon, hξ, rfl⟩, hexact, hcurves, hexact.gradients hφ hm⟩

end Standard

end Leaf

end ElementFields
