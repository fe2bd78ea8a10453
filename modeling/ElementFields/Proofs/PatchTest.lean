import ElementFields.Proofs.Binding
import ElementFields.Proofs.Covariance
import ElementFields.Proofs.PartitionOfUnity
import ElementFields.Proofs.Substitution
import ElementFields.Proofs.TotalRules
import ElementFields.Proofs.Updates
import ElementFields.Proofs.VoigtTensors

namespace ElementFields
open Scalar
open scoped BigOperators

variable {K : Type} [ExactScalar K]

/-- What an invertible matrix takes to the same is the same. -/
theorem Mat.Invertible.cancel {m : Mat K} (h : m.Invertible) {x y : ℕ → K}
    (hxy : ∀ k < m.rows, ∑ i ∈ Finset.range m.rows, m.entry k i * x i =
      ∑ i ∈ Finset.range m.rows, m.entry k i * y i) {i : ℕ} (hi : i < m.rows) : x i = y i := by
  obtain ⟨hsquare, N, hN⟩ := h
  obtain ⟨hcols, -, hentry⟩ := Mat.mul_eq_ok hN
  have hinverse (z : ℕ → K) : z i = ∑ k ∈ Finset.range m.rows, N.entry i k *
      ∑ j ∈ Finset.range m.rows, m.entry k j * z j := by
    calc z i = ∑ j ∈ Finset.range m.rows, delta i j * z j := (sum_delta_mul hi z).symm
      _ = ∑ j ∈ Finset.range m.rows, ∑ k ∈ Finset.range m.rows,
            N.entry i k * m.entry k j * z j := by
          apply Finset.sum_congr rfl
          intro j hj
          rw [← Mat.entry_identity hi (Finset.mem_range.mp hj), hentry, hcols, Finset.sum_mul]
      _ = _ := by
          rw [Finset.sum_comm]
          simp only [Finset.mul_sum, mul_assoc]
  rw [hinverse x, hinverse y]
  apply Finset.sum_congr rfl
  intro k hk
  rw [hxy k (Finset.mem_range.mp hk)]

def affineAt (a : Vec K) (H : Mat K) (x : Vec K) : Vec K :=
  .ofFn a.size fun i => a.entry i + sumTo H.cols fun k => H.entry i k * x.entry k

theorem entry_affineAt (a : Vec K) (H : Mat K) (x : Vec K) {i : ℕ} (hi : i < a.size) :
    (affineAt a H x).entry i =
      a.entry i + ∑ k ∈ Finset.range H.cols, H.entry i k * x.entry k := by
  rw [affineAt, Vec.entry_ofFn _ hi, sumTo_eq_sum]

namespace Coefficients

def affine (a : Vec K) (H X : Mat K) : Coefficients K where
  manifold := .euclidean a.size
  points := (List.range X.cols).map fun j => Manifold.place _ (affineAt a H (X.columnVec j))

variable {a : Vec K} {H X : Mat K}

theorem size_affine : (affine a H X).size = X.cols := by
  rw [size, affine, List.length_map, List.length_range]

theorem entry_affine {i j : ℕ} (hi : i < a.size) (hj : j < X.cols) :
    (affine a H X).entry i j =
      a.entry i + ∑ k ∈ Finset.range H.cols, H.entry i k * X.entry k j := by
  have hpoint : (affine a H X).points[j]? =
      some (Manifold.place _ (affineAt a H (X.columnVec j))) := by
    rw [affine, List.getElem?_map, List.getElem?_range hj]
    rfl
  have hcoords : (Manifold.place (.euclidean a.size) (affineAt a H (X.columnVec j))).coords.entry i =
      (affineAt a H (X.columnVec j)).entry i := Vec.entry_ofFn _ hi
  rw [entry, hpoint]
  calc _ = (affineAt a H (X.columnVec j)).entry i := hcoords
    _ = a.entry i + ∑ k ∈ Finset.range H.cols, H.entry i k * (X.columnVec j).entry k :=
        entry_affineAt a H _ hi
    _ = a.entry i + ∑ k ∈ Finset.range H.cols, H.entry i k * X.entry k j := by
        simp only [Mat.entry_columnVec]

/-- A combination of the values is the combination of the points, with `a` as often as the weights
add up to. -/
theorem sum_mul_affine (w : ℕ → K) {i : ℕ} (hi : i < a.size) :
    ∑ j ∈ Finset.range X.cols, w j * (affine a H X).entry i j =
      a.entry i * ∑ j ∈ Finset.range X.cols, w j +
        ∑ k ∈ Finset.range H.cols, H.entry i k * ∑ j ∈ Finset.range X.cols, X.entry k j * w j := by
  have hentry : ∀ j ∈ Finset.range X.cols, w j * (affine a H X).entry i j =
      a.entry i * w j + ∑ k ∈ Finset.range H.cols, H.entry i k * (X.entry k j * w j) := by
    intro j hj
    rw [entry_affine hi (Finset.mem_range.mp hj), mul_add, mul_comm, Finset.mul_sum]
    congr 1
    apply Finset.sum_congr rfl
    intro k _
    ring
  rw [Finset.sum_congr rfl hentry, Finset.sum_add_distrib, ← Finset.mul_sum, Finset.sum_comm]
  simp only [Finset.mul_sum]

end Coefficients

namespace Leaf

/-- The leaf interpolates the affine field `a + H x` on the element that its geometry is made of, from
the values at the vertices `X`. -/
structure SamplesAffine (l : Leaf K) (X : Mat K) (a : Vec K) (H : Mat K) : Prop where
  standard : l.Standard
  interpolates : l.primitives = .interpolation
  geometry : l.geometry = some ⟨l.shapes.element, X⟩
  coefficients : l.coefficients = .affine a H X
  gradient : H.shape = (a.size, l.gridDim)

namespace SamplesAffine

variable {l : Leaf K} {X H Jt : Mat K} {a ξ : Vec K} (h : l.SamplesAffine X a H)
include h

theorem cols_eq : X.cols = l.shapes.element.numNodes := by
  have hsize := h.standard.numCoefficients_eq
  rw [LeafData.numCoefficients, h.coefficients, Coefficients.size_affine] at hsize
  exact hsize

/-- In reference coordinates, the gradient of the interpolation is the one of the affine field along the
columns of the Jacobian. -/
theorem reference_gradient (hJt : (⟨l.shapes.element, X⟩ : Geometry K).jacobianTransposed ξ = .ok Jt)
    {m : Mat K} (hm : l.shapes.element.shapeGradients ξ = .ok m) {i r : ℕ} (hi : i < a.size)
    (hr : r < l.gridDim) :
    ∑ j ∈ Finset.range X.cols, m.entry r j * (Coefficients.affine a H X).entry i j =
      ∑ q ∈ Finset.range l.gridDim, Jt.entry r q * H.entry i q := by
  obtain ⟨m', hm', hmat⟩ := bind_eq_ok_iff.1 hJt
  obtain rfl := Except.ok.inj (hm.symm.trans hm')
  obtain ⟨hcols, -, hentry⟩ := Mat.mul_eq_ok hmat
  have hcols : m.cols = l.shapes.element.numNodes := hcols.trans h.cols_eq
  have hHcols : H.cols = l.gridDim := congrArg Prod.snd h.gradient
  rw [Coefficients.sum_mul_affine _ hi, h.cols_eq, Element.sum_shapeGradients hm hr, mul_zero,
    zero_add, hHcols]
  apply Finset.sum_congr rfl
  intro q _
  rw [hentry, hcols, mul_comm]
  simp only [Mat.entry_transpose, mul_comm]

variable (hξ : ξ.size = l.gridDim)
include hξ

/-- The value is the one of the affine field where the geometry places the point. -/
theorem value_eq (t : Transform) : ∃ x : Vec K,
    (⟨l.shapes.element, X⟩ : Geometry K).position ξ = .ok x ∧
      l.primitives.value l.toLeafData ⟨.position ξ, t⟩ = .ok (affineAt a H x) := by
  obtain ⟨φ, hφ, hsize⟩ := Element.yields_shapeValues (e := l.shapes.element) hξ
  have hcols := h.cols_eq
  obtain ⟨x, hx⟩ : ∃ x, X.mulVec φ = .ok x :=
    ⟨_, require_eq_ok.2 ⟨hcols.trans hsize.symm, rfl⟩⟩
  obtain ⟨-, -, hentry⟩ := Mat.mulVec_eq_ok hx
  refine ⟨x, bind_eq_ok_iff.2 ⟨φ, hφ, hx⟩, ?_⟩
  have hvalues : l.valuesAt ⟨.position ξ, t⟩ = .ok φ :=
    bind_eq_ok_iff.2 ⟨ξ, if_pos hξ, lift_eq_ok_iff.2 hφ⟩
  rw [h.interpolates]
  refine bind_eq_ok_iff.2 ⟨φ, hvalues, congrArg Except.ok ?_⟩
  rw [h.coefficients]
  apply Vec.ext_entry
  · rw [Coefficients.combine, Vec.size_ofFn, affineAt, Vec.size_ofFn]
    rfl
  · intro i hi
    have hi : i < a.size := by
      rw [Coefficients.combine, Vec.size_ofFn] at hi
      exact hi
    -- The values are those at the vertices, so that this is the combination that places the point.
    have hout : ∀ j, φ.size ≤ j → φ.entry j = 0 := fun j hj => Vec.entry_of_size_le hj
    rw [Coefficients.entry_combine hout hi, Coefficients.size_affine,
      Coefficients.sum_mul_affine _ hi, entry_affineAt a H x hi, hcols,
      Element.sum_shapeValues hφ, mul_one]
    congr 1
    apply Finset.sum_congr rfl
    intro k _
    rw [hentry, hcols]

theorem exists_jacobian : ∃ Jt : Mat K,
    (⟨l.shapes.element, X⟩ : Geometry K).jacobianTransposed ξ = .ok Jt := by
  obtain ⟨m, hm, hshape⟩ := Element.yields_shapeGradients (e := l.shapes.element) hξ
  obtain ⟨Jt, hJt⟩ := Mat.exists_mul (a := m) (b := X.transpose) (hshape.2.trans h.cols_eq.symm)
  exact ⟨Jt, bind_eq_ok_iff.2 ⟨m, hm, hJt⟩⟩

/-- Where the Jacobian is invertible, the gradient on the grid element is the one of the affine
field. -/
theorem gradient_eq (hJt : (⟨l.shapes.element, X⟩ : Geometry K).jacobianTransposed ξ = .ok Jt)
    (hinv : Jt.Invertible) :
    l.primitives.gradient l.toLeafData ⟨.position ξ, .gridElement⟩ = .ok H := by
  obtain ⟨hHrows, hHcols⟩ := Prod.mk.inj h.gradient
  obtain ⟨m, hm, hshape⟩ := Element.yields_shapeGradients (e := l.shapes.element) hξ
  have hJrows : Jt.rows = l.gridDim := by
    obtain ⟨m', hm', hmat⟩ := bind_eq_ok_iff.1 hJt
    obtain rfl := Except.ok.inj (hm.symm.trans hm')
    exact (Mat.mul_eq_ok hmat).2.1.1.trans hshape.1
  have hmapped : l.toLeafData.MappedAt (.position ξ) Jt :=
    ⟨⟨_, ξ, h.geometry, if_pos hξ, hJt⟩, hinv, hJrows⟩
  have hgradients : l.shapes.gradientsAt (.position ξ) = .ok m :=
    bind_eq_ok_iff.2 ⟨ξ, if_pos hξ, lift_eq_ok_iff.2 hm⟩
  obtain ⟨m', hm', ⟨hrows', hcols'⟩, hturn⟩ :=
    hmapped.exists_gradientsIn h.standard.kind.sound hgradients
  rw [h.interpolates]
  refine bind_eq_ok_iff.2 ⟨m', hm', lift_eq_ok_iff.2 ?_⟩
  rw [h.coefficients]
  have hsize : (Coefficients.affine a H X).size = X.cols := Coefficients.size_affine
  refine Mat.mul_eq_of_entry (hsize.trans (h.cols_eq.trans (hshape.2.symm.trans hcols'.symm)))
    ⟨hHrows, hHcols.trans hrows'.symm⟩ fun i hvalue k hk => ?_
  have hi : i < a.size := hvalue
  have hk : k < Jt.rows := hJrows ▸ hrows' ▸ hk
  -- The Jacobian takes the gradient of the interpolation to the one in reference coordinates.
  have hreference : ∀ r < Jt.rows,
      ∑ q ∈ Finset.range Jt.rows, Jt.entry r q *
        ∑ j ∈ Finset.range X.cols, m'.entry q j * (Coefficients.affine a H X).entry i j =
      ∑ q ∈ Finset.range Jt.rows, Jt.entry r q * H.entry i q := by
    rw [hJrows]
    intro r hr
    have hcombines : Combines l.gridDim (Jt.entry r)
        (∑ j ∈ Finset.range X.cols, m.entry r j * (Coefficients.affine a H X).entry i j)
        fun q => ∑ j ∈ Finset.range X.cols, m'.entry q j * (Coefficients.affine a H X).entry i j :=
      .sum fun j _ => (hturn r hr j).mul_right _
    exact hcombines.symm.trans (h.reference_gradient hJt hm hi hr)
  calc H.entry i k
      = ∑ j ∈ Finset.range X.cols, m'.entry k j * (Coefficients.affine a H X).entry i j :=
        (hinv.cancel hreference hk).symm
    _ = ∑ j ∈ Finset.range (Coefficients.affine a H X).size,
          (Coefficients.affine a H X).matrix.entry i j * m'.transpose.entry j k := by
        rw [hsize]
        apply Finset.sum_congr rfl
        intro j hj
        have hj : j < (Coefficients.affine a H X).size := hsize ▸ Finset.mem_range.mp hj
        rw [Mat.entry_transpose, mul_comm]
        congr 1
        exact (Mat.entry_ofFn _ hvalue hj).symm

end SamplesAffine

end Leaf

/-- The strains of a displacement with the gradient `H`, as entries of a symmetric tensor: half of
`H + Hᵀ + Hᵀ H`. -/
def greenLagrange (dim : ℕ) (H : Mat K) (i j : ℕ) : K :=
  1 / 2 * (H.entry i j + H.entry j i + ∑ d ∈ Finset.range dim, H.entry d i * H.entry d j)

/-- With unit vectors for reference tangents, the strains are known from the gradient alone. -/
theorem Strain.value_of_gradient {u : Operand K} {dim : ℕ} (hdim : dim ≤ 3) {C : BlockId → ℕ}
    {site : Site K} (hu : u.Formed dim dim C (gradientRequest site).directions)
    {reference : Site K → Outcome (Mat K)} (hreference : reference site = .ok (.identity dim))
    {H : Mat K} (hH : u.derivative (gradientRequest site) = .ok (.matrix H)) :
    Strain.value dim reference u site =
      .ok (.column (.ofFn (strainSize dim) (voigt dim (greenLagrange dim H)))) := by
  have hform : (Derivative.matrix H).HasForm (.matrix dim dim) :=
    hu.derivative (gradientRequest site) _ (.refl _) (Request.fits_of_none rfl) hH
  have htangents : Meets (fun _ => False) (reference site) (·.HasShape dim dim) := by
    rw [hreference]
    exact Meets.pure ⟨rfl, rfl⟩
  have hgradient : Meets (fun _ => False) (u.derivative (gradientRequest site))
      (·.HasForm (.matrix dim dim)) := by
    rw [hH]
    exact Meets.pure hform
  obtain ⟨m, hm, hrows, hcols⟩ := (meets_value hdim htangents hgradient).exists_ok
  obtain ⟨A, hA, -, -, -, hentry⟩ := value_eq_ok hu hm
  obtain rfl := Except.ok.inj (hreference.symm.trans hA)
  rw [hm]
  refine congrArg Except.ok (Mat.ext_entry (hrows.trans (Vec.size_ofFn _ _).symm) hcols ?_)
  intro q j hq hj
  obtain rfl : j = 0 := Nat.lt_one_iff.1 (hcols ▸ hj)
  have hq : q < strainSize dim := hrows ▸ hq
  have hlt := hq
  rw [← add_length_shearPairs hdim] at hlt
  have hS (d k : ℕ) : gradientOf u site d k = H.entry d k := by
    rw [gradientOf, Operand.entry_of_ok hH, Derivative.entry_matrix]
  -- Against unit vectors the linear part reads off the gradient and its transpose.
  have hlinear : ∀ i < dim, ∀ k < dim,
      ∑ d ∈ Finset.range dim, (Mat.identity dim : Mat K).entry d i * H.entry d k = H.entry i k := by
    intro i hi k _
    calc _ = ∑ d ∈ Finset.range dim, delta i d * H.entry d k := by
          apply Finset.sum_congr rfl
          intro d hd
          rw [Mat.entry_identity (Finset.mem_range.mp hd) hi, delta_comm]
      _ = H.entry i k := sum_delta_mul hi fun d => H.entry d k
  rw [hentry q hlt, Mat.entry_column, Vec.entry_ofFn _ hq, pairing_eq_voigt, pairing_eq_voigt,
    ← voigt_mul, ← voigt_add]
  apply voigt_congr hdim _ hq
  intro i hi k hk
  have hquadratic : ∑ d ∈ Finset.range dim, H.entry d k * H.entry d i =
      ∑ d ∈ Finset.range dim, H.entry d i * H.entry d k := by
    simp only [mul_comm]
  simp only [hS, greenLagrange, hlinear i hi k hk, hlinear k hk i hi, hquadratic]
  ring

namespace ElementField

variable {f : ElementField K} {slot : ℕ} {signature : LeafSignature} {l : Leaf K} {X H : Mat K}
  {a ξ : Vec K}

/-- The gradient of a leaf has the right shape if that leaf keeps its shapes, whatever other leaves the
field holds. -/
theorem leaf_formed (hget : f.leaves[slot]? = some l) (hl : l.KeepsShapes)
    (hu : f.Hosts (.leaf slot signature)) (site : Site K) :
    (f.operand (.leaf slot signature)).Formed signature.valueSize f.gridDim f.tangentDim
      (Strain.gradientRequest site).directions := by
  obtain ⟨l', hl'⟩ := hu
  obtain rfl := Option.some.inj (hget.symm.trans hl'.get)
  exact formed_leaf (f.admits_gradient site) hl' hl

/-- Patch test. Let a leaf interpolate the affine field `a + H x` from the vertices of the element it
lives on. At every reference position its value is `a + H x` where the geometry places the position.
Where the Jacobian is invertible, its gradient on the grid element is `H`, and the strains of it are
half of `H + Hᵀ + Hᵀ H`. -/
theorem patch_test (hf : f.Built) (hleaf : (Expr.leaf slot signature : Expr K).IsPart f.expr)
    (hget : f.leaves[slot]? = some l) (h : l.SamplesAffine X a H) (hξ : ξ.size = l.gridDim) :
    let u : Expr K := .leaf slot signature
    let g : Geometry K := ⟨l.shapes.element, X⟩
    let G := f.gridDim
    let grid : Site K := ⟨.position ξ, .gridElement⟩
    ∃ x Jt, (g.position ξ = .ok x ∧ g.jacobianTransposed ξ = .ok Jt) ∧
      (∀ t, (f.operand u).value ⟨.position ξ, t⟩ = .ok (.column (affineAt a H x))) ∧
      (Jt.Invertible →
        (∀ along, (f.operand u).derivative ⟨grid, ⟨some .all, .none⟩, along⟩ = .ok (.matrix H)) ∧
        ((Expr.unary .strain u).IsPart f.expr → (f.operand (.unary .strain u)).value grid =
          .ok (.column (.ofFn (strainSize G) (Strain.voigt G (greenLagrange G H)))))) := by
  intro u g G grid
  have hu : f.Hosts u := hf.hosts.part hleaf
  obtain ⟨l', hl⟩ := hu
  obtain rfl := Option.some.inj (hget.symm.trans hl.get)
  obtain ⟨x, hx, -⟩ := h.value_eq hξ .gridElement
  obtain ⟨Jt, hJt⟩ := h.exists_jacobian hξ
  refine ⟨x, Jt, ⟨hx, hJt⟩, fun t => ?_, fun hinv => ?_⟩
  · obtain ⟨x', hx', hvalue⟩ := h.value_eq hξ t
    obtain rfl := Except.ok.inj (hx.symm.trans hx')
    show f.leafValue slot _ = _
    rw [leafValue_eq hget]
    exact bind_eq_ok_iff.2 ⟨_, hvalue, rfl⟩
  · have hgradient (along : Option (Mat K)) :
        (f.operand u).derivative ⟨grid, ⟨some .all, .none⟩, along⟩ = .ok (.matrix H) := by
      rw [leaf_derivative_eq (r := ⟨grid, ⟨some .all, .none⟩, along⟩) hl (fun hv => nomatch hv) rfl
        fun c hc => absurd hc List.not_mem_nil]
      exact bind_eq_ok_iff.2 ⟨H, h.gradient_eq hξ hJt hinv, rfl⟩
    refine ⟨hgradient, fun hpart => ?_⟩
    obtain ⟨hhosts, hdisplacement, hdim, -⟩ : f.Hosts (.unary .strain u) := hf.hosts.part hpart
    have hsize : signature.valueSize = G := hdisplacement.1
    have hformed := leaf_formed hget h.standard.kind.keepsShapes hhosts grid
    rw [hsize] at hformed
    exact Strain.value_of_gradient hdim.2 hformed rfl (hgradient none)

/-- The corners of the square, the one at (1, 1) moved to (2, 2). -/
def corners : Mat K := .ofFn 2 4 fun k j =>
  if j = 2 then 2 else if k = 0 then (if j = 1 then 1 else -1) else if j = 3 then 1 else -1

def tilt : Mat K := .ofFn 2 2 fun i k => if i = k then 2 else if i < k then 1 else 0

/-- The displacement (1, 3) + H x of the distorted square. -/
def tilted (block : BlockId) : Leaf K where
  block := block
  shapes := .unbound .square
  coefficients := .affine #[1, 3] tilt corners
  geometry := some ⟨.square, corners⟩
  order := .linear
  primitives := .interpolation

theorem samplesAffine_tilted (block : BlockId) :
    (tilted block : Leaf K).SamplesAffine corners #[1, 3] tilt where
  standard := by
    have h : Leaf.interpolated .square (.affine #[1, 3] tilt corners) block =
        .ok { (tilted block : Leaf K) with geometry := none } := rfl
    exact (Leaf.Standard.interpolated h).withGeometry ⟨.square, corners⟩
  interpolates := rfl
  geometry := rfl
  coefficients := rfl
  gradient := rfl

def patch : ElementField K where
  leaves := #[tilted ⟨0⟩]
  nodes := #[.leaf 0, .unary .strain 0]
  root := 1
  top := .unary .strain 0 (.leaf 0 (tilted ⟨0⟩ : Leaf K).signature)
  slots := [0]
  blocks := [{ block := ⟨0⟩, correctionSize := 2, numCoefficients := 4 }]

theorem built_patch : (patch : ElementField K).Built :=
  .build (Builder.reachable_after [.leaf (tilted ⟨0⟩), .strain 0])
    (build_eq_of_sorted rfl ⟨rfl, rfl⟩ rfl (List.pairwise_singleton _ _) rfl
      (List.pairwise_singleton _ _))

def middleJacobian : Mat K := .ofFn 2 2 fun k m => if k = m then 5 / 4 else 1 / 4

theorem jacobianTransposed_corners :
    (⟨.square, corners⟩ : Geometry K).jacobianTransposed #[0, 0] = .ok middleJacobian := by
  have h : (Mat.ofFn 2 4 fun d i => tensorSlope 2 (Element.square.nodes.getD i #[]) #[0, 0] d).mul
      (corners : Mat K).transpose = .ok middleJacobian := by
    refine Mat.mul_eq_of_entry rfl ⟨rfl, rfl⟩ fun k hk m hm => ?_
    have hk : k < 2 := hk
    have hm : m < 2 := hm
    show _ = ∑ j ∈ Finset.range 4, _
    simp only [Finset.sum_range_succ, Finset.sum_range_zero, Mat.entry_transpose, corners,
      middleJacobian, Mat.entry_ofFn_eq_ite]
    interval_cases k <;> interval_cases m <;>
      norm_num [tensorSlope, productTo, hat, Element.nodes, Element.corners, Vec.entry,
        List.range_succ]
  exact h

theorem invertible_middleJacobian : (middleJacobian : Mat K).Invertible := by
  refine ⟨rfl, .ofFn 2 2 fun k m => if k = m then 5 / 6 else -1 / 6, ?_⟩
  refine Mat.mul_eq_of_entry rfl ⟨rfl, rfl⟩ fun k hk m hm => ?_
  have hk : k < 2 := hk
  have hm : m < 2 := hm
  refine (Mat.entry_identity hk hm).trans ?_
  show _ = ∑ j ∈ Finset.range 2, _
  simp only [Finset.sum_range_succ, Finset.sum_range_zero, middleJacobian, Mat.entry_ofFn_eq_ite,
    delta]
  interval_cases k <;> interval_cases m <;> norm_num

/-- The strains that belong to the gradient. -/
theorem voigt_tilt : (.ofFn 3 (Strain.voigt 2 (greenLagrange 2 tilt)) : Vec K) = #[4, 9 / 2, 3] := by
  refine Vec.ext_entry (Vec.size_ofFn 3 _) fun q hq => ?_
  have hq : q < 3 := Vec.size_ofFn 3 (Strain.voigt 2 (greenLagrange 2 (tilt : Mat K))) ▸ hq
  rw [Vec.entry_ofFn _ hq]
  interval_cases q <;>
    norm_num [Strain.voigt, Strain.voigtPair, Strain.voigtWeight, Strain.shearPairs, greenLagrange,
      tilt, Mat.entry_ofFn_eq_ite, Finset.sum_range_succ, Vec.entry]

/-- The patch test in the middle of the distorted square. -/
theorem patch_test_patch :
    let f : ElementField ℝ := patch
    let l : Leaf ℝ := tilted ⟨0⟩
    let u : Expr ℝ := .leaf 0 l.signature
    let ξ : Vec ℝ := #[0, 0]
    let grid : Site ℝ := ⟨.position ξ, .gridElement⟩
    (f.Built ∧ u.IsPart f.expr ∧ f.leaves[0]? = some l ∧ l.SamplesAffine corners #[1, 3] tilt ∧
      ξ.size = l.gridDim) ∧
    (∃ x : Vec ℝ, (⟨.square, corners⟩ : Geometry ℝ).position ξ = .ok x ∧
      (f.operand u).value grid = .ok (.column (affineAt #[1, 3] tilt x))) ∧
    (f.operand u).derivative (Strain.gradientRequest grid) = .ok (.matrix tilt) ∧
    (f.operand (.unary .strain u)).value grid = .ok (.column #[4, 9 / 2, 3]) := by
  intro f l u ξ grid
  have hf : f.Built := built_patch
  have hpart : u.IsPart f.expr := .unary .strain (.refl u)
  have hsamples : l.SamplesAffine corners #[1, 3] tilt := samplesAffine_tilted ⟨0⟩
  have hξ : ξ.size = l.gridDim := rfl
  obtain ⟨x, Jt, ⟨hx, hJt⟩, hvalue, hinvertible⟩ := patch_test hf hpart rfl hsamples hξ
  obtain rfl := Except.ok.inj (jacobianTransposed_corners.symm.trans hJt)
  obtain ⟨hgradient, hstrain⟩ := hinvertible invertible_middleJacobian
  refine ⟨⟨hf, hpart, rfl, hsamples, hξ⟩, ⟨x, hx, hvalue .gridElement⟩, hgradient none, ?_⟩
  have hG : f.gridDim = 2 := rfl
  have hvoigt := hstrain (.refl _)
  rw [hG] at hvoigt
  rw [← voigt_tilt]
  exact hvoigt

end ElementField

end ElementFields
