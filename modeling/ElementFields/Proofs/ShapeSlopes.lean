import Mathlib.Analysis.Calculus.Deriv.Mul
import ElementFields.Proofs.AffineShapes
import ElementFields.Proofs.Covariance

namespace ElementFields
open Scalar
open scoped BigOperators

noncomputable def Vec.along (ξ : Vec ℝ) (w : ℕ → ℝ) (t : ℝ) : Vec ℝ :=
  .ofFn ξ.size fun i => ξ.entry i + t * w i

variable {ξ : Vec ℝ} {w : ℕ → ℝ}

@[simp] theorem Vec.size_along (ξ : Vec ℝ) (w : ℕ → ℝ) (t : ℝ) : (ξ.along w t).size = ξ.size :=
  Vec.size_ofFn _ _

theorem Vec.along_zero (ξ : Vec ℝ) (w : ℕ → ℝ) : ξ.along w 0 = ξ := by
  refine Vec.ext_entry (size_along ξ w 0) fun i hi => ?_
  rw [size_along] at hi
  rw [along, Vec.entry_ofFn _ hi, zero_mul, add_zero]

theorem Vec.hasDerivAt_along {i : ℕ} (hi : i < ξ.size) :
    HasDerivAt (fun t => (ξ.along w t).entry i) (w i) 0 := by
  have hentry (t : ℝ) : (ξ.along w t).entry i = ξ.entry i + t * w i := Vec.entry_ofFn _ hi
  simp only [hentry]
  exact (((hasDerivAt_id (0 : ℝ)).mul_const (w i)).const_add (ξ.entry i)).congr_deriv (one_mul _)

theorem hasDerivAt_hat (α : ℝ) {i : ℕ} (hi : i < ξ.size) :
    HasDerivAt (fun t => hat α ((ξ.along w t).entry i)) (w i * (α / 2)) 0 := by
  have h := (((Vec.hasDerivAt_along (w := w) hi).const_mul α).const_add 1).div_const ((2 : ℕ) : ℝ)
  refine h.congr_deriv ?_
  push_cast
  ring

/-- The product of the lines of a node changes with each of the lines. -/
theorem hasDerivAt_tensorValue (node : Vec ℝ) {dim : ℕ} (hξ : ξ.size = dim) :
    HasDerivAt (fun t => tensorValue dim node (ξ.along w t))
      (∑ d ∈ Finset.range dim, w d * tensorSlope dim node ξ d) 0 := by
  have hline : ∀ d ∈ Finset.range dim, HasDerivAt
      (fun t => hat (node.entry d) ((ξ.along w t).entry d)) (w d * (node.entry d / 2)) 0 :=
    fun d hd => hasDerivAt_hat _ (hξ.symm ▸ Finset.mem_range.1 hd)
  simp only [tensorValue_eq, tensorSlope_eq]
  refine (HasDerivAt.fun_finsetProd hline).congr_deriv ?_
  refine Finset.sum_congr rfl fun d _ => ?_
  simp only [Vec.along_zero, smul_eq_mul]
  ring

theorem hasDerivAt_axisValue {k : ℕ} (hk : k < ξ.size) :
    HasDerivAt (fun t => axisValue (ξ.along w t) k) (w k / 2) 0 := by
  refine (((Vec.hasDerivAt_along hk).const_add 1).div_const ((2 : ℕ) : ℝ)).congr_deriv ?_
  rw [Nat.cast_ofNat]

namespace Element

variable {e : Element}

noncomputable def shape (e : Element) (ξ : Vec ℝ) (j : ℕ) : ℝ :=
  match e.shapeValues ξ with
  | .ok φ => φ.entry j
  | .error _ => 0

theorem entry_shapeValues {φ : Vec ℝ} (h : e.shapeValues ξ = .ok φ) (j : ℕ) :
    φ.entry j = e.shape ξ j := by rw [shape, h]

theorem shape_of_numNodes_le {j : ℕ} (hj : e.numNodes ≤ j) : e.shape ξ j = 0 := by
  rw [shape]
  split
  · rename_i φ hφ
    exact Vec.entry_of_size_le (size_shapeValues hφ ▸ hj)
  · rfl

theorem shape_of_product (he : e.isSimplex = false) (hξ : ξ.size = e.dim) {j : ℕ}
    (hj : j < e.numNodes) : e.shape ξ j = tensorValue e.dim (e.nodes.getD j #[]) ξ := by
  have h : e.shapeValues ξ = .ok (.ofFn (e.nodes : List (Vec ℝ)).length fun i =>
      tensorValue e.dim (e.nodes.getD i #[]) ξ) := by
    rw [shapeValues, he]
    exact Checked.require_eq_ok_iff.2 ⟨hξ, rfl⟩
  rw [← entry_shapeValues h, Vec.entry_ofFn _ (by rwa [length_nodes])]

theorem shape_of_simplex (he : e.isSimplex = true) (hξ : ξ.size = e.dim) :
    e.shape ξ 0 = 1 - ∑ k ∈ Finset.range e.dim, axisValue ξ k ∧
      ∀ k < e.dim, e.shape ξ (k + 1) = axisValue ξ k := by
  obtain ⟨φ, hφ, -⟩ := yields_shapeValues hξ
  simp only [← entry_shapeValues hφ]
  rw [shapeValues, he] at hφ
  obtain ⟨-, rfl⟩ := Checked.require_eq_ok_iff.1 hφ
  refine ⟨?_, fun k hk => ?_⟩
  · rw [Vec.entry_ofFn _ (Nat.succ_pos _), sumTo_eq_sum]
  · rw [Vec.entry_ofFn _ (Nat.succ_lt_succ hk)]

theorem hasDerivAt_shape_product (he : e.isSimplex = false) {G : Mat ℝ}
    (hG : e.shapeGradients ξ = .ok G) (hξ : ξ.size = e.dim) {j : ℕ} (hj : j < e.numNodes) :
    HasDerivAt (fun t => e.shape (ξ.along w t) j)
      (∑ d ∈ Finset.range e.dim, w d * G.entry d j) 0 := by
  have hshape (t : ℝ) : e.shape (ξ.along w t) j =
      tensorValue e.dim (e.nodes.getD j #[]) (ξ.along w t) :=
    shape_of_product he ((Vec.size_along ξ w t).trans hξ) hj
  rw [shapeGradients, he] at hG
  obtain ⟨-, rfl⟩ := Checked.require_eq_ok_iff.1 hG
  simp only [hshape]
  refine (hasDerivAt_tensorValue _ hξ).congr_deriv ?_
  refine Finset.sum_congr rfl fun d hd => ?_
  rw [Mat.entry_ofFn _ (Finset.mem_range.1 hd) (by rwa [length_nodes])]

theorem hasDerivAt_shape_simplex (he : e.isSimplex = true) (hξ : ξ.size = e.dim) {j : ℕ}
    (hj : j < e.dim + 1) :
    HasDerivAt (fun t => e.shape (ξ.along w t) j)
      (∑ d ∈ Finset.range e.dim, w d * (simplexGradients e.dim : Mat ℝ).entry d j) 0 := by
  have hshape (t : ℝ) := shape_of_simplex he ((Vec.size_along ξ w t).trans hξ)
  have haxis {k : ℕ} (hk : k < e.dim) : HasDerivAt (fun t => axisValue (ξ.along w t) k) (w k / 2) 0 :=
    hasDerivAt_axisValue (hξ.symm ▸ hk)
  cases j with
  | zero =>
    simp only [fun t => (hshape t).1]
    have hsum := (HasDerivAt.fun_sum fun k hk => haxis (Finset.mem_range.1 hk)).const_sub 1
    refine hsum.congr_deriv ?_
    rw [← Finset.sum_neg_distrib]
    refine Finset.sum_congr rfl fun d hd => ?_
    rw [simplexGradients, Mat.entry_ofFn _ (Finset.mem_range.1 hd) hj]
    push_cast
    ring
  | succ k =>
    have hk : k < e.dim := Nat.lt_of_succ_lt_succ hj
    simp only [fun t => (hshape t).2 k hk]
    refine (haxis hk).congr_deriv ?_
    calc w k / 2 = ∑ d ∈ Finset.range e.dim, delta k d * (w d / 2) := 
          (sum_delta_mul hk fun d => w d / 2).symm
      _ = _ := by
        refine Finset.sum_congr rfl fun d hd => ?_
        rw [simplexGradients, Mat.entry_ofFn _ (Finset.mem_range.1 hd) hj, delta]
        push_cast
        split <;> ring

/-- Along a line, a shape function has the derivative that its gradient gives. -/
theorem hasDerivAt_shape {G : Mat ℝ} (hG : e.shapeGradients ξ = .ok G) (hξ : ξ.size = e.dim)
    (w : ℕ → ℝ) (j : ℕ) :
    HasDerivAt (fun t => e.shape (ξ.along w t) j)
      (∑ d ∈ Finset.range e.dim, w d * G.entry d j) 0 := by
  rcases Nat.lt_or_ge j e.numNodes with hj | hj
  · cases he : e.isSimplex with
    | false => exact hasDerivAt_shape_product he hG hξ hj
    | true =>
      rw [shapeGradients, he] at hG
      obtain rfl := Except.ok.inj hG
      exact hasDerivAt_shape_simplex he hξ (numNodes_of_isSimplex he ▸ hj)
  · -- Beyond the last node there is neither a shape function nor a gradient.
    have hzero : ∑ d ∈ Finset.range e.dim, w d * G.entry d j = 0 := by
      refine Finset.sum_eq_zero fun d _ => ?_
      rw [Mat.entry_outside fun h => ?_, mul_zero]
      have hcols := (shape_shapeGradients hG).2
      omega
    simp only [shape_of_numNodes_le hj, hzero]
    exact hasDerivAt_const 0 0

end Element

namespace CachedShapes

variable {K : Type} [Scalar K] {s : CachedShapes K}

/-- What is cached was computed at the points of the bound rule. -/
structure Truthful (s : CachedShapes K) : Prop where
  values : ∀ {rule}, s.rule = some rule → ∀ {q : ℕ} {ξ v : Vec K}, rule.points[q]? = some ξ →
    s.values[q]? = some v → s.element.shapeValues ξ = .ok v
  gradients : ∀ {rule}, s.rule = some rule → ∀ {q : ℕ} {ξ : Vec K} {m : Mat K},
    rule.points[q]? = some ξ → s.gradients[q]? = some m → s.element.shapeGradients ξ = .ok m

omit [Scalar K] in
theorem eq_ok_of_mapM {α : Type} {f : Vec K → Checked α} {points : List (Vec K)} {items : List α}
    (h : points.mapM f = .ok items) {q : ℕ} {ξ : Vec K} {a : α} (hξ : points[q]? = some ξ)
    (ha : items[q]? = some a) : f ξ = .ok a := by
  obtain ⟨b, hb, hf⟩ := (mapM_eq_ok h).2 q ξ hξ
  rw [hf, Option.some.inj (hb.symm.trans ha)]

section Filling

variable {element : Element} {rule : QuadratureRule K} {orders : List ℕ} {values : List (Vec K)}
  {gradients : List (Mat K)}

theorem shapeValues_of_cached (h : cachedValues element rule orders = .ok values) {q : ℕ}
    {ξ v : Vec K} (hξ : rule.points[q]? = some ξ) (hv : values[q]? = some v) :
    element.shapeValues ξ = .ok v := by
  rw [cachedValues] at h
  split at h
  · exact eq_ok_of_mapM h hξ hv
  · cases h
    rw [List.getElem?_nil] at hv
    cases hv

theorem shapeGradients_of_cached (h : cachedGradients element rule orders = .ok gradients) {q : ℕ}
    {ξ : Vec K} {m : Mat K} (hξ : rule.points[q]? = some ξ) (hm : gradients[q]? = some m) :
    element.shapeGradients ξ = .ok m := by
  rw [cachedGradients] at h
  split at h
  · exact eq_ok_of_mapM h hξ hm
  · cases h
    rw [List.getElem?_nil] at hm
    cases hm

theorem size_of_shapeValues {ξ v : Vec K} (h : element.shapeValues ξ = .ok v) :
    ξ.size = element.dim := by
  rw [Element.shapeValues] at h
  split at h <;> exact (Checked.require_eq_ok_iff.1 h).1

/-- If binding stops after the values, then there are none: points that have values have gradients. -/
theorem values_of_stopped {violation : Violation}
    (h : cachedValues element rule orders = .ok values)
    (hstop : cachedGradients element rule orders = .error violation) : values = [] := by
  rw [cachedValues] at h
  split at h
  · have hall : ∀ ξ ∈ rule.points, ∃ m, element.shapeGradients ξ = .ok m := by
      intro ξ hξ
      obtain ⟨v, hv⟩ := exists_of_mem_mapM h hξ
      obtain ⟨m, hm, -⟩ := Element.yields_shapeGradients (size_of_shapeValues hv)
      exact ⟨m, hm⟩
    obtain ⟨gradients, hgradients⟩ := exists_mapM hall
    rw [cachedGradients] at hstop
    split at hstop
    · rw [hgradients] at hstop
      cases hstop
    · cases hstop
  · exact (Except.ok.inj h).symm

end Filling

theorem truthful_unbound (element : Element) :
    (unbound element : CachedShapes K).Truthful :=
  ⟨fun h => (nomatch h), fun h => (nomatch h)⟩

/-- Binding keeps the cache truthful, also where it stops halfway. -/
theorem Truthful.bind (h : s.Truthful) (rule : QuadratureRule K) (orders : List ℕ) :
    (s.bind rule orders).1.Truthful := by
  unfold CachedShapes.bind
  split
  · exact h
  · split
    · exact h
    · split
      · exact h
      · rename_i values hvalues
        split
        · -- The new values are kept beside the old gradients, but then there are no values.
          rename_i violation hstop
          obtain rfl := values_of_stopped hvalues hstop
          exact ⟨fun _ _ _ _ _ hv => (nomatch hv), fun hrule => h.gradients hrule⟩
        · rename_i gradients hgradients
          refine ⟨fun hrule _ _ _ hξ hv => ?_, fun hrule _ _ _ hξ hm => ?_⟩
          · obtain rfl := Option.some.inj hrule
            exact shapeValues_of_cached hvalues hξ hv
          · obtain rfl := Option.some.inj hrule
            exact shapeGradients_of_cached hgradients hξ hm

omit [Scalar K] in
theorem getElem?_of_lookUp {α : Type} {items : List α} {q : ℕ} {a : α}
    (h : lookUp items q = .ok a) : items[q]? = some a := by
  rw [lookUp] at h
  split at h
  · rename_i b hb
    exact Except.ok.inj h ▸ hb
  · cases h

omit [Scalar K] in
theorem position_eq_ok {q : ℕ} {ξ : Vec K} (h : s.position (.integrationPoint q) = .ok ξ) :
    ∃ rule, s.rule = some rule ∧ rule.points[q]? = some ξ := by
  obtain ⟨rule, hrule, h⟩ := bind_eq_ok_iff.1 h
  exact ⟨rule, ofOption_eq_ok_iff.1 hrule, ofOption_eq_ok_iff.1 h⟩

variable (h : s.Truthful) {p : EvaluationPoint K} {ξ : Vec K} (hξ : s.position p = .ok ξ)
include h hξ

/-- The values at a point are those of the shape functions at its reference coordinates. -/
theorem Truthful.shapeValues_eq {v : Vec K} (hv : s.valuesAt p = .ok v) :
    s.element.shapeValues ξ = .ok v := by
  cases p with
  | integrationPoint q =>
    obtain ⟨rule, hrule, hpoint⟩ := position_eq_ok hξ
    obtain ⟨-, -, hv⟩ := bind_eq_ok_iff.1 hv
    exact h.values hrule hpoint (getElem?_of_lookUp hv)
  | position η =>
    obtain ⟨ζ, hζ, hv⟩ := bind_eq_ok_iff.1 hv
    obtain rfl := Except.ok.inj (hζ.symm.trans hξ)
    exact lift_eq_ok_iff.1 hv

theorem Truthful.shapeGradients_eq {m : Mat K} (hm : s.gradientsAt p = .ok m) :
    s.element.shapeGradients ξ = .ok m := by
  cases p with
  | integrationPoint q =>
    obtain ⟨rule, hrule, hpoint⟩ := position_eq_ok hξ
    obtain ⟨-, -, hm⟩ := bind_eq_ok_iff.1 hm
    exact h.gradients hrule hpoint (getElem?_of_lookUp hm)
  | position η =>
    obtain ⟨ζ, hζ, hm⟩ := bind_eq_ok_iff.1 hm
    obtain rfl := Except.ok.inj (hζ.symm.trans hξ)
    exact lift_eq_ok_iff.1 hm

end CachedShapes

/-- The cache of a leaf that the library makes is truthful, whatever it was bound to. -/
theorem Leaf.Standard.truthful {K : Type} [Scalar K] {l : Leaf K} (h : l.Standard) :
    l.shapes.Truthful := by
  induction h with
  | interpolated h | normalized h =>
    obtain ⟨-, rfl⟩ := require_eq_ok.1 h
    exact CachedShapes.truthful_unbound _
  | withGeometry _ _ ih => exact ih
  | bind _ rule orders ih => exact ih.bind rule orders
  | update _ hd ih => exact shapes_update hd ▸ ih
  | embed _ hd ih => exact shapes_addInEmbedding hd ▸ ih

namespace Geometry

variable {g : Geometry ℝ} {Jt : Mat ℝ}

noncomputable def coordinate (g : Geometry ℝ) (m : ℕ) (ξ : Vec ℝ) : ℝ :=
  match g.position ξ with
  | .ok x => x.entry m
  | .error _ => 0

theorem coordinate_eq (hcols : g.vertices.cols = g.element.numNodes) (hξ : ξ.size = g.element.dim)
    (m : ℕ) : g.coordinate m ξ =
      ∑ j ∈ Finset.range g.element.numNodes, g.vertices.entry m j * g.element.shape ξ j := by
  obtain ⟨φ, hφ, hsize⟩ := Element.yields_shapeValues hξ
  obtain ⟨x, hx, -⟩ := Mat.yields_mulVec (a := g.vertices) ⟨rfl, hcols⟩ hsize
  have hposition : g.position ξ = .ok x := bind_eq_ok_iff.2 ⟨φ, hφ, hx⟩
  obtain ⟨-, -, hentry⟩ := Mat.mulVec_eq_ok hx
  rw [coordinate, hposition]
  show x.entry m = _
  rw [hentry, hcols]
  exact Finset.sum_congr rfl fun j _ => by rw [Element.entry_shapeValues hφ]

/-- A transposed Jacobian has a row for each reference coordinate and a column for each world
coordinate. -/
theorem shape_jacobianTransposed (hJt : g.jacobianTransposed ξ = .ok Jt) :
    Jt.rows = g.element.dim ∧ Jt.cols = g.worldDim := by
  obtain ⟨G, hG, hmul⟩ := bind_eq_ok_iff.1 hJt
  obtain ⟨-, hshape, -⟩ := Mat.mul_eq_ok hmul
  exact ⟨hshape.1.trans (Element.shape_shapeGradients hG).1, hshape.2⟩

/-- The rows of the transposed Jacobian are the derivatives of the world position. -/
theorem hasDerivAt_coordinate (hJt : g.jacobianTransposed ξ = .ok Jt) (hξ : ξ.size = g.element.dim)
    (w : ℕ → ℝ) (m : ℕ) : HasDerivAt (fun t => g.coordinate m (ξ.along w t))
      (∑ i ∈ Finset.range g.element.dim, w i * Jt.entry i m) 0 := by
  obtain ⟨G, hG, hmul⟩ := bind_eq_ok_iff.1 hJt
  obtain ⟨hmatch, -, hentry⟩ := Mat.mul_eq_ok hmul
  have hGcols := (Element.shape_shapeGradients hG).2
  have hcols : g.vertices.cols = g.element.numNodes := hmatch.symm.trans hGcols
  -- The coordinate is a sum over the vertices, and each shape function has its gradient along `w`.
  simp only [fun t => coordinate_eq hcols ((Vec.size_along ξ w t).trans hξ) m]
  have hsum := HasDerivAt.fun_sum (u := Finset.range g.element.numNodes) fun j _ =>
    (Element.hasDerivAt_shape hG hξ w j).const_mul (g.vertices.entry m j)
  refine hsum.congr_deriv ?_
  calc _ = ∑ j ∈ Finset.range g.element.numNodes, ∑ i ∈ Finset.range g.element.dim,
        w i * (G.entry i j * g.vertices.entry m j) := by
        refine Finset.sum_congr rfl fun j _ => ?_
        rw [Finset.mul_sum]
        exact Finset.sum_congr rfl fun i _ => by ring
    _ = _ := by
        rw [Finset.sum_comm]
        refine Finset.sum_congr rfl fun i _ => ?_
        rw [← Finset.mul_sum, hentry, hGcols]
        simp only [Mat.entry_transpose]

end Geometry

namespace LeafData

variable {l : LeafData ℝ} {site : Site ℝ} {k : ℕ}

/-- From `ξ`, the direction `w` in the reference element runs along axis `k` of the frame: it is the
axis itself, or the image of the line in space runs along the axis, with unit speed. -/
inductive Heads (l : LeafData ℝ) (ξ : Vec ℝ) : Transform → ℕ → (ℕ → ℝ) → Prop
  | reference {k : ℕ} {w : ℕ → ℝ} (h : ∀ i < l.gridDim, w i = delta k i) :
    Heads l ξ .referenceElement k w
  | grid {k : ℕ} {w : ℕ → ℝ} {g : Geometry ℝ} (hg : l.geometry = some g)
    (h : ∀ m < g.worldDim, HasDerivAt (fun t => g.coordinate m (ξ.along w t)) (delta k m) 0) :
    Heads l ξ .gridElement k w

/-- The gradients at a site in the frame of the grid element are undone by the Jacobian, which is
invertible. -/
theorem gradientsIn_grid (hs : l.shapes.Sound) {p : EvaluationPoint ℝ} (hξ : l.shapes.position p = .ok ξ)
    {m : Mat ℝ} (hm : l.gradientsIn ⟨p, .gridElement⟩ = .ok m) :
    ∃ G g Jt, l.shapes.gradientsAt p = .ok G ∧ l.geometry = some g ∧
      g.jacobianTransposed ξ = .ok Jt ∧ Jt.Invertible ∧ Jt.rows = l.gridDim ∧
      ∀ i < l.gridDim, ∀ j, Combines l.gridDim (Jt.entry i) (G.entry i j) fun q => m.entry q j := by
  obtain ⟨G, hG, h⟩ := bind_eq_ok_iff.1 hm
  obtain ⟨g, hg, h⟩ := bind_eq_ok_iff.1 h
  obtain ⟨η, hη, h⟩ := bind_eq_ok_iff.1 h
  obtain ⟨Jt, hJt, h⟩ := bind_eq_ok_iff.1 h
  obtain rfl := Except.ok.inj (hη.symm.trans hξ)
  have hg := ofOption_eq_ok_iff.1 hg
  have hJt := lift_eq_ok_iff.1 hJt
  split at h
  · -- The product with the inverse fixes the size of the Jacobian, so the geometry suits the element.
    rename_i hsquare
    obtain ⟨N, hN, h⟩ := bind_eq_ok_iff.1 h
    have hN := ofOption_eq_ok_iff.1 hN
    have hinv := Mat.invertible_of_inverse? hsquare hN
    obtain ⟨hmatch, -, -⟩ := Mat.mul_eq_ok (lift_eq_ok_iff.1 h)
    have hrows : Jt.rows = l.gridDim := by
      rw [← (Mat.shape_inverse? hN).2, hmatch, (hs.shape_gradientsAt hG).1]
      rfl
    obtain ⟨m', hm', -, hall⟩ := hs.exists_gradientsIn hξ hJt hinv hrows hG
    have hsame : l.gradientsIn ⟨p, .gridElement⟩ = .ok m' := by
      rw [gradientsIn, hg]
      exact hm'
    obtain rfl := Except.ok.inj (hsame.symm.trans hm)
    exact ⟨G, g, Jt, hG, hg, hJt, hinv, hrows, hall⟩
  · cases h

section Site

variable (ht : l.shapes.Truthful)

include ht in
theorem shapeGradients_reference {p : EvaluationPoint ℝ} (hξ : l.shapes.position p = .ok ξ)
    {m : Mat ℝ} (hm : l.gradientsIn ⟨p, .referenceElement⟩ = .ok m) :
    l.shapes.element.shapeGradients ξ = .ok m := by
  rw [gradientsIn, CachedShapes.gradientsIn_reference] at hm
  exact ht.shapeGradients_eq hξ hm

variable (hs : l.shapes.Sound) (hξ : l.shapes.position site.point = .ok ξ)
  (hsize : ξ.size = l.gridDim) {m : Mat ℝ} (hm : l.gradientsIn site = .ok m) (hk : k < l.gridDim)
include hs hξ hsize hm hk

include ht in
/-- Along a line that heads for axis `k` of the frame, the shape functions have the derivatives that
their gradients at the site give for that axis. -/
theorem hasDerivAt_shape_of_heads (hw : l.Heads ξ site.transform k w) (j : ℕ) :
    HasDerivAt (fun t => l.shapes.element.shape (ξ.along w t) j) (m.entry k j) 0 := by
  obtain ⟨p, transform⟩ := site
  cases hw with
  | reference haxis =>
    have hG := shapeGradients_reference ht hξ hm
    refine (Element.hasDerivAt_shape hG hsize w j).congr_deriv ?_
    calc _ = ∑ i ∈ Finset.range l.gridDim, delta k i * m.entry i j :=
          Finset.sum_congr rfl fun i hi => by rw [haxis i (Finset.mem_range.1 hi)]
      _ = m.entry k j := sum_delta_mul hk fun i => m.entry i j
  | @grid _ _ g' hg' hline =>
    obtain ⟨G, g, Jt, hG, hg, hJt, hinv, hrows, hturns⟩ := gradientsIn_grid hs hξ hm
    obtain rfl := Option.some.inj (hg'.symm.trans hg)
    obtain ⟨hdim, hworld⟩ := Geometry.shape_jacobianTransposed hJt
    have hdim : g'.element.dim = l.gridDim := hdim.symm.trans hrows
    have hworld : g'.worldDim = l.gridDim := hworld.symm.trans (hinv.1.symm.trans hrows)
    -- The image of the line has both the derivative that the Jacobian gives and unit speed.
    have hunit (q : ℕ) (hq : q < l.gridDim) :
        ∑ i ∈ Finset.range l.gridDim, w i * Jt.entry i q = delta k q := by
      have h := Geometry.hasDerivAt_coordinate hJt (hsize.trans hdim.symm) w q
      rw [hdim] at h
      exact h.unique (hline q (hworld ▸ hq))
    refine (Element.hasDerivAt_shape (ht.shapeGradients_eq hξ hG) hsize w j).congr_deriv ?_
    calc ∑ i ∈ Finset.range l.gridDim, w i * G.entry i j
        = ∑ i ∈ Finset.range l.gridDim, ∑ q ∈ Finset.range l.gridDim,
            w i * Jt.entry i q * m.entry q j := by
          refine Finset.sum_congr rfl fun i hi => ?_
          rw [hturns i (Finset.mem_range.1 hi) j, Finset.mul_sum]
          exact Finset.sum_congr rfl fun q _ => (mul_assoc _ _ _).symm
      _ = ∑ q ∈ Finset.range l.gridDim, delta k q * m.entry q j := by
          rw [Finset.sum_comm]
          refine Finset.sum_congr rfl fun q hq => ?_
          rw [← Finset.sum_mul, hunit q (Finset.mem_range.1 hq)]
      _ = m.entry k j := sum_delta_mul hk fun q => m.entry q j

/-- Where there are gradients, there is a line for each axis of the frame. -/
theorem exists_heads : ∃ w, l.Heads ξ site.transform k w := by
  obtain ⟨p, transform⟩ := site
  cases transform with
  | referenceElement => exact ⟨delta k, .reference fun i _ => rfl⟩
  | gridElement =>
    obtain ⟨G, g, Jt, hG, hg, hJt, hinv, hrows, -⟩ := gradientsIn_grid hs hξ hm
    obtain ⟨hdim, hworld⟩ := Geometry.shape_jacobianTransposed hJt
    have hdim : g.element.dim = l.gridDim := hdim.symm.trans hrows
    obtain ⟨hsquare, N, hN⟩ := hinv
    obtain ⟨hcols, -, hentry⟩ := Mat.mul_eq_ok hN
    -- A row of the inverse is turned into an axis by the Jacobian.
    refine ⟨N.entry k, .grid hg fun q hq => ?_⟩
    have hq : q < Jt.rows := hsquare.symm ▸ hworld.symm ▸ hq
    refine (Geometry.hasDerivAt_coordinate hJt (hsize.trans hdim.symm) (N.entry k) q).congr_deriv ?_
    rw [hdim, ← hrows, ← hcols, ← hentry, Mat.entry_identity (hrows.symm ▸ hk) hq]

end Site

end LeafData

end ElementFields
