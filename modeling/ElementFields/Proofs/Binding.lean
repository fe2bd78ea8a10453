import ElementFields.Proofs.TotalLeaves

namespace ElementFields

variable {K : Type} [Scalar K] {E : EvaluationError → Prop}

namespace Element

variable {e : Element} {ξ : Vec K}

theorem yields_shapeValues (hξ : ξ.size = e.dim) :
    Yields (e.shapeValues ξ) fun φ => φ.size = e.numNodes := by
  have hok : Yields (e.shapeValues ξ) fun _ => True := by
    unfold shapeValues
    split
    · exact Yields.require hξ trivial
    · exact Yields.require hξ trivial
  obtain ⟨φ, hφ, -⟩ := hok
  exact ⟨φ, hφ, size_shapeValues hφ⟩

theorem yields_shapeGradients (hξ : ξ.size = e.dim) :
    Yields (e.shapeGradients ξ) (·.HasShape e.dim e.numNodes) := by
  have hok : Yields (e.shapeGradients ξ) fun _ => True := by
    unfold shapeGradients
    split
    · exact Yields.pure trivial
    · exact Yields.require hξ trivial
  obtain ⟨g, hg, -⟩ := hok
  exact ⟨g, hg, shape_shapeGradients hg⟩

end Element

/-- At a reference position of the right dimension nothing is refused. -/
theorem LeafData.tabulated_at_position {l : LeafData K} (hl : l.numCoefficients = l.shapes.numNodes)
    {ξ : Vec K} (hξ : ξ.size = l.gridDim) :
    l.Tabulated E { point := .position ξ, transform := .referenceElement } := by
  have hcheck : l.shapes.checkPosition ξ = .ok ξ := if_pos hξ
  have hposition : Meets E (l.shapes.checkPosition ξ) fun η => η.size = l.shapes.element.dim := by
    rw [hcheck]
    exact hξ
  refine ⟨?_, ?_⟩
  · rw [hl]
    exact hposition.bind fun η hη => Meets.lift (Element.yields_shapeValues hη)
  · rw [hl]
    refine Meets.bind ?_ fun g hg => Meets.pure hg
    exact hposition.bind fun η hη => Meets.lift (Element.yields_shapeGradients hη)

namespace CachedShapes

structure Consistent (s : CachedShapes K) : Prop extends s.Sound where
  weights : ∀ rule, s.rule = some rule → rule.size = rule.points.length
  points : ∀ rule, s.rule = some rule → ∀ p ∈ rule.points, p.size = s.dim
  length_values : ∀ rule, s.rule = some rule → s.orders.contains 0 = true →
    s.values.length = rule.points.length
  length_gradients : ∀ rule, s.rule = some rule → s.orders.contains 1 = true →
    s.gradients.length = rule.points.length

omit [Scalar K] in
theorem consistent_unbound (element : Element) :
    (unbound element : CachedShapes K).Consistent :=
  ⟨sound_unbound element, fun _ h => (nomatch h), fun _ h => (nomatch h),
    fun _ h => (nomatch h), fun _ h => (nomatch h)⟩

section Filling

variable {element : Element} {rule : QuadratureRule K} (orders : List ℕ)
  (hpoints : ∀ p ∈ rule.points, p.size = element.dim)
include hpoints

theorem yields_cachedValues : Yields (cachedValues element rule orders) fun values =>
    orders.contains 0 = true → values.length = rule.points.length := by
  unfold cachedValues
  split
  · have hfill := Yields.mapM fun p hp => Element.yields_shapeValues (hpoints p hp)
    obtain ⟨values, hvalues, hlength, -⟩ := hfill
    exact ⟨values, hvalues, fun _ => hlength⟩
  · exact Yields.pure fun h => absurd h ‹_›

theorem yields_cachedGradients : Yields (cachedGradients element rule orders) fun gradients =>
    orders.contains 1 = true → gradients.length = rule.points.length := by
  unfold cachedGradients
  split
  · have hfill := Yields.mapM fun p hp => Element.yields_shapeGradients (hpoints p hp)
    obtain ⟨gradients, hgradients, hlength, -⟩ := hfill
    exact ⟨gradients, hgradients, fun _ => hlength⟩
  · exact Yields.pure fun h => absurd h ‹_›

end Filling

omit [Scalar K] in
theorem contains_of_cacheable {orders : List ℕ} {order : ℕ}
    (h : (cacheable orders).contains order = true) : orders.contains order = true := by
  rw [List.contains_iff_mem, cacheable, List.mem_filter] at h
  exact h.2

/-- Binding a regular rule keeps the cache consistent, whether it succeeds or not. -/
theorem Consistent.bind {s : CachedShapes K} (h : s.Consistent) {rule : QuadratureRule K}
    (hrule : rule.Regular) (orders : List ℕ) : (s.bind rule orders).1.Consistent := by
  have hsound := h.toSound.bind rule orders
  -- A rule that is refused leaves the cache as it was.
  cases hu : unsupported? orders with
  | some order =>
    have hrefused : (s.bind rule orders).1 = s := by simp only [CachedShapes.bind, hu]
    rw [hrefused]
    exact h
  | none =>
    by_cases hdim : rule.isEmpty = false ∧ rule.dim ≠ s.dim
    · have hrefused : (s.bind rule orders).1 = s := by simp only [CachedShapes.bind, hu, if_pos hdim]
      rw [hrefused]
      exact h
    · have hpoints : ∀ p ∈ rule.points, p.size = s.element.dim := by
        intro p hp
        have hweight : rule.isEmpty = false := by
          rw [QuadratureRule.isEmpty, List.isEmpty_eq_false_iff, ← List.length_pos_iff, hrule.1]
          exact List.length_pos_of_mem hp
        rw [hrule.2 p hp]
        exact not_not.1 fun hne => hdim ⟨hweight, hne⟩
      -- The points fit the element, so both caches are filled and binding does not stop halfway.
      obtain ⟨values, hvalues, hlv⟩ := yields_cachedValues orders hpoints
      obtain ⟨gradients, hgradients, hlg⟩ := yields_cachedGradients orders hpoints
      have hbound : (s.bind rule orders).1 =
          { s with rule := some rule, orders := cacheable orders, values, gradients } := by
        simp only [CachedShapes.bind, hu, if_neg hdim, hvalues, hgradients]
      rw [hbound] at hsound ⊢
      refine ⟨hsound, ?_, ?_, ?_, ?_⟩ <;> intro rule' h' <;> obtain rfl := Option.some.inj h'
      · exact hrule.1
      · exact hpoints
      -- Only the orders that can be cached are kept, and they were all listed.
      · exact fun ho => hlv (contains_of_cacheable ho)
      · exact fun ho => hlg (contains_of_cacheable ho)

variable {s : CachedShapes K}

omit [Scalar K] in
theorem meets_checkPosition (ξ : Vec K) :
    Meets (fun _ => True) (s.checkPosition ξ) fun η => η.size = s.dim := by
  unfold checkPosition
  split
  · exact Meets.pure ‹_›
  · exact Meets.refuse trivial

omit [Scalar K] in
theorem meets_checkIndex (index order : ℕ) :
    Meets (fun _ => True) (s.checkIndex index order) fun _ =>
      ∃ rule, s.rule = some rule ∧ index < rule.size ∧ s.orders.contains order = true := by
  refine Meets.bind (Meets.ofOption (fun _ => trivial) fun rule hrule => hrule) fun rule hrule => ?_
  split
  · exact Meets.refuse trivial
  · split
    · exact Meets.pure ⟨rule, hrule, by omega, ‹_›⟩
    · exact Meets.refuse trivial

omit [Scalar K] in
theorem meets_lookUp {α : Type} {l : List α} {index : ℕ} {P : α → Prop} (hi : index < l.length)
    (h : ∀ a ∈ l, P a) : Meets E (lookUp l index) P := by
  unfold lookUp
  rw [List.getElem?_eq_getElem hi]
  exact h _ (List.getElem_mem hi)

namespace Consistent

variable (h : s.Consistent)
include h

omit [Scalar K] in
theorem meets_position (p : EvaluationPoint K) :
    Meets (fun _ => True) (s.position p) fun ξ => ξ.size = s.dim := by
  cases p with
  | integrationPoint index =>
    refine Meets.bind (Meets.ofOption (fun _ => trivial) fun rule hrule => hrule)
      fun rule hrule => ?_
    exact Meets.ofOption (fun _ => trivial)
      fun ξ hξ => h.points rule hrule ξ (List.mem_of_getElem? hξ)
  | position ξ => exact meets_checkPosition ξ

theorem meets_valuesAt (p : EvaluationPoint K) :
    Meets (fun _ => True) (s.valuesAt p) fun φ => φ.size = s.numNodes := by
  cases p with
  | integrationPoint index =>
    refine (meets_checkIndex index 0).bind fun _ hindex => ?_
    obtain ⟨rule, hrule, hlt, ho⟩ := hindex
    -- The index is compared with the number of weights, but the cache is filled point by point.
    have hi : index < s.values.length := by
      rw [h.length_values rule hrule ho, ← h.weights rule hrule]
      exact hlt
    exact meets_lookUp hi h.values
  | position ξ =>
    exact (meets_checkPosition ξ).bind fun η hη => Meets.lift (Element.yields_shapeValues hη)

theorem meets_gradientsAt (p : EvaluationPoint K) :
    Meets (fun _ => True) (s.gradientsAt p) (·.HasShape s.dim s.numNodes) := by
  cases p with
  | integrationPoint index =>
    refine (meets_checkIndex index 1).bind fun _ hindex => ?_
    obtain ⟨rule, hrule, hlt, ho⟩ := hindex
    have hi : index < s.gradients.length := by
      rw [h.length_gradients rule hrule ho, ← h.weights rule hrule]
      exact hlt
    exact meets_lookUp hi h.gradients
  | position ξ =>
    exact (meets_checkPosition ξ).bind fun η hη => Meets.lift (Element.yields_shapeGradients hη)

end Consistent

end CachedShapes

namespace Geometry

structure Suits (g : Geometry K) (dim : ℕ) : Prop where
  dim : g.element.dim = dim
  vertices : g.vertices.cols = g.element.numNodes

omit [Scalar K] in
theorem suits_of_ofVertexMatrix {element : Element} {vertices : Mat K} {g : Geometry K}
    (h : ofVertexMatrix element vertices = .ok g) : g.Suits element.dim := by
  obtain ⟨hcols, rfl⟩ := require_eq_ok.1 h
  exact ⟨rfl, hcols⟩

theorem suits_of_ofVertices {element : Element} {vertices : List (Vec K)} {g : Geometry K}
    (h : ofVertices element vertices = .ok g) : g.Suits element.dim := by
  obtain ⟨hlength, rfl⟩ := require_eq_ok.1 h
  exact ⟨rfl, hlength⟩

theorem Suits.yields_jacobianTransposed {g : Geometry K} {dim : ℕ} (hg : g.Suits dim) {ξ : Vec K}
    (hξ : ξ.size = dim) :
    Yields (g.jacobianTransposed ξ) (·.HasShape dim g.vertices.rows) := by
  have hgradients := Element.yields_shapeGradients (hξ.trans hg.dim.symm)
  rw [hg.dim] at hgradients
  have htranspose : g.vertices.transpose.HasShape g.element.numNodes g.vertices.rows :=
    ⟨hg.vertices, rfl⟩
  exact hgradients.bind fun m hm => Mat.yields_mul hm htranspose

end Geometry

/-- The gradients at a site can be computed or are refused, whatever the dimension of the world. -/
theorem CachedShapes.Consistent.meets_gradientsIn {s : CachedShapes K} (h : s.Consistent)
    {geometry : Option (Geometry K)} (hg : ∀ g, geometry = some g → g.Suits s.dim) (site : Site K) :
    Meets (fun _ => True) (s.gradientsIn geometry site) (·.HasShape s.dim s.numNodes) := by
  refine (h.meets_gradientsAt site.point).bind fun gradients hgradients => ?_
  cases site.transform with
  | referenceElement => exact Meets.pure hgradients
  | gridElement =>
    refine Meets.bind (Meets.ofOption (fun _ => trivial) hg) fun g hg => ?_
    refine (h.meets_position site.point).bind fun ξ hξ => ?_
    refine (Meets.lift (hg.yields_jacobianTransposed hξ)).bind fun jacobian hjacobian => ?_
    split
    · refine Meets.bind (Meets.ofOption (fun _ => trivial) fun inverse hi =>
        Mat.shape_inverse? hi) fun inverse hinverse => Meets.lift ?_
      rw [hjacobian.1] at hinverse
      exact Mat.yields_mul hinverse hgradients
    · exact Meets.refuse trivial

namespace Leaf

/-- The leaves that the library makes, with a geometry attached that lives on an element of the same
dimension, bound to regular rules, and moved by corrections. -/
inductive Regular : Leaf K → Prop
  | interpolated {element : Element} {coefficients : Coefficients K} {block : BlockId} {l : Leaf K}
    (h : Leaf.interpolated element coefficients block = .ok l) : Regular l
  | normalized {element : Element} {coefficients : Coefficients K} {block : BlockId} {l : Leaf K}
    (h : Leaf.normalized element coefficients block = .ok l) : Regular l
  | withGeometry {l : Leaf K} (h : Regular l) {geometry : Geometry K}
    (hg : geometry.Suits l.gridDim) : Regular (l.withGeometry geometry)
  | bind {l : Leaf K} (h : Regular l) {rule : QuadratureRule K} (hrule : rule.Regular)
    (orders : List ℕ) : Regular (l.bind rule orders).1
  | update {l l' : Leaf K} {d : Vec K} (h : Regular l) (hd : l.update d = .ok l') : Regular l'
  | embed {l l' : Leaf K} {d : Vec K} (h : Regular l) (hd : l.addInEmbedding d = .ok l') : Regular l'

/-- Every regular leaf is one that the library makes. -/
theorem Regular.standard {l : Leaf K} (h : l.Regular) : l.Standard := by
  induction h with
  | interpolated h => exact .interpolated h
  | normalized h => exact .normalized h
  | withGeometry _ _ ih => exact ih.withGeometry _
  | bind _ _ orders ih => exact ih.bind _ orders
  | update _ hd ih => exact ih.update hd
  | embed _ hd ih => exact ih.embed hd

omit [Scalar K] in
theorem SameKind.numCoefficients_eq {l l' : Leaf K} (hk : l.SameKind l')
    (h : l.numCoefficients = l.shapes.numNodes) : l'.numCoefficients = l'.shapes.numNodes := by
  show l'.coefficients.size = l'.shapes.element.numNodes
  rw [hk.size, hk.element]
  exact h

/-- A leaf that the library makes has one coefficient for each node. -/
theorem Standard.numCoefficients_eq {l : Leaf K} (h : l.Standard) :
    l.numCoefficients = l.shapes.numNodes := by
  induction h with
  | interpolated h | normalized h =>
    obtain ⟨hsize, rfl⟩ := require_eq_ok.1 h
    exact hsize
  | withGeometry _ _ ih => exact ih
  | bind _ rule orders ih => exact (sameKind_bind _ rule orders).numCoefficients_eq ih
  | update _ hd ih => exact (sameKind_update hd).numCoefficients_eq ih
  | embed _ hd ih => exact (sameKind_addInEmbedding hd).numCoefficients_eq ih

structure Prepared (l : Leaf K) : Prop where
  shapes : l.shapes.Consistent
  geometry : ∀ g, l.geometry = some g → g.Suits l.gridDim

omit [Scalar K] in
theorem Prepared.of_sameKind {l l' : Leaf K} (h : l.Prepared) (hk : l.SameKind l')
    (hs : l'.shapes.Consistent) : l'.Prepared := by
  refine ⟨hs, ?_⟩
  rw [hk.geometry, hk.gridDim]
  exact h.geometry

theorem Regular.prepared {l : Leaf K} (h : l.Regular) : l.Prepared := by
  induction h with
  | interpolated h | normalized h =>
    obtain ⟨-, rfl⟩ := require_eq_ok.1 h
    exact ⟨CachedShapes.consistent_unbound _, fun _ hg => (nomatch hg)⟩
  | withGeometry _ hg ih =>
    refine ⟨ih.shapes, fun g hg' => ?_⟩
    obtain rfl := Option.some.inj hg'
    exact hg
  | bind _ hrule orders ih =>
    exact ih.of_sameKind (sameKind_bind _ _ orders) (ih.shapes.bind hrule orders)
  | update _ hd ih => exact ih.of_sameKind (sameKind_update hd) (shapes_update hd ▸ ih.shapes)
  | embed _ hd ih =>
    exact ih.of_sameKind (sameKind_addInEmbedding hd) (shapes_addInEmbedding hd ▸ ih.shapes)

/-- A leaf that the library makes serves wherever its shape functions can be evaluated. -/
theorem Standard.serves {l : Leaf K} (h : l.Standard) {site : Site K}
    (ht : l.toLeafData.Tabulated E site) : l.Serves E site := by
  apply serves_of_primitives <;> rcases h.kind.primitives with ⟨hp, -⟩ | ⟨hp, -⟩ <;> rw [hp]
  · exact Interpolation.serveValues ht.values
  · exact Normalization.serveValues ht.values
  · exact Interpolation.serveGradients ht.gradients
  · exact Normalization.serveGradients ht

/-- A regular leaf answers or refuses at every site. -/
theorem Regular.serves {l : Leaf K} (h : l.Regular) (site : Site K) :
    l.Serves (fun _ => True) site := by
  have hn := h.standard.numCoefficients_eq
  have hp := h.prepared
  apply h.standard.serves
  refine ⟨?_, ?_⟩
  · rw [hn]
    exact hp.shapes.meets_valuesAt site.point
  · rw [hn]
    exact hp.shapes.meets_gradientsIn hp.geometry site

theorem regular_onEdge (block : BlockId) (x y : K) : (onEdge block x y).Regular := by
  have h : Leaf.interpolated .segment (onSegment block x y).coefficients block =
      .ok (onSegment block x y) := rfl
  exact (Regular.interpolated h).withGeometry ⟨rfl, rfl⟩

end Leaf

end ElementFields
