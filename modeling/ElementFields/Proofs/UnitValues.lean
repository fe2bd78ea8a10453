import ElementFields.Proofs.UnitLength

namespace ElementFields

open Scalar
open scoped BigOperators

namespace Element

variable {e : Element} {ξ φ : Vec ℝ}

/-- The point lies in the reference element: between the end points of each axis and, in a simplex, not
beyond the face opposite to the first node. -/
structure Contains (e : Element) (ξ : Vec ℝ) : Prop where
  lower : ∀ d < e.dim, -1 ≤ ξ.entry d
  upper : ∀ d < e.dim, ξ.entry d ≤ 1
  face : e.isSimplex = true → ∑ d ∈ Finset.range e.dim, axisValue ξ d ≤ 1

theorem hat_nonneg {α x : ℝ} (hα : α * α = 1) (hlower : -1 ≤ x) (hupper : x ≤ 1) :
    0 ≤ hat α x := by
  rw [hat, Nat.cast_ofNat]
  rcases mul_self_eq_one_iff.1 hα with rfl | rfl <;> linarith

theorem tensorValue_nonneg (h : e.Contains ξ) {node : Vec ℝ} (hnode : node ∈ e.nodes) :
    0 ≤ tensorValue e.dim node ξ := by
  rw [tensorValue_eq]
  refine Finset.prod_nonneg fun d hd => ?_
  have hd : d < e.dim := Finset.mem_range.1 hd
  exact hat_nonneg (entry_mul_self_of_mem_nodes hnode hd) (h.lower d hd) (h.upper d hd)

theorem axisValue_nonneg {d : ℕ} (h : -1 ≤ ξ.entry d) : 0 ≤ axisValue ξ d := by
  rw [axisValue, Nat.cast_ofNat]
  linarith

/-- Inside of an element no shape function is negative. -/
theorem shapeValues_nonneg (h : e.Contains ξ) (hφ : e.shapeValues ξ = .ok φ) {j : ℕ}
    (hj : j < e.numNodes) : 0 ≤ φ.entry j := by
  have hsize := CachedShapes.size_of_shapeValues hφ
  rw [entry_shapeValues hφ]
  cases he : e.isSimplex with
  | false =>
    have hlt : j < (e.nodes : List (Vec ℝ)).length := by rwa [length_nodes]
    rw [shape_of_product he hsize hj, List.getD_eq_getElem?_getD, List.getElem?_eq_getElem hlt]
    exact tensorValue_nonneg h (List.getElem_mem hlt)
  | true =>
    obtain ⟨hfirst, hothers⟩ := shape_of_simplex he hsize
    rw [numNodes_of_isSimplex he] at hj
    cases j with
    | zero => exact hfirst ▸ sub_nonneg.2 (h.face he)
    | succ k =>
      have hk : k < e.dim := Nat.lt_of_succ_lt_succ hj
      exact hothers k hk ▸ axisValue_nonneg (h.lower k hk)

end Element

namespace LeafData

variable {l : LeafData ℝ} {φ : Vec ℝ}

noncomputable def weighted (l : LeafData ℝ) (φ : Vec ℝ) : Vec ℝ :=
  .ofFn l.valueSize fun d =>
    ∑ j ∈ Finset.range l.numCoefficients, φ.entry j * l.coefficients.entry d j

theorem size_weighted (l : LeafData ℝ) (φ : Vec ℝ) : (l.weighted φ).size = l.valueSize :=
  Vec.size_ofFn _ _

theorem entry_weighted {d : ℕ} (hd : d < l.valueSize) (φ : Vec ℝ) : (l.weighted φ).entry d =
    ∑ j ∈ Finset.range l.numCoefficients, φ.entry j * l.coefficients.entry d j :=
  Vec.entry_ofFn _ hd

/-- All coefficients lie on the side of a plane that the vector points to. -/
def OnSide (l : LeafData ℝ) (u : ℕ → ℝ) : Prop :=
  ∀ j < l.numCoefficients, 0 < ∑ d ∈ Finset.range l.valueSize, u d * l.coefficients.entry d j

theorem sum_mul_weighted (u : ℕ → ℝ) (φ : Vec ℝ) :
    ∑ d ∈ Finset.range l.valueSize, u d * (l.weighted φ).entry d =
      ∑ j ∈ Finset.range l.numCoefficients,
        φ.entry j * ∑ d ∈ Finset.range l.valueSize, u d * l.coefficients.entry d j := by
  calc ∑ d ∈ Finset.range l.valueSize, u d * (l.weighted φ).entry d
    _ = ∑ d ∈ Finset.range l.valueSize, ∑ j ∈ Finset.range l.numCoefficients,
          φ.entry j * (u d * l.coefficients.entry d j) := by
        refine Finset.sum_congr rfl fun d hd => ?_
        rw [entry_weighted (Finset.mem_range.1 hd), Finset.mul_sum]
        exact Finset.sum_congr rfl fun j _ => mul_left_comm _ _ _
    _ = _ := by
        rw [Finset.sum_comm]
        exact Finset.sum_congr rfl fun j _ => (Finset.mul_sum _ _ _).symm

/-- The sum is on the same side as the coefficients, if the weights are not negative and add up to one.
-/
theorem OnSide.weighted_ne_zero {u : ℕ → ℝ} (h : l.OnSide u)
    (hφ : ∀ j < l.numCoefficients, 0 ≤ φ.entry j)
    (hone : ∑ j ∈ Finset.range l.numCoefficients, φ.entry j = 1) :
    l.weighted φ ≠ .zero l.valueSize := by
  intro hzero
  have hsum : ∑ d ∈ Finset.range l.valueSize, u d * (l.weighted φ).entry d = 0 := by
    refine Finset.sum_eq_zero fun d hd => ?_
    rw [hzero, Vec.zero, Vec.entry_ofFn _ (Finset.mem_range.1 hd), mul_zero]
  have hterms : ∀ j ∈ Finset.range l.numCoefficients, 0 ≤
      φ.entry j * ∑ d ∈ Finset.range l.valueSize, u d * l.coefficients.entry d j :=
    fun j hj => mul_nonneg (hφ j (Finset.mem_range.1 hj)) (h j (Finset.mem_range.1 hj)).le
  rw [sum_mul_weighted, Finset.sum_eq_zero_iff_of_nonneg hterms] at hsum
  -- So every weight is zero.
  refine one_ne_zero (hone.symm.trans (Finset.sum_eq_zero fun j hj => ?_))
  exact (mul_eq_zero.1 (hsum j hj)).resolve_right (h j (Finset.mem_range.1 hj)).ne'

theorem interpolate_eq_weighted {site : Site ℝ} {p : Vec ℝ}
    (h : Normalization.interpolate l site = .ok (φ, p)) : p = l.weighted φ := by
  obtain ⟨hφ, -⟩ := Normalization.interpolate_eq_ok h
  have hvalues (v : Vec ℝ) (hv : l.valuesAt site = .ok v) (j : ℕ) : v.entry j = φ.entry j := by
    rw [Except.ok.inj (hv.symm.trans hφ)]
  exact (Normalization.interpolate_tabled (g := fun _ _ => 0) hvalues h).2

end LeafData

namespace Vec

variable {p : Vec ℝ}

theorem norm_normalized_eq_one_iff : (normalized p).norm = 1 ↔ p ≠ .zero p.size := by
  rw [ne_eq, ← norm_eq_zero_iff_eq_zero]
  refine ⟨fun hone hzero => ?_, norm_divide⟩
  -- Conversely the length is zero, and what is left of the quotients does not square to one.
  rw [norm_eq_one_iff, inner_eq_sum] at hone
  refine zero_ne_one (Eq.trans (Finset.sum_eq_zero fun i _ => ?_).symm hone)
  rw [normalized, entry_divide, hzero, div_zero, mul_zero]

end Vec

theorem Leaf.Standard.value_eq_of_normalization {l : Leaf ℝ} (h : l.Standard)
    (hp : l.primitives = .normalization) {site : Site ℝ} {φ : Vec ℝ}
    (hφ : l.valuesAt site = .ok φ) :
    l.primitives.value l.toLeafData site = .ok ((l.weighted φ).divide (l.weighted φ).norm) := by
  obtain ⟨⟨ψ, p⟩, hsum, -⟩ := (Normalization.meets_interpolate (h.meets_valuesAt hφ)).exists_ok
  obtain ⟨hψ, -⟩ := Normalization.interpolate_eq_ok hsum
  obtain rfl : φ = ψ := Except.ok.inj (hφ.symm.trans hψ)
  rw [hp, ← LeafData.interpolate_eq_weighted hsum]
  exact bind_eq_ok_iff.2 ⟨_, hsum, rfl⟩

/-- A value is given wherever the shape functions have one. It is the sum of the coefficients with these
weights, divided by its length, and it is a unit vector exactly if the sum is not zero. In every point of
the element it is a unit vector if all coefficients lie on one side of a plane. -/
theorem unit_values_iff {l : Leaf ℝ} (h : l.Standard) (hp : l.primitives = .normalization)
    (site : Site ℝ) :
    ((∃ v, l.primitives.value l.toLeafData site = .ok v) ↔ ∃ φ, l.valuesAt site = .ok φ) ∧
    ∀ φ v, l.valuesAt site = .ok φ → l.primitives.value l.toLeafData site = .ok v →
      v = (l.weighted φ).divide (l.weighted φ).norm ∧
      (v.norm = 1 ↔ l.weighted φ ≠ .zero l.valueSize) ∧
      ∀ ξ u, l.shapes.position site.point = .ok ξ → l.shapes.element.Contains ξ → l.OnSide u →
        v.norm = 1 := by
  refine ⟨⟨fun ⟨v, hv⟩ => ?_, fun ⟨φ, hφ⟩ => ⟨_, h.value_eq_of_normalization hp hφ⟩⟩,
    fun φ v hφ hv => ?_⟩
  · rw [hp] at hv
    obtain ⟨⟨φ, p⟩, hsum, -⟩ := bind_eq_ok_iff.1 hv
    exact ⟨φ, (Normalization.interpolate_eq_ok hsum).1⟩
  · obtain rfl := Except.ok.inj ((h.value_eq_of_normalization hp hφ).symm.trans hv)
    have hunit := Vec.norm_normalized_eq_one_iff (p := l.weighted φ)
    rw [LeafData.size_weighted] at hunit
    refine ⟨rfl, hunit, fun ξ u hξ hinside hu => hunit.2 ?_⟩
    have hshapes := h.truthful.shapeValues_eq hξ hφ
    refine hu.weighted_ne_zero (fun j hj => ?_) ?_
    · exact Element.shapeValues_nonneg hinside hshapes (hj.trans_eq h.numCoefficients_eq)
    · rw [h.numCoefficients_eq]
      exact Element.sum_shapeValues hshapes

/-- On a side of a triangle with the directions of the axes at its nodes. -/
theorem unit_values_iff_directed :
    let l : Leaf ℝ := .directed ⟨0⟩
    let site : Site ℝ := ⟨.position #[0, 0], .gridElement⟩
    (l.Standard ∧ l.primitives = .normalization ∧ l.shapes.position site.point = .ok #[0, 0] ∧
      l.shapes.element.Contains #[0, 0] ∧ l.OnSide fun _ => 1) ∧
    ∃ v, l.primitives.value l.toLeafData site = .ok v ∧ v.norm = 1 := by
  intro l site
  have hl : l.Standard := Leaf.standard_directed ⟨0⟩
  have hξ : l.shapes.position site.point = .ok #[0, 0] := rfl
  have hinside : Element.triangle.Contains #[0, 0] := by
    have hentry (d : ℕ) : Vec.entry (K := ℝ) #[0, 0] d = 0 := by
      rcases d with _ | _ | d <;> rfl
    refine ⟨fun d _ => ?_, fun d _ => ?_, fun _ => ?_⟩
    · rw [hentry]
      norm_num
    · rw [hentry]
      norm_num
    · show ∑ d ∈ Finset.range 2, _ ≤ _
      simp only [axisValue, hentry, Finset.sum_range_succ, Finset.sum_range_zero]
      norm_num
  have hside : l.OnSide fun _ => 1 := by
    intro j hj
    have hj : j < 3 := hj
    show 0 < ∑ d ∈ Finset.range 2, _
    rw [Finset.sum_range_succ, Finset.sum_range_one]
    have hentry : l.coefficients.entry 0 0 = 1 ∧ l.coefficients.entry 1 0 = 0 ∧
        l.coefficients.entry 0 1 = 0 ∧ l.coefficients.entry 1 1 = 1 ∧
        l.coefficients.entry 0 2 = 0 ∧ l.coefficients.entry 1 2 = 1 := ⟨rfl, rfl, rfl, rfl, rfl, rfl⟩
    interval_cases j <;> norm_num [hentry]
  obtain ⟨⟨φ, hφ⟩, -⟩ := hl.known_at_position hξ rfl
  obtain ⟨hanswered, hvalues⟩ := unit_values_iff hl rfl site
  obtain ⟨v, hv⟩ := hanswered.2 ⟨φ, hφ⟩
  obtain ⟨-, -, hunit⟩ := hvalues φ v hφ hv
  exact ⟨⟨hl, rfl, hξ, hinside, hside⟩, v, hv, hunit _ _ hξ hinside hside⟩

noncomputable def Leaf.opposed (block : BlockId) : Leaf ℝ where
  block := block
  shapes := .unbound .segment
  coefficients := { manifold := .sphere 2, points := [⟨#[1, 0], rfl⟩, ⟨#[-1, 0], rfl⟩] }
  order := .nonlinear
  primitives := .normalization

theorem Leaf.standard_opposed (block : BlockId) : (opposed block).Standard := by
  have h : Leaf.normalized .segment (opposed block).coefficients block = .ok (opposed block) := rfl
  exact .normalized h

/-- In the middle between opposite unit vectors there is nothing to normalize, but a value is given. -/
theorem value_between_opposed :
    let l : Leaf ℝ := .opposed ⟨0⟩
    let site : Site ℝ := ⟨.position #[0], .referenceElement⟩
    l.Standard ∧ l.primitives = .normalization ∧
      (∀ x ∈ l.coefficients.points, x.coords.norm = 1) ∧ l.shapes.element.Contains #[0] ∧
      ∃ φ v, l.valuesAt site = .ok φ ∧ l.weighted φ = .zero 2 ∧
        l.primitives.value l.toLeafData site = .ok v ∧ v.norm ≠ 1 := by
  intro l site
  have hl : l.Standard := Leaf.standard_opposed ⟨0⟩
  have hinside : Element.segment.Contains #[0] := by
    have hentry (d : ℕ) : Vec.entry (K := ℝ) #[0] d = 0 := by cases d <;> rfl
    refine ⟨fun d _ => ?_, fun d _ => ?_, fun h => (nomatch h)⟩ <;> rw [hentry] <;> norm_num
  have hlength : ∀ x ∈ l.coefficients.points, x.coords.norm = 1 := by
    have hunit (a : ℝ) (ha : a * a = 1) : Vec.norm (K := ℝ) #[a, 0] = 1 := by
      rw [Vec.norm_eq_one_iff, Vec.inner_eq_sum]
      show ∑ i ∈ Finset.range 2, _ = _
      rw [Finset.sum_range_succ, Finset.sum_range_one]
      exact (congrArg (a * a + ·) (mul_zero _)).trans ((add_zero _).trans ha)
    intro x hx
    have hmem : x ∈ [⟨#[1, 0], rfl⟩, ⟨#[-1, 0], rfl⟩] := hx
    simp only [List.mem_cons, List.not_mem_nil, or_false] at hmem
    rcases hmem with rfl | rfl
    · exact hunit 1 (one_mul 1)
    · exact hunit (-1) (by norm_num)
  have hξ : l.shapes.position site.point = .ok #[0] := rfl
  obtain ⟨⟨φ, hφ⟩, -⟩ := hl.known_at_position hξ rfl
  have hentry := entry_shapeValues_segment (hl.truthful.shapeValues_eq hξ hφ)
  -- Both weights are one half, so the two vectors cancel.
  have hzero : l.weighted φ = .zero 2 := by
    refine Vec.ext_entry rfl fun d hd => ?_
    have hd : d < 2 := by rwa [LeafData.size_weighted] at hd
    refine (LeafData.entry_weighted hd φ).trans (Eq.trans ?_ (Vec.entry_ofFn _ hd).symm)
    show ∑ j ∈ Finset.range 2, _ = _
    have hpoints : l.coefficients.entry 0 0 = 1 ∧ l.coefficients.entry 0 1 = -1 ∧
        l.coefficients.entry 1 0 = 0 ∧ l.coefficients.entry 1 1 = 0 := ⟨rfl, rfl, rfl, rfl⟩
    rw [Finset.sum_range_succ, Finset.sum_range_one, hentry, hentry]
    interval_cases d <;> simp [hpoints, segmentValue]
  have hnorm : (l.weighted φ).norm = 0 := by
    rw [Vec.norm_eq_zero_iff_eq_zero, LeafData.size_weighted, hzero]
    rfl
  refine ⟨hl, rfl, hlength, hinside, φ, _, hφ, hzero, hl.value_eq_of_normalization rfl hφ, ?_⟩
  intro hone
  refine Vec.norm_normalized_eq_one_iff.1 hone ?_
  rwa [← Vec.norm_eq_zero_iff_eq_zero]

end ElementFields
