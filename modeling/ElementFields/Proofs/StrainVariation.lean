import ElementFields.Proofs.Displacements
import ElementFields.Proofs.Vanishing

/-! The second variation of the strains. The rule for two coefficients leaves out the pairing of the
current tangents with the second variation of the displacement gradient. That term vanishes within a
block and in two or three dimensions, but not for a product of two blocks in one. -/
namespace ElementFields
open Scalar
open scoped BigOperators

namespace HasVariations

open Strain

variable {n dim m : ℕ} (hm : m < dim + (shearPairs dim).length)
include hm

theorem pairing {X Y : ℕ → ℕ → ℝ → ℝ → ℝ} {x xa xb xc y ya yb yc : ℕ → ℕ → ℝ}
    (hx : ∀ d < n, ∀ k < dim, HasVariations (X d k) (x d k) (xa d k) (xb d k) (xc d k))
    (hy : ∀ d < n, ∀ k < dim, HasVariations (Y d k) (y d k) (ya d k) (yb d k) (yc d k)) :
    HasVariations
      (fun p q => Strain.pairing n dim (fun d k => X d k p q) (fun d k => Y d k p q) m)
      (Strain.pairing n dim x y m)
      (Strain.pairing n dim xa y m + Strain.pairing n dim x ya m)
      (Strain.pairing n dim xb y m + Strain.pairing n dim x yb m)
      (Strain.pairing n dim xc y m + Strain.pairing n dim xa yb m + Strain.pairing n dim xb ya m +
        Strain.pairing n dim x yc m) := by
  obtain ⟨h₁, h₂⟩ := voigtPair_lt hm
  have hterm (d : ℕ) (hd : d < n) :=
    ((hx d hd _ h₁).mul (hy d hd _ h₂)).add ((hy d hd _ h₁).mul (hx d hd _ h₂))
  have h := (HasVariations.sum hterm).const_mul (voigtWeight (voigtPair dim m))
  refine h.congr rfl ?_ ?_ ?_ <;>
    · simp only [Strain.pairing, ← mul_add, ← Finset.sum_add_distrib]
      congr 1
      exact Finset.sum_congr rfl fun d _ => by ring

/-- The strain of a gradient `S` that varies, on fixed reference tangents `A`. -/
theorem strain (A : ℕ → ℕ → ℝ) {S : ℕ → ℕ → ℝ → ℝ → ℝ} {s sa sb sc : ℕ → ℕ → ℝ}
    (hS : ∀ d < n, ∀ k < dim, HasVariations (S d k) (s d k) (sa d k) (sb d k) (sc d k)) :
    HasVariations
      (fun p q => Strain.pairing n dim A (fun d k => S d k p q) m +
        1 / 2 * Strain.pairing n dim (fun d k => S d k p q) (fun d k => S d k p q) m)
      (Strain.pairing n dim A s m + 1 / 2 * Strain.pairing n dim s s m)
      (Strain.pairing n dim (fun d k => A d k + s d k) sa m)
      (Strain.pairing n dim (fun d k => A d k + s d k) sb m)
      (Strain.pairing n dim sa sb m +
        Strain.pairing n dim (fun d k => A d k + s d k) sc m) := by
  have hA : ∀ d < n, ∀ k < dim, HasVariations (fun _ _ => A d k) (A d k) 0 0 0 :=
    fun d _ k _ => .const (A d k)
  -- The pairing is symmetric, so the two variations of the quadratic term are equal, and half of
  -- their sum is one of them.
  have hlinear := HasVariations.pairing hm hA hS
  have hquadratic := (HasVariations.pairing hm hS hS).const_mul (1 / 2)
  have hzero (y : ℕ → ℕ → ℝ) : Strain.pairing n dim (fun _ _ => 0) y m = 0 :=
    pairing_eq_zero (Or.inl fun _ _ => rfl)
  refine (hlinear.add hquadratic).congr rfl ?_ ?_ ?_ <;>
    · simp only [hzero, pairing_add_left, pairing_comm _ s, pairing_comm sb sa]
      ring

end HasVariations

namespace ElementField

variable {f : ElementField ℝ} {a : Expr ℝ} {site : Site ℝ} {W : Mat ℝ} {α β : Variable}
  {φ : ℕ → ℕ → ℝ} {g : ℕ → ℕ → ℕ → ℝ}

/-- The strains of the displacement `a`, contracted with the stress `W`, after two coordinates of the
coefficients are moved. -/
noncomputable def stressed (f : ElementField ℝ) (a : Expr ℝ) (site : Site ℝ) (W : Mat ℝ)
    (α β : Variable) (p q : ℝ) : ℝ :=
  ∑ s ∈ Finset.range (strainSize f.gridDim),
    W.entry s 0 * columnEntry (((f.moved α β p q).operand (.unary .strain a)).value site) s

section Displacement

variable (hleaf : ∀ l ∈ f.reachableLeaves, l.Standard) (he : f.Hosts (.unary .strain a))
include hleaf he

/-- A displacement that the assembly accepts is a polynomial in the coefficients. -/
theorem isPolynomial_of_strain : f.IsPolynomial a :=
  isPolynomial_of_orders hleaf he.1 he.linear_of_strain

/-- The strains of the moved field are read off the table of the displacement. -/
theorem strain_moved (hs : f.ShapedBy site φ g) {m : Mat ℝ}
    (hm : (f.operand (.unary .strain a)).value site = .ok m) (α β : Variable) :
    (f.operand a).Answers (Strain.gradientRequest site) ∧
    ∃ A, f.referenceTangents a site = .ok A ∧ ∀ p q,
      let gradient (d k : ℕ) : ℝ := (a.partials ((f.moved α β p q).leafTable φ g)).slope k d
      (∃ m', ((f.moved α β p q).operand (.unary .strain a)).value site = .ok m' ∧
        ∀ s < strainSize f.gridDim, m'.entry s 0 =
          Strain.pairing f.gridDim f.gridDim A.entry gradient s +
            1 / 2 * Strain.pairing f.gridDim f.gridDim gradient gradient s) ∧
      ∀ d < f.gridDim, ∀ k < f.gridDim,
        Strain.gradientOf ((f.moved α β p q).operand a) site d k = gradient d k := by
  have hpoly := isPolynomial_of_strain hleaf he
  obtain ⟨ha, ⟨hV, -⟩, hdim, -⟩ := he
  have hformed : (f.operand a).Formed f.gridDim f.gridDim f.tangentDim
      (Strain.gradientRequest site).directions := by
    have h := operandWith_formed (fun l hl => (hleaf l hl).kind.keepsShapes) Expr.annihilated ha
      (f.admits_gradient site)
    rwa [hV] at h
  obtain ⟨A, hA, hans, -⟩ := Strain.value_eq_ok hformed hm
  refine ⟨hans, A, hA, fun p q => ?_⟩
  intro gradient
  have hformed' := formed_moved hleaf ha site α β p q
  rw [hV] at hformed'
  have hans' := (hpoly.answers_moved hleaf ha α β p q).gradient hans
  have hgradient : ∀ d < f.gridDim, ∀ k < f.gridDim,
      Strain.gradientOf ((f.moved α β p q).operand a) site d k = gradient d k := by
    intro d hd k hk
    exact hpoly.moved.gradientOf_eq (standard_moved hleaf) ((f.alike_moved α β p q).hosts ha)
      hs.moved hans' (hV.symm ▸ hd) hk
  refine ⟨?_, hgradient⟩
  obtain ⟨m', hm'⟩ := Strain.exists_value hformed hformed' hm hans'
  -- Both fields read the same reference tangents.
  obtain ⟨A', hA', -, -, -, hentry⟩ := Strain.value_eq_ok hformed' hm'
  obtain rfl := Except.ok.inj (hA.symm.trans hA')
  refine ⟨m', ?_, fun s hs => ?_⟩
  · show Strain.value f.gridDim ((f.moved α β p q).referenceTangents a)
      ((f.moved α β p q).operand a) site = .ok m'
    rw [referenceTangents_moved]
    exact hm'
  · rw [← Strain.add_length_shearPairs hdim.2] at hs
    have href : ∀ d < f.gridDim, ∀ k < f.gridDim, A.entry d k = A.entry d k := fun _ _ _ _ => rfl
    rw [hentry s hs, Strain.pairing_congr href hgradient hs,
      Strain.pairing_congr hgradient hgradient hs]

/-- The mixed derivative of the stressed strains pairs the first variations of the gradient, and the
current tangents with its second variation. -/
theorem hasMixed_of_table (hs : f.ShapedBy site φ g) {m : Mat ℝ}
    (hm : (f.operand (.unary .strain a)).value site = .ok m) (W : Mat ℝ) (α β : Variable) :
    let B := a.partials (f.leafTable φ g)
    (∀ d < f.gridDim, ∀ k < f.gridDim,
      HasMixed (fun p q => Strain.gradientOf ((f.moved α β p q).operand a) site d k)
        (B.thrice k α β d)) ∧
    ∃ A, f.referenceTangents a site = .ok A ∧
      HasMixed (f.stressed a site W α β) (∑ s ∈ Finset.range (strainSize f.gridDim), W.entry s 0 *
        (Strain.pairing f.gridDim f.gridDim (fun d k => B.mixed k α d) (fun d k => B.mixed k β d) s +
          Strain.pairing f.gridDim f.gridDim (fun d k => A.entry d k + B.slope k d)
            (fun d k => B.thrice k α β d) s)) := by
  intro B
  have hpoly := isPolynomial_of_strain hleaf he
  obtain ⟨hans, A, hA, hmoved⟩ := strain_moved hleaf he hs hm α β
  obtain ⟨ha, ⟨hV, -⟩, hdim, -⟩ := he
  have hvary : ∀ d < f.gridDim, ∀ k < f.gridDim, HasVariations
      (fun p q => (a.partials ((f.moved α β p q).leafTable φ g)).slope k d) (B.slope k d)
      (B.mixed k α d) (B.mixed k β d) (B.thrice k α β d) :=
    fun d hd k _ => (hpoly.vary ha φ g α β).slope k d (hV.symm ▸ hd)
  refine ⟨fun d hd k hk => ?_, A, hA, ?_⟩
  · simp only [fun p q => (hmoved p q).2 d hd k hk]
    exact (hvary d hd k hk).hasMixed
  · have hstressed : f.stressed a site W α β = fun p q =>
        ∑ s ∈ Finset.range (strainSize f.gridDim), W.entry s 0 *
          (Strain.pairing f.gridDim f.gridDim A.entry
            (fun d k => (a.partials ((f.moved α β p q).leafTable φ g)).slope k d) s +
            1 / 2 * Strain.pairing f.gridDim f.gridDim
              (fun d k => (a.partials ((f.moved α β p q).leafTable φ g)).slope k d)
              (fun d k => (a.partials ((f.moved α β p q).leafTable φ g)).slope k d) s) := by
      funext p q
      obtain ⟨m', hm', hentry⟩ := (hmoved p q).1
      refine Finset.sum_congr rfl fun s hs => ?_
      rw [hm', columnEntry, hentry s (Finset.mem_range.mp hs)]
    rw [hstressed]
    have hterm (s : ℕ) (hs : s < strainSize f.gridDim) := (HasVariations.strain
      (Strain.add_length_shearPairs hdim.2 ▸ hs) A.entry hvary).const_mul (W.entry s 0)
    exact (HasVariations.sum hterm).hasMixed

/-- The answer with respect to two coefficients pairs the first variations of the gradient. -/
theorem second_entry (hs : f.ShapedBy site φ g) {c₁ c₂ : Coefficient}
    (hr : f.Admits (secondRequest site c₁ c₂ W).directions)
    (hW : W.cols = 1) {D : Derivative ℝ}
    (hD : (f.operand (.unary .strain a)).derivative (secondRequest site c₁ c₂ W) = .ok D) {i j : ℕ}
    (hi : i < f.tangentDim c₁.block) (hj : j < f.tangentDim c₂.block) :
    let B := a.partials (f.leafTable φ g)
    D.entry 0 i j = ∑ s ∈ Finset.range (strainSize f.gridDim), W.entry s 0 *
      Strain.pairing f.gridDim f.gridDim (fun d k => B.mixed k ⟨c₁, i⟩ d)
        (fun d k => B.mixed k ⟨c₂, j⟩ d) s := by
  intro B
  have hpoly := isPolynomial_of_strain hleaf he
  obtain ⟨ha, ⟨hV, -⟩, hdim, -⟩ := he
  rcases operandWith_derivative_eq_ok hr hD with ⟨hv, -⟩ | ⟨hann, rfl⟩ | ⟨-, -, h⟩
  · nomatch hv
  · -- The displacement is constant in the block of one of the coefficients.
    rw [Form.entry_zero]
    refine (Finset.sum_eq_zero fun s hs' => ?_).symm
    obtain ⟨c, hc, hconst⟩ := Expr.constant_of_annihilated_strain hann
    have hobeys := partials_obeys (hpoly.leavesRead hs) ha hpoly.strainFree
    have hstill (i : ℕ) : ∀ d < f.gridDim, ∀ k < f.gridDim, B.mixed k ⟨c, i⟩ d = 0 :=
      fun d hd k _ => (hobeys.constant ⟨c, i⟩ hconst d (hV.symm ▸ hd)).2.1 k
    have hzero (i : ℕ) (y : ℕ → ℕ → ℝ) :
        Strain.pairing f.gridDim f.gridDim (fun d k => B.mixed k ⟨c, i⟩ d) y s = 0 := by
      have hy : ∀ d < f.gridDim, ∀ k < f.gridDim, y d k = y d k := fun _ _ _ _ => rfl
      rw [Strain.pairing_congr (hstill i) hy (Strain.lt_of_mem_strainSize hdim.2 hs')]
      exact Strain.pairing_eq_zero (Or.inl fun _ _ => rfl)
    have hor : c = c₁ ∨ c = c₂ := by
      rcases List.mem_cons.1 hc with rfl | hc
      · exact Or.inl rfl
      · exact Or.inr (List.mem_singleton.1 hc)
    rcases hor with rfl | rfl
    · rw [hzero, mul_zero]
    · rw [Strain.pairing_comm, hzero, mul_zero]
  · have h : Strain.second f.gridDim (f.operand a) (secondRequest site c₁ c₂ W) c₁ c₂ = .ok D := h
    have hformed := operandWith_formed (fun l hl => (hleaf l hl).kind.keepsShapes) Expr.annihilated
      ha hr
    rw [hV] at hformed
    obtain ⟨W', hW', ⟨hans₁, hans₂⟩, -, hentry⟩ := Strain.second_eq_ok hformed hdim.1 rfl h
    obtain rfl := Option.some.inj hW'
    rw [hentry, Strain.add_length_shearPairs hdim.2]
    have hadmits {c : Coefficient}
        (hc : c ∈ (secondRequest site c₁ c₂ W).directions.coefficientList) :
        f.Admits (Strain.variationRequest site c).directions :=
      ⟨fun _ hk => (nomatch hk), fun c' hc' => List.mem_singleton.1 hc' ▸ hr.2 c hc⟩
    refine Finset.sum_congr rfl fun s hs' => ?_
    have hs' := Strain.lt_of_mem_strainSize hdim.2 hs'
    rw [Mat.entry_flatten_column hW]
    congr 1
    refine Strain.pairing_congr (fun d hd k hk => ?_) (fun d hd k hk => ?_) hs'
    · exact hpoly.variationOf_eq hleaf ha hs (hadmits List.mem_cons_self) hans₁ hi (hV.symm ▸ hd) hk
    · exact hpoly.variationOf_eq hleaf ha hs (hadmits (List.mem_cons_of_mem _ List.mem_cons_self))
        hans₂ hj (hV.symm ▸ hd) hk

/-- What the answer with respect to two coefficients leaves out of the mixed derivative of the stressed
strains: the pairing of the current tangents with the second variation of the gradient. -/
theorem hasMixed_remainder (hs : f.ShapedBy site φ g) {c₁ c₂ : Coefficient}
    (hr : f.Admits (secondRequest site c₁ c₂ W).directions) (hW : W.cols = 1) {m : Mat ℝ}
    (hm : (f.operand (.unary .strain a)).value site = .ok m) {D : Derivative ℝ}
    (hD : (f.operand (.unary .strain a)).derivative (secondRequest site c₁ c₂ W) = .ok D) {i j : ℕ}
    (hi : i < f.tangentDim c₁.block) (hj : j < f.tangentDim c₂.block) :
    ∃ A, f.referenceTangents a site = .ok A ∧ HasMixed (f.stressed a site W ⟨c₁, i⟩ ⟨c₂, j⟩)
      (D.entry 0 i j + ∑ s ∈ Finset.range (strainSize f.gridDim), W.entry s 0 *
        Strain.pairing f.gridDim f.gridDim
          (fun d k => A.entry d k + Strain.gradientOf (f.operand a) site d k)
          (fun d k => (a.partials (f.leafTable φ g)).thrice k ⟨c₁, i⟩ ⟨c₂, j⟩ d) s) := by
  have hpoly := isPolynomial_of_strain hleaf he
  obtain ⟨hans, -⟩ := strain_moved hleaf he hs hm ⟨c₁, i⟩ ⟨c₂, j⟩
  obtain ⟨-, A, hA, hmixed⟩ := hasMixed_of_table hleaf he hs hm W ⟨c₁, i⟩ ⟨c₂, j⟩
  have hentry := second_entry hleaf he hs hr hW hD hi hj
  obtain ⟨hea, ⟨hV, -⟩, hdim, -⟩ := he
  refine ⟨A, hA, (congrArg (HasMixed _) ?_).mp hmixed⟩
  rw [hentry, ← Finset.sum_add_distrib]
  refine Finset.sum_congr rfl fun s hs' => ?_
  have hs' := Strain.lt_of_mem_strainSize hdim.2 hs'
  rw [mul_add]
  congr 2
  refine Strain.pairing_congr (fun d hd k hk => ?_) (fun _ _ _ _ => rfl) hs'
  rw [hpoly.gradientOf_eq hleaf hea hs hans (hV.symm ▸ hd) hk]

/-- The gradient has no second variation within a block, where the displacement is linear, nor in two
or three dimensions, where it has no products. -/
theorem thrice_eq_zero_of_strain (hs : f.ShapedBy site φ g) (α β : Variable)
    (h : α.block = β.block ∨ 2 ≤ f.gridDim) (k : ℕ) {d : ℕ} (hd : d < f.gridDim) :
    (a.partials (f.leafTable φ g)).thrice k α β d = 0 := by
  have hpoly := isPolynomial_of_strain hleaf he
  have hlinear := he.linear_of_strain α.block
  obtain ⟨hea, ⟨hV, -⟩, -⟩ := he
  rcases h with hblock | htwo
  · have hobeys := partials_obeys (hpoly.leavesRead hs) hea hpoly.strainFree
    exact (hobeys.linear α β hblock hlinear d (hV.symm ▸ hd)).2 k
  · exact hpoly.thrice_eq_zero hea (hV.symm ▸ htwo) φ g k α β d

end Displacement

def product {K : Type} [Scalar K] (x y z w : K) : Expr K :=
  .binary .dot (.leaf 0 (Leaf.onEdge ⟨0⟩ x y).signature) (.leaf 1 (Leaf.onEdge ⟨1⟩ z w).signature)

/-- The strain of such a product, each factor being a block of its own. -/
def coupled {K : Type} [Scalar K] (x y z w : K) : ElementField K where
  leaves := #[.onEdge ⟨0⟩ x y, .onEdge ⟨1⟩ z w]
  nodes := #[.leaf 0, .leaf 1, .binary .dot 0 1, .unary .strain 2]
  root := 3
  top :=
    .unary .strain 2 (.binary .dot 0 1 (.leaf 0 (Leaf.onEdge ⟨0⟩ x y).signature)
      (.leaf 1 (Leaf.onEdge ⟨1⟩ z w).signature))
  slots := [0, 1]
  blocks := [{ block := ⟨0⟩, correctionSize := 1, numCoefficients := 2 },
    { block := ⟨1⟩, correctionSize := 1, numCoefficients := 2 }]

theorem built_coupled {K : Type} [Scalar K] (x y z w : K) : (coupled x y z w).Built := by
  let leaves : Array (Leaf K) := #[.onEdge ⟨0⟩ x y, .onEdge ⟨1⟩ z w]
  let u : Entry K := .leaf 0 (Leaf.onEdge ⟨0⟩ x y).signature
  let v : Entry K := .leaf 1 (Leaf.onEdge ⟨1⟩ z w).signature
  -- The state of the builder is written out after each step, so that no step is run twice.
  have hdot : Builder.Reachable { leaves, entries := #[u, v, .binary .dot 0 1 u v] } :=
    (Builder.reachable_pair (.onEdge ⟨0⟩ x y) (.onEdge ⟨1⟩ z w)).step (.dot 0 1)
  have hstrain : Builder.Reachable { leaves, entries := #[u, v, .binary .dot 0 1 u v,
      .unary .strain 2 (.binary .dot 0 1 u v)] } := hdot.step (.strain 2)
  exact .build hstrain (build_eq_of_sorted rfl ⟨rfl, rfl⟩ rfl
    (List.pairwise_pair.2 (Nat.zero_le 1)) rfl (List.pairwise_pair.2 (Nat.zero_le 1)))

theorem standard_of_mem_coupled {x y z w : ℝ} {l : Leaf ℝ}
    (h : l ∈ (coupled x y z w).reachableLeaves) : l.Standard := by
  have hmem : l ∈ [Leaf.onEdge ⟨0⟩ x y, .onEdge ⟨1⟩ z w] := h
  rcases List.mem_cons.1 hmem with rfl | hmem
  · exact Leaf.standard_onEdge ⟨0⟩ x y
  · exact List.mem_singleton.1 hmem ▸ Leaf.standard_onEdge ⟨1⟩ z w

def middle : Site ℝ := { point := .position #[0], transform := .referenceElement }

theorem shapedBy_coupled (x y z w : ℝ) : (coupled x y z w).ShapedBy middle
    (fun _ => segmentValue 0) fun _ k j => delta k 0 * segmentSlope j := by
  have hedge (block : BlockId) (x y : ℝ) :
      (∀ v, (Leaf.onEdge block x y).valuesAt middle = .ok v → ∀ j, v.entry j = segmentValue 0 j) ∧
        ∀ m, (Leaf.onEdge block x y).gradientsIn middle = .ok m →
          ∀ k j, m.entry k j = delta k 0 * segmentSlope j :=
    ⟨fun v hv => entry_shapeValues_segment (lift_eq_ok_iff.1 hv),
      fun m hm => entry_shapeGradients_segment (lift_eq_ok_iff.1 hm)⟩
  intro slot l hl
  match slot with
  | 0 =>
    obtain rfl := Option.some.inj hl
    exact hedge ⟨0⟩ x y
  | 1 =>
    obtain rfl := Option.some.inj hl
    exact hedge ⟨1⟩ z w
  | slot + 2 => nomatch hl

/-- The slope of the product in the middle of the segment, its first variations with the coefficients
at -1, and its mixed variation. -/
theorem partials_coupled (x y z w : ℝ) :
    let T := (coupled x y z w).leafTable (fun _ => segmentValue 0) fun _ k j =>
      delta k 0 * segmentSlope j
    let B := (product x y z w).partials T
    let α : Variable := ⟨⟨⟨0⟩, 0⟩, 0⟩
    let β : Variable := ⟨⟨⟨1⟩, 0⟩, 0⟩
    (B.slope 0 0 = (y * w - x * z) / 2 ∧ B.mixed 0 α 0 = -z / 2) ∧ B.mixed 0 β 0 = -x / 2 ∧
      B.thrice 0 α β 0 = -1 / 2 := by
  intro T B α β
  have hu : T 0 = (Leaf.onEdge ⟨0⟩ x y).interpolationTable (segmentValue 0)
      fun k j => delta k 0 * segmentSlope j := leafTable_of_get _ _ rfl
  have hw : T 1 = (Leaf.onEdge ⟨1⟩ z w).interpolationTable (segmentValue 0)
      fun k j => delta k 0 * segmentSlope j := leafTable_of_get _ _ rfl
  have hcount (block : BlockId) (x y : ℝ) : (Leaf.onEdge block x y).numCoefficients = 2 := rfl
  have hfirst (block : BlockId) (x y : ℝ) : (Leaf.onEdge block x y).coefficients.entry 0 0 = x := rfl
  have hsecond (block : BlockId) (x y : ℝ) : (Leaf.onEdge block x y).coefficients.entry 0 1 = y := rfl
  have hblock (block : BlockId) (x y : ℝ) : (Leaf.onEdge block x y).block = block := rfl
  have hB : B = Partials.inner 1 (T 0) (T 1) := rfl
  simp only [hB, Partials.inner, hu, hw, LeafData.interpolationTable, hcount, hfirst, hsecond, hblock,
    Finset.sum_range_succ, Finset.sum_range_zero, LeafData.share, Variable.block, α, β, delta,
    segmentValue, segmentSlope]
  refine ⟨⟨?_, ?_⟩, ?_, ?_⟩ <;> norm_num <;> ring

/-- The reference tangent of the segment between the points -1 and 1 has length one. -/
theorem referenceTangents_coupled (x y z w : ℝ) : ∃ A,
    (coupled x y z w).referenceTangents (product x y z w) middle = .ok A ∧ A.entry 0 0 = 1 := by
  let edge : Geometry ℝ :=
    { element := .segment, vertices := .ofFn 1 2 fun _ j => if j = 0 then -1 else 1 }
  obtain ⟨J, hJ⟩ : ∃ J, edge.jacobianTransposed #[0] = .ok J := ⟨_, rfl⟩
  obtain ⟨slopes, hslopes, hmul⟩ := bind_eq_ok_iff.1 hJ
  obtain ⟨-, ⟨hrows, hcols⟩, he⟩ := Mat.mul_eq_ok hmul
  have hshape : J.shape = (1, 1) :=
    Prod.ext (hrows.trans (Element.shape_shapeGradients hslopes).1) hcols
  have hentry : J.entry 0 0 = 1 := by
    rw [he, (Element.shape_shapeGradients hslopes).2]
    show ∑ k ∈ Finset.range 2, slopes.entry 0 k * edge.vertices.transpose.entry k 0 = 1
    simp only [Mat.entry_transpose, entry_shapeGradients_segment hslopes, Finset.sum_range_succ,
      Finset.sum_range_zero, edge, delta, segmentSlope]
    rw [Mat.entry_ofFn _ Nat.zero_lt_one Nat.zero_lt_two,
      Mat.entry_ofFn _ Nat.zero_lt_one Nat.one_lt_two]
    norm_num
  refine ⟨J.transpose, ?_, (J.entry_transpose 0 0).trans hentry⟩
  have hlift : (liftM (edge.jacobianTransposed #[0]) : Outcome (Mat ℝ)) = .ok J :=
    lift_eq_ok_iff.2 hJ
  show (do
    let jacobian ← edge.jacobianTransposed #[0]
    if jacobian.shape = (1, 1) then return jacobian.transpose
    else .refuse (.nonSquareJacobian jacobian.rows jacobian.cols) : Outcome (Mat ℝ)) = _
  rw [hlift]
  exact if_pos hshape

/-- What the derivative of strains with respect to two coefficients answers, and what it leaves out.
The mixed derivative of the stressed strains is the answer plus the pairing of the current tangents
with the second variation `γ` of the displacement gradient. The answer is exact for two coefficients
of one block, and in two or three dimensions. -/
theorem hasMixed_stressed (hf : f.Built) (hleaf : ∀ l ∈ f.reachableLeaves, l.Standard)
    (ha : (Expr.unary .strain a).IsPart f.expr) {c₁ c₂ : Coefficient}
    (hr : f.Admits (secondRequest site c₁ c₂ W).directions) (hW : W.cols = 1) {m : Mat ℝ}
    (hm : (f.operand (.unary .strain a)).value site = .ok m) {D : Derivative ℝ}
    (hD : (f.operand (.unary .strain a)).derivative (secondRequest site c₁ c₂ W) = .ok D) {i j : ℕ}
    (hi : i < f.tangentDim c₁.block) (hj : j < f.tangentDim c₂.block) :
    let moved (p q : ℝ) : ElementField ℝ := f.moved ⟨c₁, i⟩ ⟨c₂, j⟩ p q
    let G := f.gridDim
    (∀ p q, ∃ m', ((moved p q).operand (.unary .strain a)).value site = .ok m') ∧
    ∃ (A : Mat ℝ) (γ : ℕ → ℕ → ℝ), f.referenceTangents a site = .ok A ∧
      (∀ d < G, ∀ k < G,
        HasMixed (fun p q => Strain.gradientOf ((moved p q).operand a) site d k) (γ d k)) ∧
      HasMixed (f.stressed a site W ⟨c₁, i⟩ ⟨c₂, j⟩)
        (D.entry 0 i j + ∑ s ∈ Finset.range (strainSize G), W.entry s 0 *
          Strain.pairing G G
            (fun d k => A.entry d k + Strain.gradientOf (f.operand a) site d k) γ s) ∧
      (c₁.block = c₂.block ∨ 2 ≤ G →
        HasMixed (f.stressed a site W ⟨c₁, i⟩ ⟨c₂, j⟩) (D.entry 0 i j)) := by
  intro moved G
  have he := hf.hosts.part ha
  obtain ⟨φ, g, hs⟩ := f.exists_shapedBy site
  obtain ⟨-, _, -, hvalue⟩ := strain_moved hleaf he hs hm ⟨c₁, i⟩ ⟨c₂, j⟩
  obtain ⟨hgradient, -⟩ := hasMixed_of_table hleaf he hs hm W ⟨c₁, i⟩ ⟨c₂, j⟩
  obtain ⟨A, hA, hremainder⟩ := hasMixed_remainder hleaf he hs hr hW hm hD hi hj
  let γ (d k : ℕ) : ℝ := (a.partials (f.leafTable φ g)).thrice k ⟨c₁, i⟩ ⟨c₂, j⟩ d
  refine ⟨fun p q => (hvalue p q).1.imp fun _ h => h.1, A, γ, hA, hgradient, hremainder, ?_⟩
  intro hcase
  have hnone : ∑ s ∈ Finset.range (strainSize G), W.entry s 0 * Strain.pairing G G
      (fun d k => A.entry d k + Strain.gradientOf (f.operand a) site d k) γ s = 0 := by
    refine Finset.sum_eq_zero fun s hs' => ?_
    have hs' := Strain.lt_of_mem_strainSize he.2.2.1.2 hs'
    have hzero : ∀ d < G, ∀ k < G, γ d k = 0 :=
      fun d hd k _ => thrice_eq_zero_of_strain hleaf he hs ⟨c₁, i⟩ ⟨c₂, j⟩ hcase k hd
    rw [Strain.pairing_congr (fun _ _ _ _ => rfl) hzero hs',
      Strain.pairing_eq_zero (Or.inr fun _ _ => rfl), mul_zero]
  have hexact : HasMixed (f.stressed a site W ⟨c₁, i⟩ ⟨c₂, j⟩) (D.entry 0 i j + 0) := hnone ▸ hremainder
  rwa [add_zero] at hexact

/-- The strain of a product, differentiated with respect to the two ends of one of its factors. -/
theorem hasMixed_stressed_coupled :
    let f : ElementField ℝ := coupled 2 3 1 2
    let u : Expr ℝ := product 2 3 1 2
    let r : Request ℝ := secondRequest middle ⟨⟨0⟩, 0⟩ ⟨⟨0⟩, 1⟩ (.scalar 1)
    (f.Built ∧ (∀ l ∈ f.reachableLeaves, l.Standard) ∧
      (Expr.unary .strain u).IsPart f.expr ∧ f.Admits r.directions) ∧
    (∃ m, (f.operand (.unary .strain u)).value middle = .ok m) ∧
    ∃ D, (f.operand (.unary .strain u)).derivative r = .ok D ∧
      HasMixed (f.stressed u middle (.scalar 1) ⟨⟨⟨0⟩, 0⟩, 0⟩ ⟨⟨⟨0⟩, 1⟩, 0⟩)
        (D.entry 0 0 0) := by
  intro f u r
  have hf : f.Built := built_coupled 2 3 1 2
  have hleaf : ∀ l ∈ f.reachableLeaves, l.Standard := fun l hl => standard_of_mem_coupled hl
  have hr : f.Admits r.directions := by
    have hinfo : f.blockInfo ⟨0⟩ = .ok ⟨⟨0⟩, 1, 2⟩ := rfl
    refine ⟨fun k hk => (nomatch hk), fun c hc => ?_⟩
    rcases List.mem_cons.1 hc with rfl | hc
    · exact ⟨_, hinfo, Nat.zero_lt_two⟩
    · obtain rfl := List.mem_singleton.1 hc
      exact ⟨_, hinfo, Nat.one_lt_two⟩
  obtain ⟨m, hm⟩ : ∃ m, (f.operand (.unary .strain u)).value middle = .ok m := ⟨_, rfl⟩
  obtain ⟨D, hD⟩ : ∃ D, (f.operand (.unary .strain u)).derivative r = .ok D := ⟨_, rfl⟩
  obtain ⟨-, _, _, -, -, -, hexact⟩ := hasMixed_stressed hf hleaf (.refl _) hr rfl hm hD
    Nat.zero_lt_one Nat.zero_lt_one
  exact ⟨⟨hf, hleaf, .refl _, hr⟩, ⟨m, hm⟩, D, hD, hexact (Or.inl rfl)⟩

/-- The answer leaves something out where a displacement in one dimension is the product of two
blocks: it is 1/2, while the mixed derivative is -1. -/
theorem second_leaves_out_coupling :
    let f : ElementField ℝ := coupled 2 3 1 2
    let u : Expr ℝ := product 2 3 1 2
    let strained := f.stressed u middle (.scalar 1) ⟨⟨⟨0⟩, 0⟩, 0⟩ ⟨⟨⟨1⟩, 0⟩, 0⟩
    (f.Built ∧ f.expr = .unary .strain u ∧ ∀ l ∈ f.reachableLeaves, l.Standard) ∧
    ∃ D, f.evaluateRequest (secondRequest middle ⟨⟨0⟩, 0⟩ ⟨⟨1⟩, 0⟩ (.scalar 1)) = .ok D ∧
      D.entry 0 0 0 = 1 / 2 ∧ HasMixed strained (-1) ∧ ¬HasMixed strained (D.entry 0 0 0) := by
  intro f u strained
  have hf : f.Built := built_coupled 2 3 1 2
  have hleaf : ∀ l ∈ f.reachableLeaves, l.Standard := fun l hl => standard_of_mem_coupled hl
  have he : f.Hosts (.unary .strain u) := hf.hosts
  obtain ⟨⟨hslope, hα⟩, hβ, hthrice⟩ := partials_coupled 2 3 1 2
  obtain ⟨A, hA, hone⟩ := referenceTangents_coupled 2 3 1 2
  obtain ⟨m, hm⟩ : ∃ m, (f.operand (.unary .strain u)).value middle = .ok m := ⟨_, rfl⟩
  obtain ⟨D, hD⟩ : ∃ D, f.evaluateRequest
      (secondRequest middle ⟨⟨0⟩, 0⟩ ⟨⟨1⟩, 0⟩ (.scalar 1)) = .ok D := ⟨_, rfl⟩
  obtain ⟨_, hvalid, -⟩ := bind_eq_ok_iff.1 hD
  have hG : f.gridDim = 1 := rfl
  have hsize : strainSize f.gridDim = 1 := congrArg strainSize hG
  have hpair (x y : ℕ → ℕ → ℝ) : Strain.pairing 1 1 x y 0 = x 0 0 * y 0 0 := by
    rw [Strain.pairing_diagonal Nat.zero_lt_one, Finset.sum_range_one]
    ring
  have hentry : D.entry 0 0 0 = 1 / 2 := by
    rw [second_entry hleaf he (shapedBy_coupled 2 3 1 2) (validate_eq_ok_iff.1 hvalid).1 rfl
      (answers_of_evaluateRequest hD) Nat.zero_lt_one Nat.zero_lt_one, hsize,
      Finset.sum_range_one, hG, hpair, Mat.entry_scalar]
    rw [hα, hβ]
    norm_num
  have hmixed : HasMixed strained (-1) := by
    obtain ⟨-, A', hA', hmixed⟩ := hasMixed_of_table hleaf he (shapedBy_coupled 2 3 1 2) hm
      (.scalar 1) ⟨⟨⟨0⟩, 0⟩, 0⟩ ⟨⟨⟨1⟩, 0⟩, 0⟩
    obtain rfl := Except.ok.inj (hA.symm.trans hA')
    rw [hsize, Finset.sum_range_one, hG, hpair, hpair, Mat.entry_scalar, hone] at hmixed
    -- The answer is 1/2; what it leaves out is the current tangent 3 times -1/2.
    rw [hα, hβ, hslope, hthrice] at hmixed
    norm_num at hmixed
    exact hmixed
  refine ⟨⟨hf, rfl, hleaf⟩, D, hD, hentry, hmixed, fun h => ?_⟩
  have hfalse := h.unique hmixed
  rw [hentry] at hfalse
  norm_num at hfalse

end ElementField

end ElementFields
