import ElementFields.Proofs.Answering
import ElementFields.Proofs.PullBack
import ElementFields.Proofs.SameLeaves

namespace ElementFields
open Scalar
open scoped BigOperators

variable {K : Type} [ExactScalar K]

namespace Partials

variable {T : Partials K} {V G : ℕ} {C : BlockId → ℕ} {site : Site K} {s : Option SpatialDirection}
  {c₁ c₂ : Coefficient} {W₁ W₂ W : Mat K} {D₁ D₂ D : Derivative K}

/-- A combination of answers is read off the table, contracted with the combination of the matrices. -/
theorem ReadBy.combine (h₁ : T.ReadBy V G C ⟨site, ⟨s, .two c₁ c₂⟩, some W₁⟩ D₁)
    (h₂ : T.ReadBy V G C ⟨site, ⟨s, .two c₁ c₂⟩, some W₂⟩ D₂) {x y : K}
    (hW : (W₁.scale x).add (W₂.scale y) = .ok W) (hD : (D₁.scale x).add (D₂.scale y) = .ok D) :
    T.ReadBy V G C ⟨site, ⟨s, .two c₁ c₂⟩, some W⟩ D := by
  obtain ⟨hform₁, h₁⟩ := h₁
  obtain ⟨hform₂, h₂⟩ := h₂
  obtain ⟨hform, hentry⟩ := Derivative.add_eq_ok (hform₁.scale x) (hform₂.scale y) hD
  obtain ⟨-, -, hWentry⟩ := Mat.add_eq_ok hW
  have hterm (i k : ℕ) (t : K) : W.entry i k * t =
      W₁.entry i k * t * x + W₂.entry i k * t * y := by
    rw [hWentry, Mat.entry_scale, Mat.entry_scale]
    ring
  refine ⟨hform, ?_⟩
  -- One sum over the components without a direction in space, one more over the directions with it.
  cases s <;>
  · rintro _ ⟨⟩ a ha b hb
    rw [hentry, Derivative.entry_scale, Derivative.entry_scale, h₁ W₁ rfl a ha b hb,
      h₂ W₂ rfl a ha b hb]
    simp only [hterm, Finset.sum_add_distrib, Finset.sum_mul]

end Partials

namespace ElementField

section Contracted

variable {f : ElementField K} (hf : f.Built) (hleaf : ∀ l ∈ f.reachableLeaves, l.Standard)
include hf hleaf

/-- Of what a request is contracted with, only the shape decides whether there is an answer. -/
theorem exists_contracted {site : Site K} {s : Option SpatialDirection} {c₁ c₂ : Coefficient}
    {W : Mat K} (W' : Mat K) (hshape : W'.shape = W.shape) {D : Derivative K}
    (hD : f.evaluateRequest ⟨site, ⟨s, .two c₁ c₂⟩, some W⟩ = .ok D) :
    ∃ D', f.evaluateRequest ⟨site, ⟨s, .two c₁ c₂⟩, some W'⟩ = .ok D' := by
  obtain ⟨⟨hadmits, hfits⟩, -⟩ := evaluateRequest_eq_ok_iff.1 hD
  have hfits' : Request.Fits f.valueSize f.gridDim ⟨site, ⟨s, .two c₁ c₂⟩, some W'⟩ := by
    rintro _ _ ⟨⟩
    obtain ⟨_, ⟨⟩, hrows, hcols⟩ := hfits c₁ c₂ rfl
    exact ⟨W', rfl, (congrArg Prod.fst hshape).trans hrows, (congrArg Prod.snd hshape).trans hcols⟩
  exact exists_evaluateRequest hf hleaf (r := ⟨site, ⟨s, .two c₁ c₂⟩, some W⟩) rfl
    ⟨.inl rfl, .inl rfl⟩ hadmits hfits' hD

/-- A derivative with respect to two coefficients is linear in what it is contracted with. For a built
field on leaves of the library, with or without strains, at every site and in whichever direction in
space: of two matrices of one shape, both are answered or neither is; and if they are, so is every
combination of them, by the same combination of the answers. -/
theorem contraction_linear (site : Site K) (s : Option SpatialDirection) (c₁ c₂ : Coefficient)
    (W₁ W₂ : Mat K) (hshape : W₁.shape = W₂.shape) :
    let answer (W : Mat K) := f.evaluateRequest ⟨site, ⟨s, .two c₁ c₂⟩, some W⟩
    ((∃ D, answer W₁ = .ok D) ↔ ∃ D, answer W₂ = .ok D) ∧
      ∀ D₁ D₂, answer W₁ = .ok D₁ → answer W₂ = .ok D₂ → ∀ x y : K,
        ∃ W D, (W₁.scale x).add (W₂.scale y) = .ok W ∧ (D₁.scale x).add (D₂.scale y) = .ok D ∧
          answer W = .ok D := by
  intro answer
  refine ⟨⟨fun ⟨D, hD⟩ => exists_contracted hf hleaf _ hshape.symm hD,
    fun ⟨D, hD⟩ => exists_contracted hf hleaf _ hshape hD⟩, fun D₁ D₂ h₁ h₂ x y => ?_⟩
  obtain ⟨W, hW⟩ : ∃ W, (W₁.scale x).add (W₂.scale y) = .ok W :=
    Mat.exists_add (congrArg Prod.fst hshape) (congrArg Prod.snd hshape)
  obtain ⟨-, ⟨hrows, hcols⟩, -⟩ := Mat.add_eq_ok hW
  -- What the field answers to the combination is read off the same table as the two answers are, and
  -- so is their combination; there is only one such answer.
  have hread₁ := readBy_tableAt hleaf hf h₁
  have hread₂ := readBy_tableAt hleaf hf h₂
  obtain ⟨D, hD, -⟩ := Derivative.yields_add (hread₁.1.scale x) (hread₂.1.scale y)
  obtain ⟨D', hD'⟩ := exists_contracted hf hleaf W (Prod.ext hrows hcols) h₁
  obtain ⟨⟨-, hfits⟩, -⟩ := evaluateRequest_eq_ok_iff.1 hD'
  obtain rfl : D' = D := (readBy_tableAt hleaf hf hD').unique (hread₁.combine hread₂ hW hD)
    (fun _ _ _ _ _ => rfl) hfits
  exact ⟨W, D', hW, hD, hD'⟩

end Contracted

/-- On the sheared triangle, for two different contractions: the component of a displacement along a
director, along both axes and with respect to a coefficient of each, and the strains of the displacement
with respect to two of its coefficients. -/
theorem contraction_linear_sheared :
    let p : EvaluationPoint ℝ := .position #[0, 0]
    (let f : ElementField ℝ := projected
     let W₁ : Mat ℝ := .ofFn 1 2 fun _ k => if k = 0 then 1 else 2
     let W₂ : Mat ℝ := .ofFn 1 2 fun _ k => if k = 0 then 3 else -1
     let answer (W : Mat ℝ) := f.evaluateRequest
       ⟨⟨p, .referenceElement⟩, ⟨some .all, .two ⟨⟨0⟩, 1⟩ ⟨⟨1⟩, 2⟩⟩, some W⟩
     (f.Built ∧ (∀ l ∈ f.reachableLeaves, l.Standard) ∧ W₁.shape = W₂.shape) ∧
      ∃ D₁ D₂ W D, answer W₁ = .ok D₁ ∧ answer W₂ = .ok D₂ ∧
        (W₁.scale 2).add (W₂.scale (-3)) = .ok W ∧ (D₁.scale 2).add (D₂.scale (-3)) = .ok D ∧
        answer W = .ok D) ∧
    (let f : ElementField ℝ := strained
     let W₁ : Mat ℝ := .ofFn 3 1 fun q _ => if q = 0 then 1 else 2
     let W₂ : Mat ℝ := .ofFn 3 1 fun q _ => if q = 2 then 1 else 0
     let answer (W : Mat ℝ) := f.evaluateRequest
       ⟨⟨p, .referenceElement⟩, ⟨none, .two ⟨⟨0⟩, 1⟩ ⟨⟨0⟩, 2⟩⟩, some W⟩
     (f.Built ∧ (∀ l ∈ f.reachableLeaves, l.Standard) ∧ W₁.shape = W₂.shape) ∧
      ∃ D₁ D₂ W D, answer W₁ = .ok D₁ ∧ answer W₂ = .ok D₂ ∧
        (W₁.scale 2).add (W₂.scale (-3)) = .ok W ∧ (D₁.scale 2).add (D₂.scale (-3)) = .ok D ∧
        answer W = .ok D) := by
  intro p
  have combined {f : ElementField ℝ} (hf : f.Built) (hleaf : ∀ l ∈ f.reachableLeaves, l.Standard)
      {s : Option SpatialDirection} {c₁ c₂ : Coefficient} {W₁ W₂ : Mat ℝ}
      (hshape : W₁.shape = W₂.shape) :
      let answer (W : Mat ℝ) := f.evaluateRequest ⟨⟨p, .referenceElement⟩, ⟨s, .two c₁ c₂⟩, some W⟩
      (∃ D, answer W₁ = .ok D) → ∃ D₁ D₂ W D, answer W₁ = .ok D₁ ∧ answer W₂ = .ok D₂ ∧
        (W₁.scale 2).add (W₂.scale (-3)) = .ok W ∧ (D₁.scale 2).add (D₂.scale (-3)) = .ok D ∧
        answer W = .ok D := by
    rintro answer ⟨D₁, h₁⟩
    obtain ⟨hanswers, hlinear⟩ :=
      contraction_linear hf hleaf ⟨p, .referenceElement⟩ s c₁ c₂ W₁ W₂ hshape
    obtain ⟨D₂, h₂⟩ := hanswers.1 ⟨D₁, h₁⟩
    obtain ⟨W, D, hW, hD, h⟩ := hlinear D₁ D₂ h₁ h₂ 2 (-3)
    exact ⟨D₁, D₂, W, D, h₁, h₂, hW, hD, h⟩
  refine ⟨?_, ?_⟩
  · intro f W₁ W₂ answer
    have hleaf : ∀ l ∈ f.reachableLeaves, l.Standard := fun l hl => (forall_mem_projected l hl).1
    exact ⟨⟨built_projected, hleaf, rfl⟩, combined built_projected hleaf rfl ⟨_, rfl⟩⟩
  · intro f W₁ W₂ answer
    have hleaf : ∀ l ∈ f.reachableLeaves, l.Standard :=
      fun l hl => mem_strained hl ▸ Leaf.standard_placed ⟨0⟩
    exact ⟨⟨built_strained, hleaf, rfl⟩, combined built_strained hleaf rfl ⟨_, rfl⟩⟩

end ElementField

end ElementFields
