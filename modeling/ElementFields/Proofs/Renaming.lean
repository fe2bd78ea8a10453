import ElementFields.Proofs.Orders
import ElementFields.Proofs.Refinement

namespace ElementFields

def Coefficient.renamed (σ : BlockId → BlockId) (c : Coefficient) : Coefficient where
  block := σ c.block
  index := c.index

def CoefficientPart.renamed (σ : BlockId → BlockId) : CoefficientPart → CoefficientPart
  | none => none
  | single c => single (c.renamed σ)
  | two c₁ c₂ => two (c₁.renamed σ) (c₂.renamed σ)

def Directions.renamed (σ : BlockId → BlockId) (d : Directions) : Directions where
  spatial := d.spatial
  coefficients := d.coefficients.renamed σ

def Request.renamed {K : Type} (σ : BlockId → BlockId) (r : Request K) : Request K where
  site := r.site
  directions := r.directions.renamed σ
  along := r.along

variable {σ : BlockId → BlockId}

namespace Directions

variable {d : Directions}

theorem coefficientList_renamed :
    (d.renamed σ).coefficientList = d.coefficientList.map (Coefficient.renamed σ) := by
  obtain ⟨s, c⟩ := d
  cases c <;> rfl

theorem renamed_single {c : Coefficient} (h : d.coefficients = .single c) :
    (d.renamed σ).coefficients = .single (c.renamed σ) := by
  rw [renamed, h, CoefficientPart.renamed]

theorem renamed_two {c₁ c₂ : Coefficient} (h : d.coefficients = .two c₁ c₂) :
    (d.renamed σ).coefficients = .two (c₁.renamed σ) (c₂.renamed σ) := by
  rw [renamed, h, CoefficientPart.renamed]

theorem mem_renamed {c : Coefficient} (hc : c ∈ d.coefficientList) :
    c.renamed σ ∈ (d.renamed σ).coefficientList := by
  rw [coefficientList_renamed]
  exact List.mem_map_of_mem hc

theorem exists_mem_renamed (h : d.coefficients ≠ .none) :
    ∃ c ∈ d.coefficientList, c.renamed σ ∈ (d.renamed σ).coefficientList := by
  rcases hd : d.coefficients with _ | c | ⟨c₁, c₂⟩
  case none => exact absurd hd h
  case single =>
    have hmem := mem_coefficientList hd
    exact ⟨c, hmem, mem_renamed hmem⟩
  case two =>
    have hmem := (mem_coefficientList_two hd).1
    exact ⟨c₁, hmem, mem_renamed hmem⟩

theorem renamed_eq_value_iff : d.renamed σ = .value ↔ d = .value := by
  obtain ⟨s, c⟩ := d
  cases c with
  | none => exact Iff.rfl
  | single c => exact iff_of_false (fun h => (nomatch h)) fun h => (nomatch h)
  | two c₁ c₂ => exact iff_of_false (fun h => (nomatch h)) fun h => (nomatch h)

/-- Only the blocks that occur matter. -/
theorem renamed_eq_self (h : ∀ c ∈ d.coefficientList, σ c.block = c.block) : d.renamed σ = d := by
  have hc {c : Coefficient} (hc : c ∈ d.coefficientList) : c.renamed σ = c := by
    rw [Coefficient.renamed, h c hc]
  obtain ⟨s, c⟩ := d
  cases c with
  | none => rfl
  | single c => rw [renamed, CoefficientPart.renamed, hc List.mem_cons_self]
  | two c₁ c₂ =>
    rw [renamed, CoefficientPart.renamed, hc List.mem_cons_self,
      hc (List.mem_cons_of_mem _ List.mem_cons_self)]

/-- The form is that of the original directions, with the sizes of the renamed blocks. -/
theorem form_renamed {V G : ℕ} {C : BlockId → ℕ} :
    (d.renamed σ).form V G C = d.form V G fun block => C (σ block) := by
  obtain ⟨s, c⟩ := d
  cases c <;> rcases s with _ | _ | _ <;> rfl

/-- Blocks may become the same, so the number of differentiations in a block can only grow. -/
theorem coefficientOrderIn_le_renamed (block : BlockId) :
    d.coefficientOrderIn block ≤ (d.renamed σ).coefficientOrderIn (σ block) := by
  rw [coefficientOrderIn, coefficientOrderIn, coefficientList_renamed, List.filter_map,
    List.length_map]
  apply List.Sublist.length_le
  apply List.monotone_filter_right
  intro c hc
  have hblock : c.block = block := of_decide_eq_true hc
  exact decide_eq_true (congrArg σ hblock)

end Directions

namespace Request

variable {K : Type} {r : Request K}

@[simp] theorem directions_renamed : (r.renamed σ).directions = r.directions.renamed σ := rfl

theorem renamed_eq_self (h : ∀ c ∈ r.directions.coefficientList, σ c.block = c.block) :
    r.renamed σ = r := by
  rw [renamed, Directions.renamed_eq_self h]

theorem Fits.renamed {V G : ℕ} (h : r.Fits V G) : (r.renamed σ).Fits V G := by
  obtain ⟨site, ⟨s, c⟩, along⟩ := r
  intro c₁ c₂ hc
  cases c with
  | none => nomatch hc
  | single c => nomatch hc
  | two c₁ c₂ => exact h c₁ c₂ rfl

theorem requireAlong_renamed : Refines r.requireAlong (r.renamed σ).requireAlong := by
  intro W hW
  exact ofOption_eq_ok_iff.2 (ofOption_eq_ok_iff.1 hW)

end Request

namespace Expr

variable {K : Type} {e e' : Expr K} {d : Directions}
  (horder : ∀ c ∈ d.coefficientList, e'.orderIn c.block = e.orderIn (σ c.block))
include horder

/-- What is annihilated stays so when blocks are merged. -/
theorem annihilated_renamed (h : e'.annihilated d = true) : e.annihilated (d.renamed σ) = true := by
  obtain ⟨c, hc, hann⟩ := annihilated_iff.1 h
  rw [horder c hc] at hann
  exact annihilated_iff.2 ⟨c.renamed σ, Directions.mem_renamed hc,
    PolynomialOrder.annihilatedBy_mono hann (Directions.coefficientOrderIn_le_renamed c.block)⟩

/-- Only a second derivative within one block can be annihilated because blocks were merged. -/
theorem annihilated_of_renamed (h : e.annihilated (d.renamed σ) = true) :
    e'.annihilated d = true ∨ ∃ c₁ c₂, d.coefficients = .two c₁ c₂ ∧ σ c₂.block = σ c₁.block ∧
      (e.orderIn (σ c₁.block)).annihilatedBy 2 = true := by
  rcases hd : d.coefficients with _ | c | ⟨c₁, c₂⟩
  case none =>
    obtain ⟨c, hc, -⟩ := annihilated_iff.1 h
    rw [Directions.coefficientList_renamed, Directions.coefficientList, hd] at hc
    exact absurd hc List.not_mem_nil
  case single =>
    left
    rw [annihilated_single_iff (Directions.renamed_single hd)] at h
    rw [annihilated_single_iff hd, horder c (Directions.mem_coefficientList hd)]
    exact h
  case two =>
    have hd' := Directions.renamed_two (σ := σ) hd
    by_cases hb : σ c₂.block = σ c₁.block
    · rw [annihilated_two_iff hd' hb] at h
      exact Or.inr ⟨c₁, c₂, rfl, hb, h⟩
    · -- In different blocks each coefficient counts for itself, before and after.
      left
      obtain ⟨c, hc, hann⟩ := annihilated_iff.1 h
      rw [Directions.coefficientOrderIn_of_ne hd' hb hc, PolynomialOrder.annihilatedBy_one_iff] at hann
      rw [Directions.coefficientList_renamed] at hc
      obtain ⟨c', hc', rfl⟩ := List.mem_map.1 hc
      exact annihilated_of_constant hc' ((horder c' hc').trans hann)

end Expr

variable {K : Type}

def Operand.renamed (σ : BlockId → BlockId) (o : Operand K) : Operand K where
  value := o.value
  derivative r := o.derivative (r.renamed σ)

variable [Scalar K]

theorem Product.derivative_renamed (a b : Operand K) (r : Request K) :
    Refines (Product.derivative (a.renamed σ) (b.renamed σ) r)
      (Product.derivative a b (r.renamed σ)) := by
  obtain ⟨site, ⟨s, c⟩, along⟩ := r
  refine Refines.bind Refines.rfl fun va _ => ?_
  refine Refines.bind Refines.rfl fun vb _ => ?_
  rcases s with _ | s <;> rcases c with _ | c | ⟨c₁, c₂⟩
  case none.none => exact Refines.rfl
  case none.single => exact Refines.rfl
  case none.two => exact Refines.bind Request.requireAlong_renamed fun _ _ => Refines.rfl
  case some.none => exact Refines.rfl
  case some.single => cases s <;> exact Refines.rfl
  case some.two => exact Refines.bind Request.requireAlong_renamed fun _ _ => Refines.rfl

theorem Chain.derivative_renamed (g : ScalarMap) (a : Operand K) (r : Request K) :
    Refines (Chain.derivative g (a.renamed σ) r) (Chain.derivative g a (r.renamed σ)) := by
  obtain ⟨site, ⟨s, c⟩, along⟩ := r
  refine Refines.bind Refines.rfl fun va _ => ?_
  refine Refines.bind Refines.rfl fun v _ => ?_
  rcases s with _ | s <;> rcases c with _ | c | ⟨c₁, c₂⟩
  case none.none => exact Refines.rfl
  case none.single => exact Refines.rfl
  case none.two => exact Refines.bind Request.requireAlong_renamed fun _ _ => Refines.rfl
  case some.none => exact Refines.rfl
  case some.single => cases s <;> exact Refines.rfl
  case some.two => exact Refines.bind Request.requireAlong_renamed fun _ _ => Refines.rfl

theorem Strain.derivative_renamed (dim : ℕ) (reference : Site K → Outcome (Mat K)) (u : Operand K)
    (r : Request K) :
    Refines (Strain.derivative dim reference (u.renamed σ) r)
      (Strain.derivative dim reference u (r.renamed σ)) := by
  obtain ⟨site, ⟨s, c⟩, along⟩ := r
  rcases s with _ | s
  · rcases c with _ | c | ⟨c₁, c₂⟩
    · exact Refines.rfl
    · exact Refines.rfl
    · exact Refines.bind Request.requireAlong_renamed fun _ _ => Refines.rfl
  · -- A direction in space is refused, whatever the coefficients are.
    intro D hD
    nomatch hD

end ElementFields
