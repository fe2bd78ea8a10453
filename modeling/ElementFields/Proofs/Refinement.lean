import ElementFields.Proofs.ChainRule
import ElementFields.Proofs.StrainRule

namespace ElementFields
open Scalar

variable {K : Type} [ExactScalar K]

/-- Every value of `o`, and every answer to directions drawn from `d`, is one of `o'`. -/
structure Operand.RefinedBy (o o' : Operand K) (V G : ℕ) (d : Directions) : Prop where
  value : ∀ site, Refines (o.value site) (o'.value site)
  derivative : ∀ r : Request K, r.directions.DrawnFrom d → r.Fits V G →
    Refines (o.derivative r) (o'.derivative r)

namespace Operand.RefinedBy

variable {o o' : Operand K} {V G : ℕ} {r : Request K}

theorem derivativeMatrix {d : Directions} (h : o.RefinedBy o' V G d)
    (hd : r.directions.DrawnFrom d) (hfit : r.Fits V G) :
    Refines (o.derivativeMatrix r) (o'.derivativeMatrix r) :=
  Refines.bind (h.derivative r hd hfit) fun _ _ => Refines.rfl

variable (h : o.RefinedBy o' V G r.directions)
include h

theorem spatialComponents : Refines (o.spatialComponents r) (o'.spatialComponents r) :=
  Refines.bind (h.derivativeMatrix r.spatialPart_drawnFrom (Request.fits_of_none rfl))
    fun _ _ => Refines.rfl

theorem wrtCoefficient {c : Coefficient} (hc : c ∈ r.directions.coefficientList) :
    Refines (o.wrtCoefficient r c) (o'.wrtCoefficient r c) :=
  h.derivativeMatrix (r.coefficientPart_drawnFrom hc) (Request.fits_of_single rfl)

omit [ExactScalar K] in
theorem mixedComponents {c : Coefficient} (hc : c ∈ r.directions.coefficientList) :
    Refines (o.mixedComponents r c) (o'.mixedComponents r c) :=
  Refines.bind (h.derivative _ (r.mixedPart_drawnFrom hc) (Request.fits_of_single rfl))
    fun _ _ => Refines.rfl

theorem secondAlong {along : Mat K} (halong : along.rows = V ∧ along.cols = 1) :
    Refines (o.secondAlong r along) (o'.secondAlong r along) :=
  h.derivativeMatrix (r.withoutSpatialAlong_drawnFrom _) (Request.withoutSpatialAlong_fits halong)

theorem thirdAlong {s : SpatialDirection} (hs : r.directions.spatial = some s) {along : Mat K}
    (halong : along.rows = V ∧ along.cols = s.count G) :
    Refines (o.thirdAlong r along) (o'.thirdAlong r along) :=
  h.derivativeMatrix (r.withAlong_drawnFrom (some along)) (Request.withAlong_fits hs halong)

end Operand.RefinedBy

namespace Product

variable {a b a' b' : Operand K} {V G : ℕ} {C : BlockId → ℕ} {r : Request K} {va vb : Mat K}

theorem value_refines {d : Directions} (ha : a.RefinedBy a' V G d) (hb : b.RefinedBy b' V G d)
    (site : Site K) : Refines (Product.value a b site) (Product.value a' b' site) :=
  Refines.bind (ha.value site) fun _ _ => Refines.bind (hb.value site) fun _ _ => Refines.rfl

variable (ha : a.RefinedBy a' V G r.directions) (hb : b.RefinedBy b' V G r.directions)
include ha hb

theorem third_refines {s : SpatialDirection} {c₁ c₂ : Coefficient}
    (hs : r.directions.spatial = some s) (hc : r.directions.coefficients = .two c₁ c₂)
    (hfit : r.Fits 1 G) (hva : va.rows = V ∧ va.cols = 1) (hvb : vb.rows = V ∧ vb.cols = 1) :
    Refines (third a b r va vb c₁ c₂) (third a' b' r va vb c₁ c₂) := by
  obtain ⟨hmem₁, hmem₂⟩ := Directions.mem_coefficientList_two hc
  refine Refines.bind Refines.rfl fun W hW => ?_
  obtain ⟨-, hcols⟩ := hfit.rows_cols hs hc (ofOption_eq_ok_iff.1 hW)
  refine Refines.bind ha.spatialComponents fun aks _ => ?_
  refine Refines.bind hb.spatialComponents fun bks _ => ?_
  refine Refines.bind (ha.wrtCoefficient hmem₁) fun a₁ _ => ?_
  refine Refines.bind (ha.wrtCoefficient hmem₂) fun a₂ _ => ?_
  refine Refines.bind (hb.wrtCoefficient hmem₁) fun b₁ _ => ?_
  refine Refines.bind (hb.wrtCoefficient hmem₂) fun b₂ _ => ?_
  refine Refines.bind (ha.mixedComponents hmem₁) fun aks₁ _ => ?_
  refine Refines.bind (ha.mixedComponents hmem₂) fun aks₂ _ => ?_
  refine Refines.bind (hb.mixedComponents hmem₁) fun bks₁ _ => ?_
  refine Refines.bind (hb.mixedComponents hmem₂) fun bks₂ _ => ?_
  refine Refines.bind Refines.rfl fun sums hsums => ?_
  -- The operands keep their answers only for arguments of the right shape, which the sums have.
  have hshape : (sums.alongA.rows = V ∧ sums.alongA.cols = 1) ∧
      sums.alongB.rows = V ∧ sums.alongB.cols = 1 := by
    refine foldlM_keeps (fun sums : Weighted K => (sums.alongA.rows = V ∧ sums.alongA.cols = 1) ∧
      sums.alongB.rows = V ∧ sums.alongB.cols = 1) ?_ ⟨⟨hva.1, rfl⟩, hvb.1, rfl⟩ hsums
    rintro sums ⟨w, k⟩ t ⟨hA, hB⟩ ht
    obtain ⟨_, _, ht⟩ := bind_eq_ok_iff.1 ht
    obtain ⟨_, _, ht⟩ := bind_eq_ok_iff.1 ht
    obtain ⟨_, _, ht⟩ := bind_eq_ok_iff.1 ht
    obtain ⟨_, _, ht⟩ := bind_eq_ok_iff.1 ht
    obtain ⟨_, _, ht⟩ := bind_eq_ok_iff.1 ht
    obtain ⟨_, _, ht⟩ := bind_eq_ok_iff.1 ht
    obtain ⟨_, _, ht⟩ := bind_eq_ok_iff.1 ht
    obtain ⟨_, _, ht⟩ := bind_eq_ok_iff.1 ht
    obtain ⟨_, _, ht⟩ := bind_eq_ok_iff.1 ht
    obtain ⟨la, hla, ht⟩ := bind_eq_ok_iff.1 ht
    obtain ⟨_, _, ht⟩ := bind_eq_ok_iff.1 ht
    obtain ⟨lb, hlb, ht⟩ := bind_eq_ok_iff.1 ht
    rw [pure_eq_ok_iff] at ht
    subst ht
    obtain ⟨-, hlas, -⟩ := Mat.add_eq_ok (lift_eq_ok_iff.1 hla)
    obtain ⟨-, hlbs, -⟩ := Mat.add_eq_ok (lift_eq_ok_iff.1 hlb)
    exact ⟨⟨hlas.1.trans hA.1, hlas.2.trans hA.2⟩, hlbs.1.trans hB.1, hlbs.2.trans hB.2⟩
  refine Refines.bind (ha.secondAlong hshape.1) fun _ _ => ?_
  refine Refines.bind Refines.rfl fun _ _ => ?_
  refine Refines.bind (hb.secondAlong hshape.2) fun _ _ => ?_
  refine Refines.bind Refines.rfl fun _ _ => ?_
  refine Refines.bind Refines.rfl fun ma hma => ?_
  obtain ⟨-, hmas, -⟩ := Mat.mul_eq_ok (lift_eq_ok_iff.1 hma)
  refine Refines.bind (ha.thirdAlong hs ⟨hmas.1.trans hvb.1, hmas.2.trans hcols⟩) fun _ _ => ?_
  refine Refines.bind Refines.rfl fun _ _ => ?_
  refine Refines.bind Refines.rfl fun mb hmb => ?_
  obtain ⟨-, hmbs, -⟩ := Mat.mul_eq_ok (lift_eq_ok_iff.1 hmb)
  refine Refines.bind (hb.thirdAlong hs ⟨hmbs.1.trans hva.1, hmbs.2.trans hcols⟩) fun _ _ => ?_
  exact Refines.rfl

/-- The product rule at operands that answer more. -/
theorem derivative_refines (hfa : a.Formed V G C r.directions) (hfb : b.Formed V G C r.directions)
    (hfit : r.Fits 1 G) : Refines (derivative a b r) (derivative a' b' r) := by
  refine Refines.bind (ha.value r.site) fun va hva => ?_
  refine Refines.bind (hb.value r.site) fun vb hvb => ?_
  have hva := hfa.value r.site va hva
  have hvb := hfb.value r.site vb hvb
  rcases hs : r.directions.spatial with _ | s <;>
    rcases hc : r.directions.coefficients with _ | c | ⟨c₁, c₂⟩
  case none.none => exact Refines.rfl
  case none.single =>
    have hmem := Directions.mem_coefficientList hc
    refine Refines.bind (ha.wrtCoefficient hmem) fun _ _ => ?_
    exact Refines.bind (hb.wrtCoefficient hmem) fun _ _ => Refines.rfl
  case none.two =>
    obtain ⟨hmem₁, hmem₂⟩ := Directions.mem_coefficientList_two hc
    refine Refines.bind Refines.rfl fun _ _ => ?_
    refine Refines.bind Refines.rfl fun _ _ => ?_
    refine Refines.bind (ha.wrtCoefficient hmem₁) fun _ _ => ?_
    refine Refines.bind (ha.wrtCoefficient hmem₂) fun _ _ => ?_
    refine Refines.bind (hb.wrtCoefficient hmem₁) fun _ _ => ?_
    refine Refines.bind (hb.wrtCoefficient hmem₂) fun _ _ => ?_
    refine Refines.bind Refines.rfl fun _ _ => ?_
    refine Refines.bind (ha.secondAlong hvb) fun _ _ => ?_
    refine Refines.bind Refines.rfl fun _ _ => ?_
    exact Refines.bind (hb.secondAlong hva) fun _ _ => Refines.rfl
  case some.none =>
    refine Refines.bind ha.spatialComponents fun _ _ => ?_
    exact Refines.bind hb.spatialComponents fun _ _ => Refines.rfl
  case some.single =>
    have hmem := Directions.mem_coefficientList hc
    refine Refines.bind ha.spatialComponents fun _ _ => ?_
    refine Refines.bind hb.spatialComponents fun _ _ => ?_
    refine Refines.bind (ha.wrtCoefficient hmem) fun _ _ => ?_
    refine Refines.bind (hb.wrtCoefficient hmem) fun _ _ => ?_
    refine Refines.bind (ha.mixedComponents hmem) fun _ _ => ?_
    exact Refines.bind (hb.mixedComponents hmem) fun _ _ => Refines.rfl
  case some.two => exact third_refines ha hb hs hc hfit hva hvb

end Product

namespace Chain

variable {a a' : Operand K} {G : ℕ} {r : Request K} (ha : a.RefinedBy a' 1 G r.directions)

theorem value_refines {d : Directions} {f : ScalarMap} (ha : a.RefinedBy a' 1 G d)
    (site : Site K) : Refines (Chain.value f a site) (Chain.value f a' site) :=
  Refines.bind (ha.value site) fun _ _ => Refines.rfl

include ha

/-- The chain rule at an operand that answers more. -/
theorem derivative_refines {f : ScalarMap} (hfit : r.Fits 1 G) :
    Refines (Chain.derivative f a r) (Chain.derivative f a' r) := by
  refine Refines.bind (ha.value r.site) fun va hva => ?_
  refine Refines.bind Refines.rfl fun v _ => ?_
  have hself := ha.derivative r (Directions.DrawnFrom.refl _) hfit
  rcases hs : r.directions.spatial with _ | s <;>
    rcases hc : r.directions.coefficients with _ | c | ⟨c₁, c₂⟩
  case none.none => exact Refines.rfl
  case none.single => exact Refines.bind hself fun _ _ => Refines.rfl
  case none.two =>
    obtain ⟨hmem₁, hmem₂⟩ := Directions.mem_coefficientList_two hc
    refine Refines.bind Refines.rfl fun _ _ => ?_
    refine Refines.bind Refines.rfl fun _ _ => ?_
    refine Refines.bind (ha.wrtCoefficient hmem₁) fun _ _ => ?_
    refine Refines.bind (ha.wrtCoefficient hmem₂) fun _ _ => ?_
    refine Refines.bind Refines.rfl fun _ _ => ?_
    exact Refines.bind (ha.secondAlong ⟨rfl, rfl⟩) fun _ _ => Refines.rfl
  case some.none => exact Refines.bind hself fun _ _ => Refines.rfl
  case some.single =>
    have hmem := Directions.mem_coefficientList hc
    refine Refines.bind ha.spatialComponents fun _ _ => ?_
    refine Refines.bind (ha.wrtCoefficient hmem) fun _ _ => ?_
    exact Refines.bind (ha.mixedComponents hmem) fun _ _ => Refines.rfl
  case some.two =>
    obtain ⟨hmem₁, hmem₂⟩ := Directions.mem_coefficientList_two hc
    refine Refines.bind Refines.rfl fun W hW => ?_
    have hshape := hfit.rows_cols hs hc (ofOption_eq_ok_iff.1 hW)
    refine Refines.bind ha.spatialComponents fun _ _ => ?_
    refine Refines.bind (ha.wrtCoefficient hmem₁) fun _ _ => ?_
    refine Refines.bind (ha.wrtCoefficient hmem₂) fun _ _ => ?_
    refine Refines.bind (ha.mixedComponents hmem₁) fun _ _ => ?_
    refine Refines.bind (ha.mixedComponents hmem₂) fun _ _ => ?_
    refine Refines.bind Refines.rfl fun _ _ => ?_
    refine Refines.bind Refines.rfl fun _ _ => ?_
    refine Refines.bind (ha.secondAlong ⟨rfl, rfl⟩) fun _ _ => ?_
    refine Refines.bind Refines.rfl fun _ _ => ?_
    exact Refines.bind (ha.thirdAlong hs hshape) fun _ _ => Refines.rfl

end Chain

namespace Strain

variable {u u' : Operand K} {dim : ℕ} {reference : Site K → Outcome (Mat K)} {r : Request K}

theorem displacementGradient_refines {d : Directions} (hu : u.RefinedBy u' dim dim d) :
    Refines (displacementGradient u r) (displacementGradient u' r) :=
  hu.derivativeMatrix ⟨Or.inr (Or.inr rfl), fun _ hc => absurd hc List.not_mem_nil⟩
    (Request.fits_of_none rfl)

omit [ExactScalar K] in
theorem variation_refines {d : Directions} (hu : u.RefinedBy u' dim dim d) {c : Coefficient}
    (hc : c ∈ d.coefficientList) : Refines (variation u r c) (variation u' r c) :=
  Refines.bind (hu.derivative _
    ⟨Or.inr (Or.inr rfl), fun _ hm => List.mem_singleton.1 hm ▸ hc⟩ (Request.fits_of_single rfl))
    fun _ _ => Refines.rfl

theorem value_refines {d : Directions} (hu : u.RefinedBy u' dim dim d) (site : Site K) :
    Refines (value dim reference u site) (value dim reference u' site) := by
  refine Refines.bind Refines.rfl fun _ _ => ?_
  exact Refines.bind (displacementGradient_refines hu) fun _ _ => Refines.rfl

/-- The strain rule at a displacement that answers more. -/
theorem derivative_refines (hu : u.RefinedBy u' dim dim r.directions) :
    Refines (derivative dim reference u r) (derivative dim reference u' r) := by
  unfold derivative
  rcases hs : r.directions.spatial with _ | s <;>
    rcases hc : r.directions.coefficients with _ | c | ⟨c₁, c₂⟩
  case none.none => exact Refines.bind (value_refines hu r.site) fun _ _ => Refines.rfl
  case none.single =>
    have hmem := Directions.mem_coefficientList hc
    refine Refines.bind Refines.rfl fun _ _ => ?_
    refine Refines.bind (displacementGradient_refines hu) fun _ _ => ?_
    refine Refines.bind Refines.rfl fun _ _ => ?_
    exact Refines.bind (variation_refines hu hmem) fun _ _ => Refines.rfl
  case none.two =>
    obtain ⟨hmem₁, hmem₂⟩ := Directions.mem_coefficientList_two hc
    refine Refines.bind Refines.rfl fun _ _ => ?_
    refine Refines.bind (variation_refines hu hmem₁) fun _ _ => ?_
    exact Refines.bind (variation_refines hu hmem₂) fun _ _ => Refines.rfl
  all_goals exact Refines.rfl

end Strain

end ElementFields
