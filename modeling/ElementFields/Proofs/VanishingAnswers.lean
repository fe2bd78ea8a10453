import ElementFields.Proofs.FieldForm
import ElementFields.Proofs.Vanishing

namespace ElementFields
open Scalar

namespace ElementField

variable {K : Type} [ExactScalar K] {f : ElementField K} {skip : Expr K → Directions → Bool}
  {P Q : Directions → Prop} {e a b : Expr K} {r : Request K}

/-- Every answer of an expression in directions with the property `P` is zero. -/
def VanishesOn (f : ElementField K) (skip : Expr K → Directions → Bool) (P : Directions → Prop)
    (e : Expr K) : Prop :=
  ∀ r : Request K, f.Admits r.directions → r.Fits e.valueSize f.gridDim → P r.directions →
    ∀ k i j, (f.operandWith skip e).entry r k i j = 0

namespace VanishesOn

theorem mono (h : f.VanishesOn skip P e) (hQ : ∀ d, Q d → P d) : f.VanishesOn skip Q e :=
  fun r hr hfit hd => h r hr hfit (hQ r.directions hd)

/-- It is enough that the rule of the node at the top answers zero. -/
theorem of_rule (hP : ¬P .value)
    (h : ∀ (r : Request K) D, f.Admits r.directions → r.Fits e.valueSize f.gridDim →
      P r.directions → skip e r.directions = false → f.rule skip e r = .ok D →
      ∀ k i j, D.entry k i j = 0) : f.VanishesOn skip P e := by
  intro r hr hfit hd k i j
  cases hD : (f.operandWith skip e).derivative r with
  | error failure => rw [Operand.entry, hD]
  | ok D =>
    rw [Operand.entry_of_ok hD]
    rcases operandWith_derivative_eq_ok hr hD with ⟨hv, -⟩ | ⟨-, rfl⟩ | ⟨-, hskip, hD⟩
    · exact absurd (hv ▸ hd) hP
    · exact Form.entry_zero _ k i j
    · exact h r D hr hfit hd hskip hD k i j

theorem of_skipped (hP : ¬P .value) (h : ∀ d, P d → skip e d = true) : f.VanishesOn skip P e :=
  of_rule hP fun r _ _ _ hd hskip => absurd (h r.directions hd) (Bool.eq_false_iff.1 hskip)

/-- A multiple of what vanishes, by the rule that scales its answers. -/
theorem scaled (ha : f.VanishesOn skip P a) (hP : ¬P .value) (hsize : e.valueSize = a.valueSize)
    (x : K) (hrule : ∀ r, f.rule skip e r =
      do return (← (f.operandWith skip a).derivative r).scale x) : f.VanishesOn skip P e := by
  refine of_rule hP fun r D hr hfit hd _ hD k i j => ?_
  rw [hrule] at hD
  obtain ⟨E, hE, hD⟩ := bind_eq_ok_iff.1 hD
  rw [← pure_eq_ok_iff.1 hD, Derivative.entry_scale, ← Operand.entry_of_ok hE,
    ha r hr (hsize ▸ hfit) hd, zero_mul]

theorem sum (hshape : ∀ l ∈ f.reachableLeaves, l.KeepsShapes) (he : f.Hosts (.binary .sum a b))
    (ha : f.VanishesOn skip P a) (hb : f.VanishesOn skip P b) (hP : ¬P .value) :
    f.VanishesOn skip P (.binary .sum a b) := by
  obtain ⟨⟨hea, heb⟩, hsize⟩ := he
  refine of_rule hP fun r D hr hfit hd _ hD k i j => ?_
  obtain ⟨x, hx, hD⟩ := bind_eq_ok_iff.1 hD
  obtain ⟨y, hy, hD⟩ := bind_eq_ok_iff.1 hD
  have hfa := operandWith_formed hshape skip hea hr
  have hfb := operandWith_formed hshape skip heb hr
  rw [← hsize] at hfb
  have hrefl := Directions.DrawnFrom.refl r.directions
  obtain ⟨-, hadd⟩ := Derivative.add_eq_ok (hfa.derivative r x hrefl hfit hx)
    (hfb.derivative r y hrefl hfit hy) (lift_eq_ok_iff.1 hD)
  have hxz := ha r hr hfit hd k i j
  have hyz := hb r hr (hsize ▸ hfit) hd k i j
  rw [Operand.entry_of_ok hx] at hxz
  rw [Operand.entry_of_ok hy] at hyz
  rw [hadd, hxz, hyz, add_zero]

/-- What has no derivative with respect to a coefficient does not vary with it. -/
theorem still {c : Coefficient} (h : f.VanishesOn skip (fun d => d.coefficients = .single c) e)
    (hr : f.Admits r.directions) (hmem : c ∈ r.directions.coefficientList) :
    (f.operandWith skip e).Still r c := by
  refine ⟨fun i a => ?_, fun k i a => ?_⟩
  · exact h (r.coefficientPart c) (hr.drawnFrom (r.coefficientPart_drawnFrom hmem))
      (Request.fits_of_single rfl) rfl 0 i a
  · exact h (r.mixedPart c) (hr.drawnFrom (r.mixedPart_drawnFrom hmem))
      (Request.fits_of_single rfl) rfl k i a

theorem flat (h : f.VanishesOn skip (fun d => d.coefficients = r.directions.coefficients) e)
    (hr : f.Admits r.directions) : (f.operandWith skip e).Flat e.valueSize f.gridDim r := by
  refine ⟨fun W hW i j => ?_, fun s W hs hW i j => ?_⟩
  · exact h (r.withoutSpatialAlong (some W)) (hr.drawnFrom (r.withoutSpatialAlong_drawnFrom _))
      (Request.withoutSpatialAlong_fits hW) rfl 0 i j
  · exact h (r.withAlong (some W)) (hr.drawnFrom (r.withAlong_drawnFrom _))
      (Request.withAlong_fits hs hW) rfl 0 i j

end VanishesOn

end ElementField

end ElementFields
