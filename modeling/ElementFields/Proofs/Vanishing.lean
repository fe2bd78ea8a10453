import ElementFields.Proofs.ChainRule
import ElementFields.Proofs.Orders
import ElementFields.Proofs.StrainRule

namespace ElementFields
open Scalar
open scoped BigOperators

variable {K : Type} [ExactScalar K]

namespace Operand

/-- The operand does not vary with a coefficient, nor do its derivatives in the directions of the
request. -/
structure Still (o : Operand K) (r : Request K) (c : Coefficient) : Prop where
  varied : ∀ i a, o.varied r c i a = 0
  mixed : ∀ k i a, o.mixed r c k i a = 0

/-- The derivatives with respect to both coefficients of the request are zero, whatever they are
contracted with. -/
structure Flat (o : Operand K) (V G : ℕ) (r : Request K) : Prop where
  twice : ∀ W : Mat K, W.rows = V ∧ W.cols = 1 → ∀ i j, o.twice r W i j = 0
  thrice : ∀ (s : SpatialDirection) (W : Mat K), r.directions.spatial = some s →
    W.rows = V ∧ W.cols = s.count G → ∀ i j, o.thrice r W i j = 0

end Operand

variable {a b : Operand K} {V G : ℕ} {C : BlockId → ℕ} {r : Request K} {D : Derivative K}

namespace Product

theorem crossProducts_eq_zero {c₁ c₂ : Coefficient} (hab : a.Still r c₁ ∨ b.Still r c₂)
    (hba : b.Still r c₁ ∨ a.Still r c₂) (k i j : ℕ) : crossProducts a b r c₁ c₂ V k i j = 0 := by
  refine Finset.sum_eq_zero fun d _ => ?_
  have h₁ : a.mixed r c₁ k d i * b.varied r c₂ d j = 0 :=
    mul_eq_zero.2 (hab.imp (fun h => h.mixed k d i) fun h => h.varied d j)
  have h₂ : a.varied r c₁ d i * b.mixed r c₂ k d j = 0 :=
    mul_eq_zero.2 (hab.imp (fun h => h.varied d i) fun h => h.mixed k d j)
  have h₃ : b.mixed r c₁ k d i * a.varied r c₂ d j = 0 :=
    mul_eq_zero.2 (hba.imp (fun h => h.mixed k d i) fun h => h.varied d j)
  have h₄ : b.varied r c₁ d i * a.mixed r c₂ k d j = 0 :=
    mul_eq_zero.2 (hba.imp (fun h => h.varied d i) fun h => h.mixed k d j)
  rw [h₁, h₂, h₃, h₄, add_zero, add_zero, add_zero]

/-- The product of operands that do not vary is zero in the directions of one coefficient. -/
theorem derivative_entry_eq_zero_of_single (ha : a.Formed V G C r.directions)
    (hb : b.Formed V G C r.directions) {c : Coefficient} (hc : r.directions.coefficients = .single c)
    (hstill : a.Still r c ∧ b.Still r c) (h : derivative a b r = .ok D) (k i j : ℕ) :
    D.entry k i j = 0 := by
  have hF := derivative_hasForm ha hb (Request.fits_of_single hc) h
  obtain ⟨va, hva, h⟩ := bind_eq_ok_iff.1 h
  obtain ⟨vb, hvb, h⟩ := bind_eq_ok_iff.1 h
  have hva := ha.value r.site va hva
  have hvb := hb.value r.site vb hvb
  obtain ⟨hsa, hsb⟩ := hstill
  by_cases hin : k < (r.directions.form 1 G C).count ∧ i < (r.directions.form 1 G C).rows ∧
      j < (r.directions.form 1 G C).cols
  swap
  · exact hF.entry_eq_zero hin
  obtain ⟨hk, hi, -⟩ := hin
  rcases hs : r.directions.spatial with _ | s <;> simp only [hs, hc] at h
  case none =>
    rw [Directions.form_single hs hc] at hk hi
    obtain ⟨-, -, he⟩ := coefficient_eq_ok ha hb hva hvb hs hc h
    rw [Nat.lt_one_iff.1 hk, Nat.lt_one_iff.1 hi, he]
    simp only [hsa.varied, hsb.varied, mul_zero, add_zero, Finset.sum_const_zero]
  case some =>
    obtain ⟨hcount, hrows, -⟩ := Directions.count_form_mixed (V := 1) (G := G) (C := C) hs hc
    rw [hcount] at hk
    rw [hrows] at hi
    obtain ⟨-, -, he⟩ := mixed_eq_ok ha hb hva hvb hs hc h
    rw [Nat.lt_one_iff.1 hi, he k hk]
    simp only [hsa.varied, hsa.mixed, hsb.varied, hsb.mixed, mul_zero, add_zero,
      Finset.sum_const_zero]

/-- The product of flat operands is zero in the directions of two coefficients if each cross term has a
factor that does not vary. -/
theorem derivative_entry_eq_zero_of_two (ha : a.Formed V G C r.directions)
    (hb : b.Formed V G C r.directions) {c₁ c₂ : Coefficient}
    (hc : r.directions.coefficients = .two c₁ c₂) (hfit : r.Fits 1 G)
    (hflat : a.Flat V G r ∧ b.Flat V G r) (hab : a.Still r c₁ ∨ b.Still r c₂)
    (hba : b.Still r c₁ ∨ a.Still r c₂) (h : derivative a b r = .ok D) (k i j : ℕ) :
    D.entry k i j = 0 := by
  have hF := derivative_hasForm ha hb hfit h
  obtain ⟨va, hva, h⟩ := bind_eq_ok_iff.1 h
  obtain ⟨vb, hvb, h⟩ := bind_eq_ok_iff.1 h
  have hva := ha.value r.site va hva
  have hvb := hb.value r.site vb hvb
  by_cases hk : k < 1
  swap
  · rw [Directions.form_two hc] at hF
    exact hF.entry_eq_zero fun hin => hk hin.1
  rw [Nat.lt_one_iff.1 hk]
  rcases hs : r.directions.spatial with _ | s <;> simp only [hs, hc] at h
  case none =>
    obtain ⟨W, w, -, -, -, -, he⟩ := second_eq_ok ha hb hva hvb hc h
    rw [he, hflat.1.twice (vb.scale w) hvb, hflat.2.twice (va.scale w) hva]
    have hsum : ∑ d ∈ Finset.range V, (a.varied r c₁ d i * b.varied r c₂ d j +
        b.varied r c₁ d i * a.varied r c₂ d j) = 0 := by
      refine Finset.sum_eq_zero fun d _ => ?_
      have h₁ : a.varied r c₁ d i * b.varied r c₂ d j = 0 :=
        mul_eq_zero.2 (hab.imp (fun h => h.varied d i) fun h => h.varied d j)
      have h₂ : b.varied r c₁ d i * a.varied r c₂ d j = 0 :=
        mul_eq_zero.2 (hba.imp (fun h => h.varied d i) fun h => h.varied d j)
      rw [h₁, h₂, add_zero]
    rw [hsum, zero_mul, add_zero, add_zero]
  case some =>
    obtain ⟨W, la, lb, ma, mb, -, ⟨-, hcols⟩, hl, -, -, he⟩ :=
      third_eq_ok ha hb hva hvb hs hc hfit h
    rw [he, hflat.1.twice la hl.rows_la, hflat.2.twice lb hl.rows_lb,
      hflat.1.thrice s ma hs ⟨hl.rows_ma.1, hl.rows_ma.2.trans hcols⟩,
      hflat.2.thrice s mb hs ⟨hl.rows_mb.1, hl.rows_mb.2.trans hcols⟩]
    simp only [crossProducts_eq_zero hab hba, zero_mul, Finset.sum_const_zero, add_zero]

end Product

namespace Chain

/-- A function of an operand that does not vary is zero in the directions of one coefficient. -/
theorem derivative_entry_eq_zero_of_single {f : ScalarMap} (ha : a.Formed 1 G C r.directions)
    {c : Coefficient} (hc : r.directions.coefficients = .single c)
    (hself : ∀ k i j, a.entry r k i j = 0) (hstill : a.Still r c)
    (h : Chain.derivative f a r = .ok D) (k i j : ℕ) : D.entry k i j = 0 := by
  have hF := derivative_hasForm ha (Request.fits_of_single hc) h
  obtain ⟨va, hva, h⟩ := bind_eq_ok_iff.1 h
  obtain ⟨v, hv, h⟩ := bind_eq_ok_iff.1 h
  rcases hs : r.directions.spatial with _ | s <;> simp only [hs, hc] at h
  case none =>
    obtain ⟨E, hE, h⟩ := bind_eq_ok_iff.1 h
    rw [← pure_eq_ok_iff.1 h, Derivative.entry_scale, ← Operand.entry_of_ok hE, hself, zero_mul]
  case some =>
    obtain ⟨hcount, hrows, -⟩ := Directions.count_form_mixed (V := 1) (G := G) (C := C) hs hc
    obtain ⟨-, -, he⟩ := mixed_eq_ok ha hs hc h
    by_cases hin : k < s.count G ∧ i < 1
    · rw [Nat.lt_one_iff.1 hin.2, he k hin.1, hstill.varied, hstill.mixed, zero_mul, zero_mul,
        add_zero]
    · exact hF.entry_eq_zero fun h => hin ⟨hcount ▸ h.1, hrows ▸ h.2.1⟩

/-- A function of a flat operand is zero in the directions of two coefficients if one of them does not
vary the operand. -/
theorem derivative_entry_eq_zero_of_two {f : ScalarMap} (ha : a.Formed 1 G C r.directions)
    {c₁ c₂ : Coefficient} (hc : r.directions.coefficients = .two c₁ c₂) (hfit : r.Fits 1 G)
    (hflat : a.Flat 1 G r) (hstill : a.Still r c₁ ∨ a.Still r c₂)
    (h : Chain.derivative f a r = .ok D) (k i j : ℕ) : D.entry k i j = 0 := by
  have hF := derivative_hasForm ha hfit h
  obtain ⟨va, hva, h⟩ := bind_eq_ok_iff.1 h
  obtain ⟨v, hv, h⟩ := bind_eq_ok_iff.1 h
  by_cases hk : k < 1
  swap
  · rw [Directions.form_two hc] at hF
    exact hF.entry_eq_zero fun hin => hk hin.1
  rw [Nat.lt_one_iff.1 hk]
  have hfirst : a.varied r c₁ 0 i * a.varied r c₂ 0 j = 0 :=
    mul_eq_zero.2 (hstill.imp (fun h => h.varied 0 i) fun h => h.varied 0 j)
  rcases hs : r.directions.spatial with _ | s <;> simp only [hs, hc] at h
  case none =>
    obtain ⟨W, w, -, -, -, -, he⟩ := second_eq_ok ha hc h
    rw [he, hfirst, hflat.twice _ ⟨rfl, rfl⟩, zero_mul, add_zero]
  case some =>
    obtain ⟨W, x, -, hW, -, -, -, he⟩ := third_eq_ok ha hs hc hfit h
    have hproducts (k : ℕ) : products ((f.derivatives v)) a r c₁ c₂ k i j = 0 := by
      have h₁ : a.mixed r c₁ k 0 i * a.varied r c₂ 0 j = 0 :=
        mul_eq_zero.2 (hstill.imp (fun h => h.mixed k 0 i) fun h => h.varied 0 j)
      have h₂ : a.varied r c₁ 0 i * a.mixed r c₂ k 0 j = 0 :=
        mul_eq_zero.2 (hstill.imp (fun h => h.varied 0 i) fun h => h.mixed k 0 j)
      rw [products, hfirst, h₁, h₂, zero_mul, add_zero, zero_mul, add_zero]
    rw [he, hflat.twice _ ⟨rfl, rfl⟩, hflat.thrice s (W.scale (f.derivatives v).first) hs hW]
    simp only [hproducts, zero_mul, Finset.sum_const_zero, add_zero]

end Chain

namespace Strain

variable {u : Operand K} {dim : ℕ} {reference : Site K → Outcome (Mat K)}

/-- The strains of a displacement whose gradient does not vary with one of the coefficients. -/
theorem derivative_entry_eq_zero (hu : u.Formed dim dim C r.directions)
    (hdim : 1 ≤ dim ∧ dim ≤ 3) (hfit : r.directions.coefficients ≠ .none)
    (hstill : ∃ c ∈ r.directions.coefficientList, ∀ a d k, variationOf u r.site c a d k = 0)
    (h : derivative dim reference u r = .ok D) (k i j : ℕ) : D.entry k i j = 0 := by
  have hF := derivative_hasForm hu hdim h
  obtain ⟨c, hc, hzero⟩ := hstill
  rcases hs : r.directions.spatial with _ | s <;>
    rcases hd : r.directions.coefficients with _ | c' | ⟨c₁, c₂⟩ <;>
    simp only [derivative, hs, hd] at h
  case none.none => exact absurd hd hfit
  case none.single =>
    rw [Directions.coefficientList, hd] at hc
    obtain rfl := List.mem_singleton.1 hc
    obtain ⟨A, -, -, -, -, he⟩ := coefficient_eq_ok hu hdim.1 hs hd h
    rw [← add_length_shearPairs hdim.2, Directions.form_single hs hd] at hF
    by_cases hin : k < 1 ∧ i < dim + (shearPairs dim).length ∧ j < C c.block
    · rw [Nat.lt_one_iff.1 hin.1, he i hin.2.1 j hin.2.2]
      exact pairing_eq_zero (Or.inr (hzero j))
    · exact hF.entry_eq_zero hin
  case none.two =>
    obtain ⟨W, -, -, hF, he⟩ := second_eq_ok hu hdim.1 hd h
    rw [Directions.form_two hd] at hF
    by_cases hk : k < 1
    · rw [Nat.lt_one_iff.1 hk, he]
      refine Finset.sum_eq_zero fun q _ => ?_
      rw [Directions.coefficientList, hd] at hc
      have hor : c = c₁ ∨ c = c₂ := by
        simpa [CoefficientPart.toList] using hc
      rcases hor with rfl | rfl
      · rw [pairing_eq_zero (Or.inl (hzero i)), mul_zero]
      · rw [pairing_eq_zero (Or.inr (hzero j)), mul_zero]
    · exact hF.entry_eq_zero fun hin => hk hin.1
  all_goals cases h

end Strain

end ElementFields
