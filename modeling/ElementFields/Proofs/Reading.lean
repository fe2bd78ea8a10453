import ElementFields.Proofs.ChainRule
import ElementFields.Proofs.Partials

namespace ElementFields
open Scalar
open scoped BigOperators

variable {K : Type} [ExactScalar K]

/-- The value of an operand at the site of a request, and what it answers to fewer directions there,
are entries of the table. -/
structure Operand.Reads (o : Operand K) (V G : ℕ) (C : BlockId → ℕ) (T : Partials K)
    (r : Request K) : Prop where
  value : ∀ m, o.value r.site = .ok m → ∀ i < V, m.entry i 0 = T.value i
  derivative : ∀ (r' : Request K) D, r'.site = r.site → r'.directions.DrawnFrom r.directions →
    r'.Fits V G → o.derivative r' = .ok D → T.ReadBy V G C r' D

namespace Operand.Reads

variable {o : Operand K} {V G : ℕ} {C : BlockId → ℕ} {T : Partials K} {r : Request K}
  (h : o.Reads V G C T r)
include h

theorem slope_eq {s : SpatialDirection} (hs : r.directions.spatial = some s)
    (ha : o.Answers r.spatialPart) {i k : ℕ} (hi : i < V) (hk : k < s.count G) :
    o.slope r i k = T.slope (s.axis k) i := by
  obtain ⟨D, hD⟩ := ha
  have hread := (h.derivative r.spatialPart D rfl r.spatialPart_drawnFrom
    (Request.fits_of_none rfl) hD).2
  have hs' : r.spatialPart.directions.spatial = some s := hs
  have hc' : r.spatialPart.directions.coefficients = .none := rfl
  simp only [hs', hc'] at hread
  rw [slope, entry_of_ok hD]
  exact hread i hi k hk

theorem varied_eq {c : Coefficient} (hc : c ∈ r.directions.coefficientList)
    (ha : o.Answers (r.coefficientPart c)) {i a : ℕ} (hi : i < V) (hlt : a < C c.block) :
    o.varied r c i a = T.varied ⟨c, a⟩ i := by
  obtain ⟨D, hD⟩ := ha
  have hread := (h.derivative (r.coefficientPart c) D rfl (r.coefficientPart_drawnFrom hc)
    (Request.fits_of_single rfl) hD).2
  rw [varied, entry_of_ok hD]
  exact hread i hi a hlt

theorem mixed_eq {s : SpatialDirection} (hs : r.directions.spatial = some s) {c : Coefficient}
    (hc : c ∈ r.directions.coefficientList) (ha : o.Answers (r.mixedPart c)) {k i a : ℕ}
    (hk : k < s.count G) (hi : i < V) (hlt : a < C c.block) :
    o.mixed r c k i a = T.mixed (s.axis k) ⟨c, a⟩ i := by
  obtain ⟨D, hD⟩ := ha
  have hread := (h.derivative (r.mixedPart c) D rfl (r.mixedPart_drawnFrom hc)
    (Request.fits_of_single rfl) hD).2
  have hs' : (r.mixedPart c).directions.spatial = some s := hs
  have hc' : (r.mixedPart c).directions.coefficients = .single c := rfl
  simp only [hs', hc'] at hread
  rw [mixed, entry_of_ok hD]
  exact hread k hk i hi a hlt

theorem twice_eq {c₁ c₂ : Coefficient} (hc : r.directions.coefficients = .two c₁ c₂) {W : Mat K}
    (ha : o.Answers (r.withoutSpatialAlong (some W))) (hW : W.rows = V ∧ W.cols = 1) {a b : ℕ}
    (hlt : a < C c₁.block) (hlt' : b < C c₂.block) :
    o.twice r W a b = ∑ i ∈ Finset.range V, W.entry i 0 * T.twice ⟨c₁, a⟩ ⟨c₂, b⟩ i := by
  obtain ⟨D, hD⟩ := ha
  have hread := (h.derivative (r.withoutSpatialAlong (some W)) D rfl
    (r.withoutSpatialAlong_drawnFrom _) (Request.withoutSpatialAlong_fits hW) hD).2
  have hs' : (r.withoutSpatialAlong (some W)).directions.spatial = none := rfl
  have hc' : (r.withoutSpatialAlong (some W)).directions.coefficients = .two c₁ c₂ := hc
  simp only [hs', hc'] at hread
  rw [twice, entry_of_ok hD]
  exact hread W rfl a hlt b hlt'

theorem thrice_eq {s : SpatialDirection} (hs : r.directions.spatial = some s)
    {c₁ c₂ : Coefficient} (hc : r.directions.coefficients = .two c₁ c₂) {W : Mat K}
    (ha : o.Answers (r.withAlong (some W))) (hW : W.rows = V ∧ W.cols = s.count G) {a b : ℕ}
    (hlt : a < C c₁.block) (hlt' : b < C c₂.block) :
    o.thrice r W a b = ∑ k ∈ Finset.range (s.count G), ∑ i ∈ Finset.range V,
      W.entry i k * T.thrice (s.axis k) ⟨c₁, a⟩ ⟨c₂, b⟩ i := by
  obtain ⟨D, hD⟩ := ha
  have hread := (h.derivative (r.withAlong (some W)) D rfl (r.withAlong_drawnFrom _)
    (Request.withAlong_fits hs hW) hD).2
  have hs' : (r.withAlong (some W)).directions.spatial = some s := hs
  have hc' : (r.withAlong (some W)).directions.coefficients = .two c₁ c₂ := hc
  simp only [hs', hc'] at hread
  rw [thrice, entry_of_ok hD]
  exact hread W rfl a hlt b hlt'

end Operand.Reads

/-- Weights of directions are drawn out of a sum over components. -/
theorem sum_weights (n V : ℕ) (w : ℕ → K) (x : ℕ → ℕ → K) (y : ℕ → K) :
    ∑ d ∈ Finset.range V, (∑ k ∈ Finset.range n, x d k * w k) * y d =
      ∑ k ∈ Finset.range n, w k * ∑ d ∈ Finset.range V, x d k * y d := by
  simp only [Finset.sum_mul, Finset.mul_sum]
  rw [Finset.sum_comm]
  refine Finset.sum_congr rfl fun k _ => Finset.sum_congr rfl fun d _ => ?_
  ring

namespace Product

variable {a b : Operand K} {V G : ℕ} {C : BlockId → ℕ} {r : Request K} {A B : Partials K}
  {va vb : Mat K} {D : Derivative K}
  (ha : a.Formed V G C r.directions) (hb : b.Formed V G C r.directions)
  (hra : a.Reads V G C A r) (hrb : b.Reads V G C B r)
  (hva : a.value r.site = .ok va) (hvb : b.value r.site = .ok vb)
include ha hb hra hrb hva hvb

theorem second_reads {c₁ c₂ : Coefficient} (hs : r.directions.spatial = none)
    (hc : r.directions.coefficients = .two c₁ c₂) (h : second a b r va vb c₁ c₂ = .ok D) :
    (Partials.inner V A B).ReadBy 1 G C r D := by
  obtain ⟨hmem₁, hmem₂⟩ := Directions.mem_coefficientList_two hc
  have hvas := ha.value r.site va hva
  have hvbs := hb.value r.site vb hvb
  obtain ⟨W, w, hW, hw, ⟨⟨h1, h2⟩, ⟨h3, h4⟩, h5, h6⟩, hF, he⟩ := second_eq_ok ha hb hvas hvbs hc h
  obtain ⟨-, rfl⟩ := Mat.entryAt_eq_ok hw
  refine ⟨hF, ?_⟩
  simp only [hs, hc]
  intro W' hW' i hi j hj
  obtain rfl := Option.some.inj (hW.symm.trans hW')
  rw [he, hra.twice_eq hc h5 hvbs hi hj, hrb.twice_eq hc h6 hvas hi hj, Finset.sum_range_one,
    Partials.inner, Finset.sum_mul, Finset.mul_sum, ← Finset.sum_add_distrib,
    ← Finset.sum_add_distrib]
  refine Finset.sum_congr rfl fun d hd => ?_
  have hd := Finset.mem_range.mp hd
  rw [hra.varied_eq hmem₁ h1 hd hi, hra.varied_eq hmem₂ h2 hd hj, hrb.varied_eq hmem₁ h3 hd hi,
    hrb.varied_eq hmem₂ h4 hd hj, Mat.entry_scale, Mat.entry_scale, hra.value va hva d hd,
    hrb.value vb hvb d hd]
  ring

theorem third_reads {s : SpatialDirection} {c₁ c₂ : Coefficient}
    (hs : r.directions.spatial = some s) (hc : r.directions.coefficients = .two c₁ c₂)
    (hfit : r.Fits 1 G) (h : third a b r va vb c₁ c₂ = .ok D) :
    (Partials.inner V A B).ReadBy 1 G C r D := by
  obtain ⟨hmem₁, hmem₂⟩ := Directions.mem_coefficientList_two hc
  have hvas := ha.value r.site va hva
  have hvbs := hb.value r.site vb hvb
  obtain ⟨W, la, lb, ma, mb, hW, ⟨-, hcols⟩, hl, ⟨⟨hpa, hpb⟩, ⟨h1, h2⟩, h3, h4⟩, hF, he⟩ :=
    third_eq_ok ha hb hvas hvbs hs hc hfit h
  refine ⟨hF, ?_⟩
  simp only [hs, hc]
  intro W' hW' i hi j hj
  obtain rfl := Option.some.inj (hW.symm.trans hW')
  have hma := hl.rows_ma.2.trans hcols
  have hmb := hl.rows_mb.2.trans hcols
  rw [he, hra.twice_eq hc h1 hl.rows_la hi hj, hrb.twice_eq hc h2 hl.rows_lb hi hj,
    hra.thrice_eq hs hc h3 ⟨hl.rows_ma.1, hma⟩ hi hj,
    hrb.thrice_eq hs hc h4 ⟨hl.rows_mb.1, hmb⟩ hi hj]
  -- The second derivatives are taken along sums over the directions, which are brought to the front.
  have hla : ∑ d ∈ Finset.range V, la.entry d 0 * A.twice ⟨c₁, i⟩ ⟨c₂, j⟩ d =
      ∑ k ∈ Finset.range (s.count G), W.entry 0 k *
        ∑ d ∈ Finset.range V, b.slope r d k * A.twice ⟨c₁, i⟩ ⟨c₂, j⟩ d := by
    simp only [hl.la_eq]
    rw [sum_weights, hcols]
  have hlb : ∑ d ∈ Finset.range V, lb.entry d 0 * B.twice ⟨c₁, i⟩ ⟨c₂, j⟩ d =
      ∑ k ∈ Finset.range (s.count G), W.entry 0 k *
        ∑ d ∈ Finset.range V, a.slope r d k * B.twice ⟨c₁, i⟩ ⟨c₂, j⟩ d := by
    simp only [hl.lb_eq]
    rw [sum_weights, hcols]
  rw [hla, hlb, hcols, ← Finset.sum_add_distrib, ← Finset.sum_add_distrib, ← Finset.sum_add_distrib,
    ← Finset.sum_add_distrib]
  refine Finset.sum_congr rfl fun k hk => ?_
  have hk := Finset.mem_range.mp hk
  rw [Finset.sum_range_one, Partials.inner, crossProducts, Finset.sum_mul, Finset.mul_sum,
    Finset.mul_sum, Finset.mul_sum, ← Finset.sum_add_distrib, ← Finset.sum_add_distrib,
    ← Finset.sum_add_distrib, ← Finset.sum_add_distrib]
  refine Finset.sum_congr rfl fun d hd => ?_
  have hd := Finset.mem_range.mp hd
  rw [hra.slope_eq hs hpa.slope hd hk, hrb.slope_eq hs hpb.slope hd hk,
    hra.varied_eq hmem₁ hpa.first hd hi, hra.varied_eq hmem₂ hpa.second hd hj,
    hrb.varied_eq hmem₁ hpb.first hd hi, hrb.varied_eq hmem₂ hpb.second hd hj,
    hra.mixed_eq hs hmem₁ hpa.mixedFirst hk hd hi, hra.mixed_eq hs hmem₂ hpa.mixedSecond hk hd hj,
    hrb.mixed_eq hs hmem₁ hpb.mixedFirst hk hd hi, hrb.mixed_eq hs hmem₂ hpb.mixedSecond hk hd hj,
    hl.ma_eq, hl.mb_eq, hra.value va hva d hd, hrb.value vb hvb d hd]
  ring

omit hva hvb in
/-- The product rule answers the product of the tables of its operands. -/
theorem derivative_reads (hfit : r.Fits 1 G) (h : derivative a b r = .ok D) :
    (Partials.inner V A B).ReadBy 1 G C r D := by
  have hF := derivative_hasForm ha hb hfit h
  obtain ⟨va, hva, h⟩ := bind_eq_ok_iff.1 h
  obtain ⟨vb, hvb, h⟩ := bind_eq_ok_iff.1 h
  have hvas := ha.value r.site va hva
  have hvbs := hb.value r.site vb hvb
  rcases hs : r.directions.spatial with _ | s <;>
    rcases hc : r.directions.coefficients with _ | c | ⟨c₁, c₂⟩ <;> simp only [hs, hc] at h
  case none.none =>
    obtain ⟨p, hp, h⟩ := bind_eq_ok_iff.1 h
    rw [pure_eq_ok_iff] at h
    subst h
    refine ⟨hF, ?_⟩
    simp only [hs, hc]
    intro i hi
    rw [Nat.lt_one_iff.1 hi, Derivative.entry_matrix, Mat.entry_scalar,
      dot_column hvas (lift_eq_ok_iff.1 hp)]
    refine Finset.sum_congr rfl fun d hd => ?_
    have hd := Finset.mem_range.mp hd
    rw [hra.value va hva d hd, hrb.value vb hvb d hd]
  case none.single =>
    obtain ⟨⟨h1, h2⟩, -, he⟩ := coefficient_eq_ok ha hb hvas hvbs hs hc h
    have hmem := Directions.mem_coefficientList hc
    refine ⟨hF, ?_⟩
    simp only [hs, hc]
    intro i hi j hj
    rw [Nat.lt_one_iff.1 hi, he]
    refine Finset.sum_congr rfl fun d hd => ?_
    have hd := Finset.mem_range.mp hd
    rw [hra.varied_eq hmem h1 hd hj, hrb.varied_eq hmem h2 hd hj, hra.value va hva d hd,
      hrb.value vb hvb d hd]
    ring
  case none.two => exact second_reads ha hb hra hrb hva hvb hs hc h
  case some.none =>
    obtain ⟨⟨h1, h2⟩, -, he⟩ := spatial_eq_ok ha hb hvas hs hc h
    refine ⟨hF, ?_⟩
    simp only [hs, hc]
    intro i hi k hk
    rw [Nat.lt_one_iff.1 hi, he k hk]
    refine Finset.sum_congr rfl fun d hd => ?_
    have hd := Finset.mem_range.mp hd
    rw [hra.slope_eq hs h1 hd hk, hrb.slope_eq hs h2 hd hk, hra.value va hva d hd,
      hrb.value vb hvb d hd]
  case some.single =>
    obtain ⟨⟨⟨h1, h2⟩, ⟨h3, h4⟩, h5, h6⟩, -, he⟩ := mixed_eq_ok ha hb hvas hvbs hs hc h
    have hmem := Directions.mem_coefficientList hc
    refine ⟨hF, ?_⟩
    simp only [hs, hc]
    intro k hk i hi j hj
    rw [Nat.lt_one_iff.1 hi, he k hk]
    refine Finset.sum_congr rfl fun d hd => ?_
    have hd := Finset.mem_range.mp hd
    rw [hra.slope_eq hs h1 hd hk, hrb.slope_eq hs h2 hd hk, hra.varied_eq hmem h3 hd hj,
      hrb.varied_eq hmem h4 hd hj, hra.mixed_eq hs hmem h5 hk hd hj,
      hrb.mixed_eq hs hmem h6 hk hd hj, hra.value va hva d hd, hrb.value vb hvb d hd]
    ring
  case some.two => exact third_reads ha hb hra hrb hva hvb hs hc hfit h

end Product

namespace Chain

variable {a : Operand K} {G : ℕ} {C : BlockId → ℕ} {r : Request K} {A : Partials K}
  {D : Derivative K} {f : ScalarMap} (ha : a.Formed 1 G C r.directions)
  (hra : a.Reads 1 G C A r)
include ha hra

/-- The chain rule answers the function of the table of its operand. -/
theorem derivative_reads (hfit : r.Fits 1 G) (h : Chain.derivative f a r = .ok D) :
    (Partials.map (f.apply (A.value 0)) (f.derivatives (A.value 0)) A).ReadBy 1 G C r D := by
  have hF := derivative_hasForm ha hfit h
  obtain ⟨va, hva, h⟩ := bind_eq_ok_iff.1 h
  obtain ⟨v, hv, h⟩ := bind_eq_ok_iff.1 h
  obtain ⟨-, rfl⟩ := Mat.entryAt_eq_ok (lift_eq_ok_iff.1 hv)
  rw [hra.value va hva 0 Nat.zero_lt_one] at h
  refine ⟨hF, ?_⟩
  rcases hs : r.directions.spatial with _ | s <;>
    rcases hc : r.directions.coefficients with _ | c | ⟨c₁, c₂⟩ <;> simp only [hs, hc] at h ⊢
  case none.none =>
    rw [pure_eq_ok_iff] at h
    subst h
    intro i hi
    rw [Nat.lt_one_iff.1 hi, Derivative.entry_matrix, Mat.entry_scalar]
    rfl
  case none.single =>
    obtain ⟨E, hE, h⟩ := bind_eq_ok_iff.1 h
    rw [pure_eq_ok_iff] at h
    subst h
    intro i hi j hj
    have hread := (hra.derivative r E rfl (Directions.DrawnFrom.refl _) hfit hE).2
    simp only [hs, hc] at hread
    rw [Derivative.entry_scale, Nat.lt_one_iff.1 hi, hread 0 Nat.zero_lt_one j hj, mul_comm]
    rfl
  case none.two =>
    obtain ⟨hmem₁, hmem₂⟩ := Directions.mem_coefficientList_two hc
    obtain ⟨W, w, hW, hw, ⟨h1, h2, h3⟩, -, he⟩ := second_eq_ok ha hc h
    obtain ⟨-, rfl⟩ := Mat.entryAt_eq_ok hw
    intro W' hW' i hi j hj
    obtain rfl := Option.some.inj (hW.symm.trans hW')
    rw [he, hra.twice_eq hc h3 ⟨rfl, rfl⟩ hi hj, hra.varied_eq hmem₁ h1 Nat.zero_lt_one hi,
      hra.varied_eq hmem₂ h2 Nat.zero_lt_one hj, Finset.sum_range_one, Finset.sum_range_one,
      Mat.entry_scalar, Partials.map]
    ring
  case some.none =>
    obtain ⟨E, hE, h⟩ := bind_eq_ok_iff.1 h
    rw [pure_eq_ok_iff] at h
    subst h
    intro i hi k hk
    have hread := (hra.derivative r E rfl (Directions.DrawnFrom.refl _) hfit hE).2
    simp only [hs, hc] at hread
    rw [Derivative.entry_scale, Nat.lt_one_iff.1 hi, hread 0 Nat.zero_lt_one k hk, mul_comm]
    rfl
  case some.single =>
    obtain ⟨⟨h1, h2, h3⟩, -, he⟩ := mixed_eq_ok ha hs hc h
    have hmem := Directions.mem_coefficientList hc
    intro k hk i hi j hj
    rw [Nat.lt_one_iff.1 hi, he k hk, hra.slope_eq hs h1 Nat.zero_lt_one hk,
      hra.varied_eq hmem h2 Nat.zero_lt_one hj, hra.mixed_eq hs hmem h3 hk Nat.zero_lt_one hj,
      Partials.map]
    ring
  case some.two =>
    obtain ⟨hmem₁, hmem₂⟩ := Directions.mem_coefficientList_two hc
    obtain ⟨W, x, hW, hWs, hx, ⟨hp, h1, h2⟩, -, he⟩ := third_eq_ok ha hs hc hfit h
    intro W' hW' i hi j hj
    obtain rfl := Option.some.inj (hW.symm.trans hW')
    rw [he, hra.twice_eq hc h1 ⟨rfl, rfl⟩ hi hj, hra.thrice_eq hs hc h2 hWs hi hj,
      Finset.sum_range_one, Mat.entry_scalar, hx, hWs.2, Finset.sum_mul, ← Finset.sum_add_distrib,
      ← Finset.sum_add_distrib]
    refine Finset.sum_congr rfl fun k hk => ?_
    have hk := Finset.mem_range.mp hk
    rw [Finset.sum_range_one, Finset.sum_range_one, Mat.entry_scale, products, Partials.map,
      hra.slope_eq hs hp.slope Nat.zero_lt_one hk, hra.varied_eq hmem₁ hp.first Nat.zero_lt_one hi,
      hra.varied_eq hmem₂ hp.second Nat.zero_lt_one hj,
      hra.mixed_eq hs hmem₁ hp.mixedFirst hk Nat.zero_lt_one hi,
      hra.mixed_eq hs hmem₂ hp.mixedSecond hk Nat.zero_lt_one hj]
    ring

end Chain

end ElementFields
