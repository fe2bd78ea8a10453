import ElementFields.Proofs.LeafTables

namespace ElementFields
open Scalar
open scoped BigOperators

variable {K : Type} [ExactScalar K]

section Closed

variable {p u v : Vec K} {m : Mat K} {i j : ℕ}

theorem entry_normalizationJacobian (hi : i < p.size) (hj : j < p.size) :
    (normalizationJacobian p).entry i j = jacobianEntry p i j := Mat.entry_ofFn _ hi hj

theorem inner_normalized (p u : Vec K) : (normalized p).inner u =
    ∑ d ∈ Finset.range p.size, (normalized p).entry d * u.entry d := by
  rw [Vec.inner_eq_sum, normalized, Vec.divide, Vec.size_ofFn]

theorem normalizationSecond_eq_ok (h : normalizationSecond p u = .ok m) : u.size = p.size ∧
    ∀ i < p.size, ∀ j < p.size, m.entry i j = hessianEntry p u.entry i j := by
  obtain ⟨hu, rfl⟩ := Checked.require_eq_ok_iff.1 h
  refine ⟨hu, fun i hi j hj => ?_⟩
  rw [Mat.entry_ofFn _ hi hj, secondEntry, inner_normalized]
  rfl

theorem normalizationThird_eq_ok (h : normalizationThird p u v = .ok m) :
    (u.size = p.size ∧ m.cols = p.size) ∧
      ∀ i < p.size, ∀ j < p.size, m.entry i j = thirdEntry p u.entry v.entry i j := by
  obtain ⟨⟨hu, -⟩, rfl⟩ := Checked.require_eq_ok_iff.1 h
  refine ⟨⟨hu, rfl⟩, ?_⟩
  have hhalf (i j : ℕ) :
      halfThirdEntry (normalized p) u v i j = halfThird p u.entry v.entry i j := by
    rw [halfThirdEntry, inner_normalized, inner_normalized, Vec.inner_eq_sum, hu]
    rfl
  intro i hi j hj
  rw [Mat.entry_ofFn _ hi hj, hhalf, hhalf]
  rfl

/-- A contracted second derivative combines those for each component. -/
theorem combines_hessian (hu : u.size = p.size) (i j : ℕ) :
    Combines p.size u.entry (hessianEntry p u.entry i j) fun d => hessianEntry p (delta d) i j :=
  hu ▸ combines_hessianEntry (Combines.unit u) p i j

/-- A contracted third derivative combines those for each component. -/
theorem combines_third (hu : u.size = p.size) (t : ℕ → K) (i j : ℕ) :
    Combines p.size u.entry (thirdEntry p u.entry t i j) fun d => thirdEntry p (delta d) t i j :=
  hu ▸ combines_thirdEntry_left (Combines.unit u) p t i j

end Closed

namespace Normalization

theorem betweenFrames_eq_ok {bᵢ m bⱼ n : Mat K} {V : ℕ} (h : betweenFrames bᵢ m bⱼ = .ok n)
    (hb : bᵢ.rows = V) (hm : m.cols = V) {f : ℕ → ℕ → K}
    (hf : ∀ d < V, ∀ e < V, m.entry d e = f d e) (a b : ℕ) :
    n.entry a b = bilinear V (fun d => bᵢ.entry d a) f fun e => bⱼ.entry e b := by
  obtain ⟨t, ht, h⟩ := bind_eq_ok_iff.1 h
  obtain ⟨-, -, hmul⟩ := Mat.mul_eq_ok ht
  obtain ⟨-, -, hentry⟩ := Mat.transposeMul_eq_ok h
  rw [hentry, bilinear, hb]
  refine Finset.sum_congr rfl fun d hd => ?_
  rw [hmul, hm, Finset.mul_sum]
  refine Finset.sum_congr rfl fun e he => ?_
  rw [hf d (Finset.mem_range.mp hd) e (Finset.mem_range.mp he)]
  ring

end Normalization

section Answers

variable {l : LeafData K} {site : Site K} {φ : ℕ → K} {g : ℕ → ℕ → K} {f : Interpolant K}
  (hφ : ∀ v, l.valuesAt site = .ok v → ∀ j, v.entry j = φ j)
  (hg : ∀ m, l.gradientsIn site = .ok m → ∀ k j, m.entry k j = g k j)

structure Interpolant.Tabled (f : Interpolant K) (l : LeafData K) (φ : ℕ → K) (g : ℕ → ℕ → K) :
    Prop where
  values : ∀ j, f.values.entry j = φ j
  gradients : ∀ k j, f.gradients.entry k j = g k j
  p : f.p = .ofFn l.valueSize (l.table φ g).value
  slopes : ∀ k, (f.slopes.columnVec k).entry = (l.table φ g).slope k

theorem Interpolant.Tabled.size_p (hf : f.Tabled l φ g) : f.p.size = l.valueSize := by
  rw [hf.p, Vec.size_ofFn]

namespace Normalization

include hφ in
theorem interpolate_tabled {v p : Vec K} (h : interpolate l site = .ok (v, p)) :
    (∀ j, v.entry j = φ j) ∧ p = .ofFn l.valueSize (l.table φ g).value := by
  obtain ⟨w, hw, h⟩ := bind_eq_ok_iff.1 h
  obtain ⟨q, hq, h⟩ := bind_eq_ok_iff.1 h
  rw [pure_eq_ok_iff] at h
  cases h
  refine ⟨hφ v hw, ?_⟩
  obtain ⟨-, hsize, hentry⟩ := Mat.mulVec_eq_ok (lift_eq_ok_iff.1 hq)
  refine Vec.ext_entry (hsize.trans (Vec.size_ofFn _ _).symm) fun i hi => ?_
  have hi : i < l.valueSize := lt_of_lt_of_eq hi hsize
  rw [hentry, Vec.entry_ofFn _ hi]
  refine Finset.sum_congr rfl fun j hj => ?_
  have hin : l.coefficients.matrix.entry i j = l.coefficients.entry i j :=
    Mat.entry_ofFn _ hi (Finset.mem_range.mp hj)
  rw [hin, hφ v hw, mul_comm]

include hφ hg in
theorem interpolant_tabled (h : interpolant l site = .ok f) : f.Tabled l φ g := by
  obtain ⟨⟨v, p⟩, hp, h⟩ := bind_eq_ok_iff.1 h
  obtain ⟨m, hm, h⟩ := bind_eq_ok_iff.1 h
  obtain ⟨s, hs, h⟩ := bind_eq_ok_iff.1 h
  rw [pure_eq_ok_iff] at h
  subst h
  obtain ⟨hv, hp⟩ := interpolate_tabled (g := g) hφ hp
  refine ⟨hv, hg m hm, hp, fun k => funext fun i => ?_⟩
  rw [Mat.entry_columnVec]
  by_cases hi : i < l.valueSize
  · have hgradient : Interpolation.gradient l site = .ok s := bind_eq_ok_iff.2 ⟨m, hm, hs⟩
    exact Interpolation.gradient_entry (φ := φ) hg hgradient hi k
  · obtain ⟨-, hshape, -⟩ := Mat.mul_eq_ok (lift_eq_ok_iff.1 hs)
    rw [Mat.entry_outside fun hin => hi (lt_of_lt_of_eq hin.1 hshape.1),
      LeafData.slope_of_valueSize_le (Nat.le_of_not_lt hi)]

/-- A matrix times the frame of a coefficient, scaled. -/
theorem entry_scaled_mul_frame {c : Coefficient} (hb : c.block = l.block) {t frame m : Mat K} {V : ℕ}
    (ht : t.cols = V) (hframe : l.coefficients.frame c.index = .ok frame)
    (h : t.mul frame = .ok m) (s : K) (i a : ℕ) :
    (m.scale s).entry i a = ∑ d ∈ Finset.range V, t.entry i d * (s * l.tangent ⟨c, a⟩ d) := by
  obtain ⟨-, -, hentry⟩ := Mat.mul_eq_ok h
  rw [Mat.entry_scale, hentry, ht, Finset.sum_mul]
  refine Finset.sum_congr rfl fun d _ => ?_
  rw [LeafData.entry_frame hb hframe]
  ring

/-- A bilinear form between the frames of two coefficients, scaled. -/
theorem entry_scaled_betweenFrames {c₁ c₂ : Coefficient} (h₁ : c₁.block = l.block)
    (h₂ : c₂.block = l.block) {bᵢ bⱼ m n : Mat K} (hᵢ : l.coefficients.frame c₁.index = .ok bᵢ)
    (hⱼ : l.coefficients.frame c₂.index = .ok bⱼ) (h : betweenFrames bᵢ m bⱼ = .ok n)
    (hm : m.cols = l.valueSize) {form : ℕ → ℕ → K}
    (hform : ∀ d < l.valueSize, ∀ e < l.valueSize, m.entry d e = form d e) (s t : K) (a b : ℕ) :
    (n.scale (s * t)).entry a b = bilinear l.valueSize (fun d => s * l.tangent ⟨c₁, a⟩ d) form
      fun e => t * l.tangent ⟨c₂, b⟩ e := by
  have hrows : bᵢ.rows = l.valueSize := (Coefficients.shape_frame hᵢ).1
  rw [Mat.entry_scale, betweenFrames_eq_ok h hrows hm hform, bilinear_mul]
  simp only [LeafData.entry_frame h₁ hᵢ, LeafData.entry_frame h₂ hⱼ]

section Between

variable {c₁ c₂ : Coefficient} {p along : Vec K} {bᵢ bⱼ m n : Mat K}

/-- The second derivative between the frames of two coefficients, scaled. -/
theorem combines_betweenSecond (h₁ : c₁.block = l.block) (h₂ : c₂.block = l.block)
    (hᵢ : l.coefficients.frame c₁.index = .ok bᵢ) (hⱼ : l.coefficients.frame c₂.index = .ok bⱼ)
    (hp : p.size = l.valueSize) (hm : normalizationSecond p along = .ok m)
    (h : betweenFrames bᵢ m bⱼ = .ok n) (s t : K) (a b : ℕ) :
    Combines l.valueSize along.entry ((n.scale (s * t)).entry a b) fun i =>
      bilinear l.valueSize (fun d => s * l.tangent ⟨c₁, a⟩ d) (hessianEntry p (delta i))
        fun e => t * l.tangent ⟨c₂, b⟩ e := by
  obtain ⟨hu, hform⟩ := normalizationSecond_eq_ok hm
  have hcols := (shape_second hm).2
  have hhessian := combines_hessian hu
  rw [hp] at hform hcols hhessian
  rw [entry_scaled_betweenFrames h₁ h₂ hᵢ hⱼ h hcols hform]
  exact .bilinear_form hhessian _ _ _

/-- The third derivative along `v` between the frames of two coefficients, scaled. -/
theorem combines_betweenThird (h₁ : c₁.block = l.block) (h₂ : c₂.block = l.block)
    (hᵢ : l.coefficients.frame c₁.index = .ok bᵢ) (hⱼ : l.coefficients.frame c₂.index = .ok bⱼ)
    (hp : p.size = l.valueSize) {v : Vec K} (hm : normalizationThird p along v = .ok m)
    (h : betweenFrames bᵢ m bⱼ = .ok n) (s t : K) (a b : ℕ) :
    Combines l.valueSize along.entry ((n.scale (s * t)).entry a b) fun i =>
      bilinear l.valueSize (fun d => s * l.tangent ⟨c₁, a⟩ d) (thirdEntry p (delta i) v.entry)
        fun e => t * l.tangent ⟨c₂, b⟩ e := by
  obtain ⟨⟨hu, hcols⟩, hform⟩ := normalizationThird_eq_ok hm
  have hthird := combines_third hu v.entry
  rw [hp] at hform hcols hthird
  rw [entry_scaled_betweenFrames h₁ h₂ hᵢ hⱼ h hcols hform]
  exact .bilinear_form hthird _ _ _

end Between

/-- The Jacobian applied to what is contracted with. -/
theorem combines_projected {p u v : Vec K} (h : (normalizationJacobian p).mulVec u = .ok v) :
    ∀ d < p.size, Combines p.size u.entry (v.entry d) fun i => jacobianEntry p d i := by
  intro d hd
  obtain ⟨-, -, hentry⟩ := Mat.mulVec_eq_ok h
  rw [Combines, hentry]
  refine Finset.sum_congr rfl fun e he => ?_
  rw [entry_normalizationJacobian hd (Finset.mem_range.mp he), mul_comm]

/-- A second derivative applied to what is contracted with. -/
theorem combines_differentiated {p w u v : Vec K} {m : Mat K} (hm : normalizationSecond p w = .ok m)
    (h : m.mulVec u = .ok v) :
    ∀ d < p.size, Combines p.size u.entry (v.entry d) fun i => hessianEntry p w.entry d i := by
  intro d hd
  obtain ⟨-, hsecond⟩ := normalizationSecond_eq_ok hm
  obtain ⟨-, -, hentry⟩ := Mat.mulVec_eq_ok h
  rw [Combines, hentry, (shape_second hm).2]
  refine Finset.sum_congr rfl fun e he => ?_
  rw [hsecond d hd e (Finset.mem_range.mp he), mul_comm]

section Parts

variable (hf : f.Tabled l φ g) {k : ℕ} {m : Mat K}
include hf

theorem mixed_eq_ok {c : Coefficient} (hb : c.block = l.block) (h : mixed l f c.index k = .ok m)
    {i : ℕ} (hi : i < l.valueSize) (a : ℕ) :
    m.entry i a = ((l.table φ g).normalize l.valueSize).mixed k ⟨c, a⟩ i := by
  obtain ⟨pₖ, hpₖ, h⟩ := bind_eq_ok_iff.1 h
  obtain ⟨frame, hframe, h⟩ := bind_eq_ok_iff.1 h
  obtain ⟨second, hs, h⟩ := bind_eq_ok_iff.1 h
  obtain ⟨moved, hmoved, h⟩ := bind_eq_ok_iff.1 h
  obtain ⟨x, hx, h⟩ := bind_eq_ok_iff.1 h
  obtain ⟨turned, hturned, h⟩ := bind_eq_ok_iff.1 h
  obtain ⟨y, hy, h⟩ := bind_eq_ok_iff.1 h
  obtain ⟨-, rfl⟩ := Mat.columnAt_eq_ok hpₖ
  obtain ⟨-, rfl⟩ := Checked.require_eq_ok_iff.1 hx
  obtain ⟨-, rfl⟩ := Mat.entryAt_eq_ok hy
  obtain ⟨-, -, hadd⟩ := Mat.add_eq_ok h
  obtain ⟨-, hsecond⟩ := normalizationSecond_eq_ok hs
  have hV := hf.size_p
  simp only [hV, hf.slopes] at hsecond
  rw [hadd, entry_scaled_mul_frame hb ((shape_second hs).2.trans hV) hframe hmoved,
    entry_scaled_mul_frame hb hV hframe hturned, ← Finset.sum_add_distrib, hf.values,
    hf.gradients]
  simp only [Partials.normalize, ← hf.p]
  refine Finset.sum_congr rfl fun d hd => ?_
  have hd := Finset.mem_range.mp hd
  rw [hsecond i hi d hd, entry_normalizationJacobian (hV.symm ▸ hi) (hV.symm ▸ hd)]
  rfl

variable {along : Vec K}

theorem curvatureAlong_eq_ok {c : Coefficient} (hb : c.block = l.block)
    (h : curvatureAlong l f c.index k (f.slopes.columnVec k) along = .ok m) {a b : ℕ}
    (ha : a < l.correctionSize) (hb' : b < l.correctionSize) :
    Combines l.valueSize along.entry (m.entry a b) fun i => ∑ d ∈ Finset.range l.valueSize,
      (jacobianEntry f.p d i * (l.table φ g).thrice k ⟨c, a⟩ ⟨c, b⟩ d +
        hessianEntry f.p ((l.table φ g).slope k) d i * (l.table φ g).twice ⟨c, a⟩ ⟨c, b⟩ d) := by
  obtain ⟨projected, hp, h⟩ := bind_eq_ok_iff.1 h
  obtain ⟨second, hs, h⟩ := bind_eq_ok_iff.1 h
  obtain ⟨differentiated, hd, h⟩ := bind_eq_ok_iff.1 h
  obtain ⟨fixed, hfixed, h⟩ := bind_eq_ok_iff.1 h
  obtain ⟨y, hy, h⟩ := bind_eq_ok_iff.1 h
  obtain ⟨moving, hmoving, h⟩ := bind_eq_ok_iff.1 h
  obtain ⟨x, hx, h⟩ := bind_eq_ok_iff.1 h
  obtain ⟨-, rfl⟩ := Checked.require_eq_ok_iff.1 hx
  obtain ⟨-, rfl⟩ := Mat.entryAt_eq_ok hy
  obtain ⟨-, -, hadd⟩ := Mat.add_eq_ok h
  have hprojected := combines_projected hp
  have hdifferentiated := combines_differentiated hs hd
  rw [hf.size_p] at hprojected hdifferentiated
  have hboth := ((LeafData.combines_curvature hb hfixed (g k c.index) ha hb').trans hprojected).add
    ((LeafData.combines_curvature hb hmoving (φ c.index) ha hb').trans hdifferentiated)
  simp only [← Finset.sum_add_distrib, hf.slopes] at hboth
  rw [hadd, hf.values, hf.gradients]
  exact hboth

/-- What the third derivative answers combines, with the components of what it is contracted with, the
entries of the table. -/
theorem third_eq_ok {c₁ c₂ : Coefficient} (h₁ : c₁.block = l.block) (h₂ : c₂.block = l.block)
    (h : third l f c₁.index c₂.index k along = .ok m) {a b : ℕ} (ha : a < l.correctionSize)
    (hb : b < l.correctionSize) : Combines l.valueSize along.entry (m.entry a b)
      fun i => ((l.table φ g).normalize l.valueSize).thrice k ⟨c₁, a⟩ ⟨c₂, b⟩ i := by
  obtain ⟨pₖ, hpₖ, h⟩ := bind_eq_ok_iff.1 h
  obtain ⟨bᵢ, hᵢ, h⟩ := bind_eq_ok_iff.1 h
  obtain ⟨bⱼ, hⱼ, h⟩ := bind_eq_ok_iff.1 h
  obtain ⟨φᵢ, hφᵢ, h⟩ := bind_eq_ok_iff.1 h
  obtain ⟨φⱼ, hφⱼ, h⟩ := bind_eq_ok_iff.1 h
  obtain ⟨gᵢ, hgᵢ, h⟩ := bind_eq_ok_iff.1 h
  obtain ⟨gⱼ, hgⱼ, h⟩ := bind_eq_ok_iff.1 h
  obtain ⟨second, hsecond, h⟩ := bind_eq_ok_iff.1 h
  obtain ⟨lower, hlower, h⟩ := bind_eq_ok_iff.1 h
  obtain ⟨derived, hderived, h⟩ := bind_eq_ok_iff.1 h
  obtain ⟨upper, hupper, h⟩ := bind_eq_ok_iff.1 h
  obtain ⟨sum, hsum, hlast⟩ := bind_eq_ok_iff.1 h
  obtain ⟨-, rfl⟩ := Mat.columnAt_eq_ok hpₖ
  obtain ⟨-, rfl⟩ := Checked.require_eq_ok_iff.1 hφᵢ
  obtain ⟨-, rfl⟩ := Checked.require_eq_ok_iff.1 hφⱼ
  obtain ⟨-, rfl⟩ := Mat.entryAt_eq_ok hgᵢ
  obtain ⟨-, rfl⟩ := Mat.entryAt_eq_ok hgⱼ
  obtain ⟨-, -, hadd⟩ := Mat.add_eq_ok hsum
  have hlowered := combines_betweenSecond h₁ h₂ hᵢ hⱼ hf.size_p hsecond hlower
  have hraised := combines_betweenThird h₁ h₂ hᵢ hⱼ hf.size_p hderived hupper
  simp only [hf.values, hf.gradients] at hadd
  rw [hf.slopes] at hraised
  -- The weight of the second derivative is a sum, one term for each way to split the axis.
  have hweight : (lower.scale (g k c₁.index * φ c₂.index + φ c₁.index * g k c₂.index)).entry a b =
      (lower.scale (g k c₁.index * φ c₂.index)).entry a b +
        (lower.scale (φ c₁.index * g k c₂.index)).entry a b := by
    simp only [Mat.entry_scale, mul_add]
  have hall : Combines l.valueSize along.entry (sum.entry a b) fun i =>
      bilinear l.valueSize ((l.table φ g).mixed k ⟨c₁, a⟩) (hessianEntry f.p (delta i))
        ((l.table φ g).varied ⟨c₂, b⟩) +
      bilinear l.valueSize ((l.table φ g).varied ⟨c₁, a⟩) (hessianEntry f.p (delta i))
        ((l.table φ g).mixed k ⟨c₂, b⟩) +
      bilinear l.valueSize ((l.table φ g).varied ⟨c₁, a⟩)
        (thirdEntry f.p (delta i) ((l.table φ g).slope k)) ((l.table φ g).varied ⟨c₂, b⟩) := by
    rw [hadd, hweight]
    exact ((hlowered _ _ a b).add (hlowered _ _ a b)).add (hraised _ _ a b)
  simp only [Partials.normalize, ← hf.p]
  split at hlast
  · rename_i hi
    obtain rfl := LeafData.coefficient_eq h₁ h₂ hi
    obtain ⟨curvature, hc, hlast⟩ := bind_eq_ok_iff.1 hlast
    obtain ⟨-, -, hsum⟩ := Mat.add_eq_ok hlast
    rw [hsum]
    exact hall.add (curvatureAlong_eq_ok hf h₁ hc ha hb)
  · rename_i hi
    rw [pure_eq_ok_iff] at hlast
    have hbend : ∀ d, l.bend ⟨c₁, a⟩ ⟨c₂, b⟩ d = 0 := LeafData.bend_of_index_ne hi a b
    have hzero (i : ℕ) : ∑ d ∈ Finset.range l.valueSize,
        (jacobianEntry f.p d i * (l.table φ g).thrice k ⟨c₁, a⟩ ⟨c₂, b⟩ d +
          hessianEntry f.p ((l.table φ g).slope k) d i *
            (l.table φ g).twice ⟨c₁, a⟩ ⟨c₂, b⟩ d) = 0 := by
      simp only [LeafData.table, hbend, mul_zero, add_zero, Finset.sum_const_zero]
    rw [← hlast]
    simp only [hzero, add_zero]
    exact hall

end Parts

include hφ in
/-- What the second derivative answers combines the entries of the table. -/
theorem second_eq_ok {c₁ c₂ : Coefficient} (h₁ : c₁.block = l.block) (h₂ : c₂.block = l.block)
    {W m : Mat K} (h : second l site c₁.index c₂.index W = .ok m) {a b : ℕ}
    (ha : a < l.correctionSize) (hb : b < l.correctionSize) :
    Combines l.valueSize W.flatten.entry (m.entry a b)
      fun i => ((l.table φ g).normalize l.valueSize).twice ⟨c₁, a⟩ ⟨c₂, b⟩ i := by
  obtain ⟨⟨w, p⟩, hp, h⟩ := bind_eq_ok_iff.1 h
  obtain ⟨along, halong, h⟩ := bind_eq_ok_iff.1 h
  obtain ⟨bᵢ, hᵢ, h⟩ := bind_eq_ok_iff.1 h
  obtain ⟨bⱼ, hⱼ, h⟩ := bind_eq_ok_iff.1 h
  obtain ⟨φᵢ, hφᵢ, h⟩ := bind_eq_ok_iff.1 h
  obtain ⟨φⱼ, hφⱼ, h⟩ := bind_eq_ok_iff.1 h
  obtain ⟨n, hn, h⟩ := bind_eq_ok_iff.1 h
  obtain ⟨between, hbetween, hlast⟩ := bind_eq_ok_iff.1 h
  obtain ⟨-, rfl⟩ := Checked.require_eq_ok_iff.1 (lift_eq_ok_iff.1 halong)
  obtain ⟨-, rfl⟩ := Checked.require_eq_ok_iff.1 (lift_eq_ok_iff.1 hφᵢ)
  obtain ⟨-, rfl⟩ := Checked.require_eq_ok_iff.1 (lift_eq_ok_iff.1 hφⱼ)
  obtain ⟨hw, hp⟩ := interpolate_tabled (g := g) hφ hp
  have hV : p.size = l.valueSize := by rw [hp, Vec.size_ofFn]
  rw [hw, hw] at hlast
  have hall : Combines l.valueSize W.flatten.entry
      ((between.scale (φ c₁.index * φ c₂.index)).entry a b) fun i =>
      bilinear l.valueSize ((l.table φ g).varied ⟨c₁, a⟩) (hessianEntry p (delta i))
        ((l.table φ g).varied ⟨c₂, b⟩) :=
    combines_betweenSecond h₁ h₂ (lift_eq_ok_iff.1 hᵢ) (lift_eq_ok_iff.1 hⱼ) hV
      (lift_eq_ok_iff.1 hn) (lift_eq_ok_iff.1 hbetween) _ _ a b
  simp only [Partials.normalize, ← hp]
  split at hlast
  · rename_i hi
    obtain rfl := LeafData.coefficient_eq h₁ h₂ hi
    obtain ⟨projected, hprojected, hlast⟩ := bind_eq_ok_iff.1 hlast
    obtain ⟨curvature, hc, hlast⟩ := bind_eq_ok_iff.1 hlast
    obtain ⟨-, -, hsum⟩ := Mat.add_eq_ok (lift_eq_ok_iff.1 hlast)
    have hprojected := combines_projected (lift_eq_ok_iff.1 hprojected)
    rw [hV] at hprojected
    rw [hsum]
    exact hall.add ((LeafData.combines_curvature h₁ (lift_eq_ok_iff.1 hc) (φ c₁.index) ha hb).trans
      hprojected)
  · rename_i hi
    rw [pure_eq_ok_iff] at hlast
    have hbend : ∀ d, l.bend ⟨c₁, a⟩ ⟨c₂, b⟩ d = 0 := LeafData.bend_of_index_ne hi a b
    have hzero (i : ℕ) : ∑ d ∈ Finset.range l.valueSize,
        jacobianEntry p d i * (l.table φ g).twice ⟨c₁, a⟩ ⟨c₂, b⟩ d = 0 := by
      simp only [LeafData.table, hbend, mul_zero, Finset.sum_const_zero]
    rw [← hlast]
    simp only [hzero, add_zero]
    exact hall

/-- The entries of the Jacobian of the normalization, at the interpolant of the table. -/
theorem entry_jacobian_tabled (hf : f.Tabled l φ g) {i d : ℕ} (hi : i < l.valueSize)
    (hd : d < l.valueSize) : (normalizationJacobian f.p).entry i d = jacobianEntry f.p i d :=
  entry_normalizationJacobian (hf.size_p.symm ▸ hi) (hf.size_p.symm ▸ hd)

include hφ hg in
/-- A field of unit vectors answers the entries of the normalized table. -/
theorem reads (hl : l.shapes.Sound) : (Primitives.normalization : Primitives K).Reads l site
    ((l.table φ g).normalize l.valueSize) where
  value {v} h i _ := by
    obtain ⟨⟨w, p⟩, hp, h⟩ := bind_eq_ok_iff.1 h
    rw [pure_eq_ok_iff] at h
    obtain ⟨-, rfl⟩ := interpolate_tabled (g := g) hφ hp
    exact h ▸ rfl
  axis {k v} h i hi := by
    obtain ⟨f, hf, h⟩ := bind_eq_ok_iff.1 h
    obtain ⟨pₖ, hpₖ, h⟩ := bind_eq_ok_iff.1 h
    obtain ⟨-, rfl⟩ := Mat.columnAt_eq_ok (lift_eq_ok_iff.1 hpₖ)
    have hf := interpolant_tabled hφ hg hf
    obtain ⟨-, -, hentry⟩ := Mat.mulVec_eq_ok (lift_eq_ok_iff.1 h)
    rw [hentry, hf.slopes]
    simp only [Partials.normalize, ← hf.p]
    refine Finset.sum_congr (congrArg Finset.range hf.size_p) fun d hd => ?_
    rw [entry_jacobian_tabled hf hi (Finset.mem_range.mp hd)]
  gradient {m} h i hi k _ := by
    obtain ⟨f, hf, h⟩ := bind_eq_ok_iff.1 h
    have hf := interpolant_tabled hφ hg hf
    obtain ⟨-, -, hentry⟩ := Mat.mul_eq_ok (lift_eq_ok_iff.1 h)
    rw [hentry]
    simp only [Partials.normalize, ← hf.p, ← hf.slopes, Mat.entry_columnVec]
    refine Finset.sum_congr (congrArg Finset.range hf.size_p) fun d hd => ?_
    rw [entry_jacobian_tabled hf hi (Finset.mem_range.mp hd)]
  coefficient {c m} hb h i hi a _ := by
    obtain ⟨⟨w, p⟩, hp, h⟩ := bind_eq_ok_iff.1 h
    obtain ⟨frame, hframe, h⟩ := bind_eq_ok_iff.1 h
    obtain ⟨turned, hturned, h⟩ := bind_eq_ok_iff.1 h
    obtain ⟨x, hx, h⟩ := bind_eq_ok_iff.1 h
    rw [pure_eq_ok_iff] at h
    obtain ⟨-, rfl⟩ := Checked.require_eq_ok_iff.1 (lift_eq_ok_iff.1 hx)
    obtain ⟨hw, hp⟩ := interpolate_tabled (g := g) hφ hp
    have hV : p.size = l.valueSize := by rw [hp, Vec.size_ofFn]
    rw [← h, entry_scaled_mul_frame hb hV (lift_eq_ok_iff.1 hframe) (lift_eq_ok_iff.1 hturned), hw]
    simp only [Partials.normalize, ← hp]
    refine Finset.sum_congr rfl fun d hd => ?_
    rw [entry_normalizationJacobian (hV.symm ▸ hi) (hV.symm ▸ Finset.mem_range.mp hd)]
    rfl
  coefficientAxis {c k m} hb h i hi a _ := by
    obtain ⟨f, hf, h⟩ := bind_eq_ok_iff.1 h
    exact mixed_eq_ok (interpolant_tabled hφ hg hf) hb (lift_eq_ok_iff.1 h) hi a
  coefficientGradient {c ms} hb h k m hk i hi a _ := by
    obtain ⟨f, hf, h⟩ := bind_eq_ok_iff.1 h
    obtain ⟨frame, -, h⟩ := bind_eq_ok_iff.1 h
    exact mixed_eq_ok (interpolant_tabled hφ hg hf) hb
      (lift_eq_ok_iff.1 (eq_of_mapM_range h hk)) hi a
  second {c₁ c₂ W m} h₁ h₂ hW h a ha b hb := by
    have hall := second_eq_ok (g := g) hφ h₁ h₂ h ha hb
    simp only [Combines, Mat.entry_flatten_column hW.2] at hall
    exact hall
  thirdAxis {c₁ c₂ k W m} h₁ h₂ hW h a ha b hb := by
    obtain ⟨f, hf, h⟩ := bind_eq_ok_iff.1 h
    obtain ⟨along, halong, h⟩ := bind_eq_ok_iff.1 h
    obtain ⟨-, rfl⟩ := Checked.require_eq_ok_iff.1 (lift_eq_ok_iff.1 halong)
    have hall := third_eq_ok (interpolant_tabled hφ hg hf) h₁ h₂ (lift_eq_ok_iff.1 h) ha hb
    simp only [Combines, Mat.entry_flatten_column hW.2] at hall
    exact hall
  thirdGradient {c₁ c₂ W m} h₁ h₂ hW h a ha b hb := by
    obtain ⟨f, hf, h⟩ := bind_eq_ok_iff.1 h
    have hrows := (interpolant_eq_ok hl hf).2.1
    have hf := interpolant_tabled hφ hg hf
    have hsum := foldlM_adds (fun _ : Mat K => True) (fun n => n.entry a b)
      (fun k => ∑ i ∈ Finset.range l.valueSize, W.entry i k *
        ((l.table φ g).normalize l.valueSize).thrice k ⟨c₁, a⟩ ⟨c₂, b⟩ i) ?_ trivial h
    · rw [hsum.2, Mat.entry_zero, zero_add, sum_map_range, hrows]
    · intro sum k next _ hnext
      obtain ⟨u, hu, hnext⟩ := bind_eq_ok_iff.1 hnext
      obtain ⟨n, hn, hlast⟩ := bind_eq_ok_iff.1 hnext
      obtain ⟨-, rfl⟩ := Mat.columnAt_eq_ok (lift_eq_ok_iff.1 hu)
      obtain ⟨-, -, hadd⟩ := Mat.add_eq_ok (lift_eq_ok_iff.1 hlast)
      have hall := third_eq_ok hf h₁ h₂ (lift_eq_ok_iff.1 hn) ha hb
      simp only [Combines, Mat.entry_columnVec] at hall
      refine ⟨trivial, ?_⟩
      show next.entry a b = sum.entry a b + _
      rw [hadd, hall]

end Normalization

end Answers

theorem bilinear_zero_left {V : ℕ} {x : ℕ → K} (hx : ∀ d < V, x d = 0) (f : ℕ → ℕ → K) (y : ℕ → K) :
    bilinear V x f y = 0 := by
  refine Finset.sum_eq_zero fun d hd => Finset.sum_eq_zero fun e _ => ?_
  rw [hx d (Finset.mem_range.mp hd), zero_mul, zero_mul]

theorem bilinear_zero_right {V : ℕ} {y : ℕ → K} (hy : ∀ d < V, y d = 0) (x : ℕ → K)
    (f : ℕ → ℕ → K) : bilinear V x f y = 0 := by
  refine Finset.sum_eq_zero fun d _ => Finset.sum_eq_zero fun e he => ?_
  rw [hy e (Finset.mem_range.mp he), mul_zero]

/-- The normalization is no polynomial, but keeps a constant constant. -/
theorem Partials.Obeys.normalize {T : Partials K} {V : ℕ} {o : BlockId → PolynomialOrder}
    (h : T.Obeys V o) : (T.normalize V).Obeys V fun b => (o b).unlessConstant .nonlinear := by
  have hconst {α : Variable} {n : ℕ}
      (hα : ((o α.block).unlessConstant .nonlinear).annihilatedBy n = true) :=
    h.constant α (PolynomialOrder.constant_of_unlessConstant rfl hα)
  have hsum {f : ℕ → K} (hf : ∀ d < V, f d = 0) : ∑ d ∈ Finset.range V, f d = 0 :=
    Finset.sum_eq_zero fun d hd => hf d (Finset.mem_range.mp hd)
  -- All second derivatives vanish as soon as one of the two variables does nothing.
  have htwo {α β : Variable} (hα : ((o α.block).unlessConstant .nonlinear).annihilatedBy 1 = true)
      (i : ℕ) : ((T.normalize V).twice α β i = 0 ∧ (T.normalize V).twice β α i = 0) ∧
        ∀ k, (T.normalize V).thrice k α β i = 0 ∧ (T.normalize V).thrice k β α i = 0 := by
    have hv := fun d hd => (hconst hα d hd).1
    have hm := fun k d hd => (hconst hα d hd).2.1 k
    have ht := fun d hd => ((hconst hα d hd).2.2 β).1
    have hth := fun k d hd => ((hconst hα d hd).2.2 β).2 k
    simp only [Partials.normalize, bilinear_zero_left hv, bilinear_zero_right hv,
      bilinear_zero_left (hm _), bilinear_zero_right (hm _), add_zero, zero_add]
    refine ⟨⟨hsum fun d hd => ?_, hsum fun d hd => ?_⟩, fun k =>
      ⟨hsum fun d hd => ?_, hsum fun d hd => ?_⟩⟩
    · rw [(ht d hd).1, mul_zero]
    · rw [(ht d hd).2, mul_zero]
    · rw [(hth k d hd).1, (ht d hd).1, mul_zero, mul_zero, add_zero]
    · rw [(hth k d hd).2, (ht d hd).2, mul_zero, mul_zero, add_zero]
  refine ⟨?_, ?_⟩
  · intro α hα i _
    have hα := PolynomialOrder.annihilatedBy_one_iff.2 hα
    refine ⟨hsum fun d hd => ?_, fun k => hsum fun d hd => ?_, fun β => htwo hα i⟩
    · rw [(hconst hα d hd).1, mul_zero]
    · rw [(hconst hα d hd).1, (hconst hα d hd).2.1, mul_zero, mul_zero, add_zero]
  · intro α β _ hα i _
    have hone : (o α.block).unlessConstant .nonlinear = .constant := by
      rw [PolynomialOrder.constant_of_unlessConstant rfl hα]
      rfl
    obtain ⟨⟨ht, -⟩, hth⟩ := htwo (β := β) (PolynomialOrder.annihilatedBy_one_iff.2 hone) i
    exact ⟨ht, fun k => (hth k).1⟩

namespace Leaf

variable {l : Leaf K} {site : Site K} {φ : ℕ → K} {g : ℕ → ℕ → K}
  (hφ : ∀ v, l.valuesAt site = .ok v → ∀ j, v.entry j = φ j)
  (hg : ∀ m, l.gradientsIn site = .ok m → ∀ k j, m.entry k j = g k j)
include hφ hg

theorem Kind.reads_table (h : l.Kind) (hp : l.primitives = .interpolation) :
    l.Reads site (l.table φ g) := by
  refine reads_of_primitives h.keepsShapes ?_ (hp ▸ Interpolation.reads hφ hg)
  rcases h.primitives with ⟨-, ho⟩ | ⟨-, ho⟩
  · refine LeafData.obeys_table _ ?_ ?_
    · rw [ho]
      split <;> exact fun h => nomatch h
    · intro hann
      obtain ⟨-, hlinear⟩ := h.linear_of_annihilated hann
      exact hlinear.euclidean
  · rw [ho]
    exact LeafData.obeys_table _ (fun h => nomatch h) fun h => nomatch h

theorem Kind.reads_normalize (h : l.Kind) (hp : l.primitives = .normalization)
    (ho : l.order = .nonlinear) : l.Reads site ((l.table φ g).normalize l.valueSize) := by
  refine reads_of_primitives h.keepsShapes ?_ (hp ▸ Normalization.reads hφ hg h.sound)
  have hobeys : (l.table φ g).Obeys l.valueSize fun block =>
      if l.block = block then .nonlinear else .constant :=
    LeafData.obeys_table _ (fun h => nomatch h) fun h => nomatch h
  convert hobeys.normalize using 2 with block
  rw [ho]
  split <;> rfl

/-- At two sites with the same values of the shape functions, where the gradients at one combine those
at the other, a leaf of the library answers from tables that turn in the same way. -/
theorem Kind.exists_turning (h : l.Kind) {site' : Site K} {g' : ℕ → ℕ → K}
    (hφ' : ∀ v, l.valuesAt site' = .ok v → ∀ j, v.entry j = φ j)
    (hg' : ∀ m, l.gradientsIn site' = .ok m → ∀ k j, m.entry k j = g' k j) {G : ℕ}
    {J : ℕ → ℕ → K} (hJ : ∀ k < G, ∀ j, Combines G (J k) (g k j) fun m => g' m j) :
    ∃ T T', l.Reads site T ∧ l.Reads site' T' ∧ T.TurnsTo G J T' := by
  have hturns : (l.table φ g).TurnsTo G J (l.table φ g') := LeafData.table_turnsTo hJ
  rcases h.primitives with ⟨hp, -⟩ | ⟨hp, ho⟩
  · exact ⟨_, _, h.reads_table hφ hg hp, h.reads_table hφ' hg' hp, hturns⟩
  · exact ⟨_, _, h.reads_normalize hφ hg hp ho, h.reads_normalize hφ' hg' hp ho,
      hturns.normalize _⟩

end Leaf

namespace Leaf

open Classical in
/-- The table of a leaf of the library at a site: that of an interpolation, or the same normalized. -/
noncomputable def tableAt (l : Leaf K) (site : Site K) : Partials K :=
  let T := l.table (l.valueEntry site) (l.gradientEntry site)
  if l.primitives = .interpolation then T else T.normalize l.valueSize

theorem Kind.reads_tableAt {l : Leaf K} (h : l.Kind) (site : Site K) :
    l.Reads site (l.tableAt site) := by
  have hφ := fun v (hv : l.valuesAt site = .ok v) => LeafData.entry_valuesAt hv
  have hg := fun m (hm : l.gradientsIn site = .ok m) => LeafData.entry_gradientsIn hm
  unfold tableAt
  split
  · rename_i hp
    exact h.reads_table hφ hg hp
  · rename_i hp
    obtain ⟨hp, ho⟩ := h.primitives.resolve_left fun h => hp h.1
    exact h.reads_normalize hφ hg hp ho

end Leaf

namespace ElementField

noncomputable def leafTables (f : ElementField K) (site : Site K) (slot : ℕ) : Partials K :=
  match f.leaves[slot]? with
  | some l => l.tableAt site
  | none => .const 0

noncomputable def tableAt (f : ElementField K) (site : Site K) : Partials K :=
  f.table site (f.leafTables site) f.expr

variable {f : ElementField K} (hleaf : ∀ l ∈ f.reachableLeaves, l.Standard)
include hleaf

theorem leavesRead_leafTables (site : Site K) (e : Expr K) :
    f.LeavesRead site (f.leafTables site) e := by
  intro slot signature l _ hl
  rw [leafTables, hl.get]
  exact (hleaf l hl.mem).kind.reads_tableAt site

/-- A built field on leaves of the library answers from one table at each site. -/
theorem readBy_tableAt (hf : f.Built) {r : Request K} {D : Derivative K}
    (hD : f.evaluateRequest r = .ok D) :
    (f.tableAt r.site).ReadBy f.valueSize f.gridDim f.tangentDim r D :=
  readBy_table hf (fun l hl => (hleaf l hl).kind.keepsShapes)
    (leavesRead_leafTables hleaf r.site f.expr) hD

end ElementField

end ElementFields
