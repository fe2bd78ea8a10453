import ElementFields.Proofs.Frames
import ElementFields.Proofs.Perturbation
import ElementFields.Proofs.Retraction

/-! Perturbed vectors divided by their length. The reciprocal of the length is a function of the sum of
the squares, so the quotient can be differentiated as a product. -/
namespace ElementFields
open Scalar
open scoped BigOperators

section Inner

variable {K : Type} [ExactScalar K]

theorem innerTo_comm (V : ℕ) (a b : ℕ → K) : innerTo V a b = innerTo V b a :=
  Finset.sum_congr rfl fun _ _ => mul_comm _ _

theorem innerTo_delta {V i : ℕ} (hi : i < V) (a : ℕ → K) :
    innerTo V (delta i) a = a i ∧ innerTo V a (delta i) = a i := by
  have h : innerTo V (delta i) a = a i := sum_delta_mul hi a
  exact ⟨h, (innerTo_comm V a (delta i)).trans h⟩

theorem bilinear_add (V : ℕ) (a b : ℕ → K) (m n : ℕ → ℕ → K) :
    bilinear V a (fun d e => m d e + n d e) b = bilinear V a m b + bilinear V a n b := by
  simp only [bilinear, ← Finset.sum_add_distrib]
  exact Finset.sum_congr rfl fun d _ => Finset.sum_congr rfl fun e _ => by ring

theorem bilinear_scale (V : ℕ) (s : K) (a b : ℕ → K) (m : ℕ → ℕ → K) :
    bilinear V a (fun d e => s * m d e) b = s * bilinear V a m b := by
  simp only [bilinear, Finset.mul_sum]
  exact Finset.sum_congr rfl fun d _ => Finset.sum_congr rfl fun e _ => by ring

theorem bilinear_outer (V : ℕ) (a b x y : ℕ → K) :
    bilinear V a (fun d e => x d * y e) b = innerTo V x a * innerTo V y b := by
  rw [innerTo, innerTo, Finset.sum_mul_sum]
  exact Finset.sum_congr rfl fun d _ => Finset.sum_congr rfl fun e _ => by ring

theorem bilinear_delta (V : ℕ) (a b : ℕ → K) : bilinear V a delta b = innerTo V a b := by
  refine Finset.sum_congr rfl fun d hd => ?_
  calc _ = ∑ e ∈ Finset.range V, delta d e * (a d * b e) :=
        Finset.sum_congr rfl fun e _ => by ring
    _ = a d * b d := sum_delta_mul (Finset.mem_range.1 hd) fun e => a d * b e

end Inner

section Closed

variable {p : Vec ℝ} {V : ℕ} (hV : p.size = V) {i : ℕ} (hi : i < V) (a b u w : ℕ → ℝ)

include hi in
theorem sum_jacobianEntry : ∑ d ∈ Finset.range V, jacobianEntry p i d * a d =
    (a i - (normalized p).entry i * innerTo V (normalized p).entry a) / p.norm := by
  calc _ = ∑ d ∈ Finset.range V, (delta i d * (a d / p.norm) -
        (normalized p).entry i / p.norm * ((normalized p).entry d * a d)) := by
        refine Finset.sum_congr rfl fun d _ => ?_
        rw [jacobianEntry]
        ring
    _ = _ := by
        rw [Finset.sum_sub_distrib, sum_delta_mul hi fun d => a d / p.norm, ← Finset.mul_sum,
          innerTo]
        ring

include hV hi

theorem sum_hessianEntry : ∑ d ∈ Finset.range V, hessianEntry p u i d * a d =
    ((3 * (normalized p).entry i * innerTo V (normalized p).entry a - a i) *
        innerTo V (normalized p).entry u - u i * innerTo V (normalized p).entry a -
      (normalized p).entry i * innerTo V u a) / (p.norm * p.norm) := by
  set n := (normalized p).entry with hn
  calc _ = ∑ d ∈ Finset.range V, (delta i d * (-(innerTo V n u) * a d / (p.norm * p.norm)) +
        (3 * n i * innerTo V n u - u i) / (p.norm * p.norm) * (n d * a d) -
        n i / (p.norm * p.norm) * (u d * a d)) := by
        refine Finset.sum_congr rfl fun d _ => ?_
        rw [hessianEntry, hV, innerTo]
        push_cast
        ring
    _ = _ := by
        rw [Finset.sum_sub_distrib, Finset.sum_add_distrib,
          sum_delta_mul hi fun d => -(innerTo V n u) * a d / (p.norm * p.norm), ← Finset.mul_sum,
          ← Finset.mul_sum, ← innerTo, ← innerTo]
        ring

/-- The second derivative of component `i` of the normalization along `a` and `b`. -/
theorem bilinear_hessian : bilinear V a (hessianEntry p (delta i)) b =
    ((3 * innerTo V (normalized p).entry a * innerTo V (normalized p).entry b - innerTo V a b) *
        (normalized p).entry i - a i * innerTo V (normalized p).entry b -
      innerTo V (normalized p).entry a * b i) / (p.norm * p.norm) := by
  set n := (normalized p).entry with hn
  set s := 1 / (p.norm * p.norm) with hs
  -- A combination of outer products, and the form of each of those is a product.
  have hform : hessianEntry p (delta i) = fun d e => 3 * n i * s * (n d * n e) +
      (-n i * s * delta d e + (-s * (delta i d * n e) + -s * (n d * delta i e))) := by
    funext d e
    have hni := (innerTo_delta hi n).2
    rw [innerTo] at hni
    rw [hessianEntry, hV, ← hn, hni, hs]
    push_cast
    ring
  rw [hform, bilinear_add, bilinear_add, bilinear_add, bilinear_scale, bilinear_scale,
    bilinear_scale, bilinear_scale, bilinear_outer, bilinear_delta, bilinear_outer, bilinear_outer,
    (innerTo_delta hi a).1, (innerTo_delta hi b).1, hs]
  ring

/-- The third derivative of component `i` of the normalization along `a`, `b` and `w`. -/
theorem bilinear_third : bilinear V a (thirdEntry p (delta i) w) b =
    (3 * innerTo V (normalized p).entry w * (a i * innerTo V (normalized p).entry b +
          b i * innerTo V (normalized p).entry a + (normalized p).entry i * (innerTo V a b -
            5 * innerTo V (normalized p).entry a * innerTo V (normalized p).entry b)) +
        3 * innerTo V (normalized p).entry a * innerTo V (normalized p).entry b * w i +
        3 * (normalized p).entry i * (innerTo V w a * innerTo V (normalized p).entry b +
          innerTo V w b * innerTo V (normalized p).entry a) -
      a i * innerTo V w b - b i * innerTo V w a - w i * innerTo V a b) /
        (p.norm * p.norm * p.norm) := by
  set n := (normalized p).entry with hn
  set s := 1 / (p.norm * p.norm * p.norm) with hs
  -- Contracted with axis `i`, the third derivative is a sum of outer products.
  have hform : thirdEntry p (delta i) w = fun d e =>
      s * (3 * w i - 15 * n i * innerTo V n w) * (n d * n e) +
      (s * (3 * n i * innerTo V n w - w i) * delta d e +
      (3 * s * innerTo V n w * (delta i d * n e) + (3 * s * innerTo V n w * (n d * delta i e) +
      (3 * s * n i * (w d * n e) + (3 * s * n i * (n d * w e) +
      (-s * (delta i d * w e) + -s * (w d * delta i e))))))) := by
    funext d e
    have hni := (innerTo_delta hi n).2
    have hwi := (innerTo_delta hi w).1
    rw [innerTo] at hni hwi
    rw [thirdEntry, halfThird, halfThird, hV, ← hn, hni, hwi, delta_comm e d, hs, innerTo]
    push_cast
    ring
  rw [hform]
  simp only [bilinear_add, bilinear_scale, bilinear_outer, bilinear_delta,
    (innerTo_delta hi a).1, (innerTo_delta hi b).1]
  rw [hs]
  ring

end Closed

/-- The derivatives of `1 / √s` at `s`. -/
noncomputable def reciprocalRoot (s : ℝ) : Taylor ℝ where
  first := -1 / ((2 : ℕ) * (s * Real.sqrt s))
  second := (3 : ℕ) / ((4 : ℕ) * (s * s * Real.sqrt s))
  third := -(15 : ℕ) / ((8 : ℕ) * (s * s * s * Real.sqrt s))

section Root

variable {s : ℝ} (hs : 0 < s)
include hs

theorem hasDerivAt_reciprocalRoot :
    HasDerivAt (fun s => 1 / Real.sqrt s) (reciprocalRoot s).first s := by
  have hr : Real.sqrt s ≠ 0 := (Real.sqrt_pos.2 hs).ne'
  refine (ScalarMap.hasDerivAt_const_div 1 (Real.hasDerivAt_sqrt hs.ne') hr).congr_deriv ?_
  rw [Real.mul_self_sqrt hs.le, reciprocalRoot, Nat.cast_ofNat]
  field_simp

/-- The derivative of `c / (s ⋯ s √s)`. -/
theorem hasDerivAt_const_div_mul_sqrt {f : ℝ → ℝ} {f' : ℝ} (c : ℝ) (hf : HasDerivAt f f' s)
    (hne : f s ≠ 0) : HasDerivAt (fun s => c / (f s * Real.sqrt s))
      (-(c * (2 * s * f' + f s)) / (2 * s * (f s * f s) * Real.sqrt s)) s := by
  have hr : Real.sqrt s ≠ 0 := (Real.sqrt_pos.2 hs).ne'
  have hrr : Real.sqrt s * Real.sqrt s = s := Real.mul_self_sqrt hs.le
  have hroot : HasDerivAt Real.sqrt (1 / (2 * Real.sqrt s)) s := Real.hasDerivAt_sqrt hs.ne'
  refine (ScalarMap.hasDerivAt_const_div c (hf.mul hroot) (mul_ne_zero hne hr)).congr_deriv ?_
  rw [Pi.mul_apply]
  field_simp
  rw [Real.sq_sqrt hs.le]
  field_simp

theorem hasDerivAt_reciprocalRoot_first :
    HasDerivAt (fun s => (reciprocalRoot s).first) (reciprocalRoot s).second s := by
  have hline : HasDerivAt (fun s : ℝ => 2 * s) 2 s := by
    simpa using (hasDerivAt_id s).const_mul 2
  have h := hasDerivAt_const_div_mul_sqrt hs (-1) hline (by positivity)
  simp only [reciprocalRoot, Nat.cast_ofNat, ← mul_assoc] at h ⊢
  refine h.congr_deriv ?_
  field_simp
  ring

theorem hasDerivAt_reciprocalRoot_second :
    HasDerivAt (fun s => (reciprocalRoot s).second) (reciprocalRoot s).third s := by
  have hline : HasDerivAt (fun s : ℝ => 4 * s * s) (8 * s) s := by
    refine (((hasDerivAt_id s).const_mul 4).mul (hasDerivAt_id s)).congr_deriv ?_
    simp only [id]
    ring
  have h := hasDerivAt_const_div_mul_sqrt hs 3 hline (by positivity)
  simp only [reciprocalRoot, Nat.cast_ofNat, ← mul_assoc] at h ⊢
  refine h.congr_deriv ?_
  field_simp
  ring

end Root

namespace Jet

noncomputable def square (V : ℕ) (J : ℕ → Jet ℝ) : Jet ℝ := Jet.sum V fun d => (J d).mul (J d)

noncomputable def normalize (V : ℕ) (J : ℕ → Jet ℝ) (i : ℕ) : Jet ℝ :=
  (J i).mul ((square V J).map (1 / Real.sqrt (square V J).v) (reciprocalRoot (square V J).v))

variable (V : ℕ) (J : ℕ → Jet ℝ)

/-- The square of the length, by inner products of the components of the perturbation. -/
theorem square_eq : square V J =
    let v d := (J d).v
    let x d := (J d).x
    let p d := (J d).p
    let q d := (J d).q
    let xp d := (J d).xp
    let xq d := (J d).xq
    let pq d := (J d).pq
    let xpq d := (J d).xpq
    { v := innerTo V v v
      x := 2 * innerTo V v x
      p := 2 * innerTo V v p
      q := 2 * innerTo V v q
      xp := 2 * (innerTo V v xp + innerTo V x p)
      xq := 2 * (innerTo V v xq + innerTo V x q)
      pq := 2 * (innerTo V v pq + innerTo V p q)
      xpq := 2 * (innerTo V v xpq + innerTo V xp q + innerTo V p xq + innerTo V x pq) } := by
  ext <;> simp only [square, sum, mul, innerTo, Finset.mul_sum, ← Finset.sum_add_distrib] <;>
    exact Finset.sum_congr rfl fun d _ => by ring

end Jet

/-- The components of a perturbed vector that is not zero, divided by its length. -/
theorem HasPartials.normalized {V : ℕ} {F : ℕ → ℝ → ℝ → ℝ → ℝ} {J : ℕ → Jet ℝ}
    (hF : ∀ d < V, HasPartials (F d) (J d)) (hpos : 0 < (Jet.square V J).v) {i : ℕ} (hi : i < V) :
    HasPartials (fun p q t => F i p q t /
      Real.sqrt (∑ d ∈ Finset.range V, F d p q t * F d p q t)) (Jet.normalize V J i) := by
  have hsquare := HasPartials.sum fun d hd => (hF d hd).mul (hF d hd)
  have hroot := hsquare.comp (fun _ => hasDerivAt_reciprocalRoot)
    (fun _ => hasDerivAt_reciprocalRoot_first) (fun _ => hasDerivAt_reciprocalRoot_second) hpos
  simp only [div_eq_mul_one_div (F i _ _ _)]
  exact (hF i hi).mul hroot

/-- The table of a normalized field lists the perturbations of the normalized components. -/
theorem Partials.jet_normalize {V : ℕ} {T : Partials ℝ} (k : ℕ) (α β : Variable)
    (hpos : 0 < innerTo V T.value T.value) {i : ℕ} (hi : i < V) :
    (T.normalize V).jet k α β i = Jet.normalize V (T.jet k α β) i := by
  obtain ⟨p, hp⟩ : ∃ p : Vec ℝ, p = .ofFn V T.value := ⟨_, rfl⟩
  have hV : p.size = V := hp ▸ Vec.size_ofFn _ _
  have hvalue (d : ℕ) (hd : d < V) : p.entry d = T.value d := hp ▸ Vec.entry_ofFn _ hd
  have hnorm : p.norm = Real.sqrt (innerTo V T.value T.value) := by
    rw [hp, Vec.norm, Vec.inner_ofFn]
    rfl
  have hr : p.norm ≠ 0 := hnorm ▸ (Real.sqrt_pos.2 hpos).ne'
  have hrr : innerTo V T.value T.value = p.norm * p.norm := by
    rw [hnorm, Real.mul_self_sqrt hpos.le]
  -- The vector is its direction, as often as it is long.
  have hscaled (d : ℕ) (hd : d < V) : T.value d = p.norm * (normalized p).entry d := by
    rw [normalized, Vec.entry_divide, hvalue d hd]
    field_simp
  have hinner (a : ℕ → ℝ) :
      innerTo V T.value a = p.norm * innerTo V (normalized p).entry a := by
    rw [innerTo, innerTo, Finset.mul_sum]
    refine Finset.sum_congr rfl fun d hd => ?_
    rw [hscaled d (Finset.mem_range.1 hd), mul_assoc]
  have hfirst := sum_jacobianEntry (p := p) hi
  have hsecond := sum_hessianEntry hV hi
  have hvi := hscaled i hi
  have hroot : Real.sqrt (p.norm * p.norm) = p.norm := Real.sqrt_mul_self (Vec.norm_nonneg p)
  have hsquare := Jet.square_eq V (T.jet k α β)
  simp only [Partials.jet, hrr] at hsquare
  simp only [Jet.normalize, hsquare, Partials.jet, Partials.normalize, ← hp, hroot]
  simp only [hinner, fun d => jacobianEntry_comm p d i,
    fun u d => hessianEntry_comm p u d i, Finset.sum_add_distrib, bilinear_hessian hV hi,
    bilinear_third hV hi, hfirst, hsecond]
  rw [Jet.mul, Jet.map, reciprocalRoot, hroot]
  simp only [hvi, Nat.cast_ofNat]
  -- Both sides are rational in the length and in inner products, component by component.
  generalize p.norm = r at *
  generalize (normalized p).entry = n at *
  ext
  · field_simp
  all_goals
    field_simp
    ring

end ElementFields
