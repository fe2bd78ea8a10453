import Mathlib.Analysis.Calculus.Deriv.Mul
import ElementFields.Proofs.RealScalar
import ElementFields.Proofs.Partials

/-! Partial derivatives of a number that depends on two coordinates of coefficients, `p` and `q`, and
on a position `t` along an axis, taken one after the other and first along the axis. -/
namespace ElementFields
open Filter Topology
open scoped BigOperators

/-- The entries of `j` are the partial derivatives at zero. A derivative that is differentiated again
only has to exist nearby. -/
def HasPartials (F : ℝ → ℝ → ℝ → ℝ) (j : Jet ℝ) : Prop :=
  ∃ (Fx : ℝ → ℝ → ℝ) (Fq Fxq : ℝ → ℝ),
    (∀ᶠ p in 𝓝 0, ∀ᶠ q in 𝓝 0, HasDerivAt (F p q) (Fx p q) 0) ∧
    (∀ᶠ p in 𝓝 0, HasDerivAt (fun q => F p q 0) (Fq p) 0 ∧ HasDerivAt (Fx p) (Fxq p) 0) ∧
    ((HasDerivAt (fun p => F p 0 0) j.p 0 ∧ HasDerivAt (fun p => Fx p 0) j.xp 0) ∧
      HasDerivAt Fq j.pq 0 ∧ HasDerivAt Fxq j.xpq 0) ∧
    (F 0 0 0 = j.v ∧ Fx 0 0 = j.x) ∧ Fq 0 = j.q ∧ Fxq 0 = j.xq

/-- At zero, the derivative along the second variable has the derivative `c` along the first. -/
def HasMixed (F : ℝ → ℝ → ℝ) (c : ℝ) : Prop :=
  ∃ F' : ℝ → ℝ, (∀ᶠ p in 𝓝 0, HasDerivAt (F p) (F' p) 0) ∧ HasDerivAt F' c 0

theorem HasMixed.unique {F : ℝ → ℝ → ℝ} {c c' : ℝ} (h : HasMixed F c) (h' : HasMixed F c') :
    c = c' := by
  obtain ⟨F₁, hF₁, hc⟩ := h
  obtain ⟨F₂, hF₂, hc'⟩ := h'
  have heq : F₁ =ᶠ[𝓝 0] F₂ := by
    filter_upwards [hF₁, hF₂] with p h₁ h₂
    exact h₁.unique h₂
  exact hc.unique (hc'.congr_of_eventuallyEq heq)

namespace HasPartials

variable {F G : ℝ → ℝ → ℝ → ℝ} {j l : Jet ℝ}

theorem const (c : ℝ) : HasPartials (fun _ _ _ => c) (Jet.const c) := by
  refine ⟨fun _ _ => 0, fun _ => 0, fun _ => 0, ?_, ?_, ⟨⟨?_, ?_⟩, ?_, ?_⟩, ⟨rfl, rfl⟩, rfl, rfl⟩
  · exact Eventually.of_forall fun p => Eventually.of_forall fun q => hasDerivAt_const 0 c
  · exact Eventually.of_forall fun p => ⟨hasDerivAt_const 0 c, hasDerivAt_const 0 0⟩
  · exact hasDerivAt_const 0 c
  all_goals exact hasDerivAt_const 0 0

/-- A number that depends on the position alone. -/
theorem of_position {f : ℝ → ℝ} {f' : ℝ} (hf : HasDerivAt f f' 0) :
    HasPartials (fun _ _ t => f t) { Jet.const (f 0) with x := f' } := by
  refine ⟨fun _ _ => f', fun _ => 0, fun _ => 0, ?_, ?_, ⟨⟨?_, ?_⟩, ?_, ?_⟩, ⟨rfl, rfl⟩, rfl, rfl⟩
  · exact Eventually.of_forall fun p => Eventually.of_forall fun q => hf
  · exact Eventually.of_forall fun p => ⟨hasDerivAt_const 0 (f 0), hasDerivAt_const 0 f'⟩
  · exact hasDerivAt_const 0 (f 0)
  · exact hasDerivAt_const 0 f'
  all_goals exact hasDerivAt_const 0 0

/-- A number that is linear in the two variables. -/
theorem of_variables (c a b : ℝ) :
    HasPartials (fun p q _ => c + (p * a + q * b)) { Jet.const c with p := a, q := b } := by
  have hline (c a : ℝ) : HasDerivAt (fun s : ℝ => c + s * a) a 0 :=
    (((hasDerivAt_id (0 : ℝ)).mul_const a).const_add c).congr_deriv (one_mul a)
  refine ⟨fun _ _ => 0, fun _ => b, fun _ => 0, ?_, ?_, ⟨⟨?_, ?_⟩, ?_, ?_⟩, ⟨?_, rfl⟩, rfl, rfl⟩
  · exact Eventually.of_forall fun p => Eventually.of_forall fun q => hasDerivAt_const 0 _
  · refine Eventually.of_forall fun p => ⟨?_, hasDerivAt_const 0 0⟩
    simpa only [add_assoc] using hline (c + p * a) b
  · simpa only [zero_mul, add_zero] using hline c a
  · exact hasDerivAt_const 0 0
  · exact hasDerivAt_const 0 b
  · exact hasDerivAt_const 0 0
  · simp [Jet.const]

theorem add (hF : HasPartials F j) (hG : HasPartials G l) :
    HasPartials (fun p q t => F p q t + G p q t) (j.add l) := by
  obtain ⟨Fx, Fq, Fxq, hF1, hF2, ⟨⟨hFp, hFxp⟩, hFpq, hFxpq⟩, ⟨hFv, hFx⟩, hFq, hFxq⟩ := hF
  obtain ⟨Gx, Gq, Gxq, hG1, hG2, ⟨⟨hGp, hGxp⟩, hGpq, hGxpq⟩, ⟨hGv, hGx⟩, hGq, hGxq⟩ := hG
  refine ⟨fun p q => Fx p q + Gx p q, fun p => Fq p + Gq p, fun p => Fxq p + Gxq p, ?_, ?_,
    ⟨⟨hFp.add hGp, hFxp.add hGxp⟩, hFpq.add hGpq, hFxpq.add hGxpq⟩, ⟨?_, ?_⟩, ?_, ?_⟩
  · filter_upwards [hF1, hG1] with p hFp hGp
    filter_upwards [hFp, hGp] with q hFq hGq
    exact hFq.add hGq
  · filter_upwards [hF2, hG2] with p hFp hGp
    exact ⟨hFp.1.add hGp.1, hFp.2.add hGp.2⟩
  · exact congrArg₂ (· + ·) hFv hGv
  · exact congrArg₂ (· + ·) hFx hGx
  · exact congrArg₂ (· + ·) hFq hGq
  · exact congrArg₂ (· + ·) hFxq hGxq

theorem mul (hF : HasPartials F j) (hG : HasPartials G l) :
    HasPartials (fun p q t => F p q t * G p q t) (j.mul l) := by
  obtain ⟨Fx, Fq, Fxq, hF1, hF2, ⟨⟨hFp, hFxp⟩, hFpq, hFxpq⟩, ⟨hFv, hFx⟩, hFq, hFxq⟩ := hF
  obtain ⟨Gx, Gq, Gxq, hG1, hG2, ⟨⟨hGp, hGxp⟩, hGpq, hGxpq⟩, ⟨hGv, hGx⟩, hGq, hGxq⟩ := hG
  -- Each derivative is written out by the product rule, so that it can be differentiated again.
  refine ⟨fun p q => Fx p q * G p q 0 + F p q 0 * Gx p q,
    fun p => Fq p * G p 0 0 + F p 0 0 * Gq p,
    fun p => (Fxq p * G p 0 0 + Fx p 0 * Gq p) + (Fq p * Gx p 0 + F p 0 0 * Gxq p), ?_, ?_,
    ⟨⟨?_, ?_⟩, ?_, ?_⟩, ⟨?_, ?_⟩, ?_, ?_⟩
  · filter_upwards [hF1, hG1] with p hFp hGp
    filter_upwards [hFp, hGp] with q hFq hGq
    exact hFq.mul hGq
  · filter_upwards [hF2, hG2] with p hFp hGp
    exact ⟨hFp.1.mul hGp.1, (hFp.2.mul hGp.1).add (hFp.1.mul hGp.2)⟩
  · refine (hFp.mul hGp).congr_deriv ?_
    rw [hFv, hGv, Jet.mul]
  · refine ((hFxp.mul hGp).add (hFp.mul hGxp)).congr_deriv ?_
    rw [hFv, hGv, hFx, hGx, Jet.mul]
    ring
  · refine ((hFpq.mul hGp).add (hFp.mul hGpq)).congr_deriv ?_
    rw [hFv, hGv, hFq, hGq, Jet.mul]
    ring
  · refine (((hFxpq.mul hGp).add (hFxp.mul hGpq)).add
      ((hFpq.mul hGxp).add (hFp.mul hGxpq))).congr_deriv ?_
    rw [hFv, hGv, hFx, hGx, hFq, hGq, hFxq, hGxq, Jet.mul]
    ring
  · simp only [hFv, hGv, Jet.mul]
  · simp only [hFv, hGv, hFx, hGx, Jet.mul]
  · simp only [hFv, hGv, hFq, hGq, Jet.mul]
  · simp only [hFv, hGv, hFx, hGx, hFq, hGq, hFxq, hGxq, Jet.mul]
    ring

theorem scale (hF : HasPartials F j) (s : ℝ) :
    HasPartials (fun p q t => F p q t * s) (j.scale s) := by
  have h := hF.mul (const s)
  have hj : j.mul (Jet.const s) = j.scale s := by
    ext <;> simp [Jet.mul, Jet.const, Jet.scale]
  rwa [hj] at h

theorem sum {n : ℕ} {F : ℕ → ℝ → ℝ → ℝ → ℝ} {j : ℕ → Jet ℝ}
    (h : ∀ d < n, HasPartials (F d) (j d)) :
    HasPartials (fun p q t => ∑ d ∈ Finset.range n, F d p q t) (Jet.sum n j) := by
  induction n with
  | zero => simpa [Jet.sum, Jet.const] using const 0
  | succ n ih =>
    rw [Jet.sum_succ]
    simp only [Finset.sum_range_succ]
    exact (ih fun d hd => h d (by omega)).add (h n (by omega))

/-- Numbers that agree nearby have the same partial derivatives. -/
theorem congr (hF : HasPartials F j)
    (h : ∀ᶠ p in 𝓝 0, ∀ᶠ q in 𝓝 0, ∀ᶠ t in 𝓝 0, G p q t = F p q t) : HasPartials G j := by
  obtain ⟨Fx, Fq, Fxq, hF1, hF2, ⟨⟨hFp, hFxp⟩, hFpq, hFxpq⟩, ⟨hFv, hFx⟩, hFq, hFxq⟩ := hF
  have hq : ∀ᶠ p in 𝓝 0, ∀ᶠ q in 𝓝 0, G p q 0 = F p q 0 :=
    h.mono fun p hp => hp.mono fun q hq => hq.self_of_nhds
  have hp : ∀ᶠ p in 𝓝 0, G p 0 0 = F p 0 0 := hq.mono fun p hp => hp.self_of_nhds
  refine ⟨Fx, Fq, Fxq, ?_, ?_, ⟨⟨hFp.congr_of_eventuallyEq hp, hFxp⟩, hFpq, hFxpq⟩,
    ⟨hp.self_of_nhds.trans hFv, hFx⟩, hFq, hFxq⟩
  · filter_upwards [hF1, h] with p hFp hp
    filter_upwards [hFp, hp] with q hFq hq
    exact hFq.congr_of_eventuallyEq hq
  · filter_upwards [hF2, hq] with p hFp hp
    exact ⟨hFp.1.congr_of_eventuallyEq hp, hFp.2⟩

/-- A positive number stays positive nearby. -/
theorem eventually_pos (hF : HasPartials F j) (hv : 0 < j.v) :
    ∀ᶠ p in 𝓝 0, 0 < F p 0 0 ∧ ∀ᶠ q in 𝓝 0, 0 < F p q 0 := by
  obtain ⟨Fx, Fq, Fxq, hF1, hF2, ⟨⟨hFp, -⟩, -⟩, ⟨hFv, -⟩, -⟩ := hF
  have hp : ∀ᶠ p in 𝓝 0, 0 < F p 0 0 := by
    apply hFp.continuousAt.eventually
    exact lt_mem_nhds (show 0 < F 0 0 0 from hFv ▸ hv)
  filter_upwards [hp, hF2] with p hp hFp
  refine ⟨hp, ?_⟩
  apply hFp.1.continuousAt.eventually
  exact lt_mem_nhds hp

/-- A function of a positive number, by the chain rule. -/
theorem comp (hF : HasPartials F j) {y : ℝ → ℝ} {t : ℝ → Taylor ℝ}
    (h₁ : ∀ v, 0 < v → HasDerivAt y (t v).first v)
    (h₂ : ∀ v, 0 < v → HasDerivAt (fun v => (t v).first) (t v).second v)
    (h₃ : ∀ v, 0 < v → HasDerivAt (fun v => (t v).second) (t v).third v) (hv : 0 < j.v) :
    HasPartials (fun p q s => y (F p q s)) (j.map (y j.v) (t j.v)) := by
  have hpos := hF.eventually_pos hv
  obtain ⟨Fx, Fq, Fxq, hF1, hF2, ⟨⟨hFp, hFxp⟩, hFpq, hFxpq⟩, ⟨hFv, hFx⟩, hFq, hFxq⟩ := hF
  have hv0 : 0 < F 0 0 0 := hFv ▸ hv
  -- The function and its first two derivatives, differentiated along `p` at the origin.
  have h0 := (h₁ _ hv0).comp_of_eq 0 hFp rfl
  have h1 := (h₂ _ hv0).comp_of_eq 0 hFp rfl
  have h2 := (h₃ _ hv0).comp_of_eq 0 hFp rfl
  refine ⟨fun p q => (t (F p q 0)).first * Fx p q, fun p => (t (F p 0 0)).first * Fq p,
    fun p => (t (F p 0 0)).second * Fq p * Fx p 0 + (t (F p 0 0)).first * Fxq p, ?_, ?_,
    ⟨⟨?_, ?_⟩, ?_, ?_⟩, ⟨?_, ?_⟩, ?_, ?_⟩
  · filter_upwards [hF1, hpos] with p hFp hp
    filter_upwards [hFp, hp.2] with q hFq hq
    exact (h₁ _ hq).comp_of_eq 0 hFq rfl
  · -- Nearby the number is still positive, so the function can be differentiated again there.
    filter_upwards [hF2, hpos] with p hFp hp
    exact ⟨(h₁ _ hp.1).comp_of_eq 0 hFp.1 rfl,
      ((h₂ _ hp.1).comp_of_eq 0 hFp.1 rfl).mul hFp.2⟩
  · refine h0.congr_deriv ?_
    rw [hFv, Jet.map]
  · refine (h1.mul hFxp).congr_deriv ?_
    simp only [Function.comp_apply]
    rw [hFv, hFx, Jet.map]
    ring
  · refine (h1.mul hFpq).congr_deriv ?_
    simp only [Function.comp_apply]
    rw [hFv, hFq, Jet.map]
    ring
  · refine (((h2.mul hFpq).mul hFxp).add (h1.mul hFxpq)).congr_deriv ?_
    simp only [Function.comp_apply, Pi.mul_apply]
    rw [hFv, hFx, hFq, hFxq, Jet.map]
    ring
  · simp only [hFv, Jet.map]
  · simp only [hFv, hFx, Jet.map]
  · simp only [hFv, hFq, Jet.map]
  · simp only [hFv, hFx, hFq, hFxq, Jet.map]
    ring

/-- The function of a scalar node. -/
theorem map (hF : HasPartials F j) (g : ScalarMap) (hv : 0 < j.v) :
    HasPartials (fun p q t => g.apply (F p q t)) (j.map (g.apply j.v) (g.derivatives j.v)) :=
  hF.comp (fun _ => g.hasDerivAt_apply) (fun _ => g.hasDerivAt_first)
    (fun _ => g.hasDerivAt_second) hv

/-- What does not depend on the first variable has no derivatives in it. -/
theorem eq_zero_of_fst (hF : HasPartials F j) (h : ∀ p q t, F p q t = F 0 q t) :
    j.p = 0 ∧ j.xp = 0 ∧ j.pq = 0 ∧ j.xpq = 0 := by
  obtain ⟨Fx, Fq, Fxq, hF1, hF2, ⟨⟨hFp, hFxp⟩, hFpq, hFxpq⟩, -⟩ := hF
  have hF (p : ℝ) : F p = F 0 := funext fun q => funext fun t => h p q t
  have hconst {f : ℝ → ℝ} {f' : ℝ} (hf : HasDerivAt f f' 0) (hc : ∀ᶠ p in 𝓝 0, f p = f 0) :
      f' = 0 := hf.unique ((hasDerivAt_const 0 (f 0)).congr_of_eventuallyEq hc)
  have hx : ∀ᶠ p in 𝓝 0, ∀ᶠ q in 𝓝 0, Fx p q = Fx 0 q := by
    filter_upwards [hF1] with p hp
    filter_upwards [hp, hF1.self_of_nhds] with q hq hq0
    exact hq.unique (hF p ▸ hq0)
  have hq : ∀ᶠ p in 𝓝 0, Fq p = Fq 0 ∧ Fxq p = Fxq 0 := by
    filter_upwards [hF2, hx] with p hp hxp
    refine ⟨hp.1.unique (hF p ▸ hF2.self_of_nhds.1), ?_⟩
    exact hp.2.unique (hF2.self_of_nhds.2.congr_of_eventuallyEq hxp)
  refine ⟨hconst hFp (Eventually.of_forall fun p => h p 0 0), hconst hFxp ?_,
    hconst hFpq (hq.mono fun p hp => hp.1), hconst hFxpq (hq.mono fun p hp => hp.2)⟩
  exact hx.mono fun p hp => hp.self_of_nhds

/-- What does not depend on the second variable has no derivatives in it. -/
theorem eq_zero_of_snd (hF : HasPartials F j) (h : ∀ p q t, F p q t = F p 0 t) :
    j.q = 0 ∧ j.xq = 0 ∧ j.pq = 0 ∧ j.xpq = 0 := by
  obtain ⟨Fx, Fq, Fxq, hF1, hF2, ⟨-, hFpq, hFxpq⟩, -, hFq, hFxq⟩ := hF
  have hF (p q : ℝ) : F p q = F p 0 := funext fun t => h p q t
  have hconst {f : ℝ → ℝ} {f' : ℝ} (hf : HasDerivAt f f' 0) (hc : ∀ᶠ p in 𝓝 0, f p = f 0) :
      f' = 0 := hf.unique ((hasDerivAt_const 0 (f 0)).congr_of_eventuallyEq hc)
  have hq : ∀ᶠ p in 𝓝 0, Fq p = 0 ∧ Fxq p = 0 := by
    filter_upwards [hF1, hF2] with p hx hp
    refine ⟨hconst hp.1 (Eventually.of_forall fun q => h p q 0), hconst hp.2 ?_⟩
    filter_upwards [hx] with q hxq
    exact hxq.unique (hF p q ▸ hx.self_of_nhds)
  have hq0 := hq.self_of_nhds
  refine ⟨hFq ▸ hq0.1, hFxq ▸ hq0.2, hconst hFpq ?_, hconst hFxpq ?_⟩
  · exact hq.mono fun p hp => hp.1.trans hq0.1.symm
  · exact hq.mono fun p hp => hp.2.trans hq0.2.symm

end HasPartials

end ElementFields
