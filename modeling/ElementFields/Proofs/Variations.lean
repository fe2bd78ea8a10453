import ElementFields.Proofs.Exactness
import ElementFields.Proofs.Updates

namespace ElementFields
open Filter Scalar Topology
open scoped BigOperators

/-- A number that depends on two variables, with its value, its first derivatives and the mixed one. -/
def HasVariations (F : ℝ → ℝ → ℝ) (v a b c : ℝ) : Prop :=
  HasPartials (fun p q _ => F p q) ⟨v, 0, a, b, 0, 0, c, 0⟩

/-- At a fixed position, a number varies as its partial derivatives say. -/
theorem HasPartials.hasVariations {F : ℝ → ℝ → ℝ → ℝ} {j : Jet ℝ} (h : HasPartials F j) :
    HasVariations (fun p q => F p q 0) j.v j.p j.q j.pq := by
  obtain ⟨_, Fq, _, -, hq, ⟨⟨hp, -⟩, hpq, -⟩, ⟨hv, -⟩, hq0, -⟩ := h
  have hzero (x : ℝ) : HasDerivAt (fun _ : ℝ => (0 : ℝ)) 0 x := hasDerivAt_const x 0
  refine ⟨fun _ _ => 0, Fq, fun _ => 0, ?_, hq.mono fun p hp => ⟨hp.1, hzero 0⟩,
    ⟨⟨hp, hzero 0⟩, hpq, hzero 0⟩, ⟨hv, rfl⟩, hq0, rfl⟩
  exact Eventually.of_forall fun p => Eventually.of_forall fun q => hasDerivAt_const 0 _

namespace HasVariations

variable {F G : ℝ → ℝ → ℝ} {v a b c v' a' b' c' : ℝ}

theorem hasMixed (h : HasVariations F v a b c) : HasMixed F c := by
  obtain ⟨_, F', _, -, hq, ⟨-, hpq, -⟩, -⟩ := h
  exact ⟨F', hq.mono fun p hp => hp.1, hpq⟩

theorem congr (h : HasVariations F v a b c) (hv : v = v') (ha : a = a') (hb : b = b') (hc : c = c') :
    HasVariations F v' a' b' c' := by
  subst hv ha hb hc
  exact h

theorem const (x : ℝ) : HasVariations (fun _ _ => x) x 0 0 0 := HasPartials.const x

theorem linear (x a b : ℝ) : HasVariations (fun p q => x + (p * a + q * b)) x a b 0 :=
  HasPartials.of_variables x a b

theorem add (hF : HasVariations F v a b c) (hG : HasVariations G v' a' b' c') :
    HasVariations (fun p q => F p q + G p q) (v + v') (a + a') (b + b') (c + c') := by
  have h := HasPartials.add hF hG
  simp only [Jet.add, add_zero] at h
  exact h

theorem mul (hF : HasVariations F v a b c) (hG : HasVariations G v' a' b' c') :
    HasVariations (fun p q => F p q * G p q) (v * v') (a * v' + v * a') (b * v' + v * b')
      (c * v' + a * b' + b * a' + v * c') := by
  have h := HasPartials.mul hF hG
  simp only [Jet.mul, zero_mul, mul_zero, add_zero] at h
  exact h

theorem const_mul (x : ℝ) (hF : HasVariations F v a b c) :
    HasVariations (fun p q => x * F p q) (x * v) (x * a) (x * b) (x * c) := by
  have h := (const x).mul hF
  simp only [zero_mul, zero_add] at h
  exact h

theorem sum {n : ℕ} {F : ℕ → ℝ → ℝ → ℝ} {v a b c : ℕ → ℝ}
    (h : ∀ d < n, HasVariations (F d) (v d) (a d) (b d) (c d)) :
    HasVariations (fun p q => ∑ d ∈ Finset.range n, F d p q) (∑ d ∈ Finset.range n, v d)
      (∑ d ∈ Finset.range n, a d) (∑ d ∈ Finset.range n, b d) (∑ d ∈ Finset.range n, c d) := by
  have h := HasPartials.sum h
  simp only [Jet.sum, Finset.sum_const_zero] at h
  exact h

end HasVariations

structure Partials.Vary (T : ℝ → ℝ → Partials ℝ) (B : Partials ℝ) (V : ℕ) (α β : Variable) :
    Prop where
  value : ∀ i < V, HasVariations (fun p q => (T p q).value i) (B.value i) (B.varied α i)
    (B.varied β i) (B.twice α β i)
  slope : ∀ k, ∀ i < V, HasVariations (fun p q => (T p q).slope k i) (B.slope k i) (B.mixed k α i)
    (B.mixed k β i) (B.thrice k α β i)

namespace Partials.Vary

variable {T S : ℝ → ℝ → Partials ℝ} {B A : Partials ℝ} {V : ℕ} {α β : Variable}

theorem const (x : ℝ) (V : ℕ) : Vary (fun _ _ => .const x) (.const x) V α β :=
  ⟨fun _ _ => .const x, fun _ _ _ => .const 0⟩

theorem scale (h : Vary T B V α β) (s : ℝ) :
    Vary (fun p q => (T p q).scale s) (B.scale s) V α β := by
  refine ⟨fun i hi => ?_, fun k i hi => ?_⟩
  · simpa only [Partials.scale, mul_comm _ s] using (h.value i hi).const_mul s
  · simpa only [Partials.scale, mul_comm _ s] using (h.slope k i hi).const_mul s

theorem add (h : Vary T B V α β) (h' : Vary S A V α β) :
    Vary (fun p q => (T p q).add (S p q)) (B.add A) V α β :=
  ⟨fun i hi => (h.value i hi).add (h'.value i hi),
    fun k i hi => (h.slope k i hi).add (h'.slope k i hi)⟩

theorem inner (h : Vary T B V α β) (h' : Vary S A V α β) :
    Vary (fun p q => Partials.inner V (T p q) (S p q)) (Partials.inner V B A) 1 α β := by
  refine ⟨fun i _ => ?_, fun k i _ => ?_⟩
  · exact .sum fun d hd => (h.value d hd).mul (h'.value d hd)
  · have hterm (d : ℕ) (hd : d < V) := ((h.slope k d hd).mul (h'.value d hd)).add
      ((h.value d hd).mul (h'.slope k d hd))
    simpa only [Partials.inner, ← add_assoc] using HasVariations.sum hterm

end Partials.Vary

end ElementFields
