import Mathlib.Algebra.MvPolynomial.PDeriv
import Mathlib.Tactic.IntervalCases
import ElementFields.FiniteDifference
import ElementFields.Proofs.AffineShapes

/-! The Hessian by differences. For a cubic the error of the inner difference is a constant, which the
outer one does not see; so the Hessian of a cubic is exact though its gradient is not. -/
namespace ElementFields

open Scalar MvPolynomial

variable {K : Type} [ExactScalar K]

namespace Vec

variable {x : Vec K} {i : ℕ}

theorem entry_step_of_lt {k : ℕ} (hk : k < x.size) (t : K) :
    (x.step i t).entry k = x.entry k + if k = i then t else 0 := by
  rw [step, entry_ofFn _ hk]
  split
  · rfl
  · exact (add_zero _).symm

theorem put_eq_step (hi : i < x.size) (t : K) : x.put i (x.entry i + t) = x.step i t := by
  refine ext_entry (by simp [put]) fun k hk => ?_
  have hk : k < x.size := by simpa [put] using hk
  have hput : entry (x.put i (x.entry i + t)) k = if i = k then x.entry i + t else x.entry k := by
    simp [put, entry, Array.getD, hk, Array.getElem_setIfInBounds]
  rw [hput]
  by_cases hik : i = k
  · subst hik
    rw [if_pos rfl, entry_step hi]
  · rw [if_neg hik, entry_step_of_ne (Ne.symm hik)]

/-- Steps along two axes, or twice along one, can be exchanged. -/
theorem step_comm (x : Vec K) (i j : ℕ) (s t : K) :
    (x.step i s).step j t = (x.step j t).step i s := by
  refine ext_entry (by simp) fun k hk => ?_
  have hk : k < x.size := by simpa using hk
  rw [entry_step_of_lt (by rwa [size_step]), entry_step_of_lt hk,
    entry_step_of_lt (by rwa [size_step]), entry_step_of_lt hk]
  exact add_right_comm _ _ _

def centralDifference (g : Vec K → K) (h : K) (i : ℕ) (x : Vec K) : K :=
  (g (x.step i h) - g (x.step i (-h))) / ((2 : ℕ) * h)

/-- The four-point stencil of a mixed second derivative. -/
theorem centralDifference_twice (g : Vec K → K) (h : K) (i j : ℕ) (x : Vec K) :
    centralDifference (centralDifference g h i) h j x =
      (g ((x.step j h).step i h) - g ((x.step j h).step i (-h)) -
        (g ((x.step j (-h)).step i h) - g ((x.step j (-h)).step i (-h)))) /
        (((2 : ℕ) * h) * ((2 : ℕ) * h)) := by
  rw [centralDifference, centralDifference, centralDifference, ← sub_div, div_div]

/-- Differences along two axes can be exchanged: both are sums over the same four points. -/
theorem centralDifference_comm (g : Vec K → K) (h : K) (i j : ℕ) (x : Vec K) :
    centralDifference (centralDifference g h i) h j x =
      centralDifference (centralDifference g h j) h i x := by
  rw [centralDifference_twice, centralDifference_twice, step_comm x j i h h, step_comm x j i h (-h),
    step_comm x j i (-h) h, step_comm x j i (-h) (-h), sub_sub_sub_comm]

/-- A difference depends on values at points of the same dimension only. -/
theorem centralDifference_congr {g g' : Vec K → K} (hg : ∀ y : Vec K, y.size = x.size → g y = g' y)
    (h : K) (i : ℕ) : centralDifference g h i x = centralDifference g' h i x := by
  rw [centralDifference, centralDifference, hg _ (size_step x i h), hg _ (size_step x i (-h))]

end Vec

section Derivatives

variable {σ : Type} {i j : σ} {p : MvPolynomial σ K}

theorem totalDegree_pderiv_le {n : ℕ} (hp : p.totalDegree ≤ n + 1) (i : σ) :
    (pderiv i p).totalDegree ≤ n := by
  refine Finset.sup_le fun m hm => ?_
  have hcoeff : coeff (m + Finsupp.single i 1) p ≠ 0 := by
    intro hzero
    rw [mem_support_iff, coeff_pderiv, hzero, zero_mul] at hm
    exact hm rfl
  have hle := (le_totalDegree (mem_support_iff.2 hcoeff)).trans hp
  rw [Finsupp.sum_add_index' (fun _ => rfl) fun _ _ _ => rfl,
    Finsupp.sum_single_index (h := fun _ e => e) rfl] at hle
  omega

theorem pderiv_eq_zero (hp : p.totalDegree ≤ 0) (i : σ) : pderiv i p = 0 := by
  rw [totalDegree_eq_zero_iff_eq_C.1 (Nat.le_zero.1 hp), pderiv_C]

/-- A cubic has no fourth derivatives. -/
theorem pderiv_fourth_eq_zero (hp : p.totalDegree ≤ 3) (i j k l : σ) :
    pderiv l (pderiv k (pderiv j (pderiv i p))) = 0 :=
  pderiv_eq_zero (totalDegree_pderiv_le (totalDegree_pderiv_le (totalDegree_pderiv_le hp i) j) k) l

/-- What a central difference with step `h` makes of a polynomial of degree at most four. -/
noncomputable def differencePolynomial (h : K) (i : σ) (p : MvPolynomial σ K) : MvPolynomial σ K :=
  pderiv i p + C (h ^ 2 / 6) * pderiv i (pderiv i (pderiv i p))

theorem totalDegree_differencePolynomial_le (hp : p.totalDegree ≤ 3) (h : K) (i : σ) :
    (differencePolynomial h i p).totalDegree ≤ 2 := by
  have hfirst := totalDegree_pderiv_le hp i
  have hthird := totalDegree_pderiv_le (totalDegree_pderiv_le hfirst i) i
  refine (totalDegree_add _ _).trans (max_le hfirst ?_)
  refine (totalDegree_mul _ _).trans ?_
  rw [totalDegree_C]
  omega

/-- For a cubic the two errors vanish: one is the derivative of a constant, the other one takes three
derivatives of a quadratic. -/
theorem differencePolynomial_differencePolynomial (hp : p.totalDegree ≤ 3) (h : K) (i j : σ) :
    differencePolynomial h j (differencePolynomial h i p) = pderiv j (pderiv i p) := by
  have hthird : pderiv j (differencePolynomial h i p) = pderiv j (pderiv i p) := by
    rw [differencePolynomial, map_add, pderiv_C_mul, pderiv_fourth_eq_zero hp, mul_zero, add_zero]
  rw [differencePolynomial, hthird, pderiv_fourth_eq_zero hp, mul_zero, add_zero]

theorem erase_sub_single (s : σ →₀ ℕ) (i : σ) (n : ℕ) :
    (s - Finsupp.single i n).erase i = s.erase i := by
  ext k
  by_cases hk : k = i
  · rw [hk, Finsupp.erase_same, Finsupp.erase_same]
  · rw [Finsupp.erase_ne hk, Finsupp.erase_ne hk, Finsupp.tsub_apply, Finsupp.single_eq_of_ne hk,
      Nat.sub_zero]

/-- The value of a monomial, with the power of one variable apart. -/
theorem eval_monomial_apart (x : σ → K) (i : σ) (s : σ →₀ ℕ) (c : K) :
    eval x (monomial s c) = c * (x i ^ s i * (s.erase i).prod fun k e => x k ^ e) := by
  rw [eval_monomial, Finsupp.mul_prod_erase' s i _ fun k => pow_zero (x k)]

theorem eval_pderiv_monomial (x : σ → K) (i : σ) (s : σ →₀ ℕ) (c : K) :
    eval x (pderiv i (monomial s c)) =
      c * s i * (x i ^ (s i - 1) * (s.erase i).prod fun k e => x k ^ e) := by
  rw [pderiv_monomial, eval_monomial_apart _ i, erase_sub_single]
  simp

theorem eval_pderiv_thrice_monomial (x : σ → K) (i : σ) (s : σ →₀ ℕ) (c : K) :
    eval x (pderiv i (pderiv i (pderiv i (monomial s c)))) =
      c * s i * (s i - 1 : ℕ) * (s i - 2 : ℕ) *
        (x i ^ (s i - 3) * (s.erase i).prod fun k e => x k ^ e) := by
  rw [pderiv_monomial, pderiv_monomial, eval_pderiv_monomial, erase_sub_single, erase_sub_single]
  simp [Nat.sub_sub]

variable [DecidableEq σ]

/-- The factors of the other variables stay when one variable is changed. -/
theorem eval_monomial_update (x : σ → K) (i : σ) (s : σ →₀ ℕ) (c a : K) :
    eval (Function.update x i a) (monomial s c) =
      c * (a ^ s i * (s.erase i).prod fun k e => x k ^ e) := by
  rw [eval_monomial_apart _ i, Function.update_self]
  congr 2
  apply Finsupp.prod_congr
  intro k hk
  have hki : k ≠ i := by
    rintro rfl
    simp at hk
  rw [Function.update_of_ne hki]

theorem eval_update_sub (hp : p.totalDegree ≤ 4) (x : σ → K) (i : σ) (h : K) :
    eval (Function.update x i (x i + h)) p - eval (Function.update x i (x i + -h)) p =
      2 * h * eval x (differencePolynomial h i p) := by
  simp only [differencePolynomial, map_add, map_mul, eval_C]
  -- Both sides are linear, so it is enough to look at the monomials of the polynomial.
  rw [p.as_sum]
  simp only [map_sum, Finset.mul_sum, ← Finset.sum_add_distrib, ← Finset.sum_sub_distrib]
  refine Finset.sum_congr rfl fun s hs => ?_
  have hdegree : s i ≤ 4 :=
    (monomial_le_degreeOf i hs).trans ((degreeOf_le_totalDegree p i).trans hp)
  rw [eval_monomial_update, eval_monomial_update, eval_pderiv_monomial, eval_pderiv_thrice_monomial]
  -- Only the power of one variable matters. With the fifth power there would be another error term.
  generalize s i = e at hdegree ⊢
  interval_cases e <;> push_cast <;> ring

end Derivatives

namespace Vec

variable {x : Vec K} {n : ℕ} {p : MvPolynomial (Fin n) K} {h : K}

noncomputable def polynomialValue (p : MvPolynomial (Fin n) K) (x : Vec K) : K :=
  eval (fun k : Fin n => x.entry k) p

theorem entry_step_eq_update (hx : x.size = n) (i : Fin n) (t : K) :
    (fun k : Fin n => (x.step i t).entry k) =
      Function.update (fun k : Fin n => x.entry k) i (x.entry i + t) := by
  ext k
  by_cases hk : k = i
  · rw [hk, Function.update_self, entry_step (hx.symm ▸ i.isLt)]
  · rw [Function.update_of_ne hk, entry_step_of_ne fun he => hk (Fin.ext he)]

theorem centralDifference_polynomialValue (hx : x.size = n) (hne : h ≠ 0) (hp : p.totalDegree ≤ 4)
    (i : Fin n) :
    centralDifference (polynomialValue p) h i x = polynomialValue (differencePolynomial h i p) x := by
  have h2 : ((2 : ℕ) : K) * h ≠ 0 := mul_ne_zero (Nat.cast_ne_zero.2 two_ne_zero) hne
  rw [centralDifference, div_eq_iff h2, polynomialValue, polynomialValue, polynomialValue,
    entry_step_eq_update hx, entry_step_eq_update hx, eval_update_sub hp, Nat.cast_ofNat]
  exact mul_comm _ _

/-- For a cubic, the difference of differences is the second derivative. -/
theorem centralDifference_twice_of_cubic (hx : x.size = n) (hne : h ≠ 0) (hp : p.totalDegree ≤ 3)
    (i j : Fin n) :
    centralDifference (centralDifference (polynomialValue p) h i) h j x =
      polynomialValue (pderiv j (pderiv i p)) x := by
  have hinner (y : Vec K) (hy : y.size = x.size) :
      centralDifference (polynomialValue p) h i y =
        polynomialValue (differencePolynomial h i p) y :=
    centralDifference_polynomialValue (hy.trans hx) hne (hp.trans (by omega)) i
  -- The first difference is a quadratic, which the second one takes as well.
  have hdegree : (differencePolynomial h i p).totalDegree ≤ 4 :=
    (totalDegree_differencePolynomial_le hp h i).trans (by omega)
  rw [centralDifference_congr hinner, centralDifference_polynomialValue hx hne hdegree,
    differencePolynomial_differencePolynomial hp]

end Vec

/-- The components of the gradient are the central differences of the function, and the scratch vector
is restored. -/
def GradientScheme.IsCentral (gradient : GradientScheme K) : Prop :=
  ∀ (f : Vec K → Checked K) (g : Vec K → K) (h : K) (x : Vec K),
    (∀ y : Vec K, y.size = x.size → f y = .ok (g y)) →
      (gradient f h).run x = .ok (.ofFn x.size fun i => Vec.centralDifference g h i x, x)

def JacobianScheme.IsCentral (jacobian : JacobianScheme K) : Prop :=
  ∀ (m : ℕ) (F : Vec K → Checked (Vec K)) (G : Vec K → Vec K) (h : K) (x : Vec K),
    (∀ y : Vec K, y.size = x.size → F y = .ok (G y) ∧ (G y).size = m) →
      (jacobian m F h).run x = .ok (.ofFn m x.size fun i j =>
        Vec.centralDifference (fun y => (G y).entry i) h j x, x)

section Run

variable {α β : Type} {x : Vec K}

omit [ExactScalar K] in
/-- Items that restore the scratch vector do so one after the other. -/
theorem run_mapM_of_restores {item : α → Scratch K β} {value : α → β} {l : List α}
    (h : ∀ a ∈ l, (item a).run x = .ok (value a, x)) :
    (l.mapM item).run x = .ok (l.map value, x) := by
  induction l with
  | nil => rfl
  | cons a rest ih =>
    have hrest := ih fun b hb => h b (List.mem_cons_of_mem a hb)
    rw [List.mapM_cons, StateT.run_bind, h a List.mem_cons_self]
    -- The rest starts from the vector that the first item has restored.
    show ((rest.mapM item >>= fun bs => pure (value a :: bs)).run x) = _
    rw [StateT.run_bind, hrest]
    rfl

/-- Two evaluations, one ahead and one behind. -/
theorem run_evalShifted_twice {f : Vec K → Checked α} {g : Vec K → α}
    (hf : ∀ y : Vec K, y.size = x.size → f y = .ok (g y)) {i : ℕ} (hi : i < x.size) (h : K)
    (combine : α → α → β) :
    (do
      let ahead ← evalShifted f i h
      let behind ← evalShifted f i (-h)
      return combine ahead behind : Scratch K β).run x =
        .ok (combine (g (x.step i h)) (g (x.step i (-h))), x) := by
  have heval (t : K) : (evalShifted f i t).run x = .ok (g (x.step i t), x) := by
    rw [run_evalShifted hi, Vec.put_eq_step hi, hf _ (Vec.size_step x i t)]
    rfl
  rw [StateT.run_bind, heval h]
  show ((evalShifted f i (-h) >>= fun behind => pure (combine (g (x.step i h)) behind)).run x) = _
  rw [StateT.run_bind, heval (-h)]
  rfl

end Run

theorem isCentral_gradientByDifferences :
    (gradientByDifferences : GradientScheme K).IsCentral := by
  intro f g h x hf
  have hitems := run_mapM_of_restores fun i (hi : i ∈ List.range x.size) =>
    run_evalShifted_twice hf (List.mem_range.1 hi) h fun ahead behind =>
      (ahead - behind) / ((2 : ℕ) * h)
  simp only [gradientByDifferences, StateT.run_bind, StateT.run_get, pure_bind]
  rw [hitems]
  refine congrArg (fun v => Except.ok (v, x)) (Vec.ext_entry (by simp) fun i hi => ?_)
  have hi : i < x.size := by simpa using hi
  rw [Vec.entry_ofFn _ hi]
  simp [Vec.entry, Array.getD, hi, Vec.centralDifference]

theorem isCentral_jacobianByDifferences :
    (jacobianByDifferences : JacobianScheme K).IsCentral := by
  intro m F G h x hF
  have hitems := run_mapM_of_restores fun j (hj : j ∈ List.range x.size) =>
    run_evalShifted_twice (fun y hy => (hF y hy).1) (List.mem_range.1 hj) h fun ahead behind =>
      Vec.ofFn m fun i => (ahead.entry i - behind.entry i) / ((2 : ℕ) * h)
  simp only [jacobianByDifferences, StateT.run_bind, StateT.run_get, pure_bind]
  rw [hitems]
  refine congrArg (fun M => Except.ok (M, x)) (Mat.ext_entry rfl rfl fun i j hi hj => ?_)
  have hi : i < m := hi
  have hj : j < x.size := hj
  have hcolumn : ((List.range x.size).map fun j => Vec.ofFn m fun i =>
      ((G (x.step j h)).entry i - (G (x.step j (-h))).entry i) / ((2 : ℕ) * h)).getD j #[] =
        Vec.ofFn m fun i => Vec.centralDifference (fun y => (G y).entry i) h j x := by
    rw [List.getD_eq_getElem?_getD, List.getElem?_map, List.getElem?_range hj]
    rfl
  refine (Mat.entry_ofFn _ hi hj).trans (Eq.trans ?_ (Mat.entry_ofFn _ hi hj).symm)
  rw [hcolumn]
  exact Vec.entry_ofFn _ hi

def Vec.secondDifferences (g : Vec K → K) (h : K) (x : Vec K) : Mat K :=
  .ofFn x.size x.size fun i j => centralDifference (centralDifference g h i) h j x

theorem Vec.entry_secondDifferences {g : Vec K → K} {h : K} {x : Vec K} {i j : ℕ}
    (hi : i < x.size) (hj : j < x.size) :
    (secondDifferences g h x).entry i j = centralDifference (centralDifference g h i) h j x :=
  Mat.entry_ofFn _ hi hj

theorem Vec.transpose_secondDifferences (g : Vec K → K) (h : K) (x : Vec K) :
    (secondDifferences g h x).transpose = secondDifferences g h x := by
  refine Mat.ext_entry rfl rfl fun i j (hi : i < x.size) (hj : j < x.size) => ?_
  calc (secondDifferences g h x).transpose.entry i j
      = (secondDifferences g h x).entry j i := Mat.entry_ofFn _ hi hj
    _ = centralDifference (centralDifference g h j) h i x := entry_secondDifferences hj hi
    _ = centralDifference (centralDifference g h i) h j x := centralDifference_comm g h j i x
    _ = (secondDifferences g h x).entry i j := (entry_secondDifferences hi hj).symm

/-- The gradient is taken on a copy of each point, so the outer differences see an ordinary function. -/
theorem run_hessianBy {gradient : GradientScheme K} {jacobian : JacobianScheme K}
    (hgradient : gradient.IsCentral) (hjacobian : jacobian.IsCentral) {f : Vec K → Checked K}
    {g : Vec K → K} {x : Vec K} (hf : ∀ y : Vec K, y.size = x.size → f y = .ok (g y)) (h : K) :
    (hessianBy gradient jacobian f h).run x = .ok (Vec.secondDifferences g h x, x) := by
  have hinner (y : Vec K) (hy : y.size = x.size) :
      (gradient f h).run' y = .ok (.ofFn y.size fun i => Vec.centralDifference g h i y) ∧
        (Vec.ofFn y.size fun i => Vec.centralDifference g h i y).size = x.size := by
    refine ⟨?_, (Vec.size_ofFn _ _).trans hy⟩
    rw [StateT.run'_eq, hgradient f g h y fun z hz => hf z (hz.trans hy)]
    rfl
  simp only [hessianBy, StateT.run_bind, StateT.run_get, pure_bind]
  rw [hjacobian _ _ _ h x hinner]
  refine congrArg (fun H => Except.ok (H, x))
    (Mat.ext_entry rfl rfl fun i j (hi : i < x.size) (hj : j < x.size) => ?_)
  rw [Vec.entry_secondDifferences hi hj]
  -- The component of the gradient exists at the shifted points, which have the same dimension.
  refine (Mat.entry_ofFn _ hi hj).trans (Vec.centralDifference_congr (fun y hy => ?_) h j)
  exact Vec.entry_ofFn _ (hy.symm ▸ hi)

/-- Whatever the function is, its Hessian by central differences is a symmetric matrix and the scratch
vector is what it was. For a polynomial of degree at most three the matrix is the Hessian. -/
theorem hessianBy_exact {gradient : GradientScheme K} {jacobian : JacobianScheme K}
    (hgradient : gradient.IsCentral) (hjacobian : jacobian.IsCentral) {f : Vec K → Checked K}
    {g : Vec K → K} {x : Vec K} (hf : ∀ y : Vec K, y.size = x.size → f y = .ok (g y)) {h : K}
    (hne : h ≠ 0) :
    ∃ H, (hessianBy gradient jacobian f h).run x = .ok (H, x) ∧ H.shape = (x.size, x.size) ∧
      H.transpose = H ∧
      ∀ p : MvPolynomial (Fin x.size) K, p.totalDegree ≤ 3 →
        (∀ y : Vec K, y.size = x.size → g y = Vec.polynomialValue p y) →
        ∀ i j : Fin x.size, H.entry i j = Vec.polynomialValue (pderiv j (pderiv i p)) x := by
  refine ⟨_, run_hessianBy hgradient hjacobian hf h, rfl, Vec.transpose_secondDifferences g h x,
    fun p hp hg i j => ?_⟩
  rw [Vec.entry_secondDifferences i.isLt j.isLt, ← Vec.centralDifference_twice_of_cubic rfl hne hp]
  refine Vec.centralDifference_congr (fun y hy => ?_) h j
  exact Vec.centralDifference_congr (fun z hz => hg z (hz.trans hy)) h i

/-- The Hessian of `x₀² x₁`. The differences of `x₀²` along the other axis have an error of their own. -/
theorem hessianBy_exact_cubic :
    ∃ H, (hessianByDifferences (fun y : Vec ℝ => .ok (y.entry 0 * y.entry 0 * y.entry 1)) 1).run
        #[1, 2] = .ok (H, #[1, 2]) ∧
      H.shape = (2, 2) ∧ H.transpose = H ∧
      H.entry 0 0 = 4 ∧ H.entry 0 1 = 2 ∧ H.entry 1 0 = 2 ∧ H.entry 1 1 = 0 := by
  obtain ⟨H, hrun, hshape, hsymmetric, hexact⟩ := hessianBy_exact
    (isCentral_gradientByDifferences (K := ℝ)) isCentral_jacobianByDifferences (x := #[1, 2])
    (f := fun y => .ok (y.entry 0 * y.entry 0 * y.entry 1))
    (g := fun y => y.entry 0 * y.entry 0 * y.entry 1) (fun _ _ => rfl) one_ne_zero
  have hdegree : (X 0 * X 0 * X 1 : MvPolynomial (Fin 2) ℝ).totalDegree ≤ 3 := by
    refine (totalDegree_mul _ _).trans (Nat.add_le_add (totalDegree_mul _ _) le_rfl |>.trans ?_)
    rw [totalDegree_X, totalDegree_X]
  have hentry (i j : Fin 2) : H.entry i j =
      eval (fun k : Fin 2 => Vec.entry (K := ℝ) #[1, 2] k) (pderiv j (pderiv i (X 0 * X 0 * X 1))) :=
    hexact _ hdegree (fun y _ => by simp [Vec.polynomialValue]) i j
  simp only [Derivation.leibniz, pderiv_X, map_add] at hentry
  refine ⟨H, hrun, hshape, hsymmetric, (hentry 0 0).trans ?_, (hentry 0 1).trans ?_,
    (hentry 1 0).trans ?_, (hentry 1 1).trans ?_⟩ <;> simp [Vec.entry] <;> norm_num

end ElementFields
