import ElementFields.Proofs.Linearity
import ElementFields.Proofs.ProductRule
import ElementFields.Proofs.StrainRule

namespace ElementFields
open Scalar
open scoped BigOperators

structure Correction (K : Type) where
  block : BlockId
  count : ℕ
  size : ℕ
  stacked : Vec K

def firstRequest {K : Type} (site : Site K) (c : Coefficient) : Request K :=
  { site, directions := { coefficients := .single c } }

def secondRequest {K : Type} (site : Site K) (c₁ c₂ : Coefficient) (W : Mat K) : Request K :=
  { site, directions := { coefficients := .two c₁ c₂ }, along := some W }

variable {K : Type}

def Correction.coefficient (δ : Correction K) (j : ℕ) : Coefficient := ⟨δ.block, j⟩

/-- Directions in the coefficients that a correction moves, along no axis or along all of them. -/
def Directions.Concern (d : Directions) (δ : Correction K) : Prop :=
  (∀ k, d.spatial ≠ some (.single k)) ∧
    ∀ c ∈ d.coefficientList, ∃ j < δ.count, c = δ.coefficient j

inductive Request.FirstOrder (δ : Correction K) (site : Site K) : Request K → Prop
  | gradient : FirstOrder δ site (Strain.gradientRequest site)
  | first {j : ℕ} (hj : j < δ.count) : FirstOrder δ site (firstRequest site (δ.coefficient j))
  | variation {j : ℕ} (hj : j < δ.count) :
    FirstOrder δ site (Strain.variationRequest site (δ.coefficient j))

section Concern

variable {δ : Correction K} {site : Site K}

theorem concern_gradient (δ : Correction K) (site : Site K) :
    (Strain.gradientRequest site).directions.Concern δ :=
  ⟨fun _ hk => (nomatch hk), fun _ hc => absurd hc List.not_mem_nil⟩

theorem concern_first (site : Site K) {j : ℕ} (hj : j < δ.count) :
    (firstRequest site (δ.coefficient j)).directions.Concern δ :=
  ⟨fun _ hk => (nomatch hk), fun _ hc => ⟨j, hj, List.mem_singleton.1 hc⟩⟩

theorem concern_variation (site : Site K) {j : ℕ} (hj : j < δ.count) :
    (Strain.variationRequest site (δ.coefficient j)).directions.Concern δ :=
  ⟨fun _ hk => (nomatch hk), fun _ hc => ⟨j, hj, List.mem_singleton.1 hc⟩⟩

theorem concern_second (site : Site K) (W : Mat K) {j j' : ℕ} (hj : j < δ.count)
    (hj' : j' < δ.count) :
    (secondRequest site (δ.coefficient j) (δ.coefficient j') W).directions.Concern δ := by
  refine ⟨fun _ hk => (nomatch hk), fun c hc => ?_⟩
  rcases List.mem_cons.1 hc with rfl | hc
  · exact ⟨j, hj, rfl⟩
  · exact ⟨j', hj', List.mem_singleton.1 hc⟩

theorem fits_second {V G : ℕ} {W : Mat K} (hW : W.rows = V ∧ W.cols = 1) {c₁ c₂ : Coefficient} :
    (secondRequest site c₁ c₂ W).Fits V G :=
  fun _ _ _ => ⟨W, rfl, hW.1, hW.2.trans (if_neg fun h => (nomatch h)).symm⟩

end Concern

variable [ExactScalar K]

namespace Correction

def part (δ : Correction K) (j a : ℕ) : K := δ.stacked.entry (j * δ.size + a)

/-- The sum of a family over the components of all coefficients, weighed by the correction. -/
def weigh (δ : Correction K) (g : ℕ → ℕ → K) : K :=
  ∑ j ∈ Finset.range δ.count, ∑ a ∈ Finset.range δ.size, g j a * δ.part j a

variable (δ : Correction K)

theorem weigh_congr {g h : ℕ → ℕ → K} (hgh : ∀ j < δ.count, ∀ a < δ.size, g j a = h j a) :
    δ.weigh g = δ.weigh h := by
  refine Finset.sum_congr rfl fun j hj => Finset.sum_congr rfl fun a ha => ?_
  rw [hgh j (Finset.mem_range.mp hj) a (Finset.mem_range.mp ha)]

theorem weigh_zero {g : ℕ → ℕ → K} (hg : ∀ j < δ.count, ∀ a < δ.size, g j a = 0) :
    δ.weigh g = 0 := by
  rw [δ.weigh_congr hg]
  exact Finset.sum_eq_zero fun j _ => Finset.sum_eq_zero fun a _ => zero_mul _

theorem weigh_add (g h : ℕ → ℕ → K) :
    δ.weigh (fun j a => g j a + h j a) = δ.weigh g + δ.weigh h := by
  simp only [weigh, add_mul, Finset.sum_add_distrib]

theorem weigh_mul (x : K) (g : ℕ → ℕ → K) : δ.weigh (fun j a => x * g j a) = x * δ.weigh g := by
  simp only [weigh, Finset.mul_sum, mul_assoc]

theorem weigh_mul_right (g : ℕ → ℕ → K) (x : K) :
    δ.weigh (fun j a => g j a * x) = δ.weigh g * x := by
  simp only [mul_comm _ x, weigh_mul]

theorem weigh_sum (n : ℕ) (g : ℕ → ℕ → ℕ → K) :
    δ.weigh (fun j a => ∑ d ∈ Finset.range n, g d j a) =
      ∑ d ∈ Finset.range n, δ.weigh (g d) := by
  induction n with
  | zero => exact δ.weigh_zero fun _ _ _ _ => Finset.sum_range_zero _
  | succ n ih => simp only [Finset.sum_range_succ, weigh_add, ih]

/-- A unit vector picks the components of one kind. -/
theorem weigh_delta {i : ℕ} (hi : i < δ.size) (w : ℕ → K) :
    δ.weigh (fun j a => w j * delta i a) = ∑ j ∈ Finset.range δ.count, w j * δ.part j i := by
  refine Finset.sum_congr rfl fun j _ => ?_
  rw [Finset.sum_eq_single_of_mem i (Finset.mem_range.mpr hi)]
  · simp only [Scalar.delta, if_true, mul_one]
  · intro a _ ha
    simp only [Scalar.delta, if_neg (Ne.symm ha), mul_zero, zero_mul]

end Correction

namespace Operand

variable (o : Operand K) (δ : Correction K) (site : Site K)

def along (i : ℕ) : K := δ.weigh fun j a => o.entry (firstRequest site (δ.coefficient j)) 0 i a

def gradientAlong (i k : ℕ) : K :=
  δ.weigh fun j a => Strain.variationOf o site (δ.coefficient j) a i k

/-- Twice the term of second order, contracted with `W`. -/
def alongTwice (W : Mat K) : K :=
  δ.weigh fun j a => δ.weigh fun j' b =>
    o.entry (secondRequest site (δ.coefficient j) (δ.coefficient j') W) 0 a b

def AnswersFirst : Prop := ∀ j < δ.count, o.Answers (firstRequest site (δ.coefficient j))

def AnswersVariations : Prop :=
  ∀ j < δ.count, o.Answers (Strain.variationRequest site (δ.coefficient j))

def AnswersSecond (W : Mat K) : Prop :=
  ∀ j < δ.count, ∀ j' < δ.count,
    o.Answers (secondRequest site (δ.coefficient j) (δ.coefficient j') W)

structure Affine (o' : Operand K) (V G : ℕ) : Prop where
  value : ∀ m, o.value site = .ok m → o.AnswersFirst δ site →
    ∃ m', o'.value site = .ok m' ∧ ∀ i < V, m'.entry i 0 = m.entry i 0 + o.along δ site i
  gradient : o.Answers (Strain.gradientRequest site) → o.AnswersVariations δ site →
    o'.Answers (Strain.gradientRequest site) ∧ ∀ i < V, ∀ k < G,
      Strain.gradientOf o' site i k = Strain.gradientOf o site i k + o.gradientAlong δ site i k

/-- By the correction `o` becomes `o'`, and its value contracted with any weights changes by the terms
of first and second order. -/
def Quadratic (o' : Operand K) (V : ℕ) : Prop :=
  ∀ m, o.value site = .ok m → o.AnswersFirst δ site →
    ∀ W : Mat K, W.rows = V ∧ W.cols = 1 → o.AnswersSecond δ site W →
      ∃ m', o'.value site = .ok m' ∧
        ∑ i ∈ Finset.range V, W.entry i 0 * m'.entry i 0 =
          ∑ i ∈ Finset.range V, W.entry i 0 * (m.entry i 0 + o.along δ site i) +
            1 / 2 * o.alongTwice δ site W

variable {o δ site}

/-- An affine operand is quadratic, as its terms of second order vanish. -/
theorem Affine.quadratic {o' : Operand K} {V G : ℕ} (h : o.Affine δ site o' V G)
    (hzero : ∀ W, o.alongTwice δ site W = 0) : o.Quadratic δ site o' V := by
  intro m hm hfirst W _ _
  obtain ⟨m', hm', he⟩ := h.value m hm hfirst
  refine ⟨m', hm', ?_⟩
  rw [hzero, mul_zero, add_zero]
  exact Finset.sum_congr rfl fun i hi => by rw [he i (Finset.mem_range.mp hi)]

section Scaled

variable {a a' o' : Operand K} {V G : ℕ} {x : K}

theorem entry_of_scaled {r : Request K} (h : o.derivative r = do return (← a.derivative r).scale x)
    (k i j : ℕ) : o.entry r k i j = a.entry r k i j * x := by
  rw [entry, entry, h]
  cases a.derivative r with
  | ok D => exact D.entry_scale x k i j
  | error e => exact (zero_mul x).symm

theorem answers_of_scaled {r : Request K}
    (h : o.derivative r = do return (← a.derivative r).scale x) : o.Answers r ↔ a.Answers r := by
  rw [Answers, Answers, h]
  constructor
  · rintro ⟨D, hD⟩
    obtain ⟨E, hE, -⟩ := bind_eq_ok_iff.1 hD
    exact ⟨E, hE⟩
  · rintro ⟨E, hE⟩
    exact ⟨E.scale x, bind_eq_ok_iff.2 ⟨E, hE, rfl⟩⟩

variable (hv : o.value site = do return (← a.value site).scale x)
  (hv' : o'.value site = do return (← a'.value site).scale x)
  (hD : ∀ r, r.FirstOrder δ site → o.derivative r = do return (← a.derivative r).scale x)
include hv hv' hD

theorem Affine.scale (h : a.Affine δ site a' V G)
    (hD' : o'.derivative (Strain.gradientRequest site) =
      do return (← a'.derivative (Strain.gradientRequest site)).scale x) :
    o.Affine δ site o' V G := by
  refine ⟨?_, ?_⟩
  · intro m hm hfirst
    rw [hv] at hm
    obtain ⟨n, hn, hm⟩ := bind_eq_ok_iff.1 hm
    rw [pure_eq_ok_iff] at hm
    subst hm
    obtain ⟨n', hn', he⟩ := h.value n hn fun j hj =>
      (answers_of_scaled (hD _ (.first hj))).1 (hfirst j hj)
    have halong (i : ℕ) : o.along δ site i = a.along δ site i * x := by
      rw [along, along, ← δ.weigh_mul_right]
      exact δ.weigh_congr fun j hj c _ => entry_of_scaled (hD _ (.first hj)) 0 i c
    refine ⟨n'.scale x, ?_, fun i hi => ?_⟩
    · rw [hv']
      exact bind_eq_ok_iff.2 ⟨n', hn', rfl⟩
    · rw [Mat.entry_scale, Mat.entry_scale, he i hi, halong, add_mul]
  · intro hgradient hvariations
    rw [answers_of_scaled (hD _ .gradient)] at hgradient
    obtain ⟨hgradient', he⟩ := h.gradient hgradient fun j hj =>
      (answers_of_scaled (hD _ (.variation hj))).1 (hvariations j hj)
    refine ⟨(answers_of_scaled hD').2 hgradient', fun i hi k hk => ?_⟩
    have halong : o.gradientAlong δ site i k = a.gradientAlong δ site i k * x := by
      rw [gradientAlong, gradientAlong, ← δ.weigh_mul_right]
      exact δ.weigh_congr fun j hj c _ => entry_of_scaled (hD _ (.variation hj)) k i c
    have hslope := he i hi k hk
    simp only [Strain.gradientOf] at hslope ⊢
    rw [entry_of_scaled hD', entry_of_scaled (hD _ .gradient), hslope, halong, add_mul]

theorem Quadratic.scale (h : a.Quadratic δ site a' V)
    (hD₂ : ∀ W, ∀ j < δ.count, ∀ j' < δ.count,
      o.derivative (secondRequest site (δ.coefficient j) (δ.coefficient j') W) =
        do return (← a.derivative
          (secondRequest site (δ.coefficient j) (δ.coefficient j') W)).scale x) :
    o.Quadratic δ site o' V := by
  intro m hm hfirst W hW hsecond
  rw [hv] at hm
  obtain ⟨n, hn, hm⟩ := bind_eq_ok_iff.1 hm
  rw [pure_eq_ok_iff] at hm
  subst hm
  obtain ⟨n', hn', he⟩ := h n hn
    (fun j hj => (answers_of_scaled (hD _ (.first hj))).1 (hfirst j hj)) W hW
    fun j hj j' hj' => (answers_of_scaled (hD₂ W j hj j' hj')).1 (hsecond j hj j' hj')
  have halong (i : ℕ) : o.along δ site i = a.along δ site i * x := by
    rw [along, along, ← δ.weigh_mul_right]
    exact δ.weigh_congr fun j hj c _ => entry_of_scaled (hD _ (.first hj)) 0 i c
  have htwice : o.alongTwice δ site W = a.alongTwice δ site W * x := by
    rw [alongTwice, alongTwice, ← δ.weigh_mul_right]
    refine δ.weigh_congr fun j hj c _ => ?_
    rw [← δ.weigh_mul_right]
    exact δ.weigh_congr fun j' hj' d _ => entry_of_scaled (hD₂ W j hj j' hj') 0 c d
  refine ⟨n'.scale x, ?_, ?_⟩
  · rw [hv']
    exact bind_eq_ok_iff.2 ⟨n', hn', rfl⟩
  · calc ∑ i ∈ Finset.range V, W.entry i 0 * (n'.scale x).entry i 0
        = (∑ i ∈ Finset.range V, W.entry i 0 * n'.entry i 0) * x := by
          rw [Finset.sum_mul]
          exact Finset.sum_congr rfl fun i _ => by rw [Mat.entry_scale, mul_assoc]
      _ = (∑ i ∈ Finset.range V, W.entry i 0 * (n.entry i 0 + a.along δ site i)) * x +
          1 / 2 * (a.alongTwice δ site W * x) := by rw [he, add_mul, mul_assoc]
      _ = ∑ i ∈ Finset.range V, W.entry i 0 * ((n.scale x).entry i 0 + o.along δ site i) +
          1 / 2 * o.alongTwice δ site W := by
        rw [htwice, Finset.sum_mul]
        simp only [Mat.entry_scale, halong, ← add_mul, mul_assoc]

end Scaled

section Added

variable {a a' b b' o' : Operand K} {V G : ℕ} {C : BlockId → ℕ}

def sumOf (a b : Operand K) (r : Request K) : Outcome (Derivative K) := do
  let x ← a.derivative r
  x.add (← b.derivative r)

theorem answers_of_added {r : Request K} (ha : a.Formed V G C r.directions)
    (hb : b.Formed V G C r.directions) (hfit : r.Fits V G) (h : o.derivative r = sumOf a b r)
    (hans : o.Answers r) : (a.Answers r ∧ b.Answers r) ∧
      ∀ k i j, o.entry r k i j = a.entry r k i j + b.entry r k i j := by
  obtain ⟨D, hD⟩ := hans
  obtain ⟨x, hx, hsum⟩ := bind_eq_ok_iff.1 (h.symm.trans hD)
  obtain ⟨y, hy, hsum⟩ := bind_eq_ok_iff.1 hsum
  have hrefl := Directions.DrawnFrom.refl r.directions
  obtain ⟨-, he⟩ := Derivative.add_eq_ok (ha.derivative r x hrefl hfit hx)
    (hb.derivative r y hrefl hfit hy) (lift_eq_ok_iff.1 hsum)
  refine ⟨⟨⟨x, hx⟩, y, hy⟩, fun k i j => ?_⟩
  rw [entry_of_ok hD, entry_of_ok hx, entry_of_ok hy, he]

/-- The gradients of two operands can be added. -/
theorem answers_gradient_of_added (ha : a.Formed V G C (Strain.gradientRequest site).directions)
    (hb : b.Formed V G C (Strain.gradientRequest site).directions)
    (h : o.derivative (Strain.gradientRequest site) = sumOf a b (Strain.gradientRequest site))
    (hga : a.Answers (Strain.gradientRequest site)) (hgb : b.Answers (Strain.gradientRequest site)) :
    o.Answers (Strain.gradientRequest site) := by
  have hmatrix {u : Operand K} (hu : u.Formed V G C (Strain.gradientRequest site).directions)
      (hg : u.Answers (Strain.gradientRequest site)) :
      ∃ m : Mat K, u.derivative (Strain.gradientRequest site) = .ok (.matrix m) ∧
        m.rows = V ∧ m.cols = G := by
    obtain ⟨D, hD⟩ := hg
    have hF := hu.derivative _ D (Directions.DrawnFrom.refl _) (Request.fits_of_none rfl) hD
    obtain ⟨m, rfl, hm⟩ := hF.exists_matrix
    exact ⟨m, hD, hm⟩
  obtain ⟨m, hm, hmr, hmc⟩ := hmatrix ha hga
  obtain ⟨n, hn, hnr, hnc⟩ := hmatrix hb hgb
  obtain ⟨s, hs⟩ := Mat.exists_add (hmr.trans hnr.symm) (hmc.trans hnc.symm)
  refine ⟨.matrix s, ?_⟩
  rw [h, sumOf]
  refine bind_eq_ok_iff.2 ⟨_, hm, bind_eq_ok_iff.2 ⟨_, hn, lift_eq_ok_iff.2 ?_⟩⟩
  exact bind_eq_ok_iff.2 ⟨s, hs, rfl⟩

/-- Values that can be added before can be added afterwards. -/
theorem value_of_added {d : Directions} (ha' : a'.Formed V G C d) (hb' : b'.Formed V G C d)
    (hv : o.value site = do let x ← a.value site; x.add (← b.value site))
    (hv' : o'.value site = do let x ← a'.value site; x.add (← b'.value site)) {m : Mat K}
    (hm : o.value site = .ok m)
    (hexists : ∀ ma mb, a.value site = .ok ma → b.value site = .ok mb →
      (∃ ma', a'.value site = .ok ma') ∧ ∃ mb', b'.value site = .ok mb') :
    ∃ ma mb ma' mb' m', (a.value site = .ok ma ∧ b.value site = .ok mb) ∧
      (a'.value site = .ok ma' ∧ b'.value site = .ok mb') ∧ o'.value site = .ok m' ∧
      ∀ i, m.entry i 0 = ma.entry i 0 + mb.entry i 0 ∧
        m'.entry i 0 = ma'.entry i 0 + mb'.entry i 0 := by
  rw [hv] at hm
  obtain ⟨ma, hma, hm⟩ := bind_eq_ok_iff.1 hm
  obtain ⟨mb, hmb, hm⟩ := bind_eq_ok_iff.1 hm
  obtain ⟨-, -, he⟩ := Mat.add_eq_ok (lift_eq_ok_iff.1 hm)
  obtain ⟨⟨ma', hma'⟩, mb', hmb'⟩ := hexists ma mb hma hmb
  have hsa := ha'.value site ma' hma'
  have hsb := hb'.value site mb' hmb'
  obtain ⟨m', hm'⟩ := Mat.exists_add (hsa.1.trans hsb.1.symm) (hsa.2.trans hsb.2.symm)
  obtain ⟨-, -, he'⟩ := Mat.add_eq_ok hm'
  refine ⟨ma, mb, ma', mb', m', ⟨hma, hmb⟩, ⟨hma', hmb'⟩, ?_, fun i => ⟨he i 0, he' i 0⟩⟩
  rw [hv']
  exact bind_eq_ok_iff.2 ⟨ma', hma', bind_eq_ok_iff.2 ⟨mb', hmb', lift_eq_ok_iff.2 hm'⟩⟩

variable (ha : ∀ {d}, d.Concern δ → a.Formed V G C d) (hb : ∀ {d}, d.Concern δ → b.Formed V G C d)
  (ha' : ∀ {d}, d.Concern δ → a'.Formed V G C d) (hb' : ∀ {d}, d.Concern δ → b'.Formed V G C d)
  (hv : o.value site = do let x ← a.value site; x.add (← b.value site))
  (hv' : o'.value site = do let x ← a'.value site; x.add (← b'.value site))
  (hD : ∀ r, r.FirstOrder δ site → o.derivative r = sumOf a b r)
include ha hb hD

theorem first_of_added (hfirst : o.AnswersFirst δ site) :
    (a.AnswersFirst δ site ∧ b.AnswersFirst δ site) ∧
      ∀ i, o.along δ site i = a.along δ site i + b.along δ site i := by
  have hadd {j : ℕ} (hj : j < δ.count) :=
    answers_of_added (ha (concern_first site hj)) (hb (concern_first site hj))
      (Request.fits_of_single rfl) (hD _ (.first hj)) (hfirst j hj)
  refine ⟨⟨fun j hj => (hadd hj).1.1, fun j hj => (hadd hj).1.2⟩, fun i => ?_⟩
  rw [along, along, along, ← δ.weigh_add]
  exact δ.weigh_congr fun j hj c _ => (hadd hj).2 0 i c

include ha' hb' hv hv'

theorem Affine.add (hA : a.Affine δ site a' V G) (hB : b.Affine δ site b' V G)
    (hD' : o'.derivative (Strain.gradientRequest site) =
      sumOf a' b' (Strain.gradientRequest site)) :
    o.Affine δ site o' V G := by
  refine ⟨?_, ?_⟩
  · intro m hm hfirst
    obtain ⟨⟨hfa, hfb⟩, halong⟩ := first_of_added ha hb hD hfirst
    obtain ⟨ma, mb, ma', mb', m', ⟨hma, hmb⟩, ⟨hma', hmb'⟩, hm', he⟩ :=
      value_of_added (ha' (concern_gradient δ site)) (hb' (concern_gradient δ site)) hv hv' hm
        fun ma mb hma hmb => ⟨(hA.value ma hma hfa).imp fun _ h => h.1,
          (hB.value mb hmb hfb).imp fun _ h => h.1⟩
    obtain ⟨na, hna, hea⟩ := hA.value ma hma hfa
    obtain ⟨nb, hnb, heb⟩ := hB.value mb hmb hfb
    obtain rfl := Except.ok.inj (hna.symm.trans hma')
    obtain rfl := Except.ok.inj (hnb.symm.trans hmb')
    refine ⟨m', hm', fun i hi => ?_⟩
    rw [(he i).1, (he i).2, hea i hi, heb i hi, halong]
    ring
  · intro hgradient hvariations
    have hd := concern_gradient δ site
    obtain ⟨⟨hga, hgb⟩, hslope⟩ := answers_of_added (ha hd) (hb hd) (Request.fits_of_none rfl)
      (hD _ .gradient) hgradient
    have hadd {j : ℕ} (hj : j < δ.count) :=
      answers_of_added (ha (concern_variation site hj))
        (hb (concern_variation site hj)) (Request.fits_of_single rfl)
        (hD _ (.variation hj)) (hvariations j hj)
    obtain ⟨hga', hea⟩ := hA.gradient hga fun j hj => (hadd hj).1.1
    obtain ⟨hgb', heb⟩ := hB.gradient hgb fun j hj => (hadd hj).1.2
    have hgradient' := answers_gradient_of_added (ha' hd) (hb' hd) hD' hga' hgb'
    obtain ⟨-, hslope'⟩ := answers_of_added (ha' hd) (hb' hd) (Request.fits_of_none rfl) hD'
      hgradient'
    refine ⟨hgradient', fun i hi k hk => ?_⟩
    have halong : o.gradientAlong δ site i k =
        a.gradientAlong δ site i k + b.gradientAlong δ site i k := by
      rw [gradientAlong, gradientAlong, gradientAlong, ← δ.weigh_add]
      exact δ.weigh_congr fun j hj c _ => (hadd hj).2 k i c
    have hka := hea i hi k hk
    have hkb := heb i hi k hk
    simp only [Strain.gradientOf] at hka hkb ⊢
    rw [hslope', hslope, hka, hkb, halong]
    ring

theorem Quadratic.add (hA : a.Quadratic δ site a' V) (hB : b.Quadratic δ site b' V)
    (hD₂ : ∀ W, ∀ j < δ.count, ∀ j' < δ.count,
      o.derivative (secondRequest site (δ.coefficient j) (δ.coefficient j') W) =
        sumOf a b (secondRequest site (δ.coefficient j) (δ.coefficient j') W)) :
    o.Quadratic δ site o' V := by
  intro m hm hfirst W hW hsecond
  obtain ⟨⟨hfa, hfb⟩, halong⟩ := first_of_added ha hb hD hfirst
  have hadd {j j' : ℕ} (hj : j < δ.count) (hj' : j' < δ.count) :=
    answers_of_added (ha (concern_second site W hj hj')) (hb (concern_second site W hj hj'))
      (fits_second hW) (hD₂ W j hj j' hj') (hsecond j hj j' hj')
  have hsa : a.AnswersSecond δ site W := fun j hj j' hj' => (hadd hj hj').1.1
  have hsb : b.AnswersSecond δ site W := fun j hj j' hj' => (hadd hj hj').1.2
  obtain ⟨ma, mb, ma', mb', m', ⟨hma, hmb⟩, ⟨hma', hmb'⟩, hm', he⟩ :=
    value_of_added (ha' (concern_gradient δ site)) (hb' (concern_gradient δ site)) hv hv' hm
      fun ma mb hma hmb => ⟨(hA ma hma hfa W hW hsa).imp fun _ h => h.1,
        (hB mb hmb hfb W hW hsb).imp fun _ h => h.1⟩
  obtain ⟨na, hna, hea⟩ := hA ma hma hfa W hW hsa
  obtain ⟨nb, hnb, heb⟩ := hB mb hmb hfb W hW hsb
  obtain rfl := Except.ok.inj (hna.symm.trans hma')
  obtain rfl := Except.ok.inj (hnb.symm.trans hmb')
  have htwice : o.alongTwice δ site W = a.alongTwice δ site W + b.alongTwice δ site W := by
    rw [alongTwice, alongTwice, alongTwice, ← δ.weigh_add]
    refine δ.weigh_congr fun j hj c _ => ?_
    rw [← δ.weigh_add]
    exact δ.weigh_congr fun j' hj' d _ => (hadd hj hj').2 0 c d
  refine ⟨m', hm', ?_⟩
  calc ∑ i ∈ Finset.range V, W.entry i 0 * m'.entry i 0
      = ∑ i ∈ Finset.range V, W.entry i 0 * na.entry i 0 +
        ∑ i ∈ Finset.range V, W.entry i 0 * nb.entry i 0 := by
        rw [← Finset.sum_add_distrib]
        exact Finset.sum_congr rfl fun i _ => by rw [(he i).2, mul_add]
    _ = ∑ i ∈ Finset.range V, W.entry i 0 * (m.entry i 0 + o.along δ site i) +
        1 / 2 * o.alongTwice δ site W := by
      rw [hea, heb, htwice, mul_add, add_add_add_comm, ← Finset.sum_add_distrib]
      congr 1
      exact Finset.sum_congr rfl fun i _ => by rw [(he i).1, halong]; ring

end Added

end Operand

namespace Strain

variable {n dim : ℕ}

theorem weigh_pairing (δ : Correction K) (x : ℕ → ℕ → K) (y : ℕ → ℕ → ℕ → ℕ → K) (m : ℕ) :
    δ.weigh (fun j a => pairing n dim x (y j a) m) =
      pairing n dim x (fun d k => δ.weigh fun j a => y j a d k) m := by
  simp only [pairing, δ.weigh_mul]
  rw [δ.weigh_sum n fun d j a => _]
  simp only [δ.weigh_add, δ.weigh_mul, δ.weigh_mul_right]

end Strain

end ElementFields
