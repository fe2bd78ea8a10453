import ElementFields.Proofs.Increments

namespace ElementFields
open Scalar
open scoped BigOperators

variable {K : Type} [ExactScalar K] {o o' a a' b b' : Operand K} {V G : ℕ} {C : BlockId → ℕ}
  {δ : Correction K} {site : Site K}

namespace Operand

def Fixed (o : Operand K) (δ : Correction K) (site : Site K) : Prop :=
  (∀ i, o.along δ site i = 0) ∧ ∀ i k, o.gradientAlong δ site i k = 0

/-- Values that can be multiplied before can be multiplied afterwards. -/
theorem value_of_product {d : Directions} (ha : a.Formed V G C d) (ha' : a'.Formed V G C d)
    (hb' : b'.Formed V G C d) (hv : o.value site = Product.value a b site)
    (hv' : o'.value site = Product.value a' b' site) {m : Mat K} (hm : o.value site = .ok m)
    (hexists : ∀ va vb, a.value site = .ok va → b.value site = .ok vb →
      (∃ va', a'.value site = .ok va') ∧ ∃ vb', b'.value site = .ok vb') :
    ∃ va vb va' vb' m', (a.value site = .ok va ∧ b.value site = .ok vb) ∧
      (a'.value site = .ok va' ∧ b'.value site = .ok vb') ∧ o'.value site = .ok m' ∧
      m.entry 0 0 = ∑ d ∈ Finset.range V, va.entry d 0 * vb.entry d 0 ∧
      m'.entry 0 0 = ∑ d ∈ Finset.range V, va'.entry d 0 * vb'.entry d 0 := by
  rw [hv] at hm
  obtain ⟨va, vb, hva, hvb, p, hp, rfl⟩ := Product.value_eq_ok hm
  obtain ⟨⟨va', hva'⟩, vb', hvb'⟩ := hexists va vb hva hvb
  have hsa := ha'.value site va' hva'
  have hsb := hb'.value site vb' hvb'
  obtain ⟨p', hp'⟩ := Mat.exists_dot (hsa.1.trans hsb.1.symm) (hsa.2.trans hsb.2.symm)
  refine ⟨va, vb, va', vb', .scalar p', ⟨hva, hvb⟩, ⟨hva', hvb'⟩, ?_, ?_, ?_⟩
  · rw [hv']
    exact bind_eq_ok_iff.2 ⟨va', hva', bind_eq_ok_iff.2 ⟨vb', hvb',
      bind_eq_ok_iff.2 ⟨p', lift_eq_ok_iff.2 hp', rfl⟩⟩⟩
  · rw [Mat.entry_scalar, Product.dot_column (ha.value site va hva) hp]
  · rw [Mat.entry_scalar, Product.dot_column hsa hp']

section Gradient

variable (ha : a.Formed V G C (Strain.gradientRequest site).directions)
  (hb : b.Formed V G C (Strain.gradientRequest site).directions)
  (hD : o.derivative (Strain.gradientRequest site) =
    Product.derivative a b (Strain.gradientRequest site))
include ha hb hD

/-- The gradient of a product. -/
theorem gradient_of_product {va vb : Mat K} (hva : a.value site = .ok va)
    (hvb : b.value site = .ok vb) (hans : o.Answers (Strain.gradientRequest site)) :
    (a.Answers (Strain.gradientRequest site) ∧ b.Answers (Strain.gradientRequest site)) ∧
      ∀ k < G, Strain.gradientOf o site 0 k = ∑ d ∈ Finset.range V,
        (Strain.gradientOf a site d k * vb.entry d 0 +
          va.entry d 0 * Strain.gradientOf b site d k) := by
  obtain ⟨D, hoD⟩ := hans
  have h := hD.symm.trans hoD
  obtain ⟨va', hva', h⟩ := bind_eq_ok_iff.1 h
  obtain ⟨vb', hvb', h⟩ := bind_eq_ok_iff.1 h
  obtain rfl := Except.ok.inj (hva.symm.trans hva')
  obtain rfl := Except.ok.inj (hvb.symm.trans hvb')
  obtain ⟨hans, -, he⟩ := Product.spatial_eq_ok (s := .all) ha hb (ha.value site va hva) rfl rfl h
  refine ⟨hans, fun k hk => ?_⟩
  rw [Strain.gradientOf, entry_of_ok hoD]
  exact he k hk

/-- The gradient of a product is answered if the values and the gradients of the operands are. -/
theorem answers_gradient_of_product {va vb : Mat K} (hva : a.value site = .ok va)
    (hvb : b.value site = .ok vb) (hga : a.Answers (Strain.gradientRequest site))
    (hgb : b.Answers (Strain.gradientRequest site)) :
    o.Answers (Strain.gradientRequest site) := by
  obtain ⟨D, hspatial⟩ := Product.exists_spatial (s := .all) ha hb (ha.value site va hva)
    (hb.value site vb hvb) rfl rfl hga hgb
  refine ⟨D, hD.trans ?_⟩
  exact bind_eq_ok_iff.2 ⟨va, hva, bind_eq_ok_iff.2 ⟨vb, hvb, hspatial⟩⟩

end Gradient

section Products

variable (ha : ∀ {d}, d.Concern δ → a.Formed V G C d) (hb : ∀ {d}, d.Concern δ → b.Formed V G C d)
  (ha' : ∀ {d}, d.Concern δ → a'.Formed V G C d) (hb' : ∀ {d}, d.Concern δ → b'.Formed V G C d)
  (hv : o.value site = Product.value a b site) (hv' : o'.value site = Product.value a' b' site)
  (hD : ∀ r, r.FirstOrder δ site → o.derivative r = Product.derivative a b r)

include hD ha hb in
/-- The term of first order of a product. -/
theorem first_of_product {va vb : Mat K} (hva : a.value site = .ok va) (hvb : b.value site = .ok vb)
    (hfirst : o.AnswersFirst δ site) : (a.AnswersFirst δ site ∧ b.AnswersFirst δ site) ∧
      o.along δ site 0 = ∑ d ∈ Finset.range V,
        (vb.entry d 0 * a.along δ site d + va.entry d 0 * b.along δ site d) := by
  have hd := concern_gradient δ site
  have hcoefficient {j : ℕ} (hj : j < δ.count) :
      (a.Answers (firstRequest site (δ.coefficient j)) ∧
        b.Answers (firstRequest site (δ.coefficient j))) ∧
      ∀ c, o.entry (firstRequest site (δ.coefficient j)) 0 0 c = ∑ d ∈ Finset.range V,
        (vb.entry d 0 * a.entry (firstRequest site (δ.coefficient j)) 0 d c +
          va.entry d 0 * b.entry (firstRequest site (δ.coefficient j)) 0 d c) := by
    obtain ⟨D, hoD⟩ := hfirst j hj
    have h := (hD _ (.first hj)).symm.trans hoD
    obtain ⟨va', hva', h⟩ := bind_eq_ok_iff.1 h
    obtain ⟨vb', hvb', h⟩ := bind_eq_ok_iff.1 h
    obtain rfl := Except.ok.inj (hva.symm.trans hva')
    obtain rfl := Except.ok.inj (hvb.symm.trans hvb')
    have hr := concern_first site hj
    obtain ⟨hans, -, he⟩ := Product.coefficient_eq_ok (ha hr) (hb hr) ((ha hd).value site va hva)
      ((hb hd).value site vb hvb) rfl rfl h
    refine ⟨hans, fun c => ?_⟩
    rw [entry_of_ok hoD]
    exact he c
  refine ⟨⟨fun j hj => (hcoefficient hj).1.1, fun j hj => (hcoefficient hj).1.2⟩, ?_⟩
  rw [along, δ.weigh_congr fun j hj c _ => (hcoefficient hj).2 c, δ.weigh_sum V fun d j c => _]
  simp only [δ.weigh_add, δ.weigh_mul, along]

include hD ha hb in
/-- The term of first order of the gradient of a product. -/
theorem variations_of_product {va vb : Mat K} (hva : a.value site = .ok va)
    (hvb : b.value site = .ok vb) (hvariations : o.AnswersVariations δ site) :
    ((a.AnswersFirst δ site ∧ b.AnswersFirst δ site) ∧
      a.AnswersVariations δ site ∧ b.AnswersVariations δ site) ∧
      ∀ k < G, o.gradientAlong δ site 0 k = ∑ d ∈ Finset.range V,
        (Strain.gradientOf b site d k * a.along δ site d +
          vb.entry d 0 * a.gradientAlong δ site d k +
          Strain.gradientOf a site d k * b.along δ site d +
          va.entry d 0 * b.gradientAlong δ site d k) := by
  have hd := concern_gradient δ site
  have hmixed {j : ℕ} (hj : j < δ.count) :
      ((a.Answers (firstRequest site (δ.coefficient j)) ∧
        b.Answers (firstRequest site (δ.coefficient j))) ∧
        a.Answers (Strain.variationRequest site (δ.coefficient j)) ∧
        b.Answers (Strain.variationRequest site (δ.coefficient j))) ∧
      ∀ k < G, ∀ c, Strain.variationOf o site (δ.coefficient j) c 0 k = ∑ d ∈ Finset.range V,
        (Strain.gradientOf b site d k * a.entry (firstRequest site (δ.coefficient j)) 0 d c +
          vb.entry d 0 * Strain.variationOf a site (δ.coefficient j) c d k +
          Strain.gradientOf a site d k * b.entry (firstRequest site (δ.coefficient j)) 0 d c +
          va.entry d 0 * Strain.variationOf b site (δ.coefficient j) c d k) := by
    obtain ⟨D, hoD⟩ := hvariations j hj
    have h := (hD _ (.variation hj)).symm.trans hoD
    obtain ⟨va', hva', h⟩ := bind_eq_ok_iff.1 h
    obtain ⟨vb', hvb', h⟩ := bind_eq_ok_iff.1 h
    obtain rfl := Except.ok.inj (hva.symm.trans hva')
    obtain rfl := Except.ok.inj (hvb.symm.trans hvb')
    have hr := concern_variation site hj
    obtain ⟨⟨-, hfirst, hvar⟩, -, he⟩ := Product.mixed_eq_ok (s := .all) (ha hr) (hb hr)
      ((ha hd).value site va hva) ((hb hd).value site vb hvb) rfl rfl h
    refine ⟨⟨hfirst, hvar⟩, fun k hk c => ?_⟩
    rw [Strain.variationOf, entry_of_ok hoD]
    exact he k hk c
  refine ⟨⟨⟨fun j hj => (hmixed hj).1.1.1, fun j hj => (hmixed hj).1.1.2⟩,
    fun j hj => (hmixed hj).1.2.1, fun j hj => (hmixed hj).1.2.2⟩, fun k hk => ?_⟩
  rw [gradientAlong, δ.weigh_congr fun j hj c _ => (hmixed hj).2 k hk c,
    δ.weigh_sum V fun d j c => _]
  simp only [δ.weigh_add, δ.weigh_mul, along, gradientAlong]

include ha hb in
/-- The second derivatives of a product in the coefficients of the correction. -/
theorem second_entry_of_product {va vb : Mat K} (hva : a.value site = .ok va)
    (hvb : b.value site = .ok vb) {W : Mat K} {j j' : ℕ} (hj : j < δ.count) (hj' : j' < δ.count)
    {D : Derivative K}
    (h : Product.derivative a b (secondRequest site (δ.coefficient j) (δ.coefficient j') W) =
      .ok D) :
    (a.Answers (secondRequest site (δ.coefficient j) (δ.coefficient j') (vb.scale (W.entry 0 0))) ∧
      b.Answers
        (secondRequest site (δ.coefficient j) (δ.coefficient j') (va.scale (W.entry 0 0)))) ∧
    ∀ c e, D.entry 0 c e =
      (∑ d ∈ Finset.range V,
        (a.entry (firstRequest site (δ.coefficient j)) 0 d c *
            b.entry (firstRequest site (δ.coefficient j')) 0 d e +
          b.entry (firstRequest site (δ.coefficient j)) 0 d c *
            a.entry (firstRequest site (δ.coefficient j')) 0 d e)) * W.entry 0 0 +
        a.entry (secondRequest site (δ.coefficient j) (δ.coefficient j')
          (vb.scale (W.entry 0 0))) 0 c e +
        b.entry (secondRequest site (δ.coefficient j) (δ.coefficient j')
          (va.scale (W.entry 0 0))) 0 c e := by
  have hd := concern_gradient δ site
  obtain ⟨va', hva', h⟩ := bind_eq_ok_iff.1 h
  obtain ⟨vb', hvb', h⟩ := bind_eq_ok_iff.1 h
  obtain rfl := Except.ok.inj (hva.symm.trans hva')
  obtain rfl := Except.ok.inj (hvb.symm.trans hvb')
  have hr := concern_second site W hj hj'
  obtain ⟨W', w, hW', hw, ⟨-, -, hansa, hansb⟩, -, he⟩ := Product.second_eq_ok (ha hr) (hb hr)
    ((ha hd).value site va hva) ((hb hd).value site vb hvb) rfl h
  obtain rfl := Option.some.inj hW'
  obtain ⟨-, rfl⟩ := Mat.entryAt_eq_ok hw
  exact ⟨⟨hansa, hansb⟩, he⟩

include ha hb in
/-- The term of second order of a product. -/
theorem second_of_product {va vb : Mat K} (hva : a.value site = .ok va)
    (hvb : b.value site = .ok vb) {W : Mat K}
    (hD₂ : ∀ W, ∀ j < δ.count, ∀ j' < δ.count,
      o.derivative (secondRequest site (δ.coefficient j) (δ.coefficient j') W) =
        Product.derivative a b (secondRequest site (δ.coefficient j) (δ.coefficient j') W))
    (hsecond : o.AnswersSecond δ site W) :
    (a.AnswersSecond δ site (vb.scale (W.entry 0 0)) ∧
      b.AnswersSecond δ site (va.scale (W.entry 0 0))) ∧
      o.alongTwice δ site W =
        2 * W.entry 0 0 * ∑ d ∈ Finset.range V, a.along δ site d * b.along δ site d +
          a.alongTwice δ site (vb.scale (W.entry 0 0)) +
          b.alongTwice δ site (va.scale (W.entry 0 0)) := by
  let first (u : Operand K) (j d c : ℕ) : K := u.entry (firstRequest site (δ.coefficient j)) 0 d c
  let twice (u : Operand K) (along : Mat K) (j j' c e : ℕ) : K :=
    u.entry (secondRequest site (δ.coefficient j) (δ.coefficient j') along) 0 c e
  have hentry {j j' : ℕ} (hj : j < δ.count) (hj' : j' < δ.count) :
      (a.Answers (secondRequest site (δ.coefficient j) (δ.coefficient j') (vb.scale (W.entry 0 0))) ∧
        b.Answers
          (secondRequest site (δ.coefficient j) (δ.coefficient j') (va.scale (W.entry 0 0)))) ∧
      ∀ c e, twice o W j j' c e =
        (∑ d ∈ Finset.range V,
          (first a j d c * first b j' d e + first b j d c * first a j' d e)) * W.entry 0 0 +
          twice a (vb.scale (W.entry 0 0)) j j' c e +
          twice b (va.scale (W.entry 0 0)) j j' c e := by
    obtain ⟨D, hoD⟩ := hsecond j hj j' hj'
    obtain ⟨hans, he⟩ :=
      second_entry_of_product ha hb hva hvb hj hj' ((hD₂ W j hj j' hj').symm.trans hoD)
    exact ⟨hans, fun c e => (entry_of_ok hoD 0 c e).trans (he c e)⟩
  refine ⟨⟨fun j hj j' hj' => (hentry hj hj').1.1, fun j hj j' hj' => (hentry hj hj').1.2⟩, ?_⟩
  -- The second coordinate is weighed first, for each value of the other one.
  have hinner (j c : ℕ) (hj : j < δ.count) : δ.weigh (fun j' e => twice o W j j' c e) =
      (∑ d ∈ Finset.range V,
        (first a j d c * b.along δ site d + first b j d c * a.along δ site d)) * W.entry 0 0 +
        δ.weigh (fun j' e => twice a (vb.scale (W.entry 0 0)) j j' c e) +
        δ.weigh (fun j' e => twice b (va.scale (W.entry 0 0)) j j' c e) := by
    rw [δ.weigh_congr fun j' hj' e _ => (hentry hj hj').2 c e, δ.weigh_add, δ.weigh_add,
      δ.weigh_mul_right, δ.weigh_sum V fun d j' e => _]
    simp only [δ.weigh_add, δ.weigh_mul, first, along]
  show δ.weigh (fun j c => δ.weigh fun j' e => twice o W j j' c e) = _
  rw [δ.weigh_congr fun j hj c _ => hinner j c hj, δ.weigh_add, δ.weigh_add, δ.weigh_mul_right,
    δ.weigh_sum V fun d j c => _]
  simp only [δ.weigh_add, δ.weigh_mul_right]
  have hsum : ∑ d ∈ Finset.range V,
      (a.along δ site d * b.along δ site d + b.along δ site d * a.along δ site d) =
      2 * ∑ d ∈ Finset.range V, a.along δ site d * b.along δ site d := by
    rw [Finset.mul_sum]
    exact Finset.sum_congr rfl fun d _ => by ring
  rw [mul_right_comm, ← hsum]
  rfl

include ha hb ha' hb' hv hv' hD

/-- The product of two affine operands is affine if the correction changes only one of them. -/
theorem Affine.dot (hA : a.Affine δ site a' V G) (hB : b.Affine δ site b' V G)
    (hfixed : a.Fixed δ site ∨ b.Fixed δ site)
    (hD' : o'.derivative (Strain.gradientRequest site) =
      Product.derivative a' b' (Strain.gradientRequest site)) :
    o.Affine δ site o' 1 G := by
  have hd := concern_gradient δ site
  refine ⟨?_, ?_⟩
  · intro m hm hfirst
    have hvalues : ∀ va vb, a.value site = .ok va → b.value site = .ok vb →
        (∃ va', a'.value site = .ok va') ∧ ∃ vb', b'.value site = .ok vb' := by
      intro va vb hva hvb
      obtain ⟨⟨hfa, hfb⟩, -⟩ := first_of_product ha hb hD hva hvb hfirst
      exact ⟨(hA.value va hva hfa).imp fun _ h => h.1, (hB.value vb hvb hfb).imp fun _ h => h.1⟩
    obtain ⟨va, vb, va', vb', m', ⟨hva, hvb⟩, ⟨hva', hvb'⟩, hm', he, he'⟩ :=
      value_of_product (ha hd) (ha' hd) (hb' hd) hv hv' hm hvalues
    obtain ⟨⟨hfa, hfb⟩, halong⟩ := first_of_product ha hb hD hva hvb hfirst
    obtain ⟨na, hna, hea⟩ := hA.value va hva hfa
    obtain ⟨nb, hnb, heb⟩ := hB.value vb hvb hfb
    obtain rfl := Except.ok.inj (hna.symm.trans hva')
    obtain rfl := Except.ok.inj (hnb.symm.trans hvb')
    refine ⟨m', hm', fun i hi => ?_⟩
    rw [Nat.lt_one_iff.1 hi, he, he', halong, ← Finset.sum_add_distrib]
    refine Finset.sum_congr rfl fun d hd => ?_
    rw [hea d (Finset.mem_range.mp hd), heb d (Finset.mem_range.mp hd)]
    -- The product of the two changes is zero.
    rcases hfixed with hzero | hzero <;> rw [hzero.1 d] <;> ring
  · intro hgradient hvariations
    obtain ⟨D, hoD⟩ := hgradient
    obtain ⟨va, hva, h⟩ := bind_eq_ok_iff.1 ((hD _ .gradient).symm.trans hoD)
    obtain ⟨vb, hvb, -⟩ := bind_eq_ok_iff.1 h
    obtain ⟨⟨hga, hgb⟩, hslope⟩ := gradient_of_product (ha hd) (hb hd) (hD _ .gradient) hva hvb ⟨D, hoD⟩
    obtain ⟨⟨⟨hfa, hfb⟩, hma, hmb⟩, halong⟩ := variations_of_product ha hb hD hva hvb hvariations
    obtain ⟨va', hva', hea⟩ := hA.value va hva hfa
    obtain ⟨vb', hvb', heb⟩ := hB.value vb hvb hfb
    obtain ⟨hga', hka⟩ := hA.gradient hga hma
    obtain ⟨hgb', hkb⟩ := hB.gradient hgb hmb
    have hgradient' := answers_gradient_of_product (ha' hd) (hb' hd) hD' hva' hvb' hga' hgb'
    obtain ⟨-, hslope'⟩ := gradient_of_product (ha' hd) (hb' hd) hD' hva' hvb' hgradient'
    refine ⟨hgradient', fun i hi k hk => ?_⟩
    rw [Nat.lt_one_iff.1 hi, hslope k hk, hslope' k hk, halong k hk, ← Finset.sum_add_distrib]
    refine Finset.sum_congr rfl fun d hd => ?_
    have hd := Finset.mem_range.mp hd
    rw [hea d hd, heb d hd, hka d hd k hk, hkb d hd k hk]
    rcases hfixed with hzero | hzero <;> rw [hzero.1 d, hzero.2 d k] <;> ring

/-- A product is quadratic if the product of the new values is the expansion that its answers give. -/
theorem quadratic_of_product
    (hD₂ : ∀ W, ∀ j < δ.count, ∀ j' < δ.count,
      o.derivative (secondRequest site (δ.coefficient j) (δ.coefficient j') W) =
        Product.derivative a b (secondRequest site (δ.coefficient j) (δ.coefficient j') W))
    (hexpand : ∀ va vb w, a.value site = .ok va → b.value site = .ok vb →
      a.AnswersFirst δ site → b.AnswersFirst δ site →
      a.AnswersSecond δ site (vb.scale w) → b.AnswersSecond δ site (va.scale w) →
      ∃ va' vb', (a'.value site = .ok va' ∧ b'.value site = .ok vb') ∧
        w * ∑ d ∈ Finset.range V, va'.entry d 0 * vb'.entry d 0 =
          w * ∑ d ∈ Finset.range V, (va.entry d 0 * vb.entry d 0 +
            (vb.entry d 0 * a.along δ site d + va.entry d 0 * b.along δ site d) +
            a.along δ site d * b.along δ site d) +
          1 / 2 * (a.alongTwice δ site (vb.scale w) + b.alongTwice δ site (va.scale w))) :
    o.Quadratic δ site o' 1 := by
  intro m hm hfirst W hW hsecond
  have hd := concern_gradient δ site
  have hterms {va vb : Mat K} (hva : a.value site = .ok va) (hvb : b.value site = .ok vb) :=
    And.intro (first_of_product ha hb hD hva hvb hfirst)
      (second_of_product ha hb hva hvb hD₂ hsecond)
  have hvalues : ∀ va vb, a.value site = .ok va → b.value site = .ok vb →
      (∃ va', a'.value site = .ok va') ∧ ∃ vb', b'.value site = .ok vb' := by
    intro va vb hva hvb
    obtain ⟨⟨⟨hfa, hfb⟩, -⟩, ⟨hsa, hsb⟩, -⟩ := hterms hva hvb
    obtain ⟨va', vb', ⟨hva', hvb'⟩, -⟩ := hexpand va vb _ hva hvb hfa hfb hsa hsb
    exact ⟨⟨va', hva'⟩, vb', hvb'⟩
  obtain ⟨va, vb, na, nb, m', ⟨hva, hvb⟩, ⟨hna, hnb⟩, hm', he, he'⟩ :=
    value_of_product (ha hd) (ha' hd) (hb' hd) hv hv' hm hvalues
  obtain ⟨⟨⟨hfa, hfb⟩, halong⟩, ⟨hsa, hsb⟩, htwice⟩ := hterms hva hvb
  obtain ⟨va', vb', ⟨hva', hvb'⟩, hsum⟩ := hexpand va vb _ hva hvb hfa hfb hsa hsb
  obtain rfl := Except.ok.inj (hna.symm.trans hva')
  obtain rfl := Except.ok.inj (hnb.symm.trans hvb')
  refine ⟨m', hm', ?_⟩
  rw [Finset.sum_range_one, Finset.sum_range_one, he', he, halong, htwice, hsum]
  simp only [Finset.sum_add_distrib]
  ring

/-- The product of two affine operands is quadratic. -/
theorem Affine.quadratic_dot (hA : a.Affine δ site a' V G) (hB : b.Affine δ site b' V G)
    (hzero : ∀ W, a.alongTwice δ site W = 0 ∧ b.alongTwice δ site W = 0)
    (hD₂ : ∀ W, ∀ j < δ.count, ∀ j' < δ.count,
      o.derivative (secondRequest site (δ.coefficient j) (δ.coefficient j') W) =
        Product.derivative a b (secondRequest site (δ.coefficient j) (δ.coefficient j') W)) :
    o.Quadratic δ site o' 1 := by
  apply quadratic_of_product ha hb ha' hb' hv hv' hD hD₂
  intro va vb w hva hvb hfa hfb _ _
  obtain ⟨va', hva', hea⟩ := hA.value va hva hfa
  obtain ⟨vb', hvb', heb⟩ := hB.value vb hvb hfb
  refine ⟨va', vb', ⟨hva', hvb'⟩, ?_⟩
  rw [(hzero _).1, (hzero _).2, add_zero, mul_zero, add_zero]
  congr 1
  refine Finset.sum_congr rfl fun d hd => ?_
  rw [hea d (Finset.mem_range.mp hd), heb d (Finset.mem_range.mp hd)]
  ring

/-- The product of an operand that the correction does not change with a quadratic one. -/
theorem Quadratic.dot_left (hA : a.Affine δ site a' V G) (hfixed : a.Fixed δ site)
    (hzero : ∀ W, a.alongTwice δ site W = 0) (hB : b.Quadratic δ site b' V)
    (hD₂ : ∀ W, ∀ j < δ.count, ∀ j' < δ.count,
      o.derivative (secondRequest site (δ.coefficient j) (δ.coefficient j') W) =
        Product.derivative a b (secondRequest site (δ.coefficient j) (δ.coefficient j') W)) :
    o.Quadratic δ site o' 1 := by
  have hd := concern_gradient δ site
  apply quadratic_of_product ha hb ha' hb' hv hv' hD hD₂
  intro va vb w hva hvb hfa hfb _ hsb
  obtain ⟨va', hva', hea⟩ := hA.value va hva hfa
  -- The other factor is contracted with the value of the one that stays.
  obtain ⟨vb', hvb', heb⟩ := hB vb hvb hfb (va.scale w) ((ha hd).value site va hva) hsb
  refine ⟨va', vb', ⟨hva', hvb'⟩, ?_⟩
  have hleft : w * ∑ d ∈ Finset.range V, va'.entry d 0 * vb'.entry d 0 =
      ∑ d ∈ Finset.range V, (va.scale w).entry d 0 * vb'.entry d 0 := by
    rw [Finset.mul_sum]
    refine Finset.sum_congr rfl fun d hd => ?_
    rw [hea d (Finset.mem_range.mp hd), hfixed.1 d, Mat.entry_scale]
    ring
  rw [hleft, heb, hzero, zero_add, Finset.mul_sum]
  congr 1
  refine Finset.sum_congr rfl fun d _ => ?_
  rw [hfixed.1 d, Mat.entry_scale]
  ring

/-- The product of a quadratic operand with one that the correction does not change. -/
theorem Quadratic.dot_right (hA : a.Quadratic δ site a' V) (hB : b.Affine δ site b' V G)
    (hfixed : b.Fixed δ site) (hzero : ∀ W, b.alongTwice δ site W = 0)
    (hD₂ : ∀ W, ∀ j < δ.count, ∀ j' < δ.count,
      o.derivative (secondRequest site (δ.coefficient j) (δ.coefficient j') W) =
        Product.derivative a b (secondRequest site (δ.coefficient j) (δ.coefficient j') W)) :
    o.Quadratic δ site o' 1 := by
  have hd := concern_gradient δ site
  apply quadratic_of_product ha hb ha' hb' hv hv' hD hD₂
  intro va vb w hva hvb hfa hfb hsa _
  obtain ⟨vb', hvb', heb⟩ := hB.value vb hvb hfb
  obtain ⟨va', hva', hea⟩ := hA va hva hfa (vb.scale w) ((hb hd).value site vb hvb) hsa
  refine ⟨va', vb', ⟨hva', hvb'⟩, ?_⟩
  have hleft : w * ∑ d ∈ Finset.range V, va'.entry d 0 * vb'.entry d 0 =
      ∑ d ∈ Finset.range V, (vb.scale w).entry d 0 * va'.entry d 0 := by
    rw [Finset.mul_sum]
    refine Finset.sum_congr rfl fun d hd => ?_
    rw [heb d (Finset.mem_range.mp hd), hfixed.1 d, Mat.entry_scale]
    ring
  rw [hleft, hea, hzero, add_zero, Finset.mul_sum]
  congr 1
  refine Finset.sum_congr rfl fun d _ => ?_
  rw [hfixed.1 d, Mat.entry_scale]
  ring

end Products

end Operand

namespace Strain

variable {u u' : Operand K} {dim : ℕ} {reference : Site K → Outcome (Mat K)}
  (hu : ∀ {d}, d.Concern δ → u.Formed dim dim C d) (hdim : 1 ≤ dim ∧ dim ≤ 3)
  (hC : C δ.block = δ.size)
  (hD : ∀ r, r.FirstOrder δ site → o.derivative r = derivative dim reference u r)
include hu hdim hC hD

/-- The terms of first order of the strains pair the current tangents with those of the gradient. -/
theorem first_of_strain {A : Mat K} (hA : reference site = .ok A) (hfirst : o.AnswersFirst δ site) :
    u.AnswersVariations δ site ∧ ∀ q < dim + (shearPairs dim).length,
      o.along δ site q = pairing dim dim (fun d k => A.entry d k + gradientOf u site d k)
        (u.gradientAlong δ site) q := by
  have hcoefficient {j : ℕ} (hj : j < δ.count) :
      u.Answers (variationRequest site (δ.coefficient j)) ∧
        ∀ q < dim + (shearPairs dim).length, ∀ c < δ.size,
          o.entry (firstRequest site (δ.coefficient j)) 0 q c =
            pairing dim dim (fun d k => A.entry d k + gradientOf u site d k)
              (variationOf u site (δ.coefficient j) c) q := by
    obtain ⟨D, hoD⟩ := hfirst j hj
    have h := (hD _ (.first hj)).symm.trans hoD
    obtain ⟨A', hA', -, ⟨-, hans⟩, -, he⟩ :=
      coefficient_eq_ok (hu (concern_first site hj)) hdim.1 rfl rfl h
    obtain rfl := Except.ok.inj (hA.symm.trans hA')
    refine ⟨hans, fun q hq c hc => ?_⟩
    rw [Operand.entry_of_ok hoD]
    exact he q hq c (hC.symm ▸ hc)
  refine ⟨fun j hj => (hcoefficient hj).1, fun q hq => ?_⟩
  rw [Operand.along, δ.weigh_congr fun j hj c hc => (hcoefficient hj).2 q hq c hc]
  exact weigh_pairing δ _ (fun j c => variationOf u site (δ.coefficient j) c) q

omit hC hD in
/-- The terms of second order of the strains pair those of the gradient with themselves. -/
theorem second_of_strain {W : Mat K} (hW : W.cols = 1)
    (hD₂ : ∀ W, ∀ j < δ.count, ∀ j' < δ.count,
      o.derivative (secondRequest site (δ.coefficient j) (δ.coefficient j') W) =
        derivative dim reference u (secondRequest site (δ.coefficient j) (δ.coefficient j') W))
    (hsecond : o.AnswersSecond δ site W) :
    o.alongTwice δ site W = ∑ q ∈ Finset.range (dim + (shearPairs dim).length),
      W.entry q 0 * pairing dim dim (u.gradientAlong δ site) (u.gradientAlong δ site) q := by
  let var (j c : ℕ) : ℕ → ℕ → K := variationOf u site (δ.coefficient j) c
  have hentry {j j' : ℕ} (hj : j < δ.count) (hj' : j' < δ.count) (c e : ℕ) :
      o.entry (secondRequest site (δ.coefficient j) (δ.coefficient j') W) 0 c e =
        ∑ q ∈ Finset.range (dim + (shearPairs dim).length),
          W.entry q 0 * pairing dim dim (var j c) (var j' e) q := by
    obtain ⟨D, hoD⟩ := hsecond j hj j' hj'
    have h := (hD₂ W j hj j' hj').symm.trans hoD
    obtain ⟨W', hW', -, -, he⟩ := second_eq_ok (hu (concern_second site W hj hj')) hdim.1 rfl h
    obtain rfl := Option.some.inj hW'
    rw [Operand.entry_of_ok hoD, he c e]
    exact Finset.sum_congr rfl fun q _ => by rw [Mat.entry_flatten_column hW]; rfl
  have hinner (j c : ℕ) (hj : j < δ.count) :
      δ.weigh (fun j' e =>
        o.entry (secondRequest site (δ.coefficient j) (δ.coefficient j') W) 0 c e) =
        ∑ q ∈ Finset.range (dim + (shearPairs dim).length),
          W.entry q 0 * pairing dim dim (u.gradientAlong δ site) (var j c) q := by
    rw [δ.weigh_congr fun j' hj' e _ => hentry hj hj' c e, δ.weigh_sum _ fun q j' e => _]
    refine Finset.sum_congr rfl fun q _ => ?_
    rw [δ.weigh_mul, weigh_pairing δ _ (fun j' e => var j' e), pairing_comm]
    rfl
  rw [Operand.alongTwice, δ.weigh_congr fun j hj c _ => hinner j c hj,
    δ.weigh_sum _ fun q j c => _]
  refine Finset.sum_congr rfl fun q _ => ?_
  rw [δ.weigh_mul, weigh_pairing δ _ (fun j c => var j c)]
  rfl

/-- The strains of an affine displacement are quadratic. -/
theorem quadratic_strain (hu' : ∀ {d}, d.Concern δ → u'.Formed dim dim C d)
    (hU : u.Affine δ site u' dim dim) (hv : o.value site = value dim reference u site)
    (hv' : o'.value site = value dim reference u' site)
    (hD₂ : ∀ W, ∀ j < δ.count, ∀ j' < δ.count,
      o.derivative (secondRequest site (δ.coefficient j) (δ.coefficient j') W) =
        derivative dim reference u (secondRequest site (δ.coefficient j) (δ.coefficient j') W)) :
    o.Quadratic δ site o' (dim + (shearPairs dim).length) := by
  intro m hm hfirst W hW hsecond
  have hd := concern_gradient δ site
  rw [hv] at hm
  obtain ⟨A, hA, hgradient, -, -, he⟩ := value_eq_ok (hu hd) hm
  obtain ⟨hvariations, halong⟩ := first_of_strain hu hdim hC hD hA hfirst
  obtain ⟨hgradient', hg⟩ := hU.gradient hgradient hvariations
  obtain ⟨m', hm'⟩ := exists_value (hu hd) (hu' hd) hm hgradient'
  obtain ⟨A', hA', -, -, -, he'⟩ := value_eq_ok (hu' hd) hm'
  obtain rfl := Except.ok.inj (hA.symm.trans hA')
  refine ⟨m', hv'.trans hm', ?_⟩
  rw [second_of_strain hu hdim hW.2 hD₂ hsecond, Finset.mul_sum, ← Finset.sum_add_distrib]
  refine Finset.sum_congr rfl fun q hq => ?_
  have hq := Finset.mem_range.mp hq
  have hnew : ∀ d < dim, ∀ k < dim, gradientOf u' site d k =
      gradientOf u site d k + u.gradientAlong δ site d k := hg
  have href : ∀ d < dim, ∀ k < dim, A.entry d k = A.entry d k := fun _ _ _ _ => rfl
  rw [he q hq, he' q hq, halong q hq, pairing_congr href hnew hq,
    pairing_congr hnew hnew hq]
  rw [pairing_add, pairing_add, pairing_add_left, pairing_add_left, pairing_add_left,
    pairing_comm (u.gradientAlong δ site) (gradientOf u site)]
  ring

end Strain

end ElementFields
