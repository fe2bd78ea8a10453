import ElementFields.Proofs.Totality

namespace ElementFields

namespace Directions

/-- The directions ask for no more than `d` does: a single axis may stand for all of them, and two
coefficients may be swapped. -/
structure Within (d' d : Directions) : Prop where
  spatial : d'.spatial = d.spatial ∨ d.spatial = some .all ∧ ∃ k, d'.spatial = some (.single k)
  coefficients : d'.coefficients = d.coefficients ∨
    ∃ c₁ c₂, d.coefficients = .two c₁ c₂ ∧ d'.coefficients = .two c₂ c₁

namespace Within

variable {d d' : Directions}

theorem axis {c : CoefficientPart} (k : ℕ) :
    Within ⟨some (.single k), c⟩ ⟨some .all, c⟩ := ⟨Or.inr ⟨rfl, k, rfl⟩, Or.inl rfl⟩

theorem swap {s : Option SpatialDirection} (c₁ c₂ : Coefficient) :
    Within ⟨s, .two c₂ c₁⟩ ⟨s, .two c₁ c₂⟩ := ⟨Or.inl rfl, Or.inr ⟨c₁, c₂, rfl, rfl⟩⟩

variable (h : d'.Within d)
include h

theorem spatial_eq_none (hs : d.spatial = none) : d'.spatial = none := by
  rcases h.spatial with h | ⟨h, -⟩
  · rw [h, hs]
  · nomatch hs.symm.trans h

theorem exists_spatial {s : SpatialDirection} (hs : d.spatial = some s) :
    ∃ s', d'.spatial = some s' := by
  rcases h.spatial with h | ⟨-, k, h⟩
  · exact ⟨s, h.trans hs⟩
  · exact ⟨_, h⟩

theorem coefficients_eq (hc : ∀ c₁ c₂, d.coefficients ≠ .two c₁ c₂) :
    d'.coefficients = d.coefficients := by
  rcases h.coefficients with h | ⟨c₁, c₂, h, -⟩
  · exact h
  · exact absurd h (hc c₁ c₂)

theorem perm_coefficientList : d'.coefficientList.Perm d.coefficientList := by
  rw [coefficientList, coefficientList]
  rcases h.coefficients with h | ⟨c₁, c₂, h, h'⟩
  · rw [h]
  · rw [h, h']
    exact .swap c₁ c₂ []

theorem eq_value_iff : d' = .value ↔ d = .value := by
  obtain ⟨s, c⟩ := d
  obtain ⟨s', c'⟩ := d'
  obtain ⟨hs, hc⟩ := h
  rcases hs with rfl | ⟨rfl, k, rfl⟩
  · rcases hc with rfl | ⟨c₁, c₂, rfl, rfl⟩
    · exact Iff.rfl
    · exact iff_of_false (fun h => nomatch h) fun h => nomatch h
  · exact iff_of_false (fun h => nomatch h) fun h => nomatch h

theorem annihilated_eq {K : Type} (e : Expr K) : e.annihilated d' = e.annihilated d := by
  have hperm := h.perm_coefficientList
  have horder (block : BlockId) : d'.coefficientOrderIn block = d.coefficientOrderIn block :=
    (hperm.filter _).length_eq
  simp only [Expr.annihilated, horder]
  exact Bool.eq_iff_iff.2 (by simp only [List.any_eq_true, hperm.mem_iff])

/-- The parts ask for no more than the parts of `d`. -/
theorem exists_part {p' : Directions} (hp : p'.PartOf d') : ∃ p, p.PartOf d ∧ p'.Within p := by
  obtain ⟨hs, hc⟩ := hp
  obtain ⟨s, hs, hsp⟩ : ∃ s, (s = none ∨ s = d.spatial) ∧
      (p'.spatial = s ∨ s = some .all ∧ ∃ k, p'.spatial = some (.single k)) := by
    rcases hs with hs | hs
    · exact ⟨none, Or.inl rfl, Or.inl hs⟩
    · exact ⟨d.spatial, Or.inr rfl, hs ▸ h.spatial⟩
  rcases hc with hc | hc | ⟨c, hmem, hc⟩
  · exact ⟨⟨s, .none⟩, ⟨hs, Or.inl rfl⟩, hsp, Or.inl hc⟩
  · exact ⟨⟨s, d.coefficients⟩, ⟨hs, Or.inr (Or.inl rfl)⟩, hsp, hc ▸ h.coefficients⟩
  · have hmem := h.perm_coefficientList.mem_iff.1 hmem
    exact ⟨⟨s, .single c⟩, ⟨hs, Or.inr (Or.inr ⟨c, hmem, rfl⟩)⟩, hsp, Or.inl hc⟩

end Within

end Directions

variable {K : Type}

section Leaves

variable [Scalar K] {l : Leaf K} {r r' : Request K} {D : Derivative K}

theorem Normalization.interpolate_ok {site : Site K} {x : Vec K × Vec K}
    (h : interpolate l.toLeafData site = .ok x) : ∃ φ, l.valuesAt site = .ok φ := by
  obtain ⟨φ, hφ, -⟩ := bind_eq_ok_iff.1 h
  exact ⟨φ, hφ⟩

theorem Normalization.interpolant_ok {site : Site K} {f : Interpolant K}
    (h : interpolant l.toLeafData site = .ok f) :
    (∃ φ, l.valuesAt site = .ok φ) ∧ ∃ g, l.gradientsIn site = .ok g := by
  obtain ⟨x, hx, h⟩ := bind_eq_ok_iff.1 h
  obtain ⟨g, hg, -⟩ := bind_eq_ok_iff.1 h
  exact ⟨interpolate_ok hx, g, hg⟩

namespace Leaf

/-- Two coefficients of an interpolation between which there is no curvature are answered without any
shape functions. -/
theorem exists_answer_of_flat (hp : l.primitives = .interpolation) {c₁ c₂ : Coefficient}
    (hc : r.directions.coefficients = .two c₁ c₂)
    (hflat : Interpolation.Flat l.toLeafData c₁.index c₂.index) (hr : l.Accepts r) :
    ∃ D, l.answer r = .ok D := by
  obtain ⟨W, hW, -⟩ := hr.fits c₁ c₂ hc
  have halong : r.requireAlong = .ok W := by rw [Request.requireAlong, hW]; rfl
  refine ⟨.matrix (Interpolation.noCurvature l.toLeafData), ?_⟩
  unfold answer
  rcases hs : r.directions.spatial with _ | _ | _ <;> simp only [hc, hp, halong] <;>
    refine bind_eq_ok_iff.2 ⟨W, rfl, bind_eq_ok_iff.2 ⟨_, if_pos hflat, rfl⟩⟩

/-- Any other answer of an interpolation has had the shape functions that it computes from: their
values, or with a direction in space their gradients. -/
theorem shapes_of_interpolation (hp : l.primitives = .interpolation)
    (hflat : ∀ c₁ c₂, r.directions.coefficients = .two c₁ c₂ →
      ¬Interpolation.Flat l.toLeafData c₁.index c₂.index) (hD : l.answer r = .ok D) :
    (r.directions.spatial = none → ∃ φ, l.valuesAt r.site = .ok φ) ∧
      ∀ s, r.directions.spatial = some s → ∃ g, l.gradientsIn r.site = .ok g := by
  unfold answer at hD
  rcases hs : r.directions.spatial with _ | _ | _ <;>
    rcases hc : r.directions.coefficients with _ | c | ⟨c₁, c₂⟩ <;> simp only [hs, hc, hp] at hD
  case none.two =>
    obtain ⟨W, -, hD⟩ := bind_eq_ok_iff.1 hD
    obtain ⟨m, hm, -⟩ := bind_eq_ok_iff.1 hD
    obtain ⟨φ, hφ, -⟩ := bind_eq_ok_iff.1 ((if_neg (hflat c₁ c₂ hc)).symm.trans hm)
    exact ⟨fun _ => ⟨φ, hφ⟩, fun _ h => nomatch h⟩
  case some.single.two | some.all.two =>
    obtain ⟨W, -, hD⟩ := bind_eq_ok_iff.1 hD
    obtain ⟨m, hm, -⟩ := bind_eq_ok_iff.1 hD
    obtain ⟨g, hg, -⟩ := bind_eq_ok_iff.1 ((if_neg (hflat c₁ c₂ hc)).symm.trans hm)
    exact ⟨fun h => (nomatch h), fun _ _ => ⟨g, hg⟩⟩
  case none.none | none.single =>
    obtain ⟨x, hx, -⟩ := bind_eq_ok_iff.1 hD
    obtain ⟨φ, hφ, -⟩ := bind_eq_ok_iff.1 hx
    exact ⟨fun _ => ⟨φ, hφ⟩, fun _ h => nomatch h⟩
  all_goals
    obtain ⟨x, hx, -⟩ := bind_eq_ok_iff.1 hD
    obtain ⟨g, hg, -⟩ := bind_eq_ok_iff.1 hx
    exact ⟨fun h => (nomatch h), fun _ _ => ⟨g, hg⟩⟩

/-- An answer of a normalization has had the values, and with a direction in space the gradients. -/
theorem shapes_of_normalization (hp : l.primitives = .normalization) (hD : l.answer r = .ok D) :
    (∃ φ, l.valuesAt r.site = .ok φ) ∧
      ∀ s, r.directions.spatial = some s → ∃ g, l.gradientsIn r.site = .ok g := by
  unfold answer at hD
  rcases hs : r.directions.spatial with _ | _ | _ <;>
    rcases hc : r.directions.coefficients with _ | c | ⟨c₁, c₂⟩ <;> simp only [hs, hc, hp] at hD
  case none.two =>
    obtain ⟨W, -, hD⟩ := bind_eq_ok_iff.1 hD
    obtain ⟨m, hm, -⟩ := bind_eq_ok_iff.1 hD
    obtain ⟨x, hx, -⟩ := bind_eq_ok_iff.1 hm
    exact ⟨Normalization.interpolate_ok hx, fun _ h => nomatch h⟩
  case some.single.two | some.all.two =>
    obtain ⟨W, -, hD⟩ := bind_eq_ok_iff.1 hD
    obtain ⟨m, hm, -⟩ := bind_eq_ok_iff.1 hD
    obtain ⟨f, hf, -⟩ := bind_eq_ok_iff.1 hm
    exact (Normalization.interpolant_ok hf).imp_right fun h _ _ => h
  case none.none | none.single =>
    obtain ⟨m, hm, -⟩ := bind_eq_ok_iff.1 hD
    obtain ⟨x, hx, -⟩ := bind_eq_ok_iff.1 hm
    exact ⟨Normalization.interpolate_ok hx, fun _ h => nomatch h⟩
  all_goals
    obtain ⟨m, hm, -⟩ := bind_eq_ok_iff.1 hD
    obtain ⟨f, hf, -⟩ := bind_eq_ok_iff.1 hm
    exact (Normalization.interpolant_ok hf).imp_right fun h _ _ => h

variable {E : EvaluationError → Prop} {site : Site K}

theorem Standard.meets_values (h : l.Standard) {φ : Vec K} (hφ : l.valuesAt site = .ok φ) :
    Meets E (l.valuesAt site) fun φ => φ.size = l.numCoefficients := by
  rw [hφ, h.numCoefficients_eq]
  exact h.kind.sound.size_valuesAt hφ

theorem Standard.meets_gradients (h : l.Standard) {g : Mat K} (hg : l.gradientsIn site = .ok g) :
    Meets E (l.gradientsIn site) (·.HasShape l.gridDim l.numCoefficients) := by
  rw [hg, h.numCoefficients_eq]
  exact h.kind.sound.shape_gradientsIn hg

/-- A leaf that answers a request answers what asks for no more. -/
theorem Standard.exists_answer (h : l.Standard) (hsite : r'.site = r.site)
    (hw : r'.directions.Within r.directions) (hr' : l.Accepts r') (hD : l.answer r = .ok D) :
    ∃ D', l.answer r' = .ok D' := by
  have exists_of_meets (hmeets : Meets (fun _ => False) (l.answer r')
      (·.HasForm (r'.directions.form l.valueSize l.gridDim fun _ => l.correctionSize))) :
      ∃ D', l.answer r' = .ok D' := hmeets.exists_ok.imp fun _ h => h.1
  rcases h.kind.primitives with ⟨hp, -⟩ | ⟨hp, -⟩
  · -- Where the interpolation is flat, neither request looks at the shape functions.
    by_cases hflat : ∃ c₁ c₂, r.directions.coefficients = .two c₁ c₂ ∧
        Interpolation.Flat l.toLeafData c₁.index c₂.index
    · obtain ⟨c₁, c₂, hc, hflat⟩ := hflat
      rcases hw.coefficients with hc' | ⟨c₃, c₄, hc', hswapped⟩
      · exact exists_answer_of_flat hp (hc'.trans hc) hflat hr'
      · obtain ⟨rfl, rfl⟩ := CoefficientPart.two.inj (hc.symm.trans hc')
        exact exists_answer_of_flat hp hswapped (hflat.imp_left Ne.symm) hr'
    · obtain ⟨hvalues, hgradients⟩ := shapes_of_interpolation hp
        (fun c₁ c₂ hc hf => hflat ⟨c₁, c₂, hc, hf⟩) hD
      refine exists_of_meets ?_
      cases hs : r.directions.spatial with
      | none =>
        obtain ⟨φ, hφ⟩ := hvalues hs
        refine meets_answer_of_values hr' ?_ (hw.spatial_eq_none hs)
        rw [hp]
        exact Interpolation.serveValues (h.meets_values (hsite ▸ hφ))
      | some s =>
        obtain ⟨g, hg⟩ := hgradients s hs
        obtain ⟨s', hs'⟩ := hw.exists_spatial hs
        refine meets_answer_of_gradients hr' ?_ hs'
        rw [hp]
        exact Interpolation.serveGradients (h.meets_gradients (hsite ▸ hg))
  · -- A normalized leaf has looked at its shape functions, whatever it was asked.
    obtain ⟨⟨φ, hφ⟩, hgradients⟩ := shapes_of_normalization hp hD
    have hvalues := h.meets_values (E := fun _ => False) (hsite ▸ hφ)
    refine exists_of_meets ?_
    cases hs : r.directions.spatial with
    | none =>
      refine meets_answer_of_values hr' ?_ (hw.spatial_eq_none hs)
      rw [hp]
      exact Normalization.serveValues hvalues
    | some s =>
      obtain ⟨g, hg⟩ := hgradients s hs
      obtain ⟨s', hs'⟩ := hw.exists_spatial hs
      refine meets_answer_of_gradients hr' ?_ hs'
      rw [hp]
      exact Normalization.serveGradients ⟨hvalues, h.meets_gradients (hsite ▸ hg)⟩

end Leaf

end Leaves

namespace Operand

variable {o : Operand K} {V G : ℕ} {site : Site K} {r : Request K} {s : SpatialDirection}
  {c c₁ c₂ : Coefficient}

def AnswersAt (o : Operand K) (V G : ℕ) (site : Site K) (d : Directions) : Prop :=
  ∃ q : Request K, q.site = site ∧ q.directions = d ∧ q.Fits V G ∧ o.Answers q

structure AnswersAll (o : Operand K) (V G : ℕ) (site : Site K) (d : Directions) : Prop where
  value : ∃ m, o.value site = .ok m
  spatial : ∀ s, d.spatial = some s → o.AnswersAt V G site ⟨some s, .none⟩
  coefficient : ∀ c ∈ d.coefficientList, o.AnswersAt V G site ⟨none, .single c⟩
  mixed : ∀ s, d.spatial = some s → ∀ c ∈ d.coefficientList,
    o.AnswersAt V G site ⟨some s, .single c⟩
  second : ∀ c₁ c₂, d.coefficients = .two c₁ c₂ → o.AnswersAt V G site ⟨none, .two c₁ c₂⟩
  third : ∀ s c₁ c₂, d.spatial = some s → d.coefficients = .two c₁ c₂ →
    o.AnswersAt V G site ⟨some s, .two c₁ c₂⟩

theorem AnswersAll.answersAt {p d : Directions} (h : o.AnswersAll V G site d) (hp : p.PartOf d)
    (hne : p ≠ .value) : o.AnswersAt V G site p := by
  have hmem := hp.drawnFrom.2
  have htwo (c₁ c₂ : Coefficient) (hc : p.coefficients = .two c₁ c₂) := hp.coefficients_eq_two hc
  have hspatial := hp.1
  obtain ⟨_ | s, _ | c | ⟨c₁, c₂⟩⟩ := p
  · exact absurd rfl hne
  · exact h.coefficient c (hmem c List.mem_cons_self)
  · exact h.second c₁ c₂ (htwo c₁ c₂ rfl)
  all_goals have hs : d.spatial = some s := (hspatial.resolve_left fun h => nomatch h).symm
  · exact h.spatial s hs
  · exact h.mixed s hs c (hmem c List.mem_cons_self)
  · exact h.third s c₁ c₂ hs (htwo c₁ c₂ rfl)

theorem Answers.spatial (h : o.Answers r.spatialPart) (hs : r.directions.spatial = some s) :
    o.AnswersAt V G r.site ⟨some s, .none⟩ :=
  ⟨r.spatialPart, rfl, hs ▸ rfl, Request.fits_of_none rfl, h⟩

theorem Answers.coefficient (h : o.Answers (r.coefficientPart c)) :
    o.AnswersAt V G r.site ⟨none, .single c⟩ :=
  ⟨r.coefficientPart c, rfl, rfl, Request.fits_of_single rfl, h⟩

theorem Answers.mixed (h : o.Answers (r.mixedPart c)) (hs : r.directions.spatial = some s) :
    o.AnswersAt V G r.site ⟨some s, .single c⟩ :=
  ⟨r.mixedPart c, rfl, hs ▸ rfl, Request.fits_of_single rfl, h⟩

theorem Answers.second {W : Mat K} (h : o.Answers (r.withoutSpatialAlong (some W)))
    (hc : r.directions.coefficients = .two c₁ c₂) (hW : W.HasShape V 1) :
    o.AnswersAt V G r.site ⟨none, .two c₁ c₂⟩ :=
  ⟨r.withoutSpatialAlong (some W), rfl, hc ▸ rfl, Request.withoutSpatialAlong_fits hW, h⟩

theorem Answers.third {W : Mat K} (h : o.Answers (r.withAlong (some W)))
    (hs : r.directions.spatial = some s) (hc : r.directions.coefficients = .two c₁ c₂)
    (hW : W.HasShape V (s.count G)) : o.AnswersAt V G r.site ⟨some s, .two c₁ c₂⟩ :=
  ⟨r.withAlong (some W), rfl, by rw [← hs, ← hc]; rfl, Request.withAlong_fits hs hW, h⟩

section

variable (hvalue : ∃ m, o.value site = .ok m)
include hvalue

theorem answersAll_spatial (h : o.AnswersAt V G site ⟨some s, .none⟩) :
    o.AnswersAll V G site ⟨some s, .none⟩ where
  value := hvalue
  spatial _ hs := Option.some.inj hs ▸ h
  coefficient _ hc := absurd hc List.not_mem_nil
  mixed _ _ _ hc := absurd hc List.not_mem_nil
  second := nofun
  third := nofun

theorem answersAll_coefficient (h : o.AnswersAt V G site ⟨none, .single c⟩) :
    o.AnswersAll V G site ⟨none, .single c⟩ where
  value := hvalue
  spatial := nofun
  coefficient _ hc := List.mem_singleton.1 hc ▸ h
  mixed := nofun
  second := nofun
  third := nofun

theorem answersAll_mixed (hs : o.AnswersAt V G site ⟨some s, .none⟩)
    (hc : o.AnswersAt V G site ⟨none, .single c⟩) (h : o.AnswersAt V G site ⟨some s, .single c⟩) :
    o.AnswersAll V G site ⟨some s, .single c⟩ where
  value := hvalue
  spatial _ hs' := Option.some.inj hs' ▸ hs
  coefficient _ hc' := List.mem_singleton.1 hc' ▸ hc
  mixed _ hs' _ hc' := Option.some.inj hs' ▸ List.mem_singleton.1 hc' ▸ h
  second := nofun
  third := nofun

theorem answersAll_second (h₁ : o.AnswersAt V G site ⟨none, .single c₁⟩)
    (h₂ : o.AnswersAt V G site ⟨none, .single c₂⟩)
    (h : o.AnswersAt V G site ⟨none, .two c₁ c₂⟩) :
    o.AnswersAll V G site ⟨none, .two c₁ c₂⟩ where
  value := hvalue
  spatial := nofun
  coefficient := List.forall_mem_cons.2 ⟨h₁, List.forall_mem_singleton.2 h₂⟩
  mixed := nofun
  second := by
    rintro _ _ ⟨⟩
    exact h
  third := nofun

end

theorem answersAll_third (hvalue : ∃ m, o.value r.site = .ok m)
    (hs : r.directions.spatial = some s) (hparts : o.AnswersParts r c₁ c₂)
    (hsecond : o.AnswersAt V G r.site ⟨none, .two c₁ c₂⟩)
    (hthird : o.AnswersAt V G r.site ⟨some s, .two c₁ c₂⟩) :
    o.AnswersAll V G r.site ⟨some s, .two c₁ c₂⟩ where
  value := hvalue
  spatial := by
    rintro _ ⟨⟩
    exact hparts.slope.spatial hs
  coefficient :=
    List.forall_mem_cons.2 ⟨hparts.first.coefficient,
      List.forall_mem_singleton.2 hparts.second.coefficient⟩
  mixed := by
    rintro _ ⟨⟩
    exact List.forall_mem_cons.2 ⟨hparts.mixedFirst.mixed hs,
      List.forall_mem_singleton.2 (hparts.mixedSecond.mixed hs)⟩
  second := by
    rintro _ _ ⟨⟩
    exact hsecond
  third := by
    rintro _ _ _ ⟨⟩ ⟨⟩
    exact hthird

end Operand

section Rules

variable [ExactScalar K] {V G : ℕ} {C : BlockId → ℕ} {r : Request K} {D : Derivative K}

/-- A product that is answered has had an answer to every part from both factors. -/
theorem Product.answersAll {a b : Operand K} (ha : a.Formed V G C r.directions)
    (hb : b.Formed V G C r.directions) (hfit : r.Fits 1 G) (hne : r.directions ≠ .value)
    (h : Product.derivative a b r = .ok D) :
    a.AnswersAll V G r.site r.directions ∧ b.AnswersAll V G r.site r.directions := by
  obtain ⟨va, hva, h⟩ := bind_eq_ok_iff.1 h
  obtain ⟨vb, hvb, h⟩ := bind_eq_ok_iff.1 h
  have ha₀ : ∃ m, a.value r.site = .ok m := ⟨va, hva⟩
  have hb₀ : ∃ m, b.value r.site = .ok m := ⟨vb, hvb⟩
  replace hva := ha.value r.site va hva
  replace hvb := hb.value r.site vb hvb
  obtain ⟨site, ⟨_ | s, _ | c | ⟨c₁, c₂⟩⟩, along⟩ := r
  · exact absurd rfl hne
  · obtain ⟨⟨ha₁, hb₁⟩, -⟩ := coefficient_eq_ok ha hb hva hvb rfl rfl h
    exact ⟨Operand.answersAll_coefficient ha₀ ha₁.coefficient,
      Operand.answersAll_coefficient hb₀ hb₁.coefficient⟩
  · obtain ⟨W, w, -, -, ⟨⟨ha₁, ha₂⟩, ⟨hb₁, hb₂⟩, ha₃, hb₃⟩, -⟩ := second_eq_ok ha hb hva hvb rfl h
    exact ⟨Operand.answersAll_second ha₀ ha₁.coefficient ha₂.coefficient (ha₃.second rfl hvb),
      Operand.answersAll_second hb₀ hb₁.coefficient hb₂.coefficient (hb₃.second rfl hva)⟩
  · obtain ⟨⟨ha₁, hb₁⟩, -⟩ := spatial_eq_ok ha hb hva rfl rfl h
    exact ⟨Operand.answersAll_spatial ha₀ (ha₁.spatial rfl),
      Operand.answersAll_spatial hb₀ (hb₁.spatial rfl)⟩
  · obtain ⟨⟨⟨ha₁, hb₁⟩, ⟨ha₂, hb₂⟩, ha₃, hb₃⟩, -⟩ := mixed_eq_ok ha hb hva hvb rfl rfl h
    exact ⟨Operand.answersAll_mixed ha₀ (ha₁.spatial rfl) ha₂.coefficient (ha₃.mixed rfl),
      Operand.answersAll_mixed hb₀ (hb₁.spatial rfl) hb₂.coefficient (hb₃.mixed rfl)⟩
  · obtain ⟨W, la, lb, ma, mb, -, hW, hal, ⟨⟨ha₁, hb₁⟩, ⟨ha₂, hb₂⟩, ha₃, hb₃⟩, -⟩ :=
      third_eq_ok ha hb hva hvb rfl rfl hfit h
    have hma : ma.HasShape V (s.count G) := ⟨hal.rows_ma.1, hal.rows_ma.2.trans hW.2⟩
    have hmb : mb.HasShape V (s.count G) := ⟨hal.rows_mb.1, hal.rows_mb.2.trans hW.2⟩
    exact ⟨Operand.answersAll_third ha₀ rfl ha₁ (ha₂.second rfl hal.rows_la) (ha₃.third rfl rfl hma),
      Operand.answersAll_third hb₀ rfl hb₁ (hb₂.second rfl hal.rows_lb) (hb₃.third rfl rfl hmb)⟩

/-- A function of an operand that is answered has had an answer to every part. -/
theorem Chain.answersAll {f : ScalarMap} {a : Operand K} (ha : a.Formed 1 G C r.directions)
    (hfit : r.Fits 1 G) (hne : r.directions ≠ .value) (h : Chain.derivative f a r = .ok D) :
    a.AnswersAll 1 G r.site r.directions := by
  obtain ⟨va, hva, h⟩ := bind_eq_ok_iff.1 h
  obtain ⟨v, -, h⟩ := bind_eq_ok_iff.1 h
  have ha₀ : ∃ m, a.value r.site = .ok m := ⟨va, hva⟩
  obtain ⟨site, ⟨_ | s, _ | c | ⟨c₁, c₂⟩⟩, along⟩ := r
  · exact absurd rfl hne
  · obtain ⟨E, hE, -⟩ := bind_eq_ok_iff.1 h
    exact Operand.answersAll_coefficient ha₀ ⟨_, rfl, rfl, hfit, E, hE⟩
  · obtain ⟨W, w, -, -, ⟨ha₁, ha₂, ha₃⟩, -⟩ := second_eq_ok ha rfl h
    exact Operand.answersAll_second ha₀ ha₁.coefficient ha₂.coefficient (ha₃.second rfl ⟨rfl, rfl⟩)
  · obtain ⟨E, hE, -⟩ := bind_eq_ok_iff.1 h
    exact Operand.answersAll_spatial ha₀ ⟨_, rfl, rfl, hfit, E, hE⟩
  · obtain ⟨⟨ha₁, ha₂, ha₃⟩, -⟩ := mixed_eq_ok ha rfl rfl h
    exact Operand.answersAll_mixed ha₀ (ha₁.spatial rfl) ha₂.coefficient (ha₃.mixed rfl)
  · obtain ⟨W, x, -, hW, -, ⟨ha₁, ha₂, ha₃⟩, -⟩ := third_eq_ok ha rfl rfl hfit h
    exact Operand.answersAll_third ha₀ rfl ha₁ (ha₂.second rfl ⟨rfl, rfl⟩) (ha₃.third rfl rfl hW)

/-- Strains that have answered a request answer what asks for no more. Without a second coefficient
the requests do not differ, and with one the strains have had both variations. -/
theorem Strain.exists_derivative {u : Operand K} {dim : ℕ} {reference : Site K → Outcome (Mat K)}
    {r' : Request K} (hu : u.Formed dim dim C r.directions) (hdim : 1 ≤ dim ∧ dim ≤ 3)
    (hsite : r'.site = r.site) (hw : r'.directions.Within r.directions)
    (hfit : r'.Fits (strainSize dim) dim) (h : Strain.derivative dim reference u r = .ok D) :
    ∃ D', Strain.derivative dim reference u r' = .ok D' := by
  obtain ⟨site, ⟨s, c⟩, along⟩ := r
  obtain ⟨site', ⟨s', c'⟩, along'⟩ := r'
  obtain rfl : site' = site := hsite
  rcases s with _ | s
  · obtain rfl : s' = none := hw.spatial_eq_none rfl
    rcases c with _ | c | ⟨c₁, c₂⟩
    · obtain rfl : c' = .none := hw.coefficients_eq fun _ _ h => nomatch h
      exact ⟨D, h⟩
    · obtain rfl : c' = .single c := hw.coefficients_eq fun _ _ h => nomatch h
      exact ⟨D, h⟩
    · obtain ⟨W, -, ⟨h₁, h₂⟩, -⟩ := second_eq_ok hu hdim.1 rfl h
      have hvariation : ∀ c ∈ [c₁, c₂], Meets (fun _ => False)
          (u.derivative (variationRequest site' c)) (·.HasForm (.perDirection dim dim (C c.block))) := by
        intro c hc
        obtain ⟨E, hE⟩ : u.Answers (variationRequest site' c) := by
          rcases List.mem_pair.1 hc with rfl | rfl
          · exact h₁
          · exact h₂
        rw [hE]
        exact hu.derivative (variationRequest site' c) E
          ⟨Or.inr (Or.inr rfl), fun _ hm => List.mem_singleton.1 hm ▸ hc⟩
          (Request.fits_of_single rfl) hE
      -- Both variations have been answered, in whichever order the coefficients come.
      obtain ⟨c₃, c₄, rfl⟩ : ∃ c₃ c₄, c' = .two c₃ c₄ := by
        rcases hw.coefficients with hc | ⟨c₃, c₄, -, hc⟩
        · exact ⟨c₁, c₂, hc⟩
        · exact ⟨c₄, c₃, hc⟩
      have hmeets := meets_second (r := ⟨site', ⟨none, .two c₃ c₄⟩, along'⟩) hdim
        (fun c hc => hvariation c (hw.perm_coefficientList.mem_iff.1 hc)) hfit rfl rfl
      exact hmeets.exists_ok.imp fun _ h => h.1
  · rcases c with _ | c | ⟨c₁, c₂⟩ <;> nomatch h

end Rules

namespace ElementField

variable [ExactScalar K] {f : ElementField K} {site : Site K}

structure Nested (f : ElementField K) (V : ℕ) (site : Site K) (r r' : Request K) : Prop where
  site_eq : r.site = site
  site_eq' : r'.site = site
  within : r'.directions.Within r.directions
  admits : f.Admits r.directions
  admits' : f.Admits r'.directions
  fits : r.Fits V f.gridDim
  fits' : r'.Fits V f.gridDim

/-- At a site, the part of the field answers every request that asks for no more than one that it
answers. -/
def AnswersWithin (f : ElementField K) (site : Site K) (e : Expr K) : Prop :=
  ∀ r r', f.Nested e.valueSize site r r' → (f.operand e).Answers r → (f.operand e).Answers r'

/-- What is skipped for the one request is skipped for the other, so it is enough to look at the
rules. -/
theorem answersWithin_of_rule {e : Expr K}
    (hrule : ∀ r r', f.Nested e.valueSize site r r' → r.directions ≠ .value → ∀ D,
      f.rule Expr.annihilated e r = .ok D → ∃ D', f.rule Expr.annihilated e r' = .ok D') :
    f.AnswersWithin site e := by
  rintro r r' h ⟨D, hD⟩
  rw [Operand.Answers, operand, operandWith_derivative]
  rw [operand, operandWith_derivative] at hD
  by_cases hv : r.directions = .value
  · rw [if_pos hv, h.site_eq] at hD
    rw [if_pos (h.within.eq_value_iff.2 hv), h.site_eq']
    exact ⟨D, hD⟩
  · have hv' := mt h.within.eq_value_iff.1 hv
    rw [if_neg hv, ← h.within.annihilated_eq e] at hD
    rw [if_neg hv']
    split
    · rw [zeroDerivative_eq h.admits']
      exact ⟨_, rfl⟩
    · rename_i hskip
      rw [if_neg hskip] at hD
      exact hrule r r' h hv D hD

/-- A leaf answers what asks for no more than what it has answered. -/
theorem answersWithin_leaf {slot : ℕ} {l : Leaf K} (hl : f.HostsLeaf slot l.signature l)
    (hs : l.Standard) : f.AnswersWithin site (.leaf slot l.signature) := by
  refine answersWithin_of_rule fun r r' h _ D hD => ?_
  change f.leafDerivative slot r = .ok D at hD
  show ∃ D', f.leafDerivative slot r' = .ok D'
  have hmem (c : Coefficient) : c ∈ r'.directions.coefficientList ↔
      c ∈ r.directions.coefficientList := h.within.perm_coefficientList.mem_iff
  rw [leafDerivative_eq hl.get] at hD ⊢
  by_cases hown : ∀ c ∈ r'.directions.coefficientList, c.block = l.block
  · have hown' : ∀ c ∈ r.directions.coefficientList, c.block = l.block :=
      fun c hc => hown c ((hmem c).2 hc)
    rw [if_neg (by simpa using hown')] at hD
    rw [if_neg (by simpa using hown)]
    exact hs.exists_answer (h.site_eq'.trans h.site_eq.symm) h.within
      (hl.accepts h.admits' hown h.fits') hD
  · rw [if_pos (by simpa using hown), zeroDerivative_eq h.admits']
    exact ⟨_, rfl⟩

/-- What has been answered in every part of the directions is answered in every part of directions
that ask for no more. -/
theorem total_of_answersAll (hshape : ∀ l ∈ f.reachableLeaves, l.KeepsShapes) {e : Expr K}
    (he : f.Hosts e) (hself : f.AnswersWithin site e) {V : ℕ} {r r' : Request K}
    (h : f.Nested V site r r')
    (hall : (f.operand e).AnswersAll e.valueSize f.gridDim site r.directions) :
    (f.operand e).Total (fun _ => False) e.valueSize f.gridDim f.tangentDim site r'.directions := by
  have hformed := operandWith_formed hshape Expr.annihilated he h.admits'
  refine ⟨?_, fun q' hsite hpart hfit => ?_⟩
  · obtain ⟨m, hm⟩ := hall.value
    rw [hm]
    exact hformed.value site m hm
  · have hanswers : (f.operand e).Answers q' := by
      obtain ⟨p, hp, hw⟩ := h.within.exists_part hpart
      by_cases hv : p = .value
      · obtain ⟨m, hm⟩ := hall.value
        refine ⟨.matrix m, ?_⟩
        rw [operand, operandWith_derivative, if_pos (hw.eq_value_iff.2 hv), hsite]
        exact bind_eq_ok_iff.2 ⟨m, hm, rfl⟩
      · obtain ⟨q, hq, rfl, hqfit, hqa⟩ := hall.answersAt hp hv
        exact hself q q' ⟨hq, hsite, hw, h.admits.drawnFrom hp.drawnFrom,
          h.admits'.drawnFrom hpart.drawnFrom, hqfit, hfit⟩ hqa
    obtain ⟨D, hD⟩ := hanswers
    rw [hD]
    exact hformed.derivative q' D hpart.drawnFrom hfit hD

/-- A multiple of an expression answers what the expression answers. -/
theorem answersWithin_scaled {op : UnaryOp K} {a : Expr K} {x : K}
    (hsize : (Expr.unary op a).valueSize = a.valueSize)
    (hrule : ∀ r, f.rule Expr.annihilated (.unary op a) r =
      do return (← (f.operand a).derivative r).scale x)
    (ha : f.AnswersWithin site a) : f.AnswersWithin site (.unary op a) := by
  refine answersWithin_of_rule fun r r' h _ D hD => ?_
  rw [hrule] at hD
  obtain ⟨E, hE, -⟩ := bind_eq_ok_iff.1 hD
  obtain ⟨E', hE'⟩ := ha r r' (hsize ▸ h) ⟨E, hE⟩
  rw [hrule]
  exact ⟨E'.scale x, bind_eq_ok_iff.2 ⟨E', hE', rfl⟩⟩

section Binary

variable (hshape : ∀ l ∈ f.reachableLeaves, l.KeepsShapes) {a b : Expr K} (ha : f.Hosts a)
  (hb : f.Hosts b) (hsize : a.valueSize = b.valueSize) (iha : f.AnswersWithin site a)
  (ihb : f.AnswersWithin site b)
include hshape ha hb hsize iha ihb

theorem answersWithin_sum : f.AnswersWithin site (.binary .sum a b) := by
  refine answersWithin_of_rule fun r r' h _ D hD => ?_
  obtain ⟨x, hx, hD⟩ := bind_eq_ok_iff.1 hD
  obtain ⟨y, hy, -⟩ := bind_eq_ok_iff.1 hD
  obtain ⟨x', hx'⟩ := iha r r' h ⟨x, hx⟩
  obtain ⟨y', hy'⟩ := ihb r r' (hsize ▸ h) ⟨y, hy⟩
  have hself := Directions.DrawnFrom.refl r'.directions
  have hxF := (operandWith_formed hshape Expr.annihilated ha h.admits').derivative r' x' hself
    h.fits' hx'
  have hyF := (operandWith_formed hshape Expr.annihilated hb h.admits').derivative r' y' hself
    (hsize ▸ h.fits') hy'
  obtain ⟨D', hD', -⟩ := Derivative.yields_add hxF (hsize ▸ hyF)
  exact ⟨D', bind_eq_ok_iff.2 ⟨x', hx', bind_eq_ok_iff.2 ⟨y', hy', lift_eq_ok_iff.2 hD'⟩⟩⟩

theorem answersWithin_dot : f.AnswersWithin site (.binary .dot a b) := by
  refine answersWithin_of_rule fun r r' h hne D hD => ?_
  have haF := operandWith_formed hshape Expr.annihilated ha h.admits
  have hbF := operandWith_formed hshape Expr.annihilated hb h.admits
  obtain ⟨haall, hball⟩ := Product.answersAll haF (hsize ▸ hbF) h.fits hne hD
  rw [h.site_eq] at haall hball
  have hA := total_of_answersAll hshape ha iha h haall
  have hB := total_of_answersAll hshape hb ihb h (hsize ▸ hball)
  rw [← hsize] at hB
  rw [← h.site_eq'] at hA hB
  exact (Product.meets_derivative hA hB h.fits').exists_ok.imp fun _ h => h.1

end Binary

theorem answersWithin (hleaf : ∀ l ∈ f.reachableLeaves, l.Standard) {e : Expr K} (he : f.Hosts e) :
    f.AnswersWithin site e := by
  have hshape : ∀ l ∈ f.reachableLeaves, l.KeepsShapes := fun l hl => (hleaf l hl).kind.keepsShapes
  induction e with
  | leaf slot signature =>
    obtain ⟨l, hl⟩ := he
    obtain rfl := hl.signature_eq
    exact answersWithin_leaf hl (hleaf l hl.mem)
  | constant x =>
    refine answersWithin_of_rule fun r r' h _ _ _ => ?_
    exact ⟨_, zeroDerivative_eq h.admits' 1⟩
  | unary op a ih =>
    cases op with
    | negate => exact answersWithin_scaled rfl (fun _ => rfl) (ih he)
    | scale factor => exact answersWithin_scaled rfl (fun _ => rfl) (ih he)
    | map g =>
      obtain ⟨ha, hV⟩ := he
      refine answersWithin_of_rule fun r r' h hne D hD => ?_
      have hformed := operandWith_formed hshape Expr.annihilated ha h.admits
      have hall := Chain.answersAll (hV ▸ hformed) h.fits hne hD
      have htotal := total_of_answersAll hshape ha (ih ha) h (h.site_eq ▸ hV ▸ hall)
      rw [hV, ← h.site_eq'] at htotal
      exact (Chain.meets_derivative htotal h.fits').exists_ok.imp fun _ h => h.1
    | strain =>
      obtain ⟨ha, ⟨hV, hG⟩, hdim, -⟩ := he
      have hsize : (Expr.unary .strain a).valueSize = strainSize f.gridDim := by
        rw [Expr.valueSize, hG, Option.getD_some]
      refine answersWithin_of_rule fun r r' h hne D hD => ?_
      have hformed := operandWith_formed hshape Expr.annihilated ha h.admits
      rw [hV] at hformed
      exact Strain.exists_derivative hformed hdim (h.site_eq'.trans h.site_eq.symm) h.within
        (hsize ▸ h.fits') hD
  | binary op a b iha ihb =>
    obtain ⟨⟨ha, hb⟩, hsize⟩ := he
    cases op with
    | sum => exact answersWithin_sum hshape ha hb hsize (iha ha) (ihb hb)
    | dot => exact answersWithin_dot hshape ha hb hsize (iha ha) (ihb hb)

/-- A built field on leaves of the library answers every admissible request that asks for no more
than one that it answers. -/
theorem exists_evaluateRequest (hf : f.Built) (hleaf : ∀ l ∈ f.reachableLeaves, l.Standard)
    {r r' : Request K} (hsite : r'.site = r.site) (hw : r'.directions.Within r.directions)
    (hr' : f.Admits r'.directions) (hfit' : r'.Fits f.valueSize f.gridDim) {D : Derivative K}
    (hD : f.evaluateRequest r = .ok D) : ∃ D', f.evaluateRequest r' = .ok D' := by
  obtain ⟨⟨hr, hfit⟩, hD⟩ := evaluateRequest_eq_ok_iff.1 hD
  have hsize : f.expr.valueSize = f.valueSize := f.top.valueSize_eq.symm
  have hself : f.AnswersWithin r.site f.expr := answersWithin hleaf hf.hosts
  obtain ⟨D', hD'⟩ := hself r r'
    ⟨rfl, hsite, hw, hr, hr', hsize ▸ hfit, hsize ▸ hfit'⟩ ⟨D, hD⟩
  exact ⟨D', evaluateRequest_eq_ok_iff.2 ⟨⟨hr', hfit'⟩, hD'⟩⟩

end ElementField

end ElementFields
