import ElementFields.Proofs.ChainRule
import ElementFields.Proofs.Shapes
import ElementFields.Proofs.StrainRule

namespace ElementFields

variable {K : Type} [Scalar K] {E : EvaluationError → Prop}

namespace Operand

/-- At a site, the value is a column of `V` components, and a request for a part of `d`, contracted
with something of the right shape, is answered in the form of its directions. Either one may be
refused for a reason in `E`. -/
structure Total (E : EvaluationError → Prop) (o : Operand K) (V G : ℕ) (C : BlockId → ℕ)
    (site : Site K) (d : Directions) : Prop where
  value : Meets E (o.value site) (·.HasShape V 1)
  derivative : ∀ r : Request K, r.site = site → r.directions.PartOf d → r.Fits V G →
    Meets E (o.derivative r) (·.HasForm (r.directions.form V G C))

variable {o : Operand K} {V G : ℕ} {C : BlockId → ℕ} {r : Request K} {s : SpatialDirection}
  {c c₁ c₂ : Coefficient}

theorem Total.meets_derivativeMatrix {site : Site K} {d : Directions}
    (ho : o.Total E V G C site d) (hsite : r.site = site) (hd : r.directions.PartOf d)
    (hfit : r.Fits V G) {rows cols : ℕ} (hF : r.directions.form V G C = .matrix rows cols) :
    Meets E (o.derivativeMatrix r) (·.HasShape rows cols) := by
  refine (ho.derivative r hsite hd hfit).bind fun D hD => ?_
  rw [hF] at hD
  obtain ⟨m, rfl, hm⟩ := hD.exists_matrix
  exact Meets.lift (Yields.pure hm)

variable (ho : o.Total E V G C r.site r.directions)
include ho

theorem Total.meets_spatialComponents (hs : r.directions.spatial = some s) :
    Meets E (o.spatialComponents r) (Mat.AllShaped · (s.count G) V 1) := by
  have hm := ho.meets_derivativeMatrix (r := r.spatialPart) rfl r.spatialPart_partOf
    (Request.fits_of_none rfl) (Directions.form_spatial hs rfl)
  exact hm.bind fun m hm => Meets.pure (Mat.shaped_splitColumns hm)

theorem Total.meets_wrtCoefficient (hc : c ∈ r.directions.coefficientList) :
    Meets E (o.wrtCoefficient r c) (·.HasShape V (C c.block)) :=
  ho.meets_derivativeMatrix (r := r.coefficientPart c) rfl (r.coefficientPart_partOf hc)
    (Request.fits_of_single rfl) (Directions.form_single rfl rfl)

omit [Scalar K] in
theorem Total.meets_mixedComponents (hs : r.directions.spatial = some s)
    (hc : c ∈ r.directions.coefficientList) :
    Meets E (o.mixedComponents r c) (Mat.AllShaped · (s.count G) V (C c.block)) := by
  have hD := ho.derivative (r.mixedPart c) rfl (r.mixedPart_partOf hc)
    (Request.fits_of_single rfl)
  have hs' : (r.mixedPart c).directions.spatial = some s := hs
  exact hD.bind fun D hD => Meets.pure (hD.toComponents hs' rfl)

theorem Total.meets_secondAlong (hc : r.directions.coefficients = .two c₁ c₂) {along : Mat K}
    (halong : along.HasShape V 1) :
    Meets E (o.secondAlong r along) (·.HasShape (C c₁.block) (C c₂.block)) :=
  ho.meets_derivativeMatrix (r := r.withoutSpatialAlong (some along)) rfl
    (r.withoutSpatialAlong_partOf _) (Request.withoutSpatialAlong_fits halong)
    (Directions.form_two hc)

theorem Total.meets_thirdAlong (hs : r.directions.spatial = some s)
    (hc : r.directions.coefficients = .two c₁ c₂) {along : Mat K}
    (halong : along.HasShape V (s.count G)) :
    Meets E (o.thirdAlong r along) (·.HasShape (C c₁.block) (C c₂.block)) :=
  ho.meets_derivativeMatrix (r := r.withAlong (some along)) rfl (r.withAlong_partOf _)
    (Request.withAlong_fits hs halong) (Directions.form_two hc)

end Operand

namespace Product

theorem yields_crossSum {x m y n : Mat K} {p q i j : ℕ} (hx : x.HasShape i p)
    (hm : m.HasShape i q) (hy : y.HasShape j p) (hn : n.HasShape j q) :
    Yields (crossSum x m y n) (·.HasShape p q) :=
  (Mat.yields_transposeMul hx hm).bind fun _ h₁ =>
    (Mat.yields_transposeMul hy hn).bind fun _ h₂ => Mat.yields_add h₁ h₂

theorem yields_addProduct {sum x m : Mat K} {p q i : ℕ} (hsum : sum.HasShape p q)
    (hx : x.HasShape i p) (hm : m.HasShape i q) :
    Yields (addProduct sum x m) (·.HasShape p q) :=
  (Mat.yields_transposeMul hx hm).bind fun _ h => Mat.yields_add hsum h

variable {a b : Operand K} {V G : ℕ} {C : BlockId → ℕ} {r : Request K} {va vb : Mat K}
  {s : SpatialDirection} {c c₁ c₂ : Coefficient}

theorem meets_value {site : Site K} (ha : Meets E (a.value site) (·.HasShape V 1))
    (hb : Meets E (b.value site) (·.HasShape V 1)) :
    Meets E (value a b site) (·.HasShape 1 1) := by
  refine ha.bind fun va hva => hb.bind fun vb hvb => ?_
  exact (Meets.lift (Mat.yields_dot hva hvb)).bind fun p _ => Meets.pure ⟨rfl, rfl⟩

variable (ha : a.Total E V G C r.site r.directions) (hb : b.Total E V G C r.site r.directions)
  (hva : va.HasShape V 1) (hvb : vb.HasShape V 1)
include ha hb hva hvb

theorem meets_spatial (hs : r.directions.spatial = some s)
    (hc : r.directions.coefficients = .none) :
    Meets E (spatial a b r va vb) (·.HasForm (r.directions.form 1 G C)) := by
  refine (ha.meets_spatialComponents hs).bind fun as has =>
    (hb.meets_spatialComponents hs).bind fun bs hbs => ?_
  -- In each direction the two numbers come from columns of `V` components.
  have hitem : ∀ x ∈ as.zip bs, Meets E
      (do return Mat.scalar ((← x.1.dot vb) + (← va.dot x.2)) : Outcome (Mat K))
      (·.HasShape 1 1) := by
    intro x hx
    obtain ⟨hak, hbk⟩ := has.of_mem_zip hbs hx
    refine (Meets.lift (Mat.yields_dot hak hvb)).bind fun p _ => ?_
    exact (Meets.lift (Mat.yields_dot hva hbk)).bind fun q _ => Meets.pure ⟨rfl, rfl⟩
  refine (Meets.mapM hitem).bind fun ms hms => Meets.lift ?_
  apply Derivative.yields_ofComponents_spatial hs hc
  exact ⟨hms.1.trans (has.length_zip hbs), hms.2⟩

theorem meets_coefficient (hs : r.directions.spatial = none)
    (hc : r.directions.coefficients = .single c) :
    Meets E (coefficient a b r va vb c) (·.HasForm (r.directions.form 1 G C)) := by
  have hmem := Directions.mem_coefficientList hc
  refine (ha.meets_wrtCoefficient hmem).bind fun ac hac =>
    (hb.meets_wrtCoefficient hmem).bind fun bc hbc => ?_
  refine (Meets.lift (yields_crossSum hvb hac hva hbc)).bind fun m hm => Meets.pure ?_
  rw [Directions.form_single hs hc]
  exact hm

theorem meets_mixed (hs : r.directions.spatial = some s)
    (hc : r.directions.coefficients = .single c) :
    Meets E (mixed a b r va vb c) (·.HasForm (r.directions.form 1 G C)) := by
  have hmem := Directions.mem_coefficientList hc
  refine (ha.meets_spatialComponents hs).bind fun as has =>
    (hb.meets_spatialComponents hs).bind fun bs hbs => ?_
  refine (ha.meets_wrtCoefficient hmem).bind fun ac hac =>
    (hb.meets_wrtCoefficient hmem).bind fun bc hbc => ?_
  refine (ha.meets_mixedComponents hs hmem).bind fun asc hasc =>
    (hb.meets_mixedComponents hs hmem).bind fun bsc hbsc => ?_
  have hitem : ∀ x ∈ (as.zip bs).zip (asc.zip bsc), Meets E
      (do let sum ← crossSum x.1.2 ac vb x.2.1
          addProduct (← addProduct sum x.1.1 bc) va x.2.2 : Outcome (Mat K))
      (·.HasShape 1 (C c.block)) := by
    intro x hx
    obtain ⟨hx₁, hx₂⟩ := List.of_mem_zip (a := x.1) (b := x.2) hx
    obtain ⟨hak, hbk⟩ := has.of_mem_zip hbs hx₁
    obtain ⟨hakc, hbkc⟩ := hasc.of_mem_zip hbsc hx₂
    refine (Meets.lift (yields_crossSum hbk hac hvb hakc)).bind fun sum hsum => ?_
    refine (Meets.lift (yields_addProduct hsum hak hbc)).bind fun sum hsum => ?_
    exact Meets.lift (yields_addProduct hsum hva hbkc)
  refine (Meets.mapM hitem).bind fun ms hms => Meets.lift ?_
  apply Derivative.yields_ofComponents_mixed hs hc
  refine ⟨?_, hms.2⟩
  rw [hms.1, List.length_zip, has.length_zip hbs, hasc.length_zip hbsc, Nat.min_self]

theorem meets_second (hfit : r.Fits 1 G) (hs : r.directions.spatial = none)
    (hc : r.directions.coefficients = .two c₁ c₂) :
    Meets E (second a b r va vb c₁ c₂) (·.HasForm (r.directions.form 1 G C)) := by
  obtain ⟨hmem₁, hmem₂⟩ := Directions.mem_coefficientList_two hc
  refine (hfit.meets_column hs hc).bind fun W hW => ?_
  refine (Meets.lift (Mat.yields_number hW)).bind fun w _ => ?_
  refine (ha.meets_wrtCoefficient hmem₁).bind fun a₁ ha₁ =>
    (ha.meets_wrtCoefficient hmem₂).bind fun a₂ ha₂ => ?_
  refine (hb.meets_wrtCoefficient hmem₁).bind fun b₁ hb₁ =>
    (hb.meets_wrtCoefficient hmem₂).bind fun b₂ hb₂ => ?_
  refine (Meets.lift (yields_crossSum ha₁ hb₂ hb₁ ha₂)).bind fun x hx => ?_
  -- Each operand is asked along a multiple of the value of the other one, a column as it wants it.
  refine (ha.meets_secondAlong hc (hvb.scale w)).bind fun y hy => ?_
  refine (Meets.lift (Mat.yields_add (hx.scale w) hy)).bind fun sum hsum => ?_
  refine (hb.meets_secondAlong hc (hva.scale w)).bind fun z hz => ?_
  refine (Meets.lift (Mat.yields_add hsum hz)).bind fun m hm => Meets.pure ?_
  rw [Directions.form_two hc]
  exact hm

theorem meets_third (hfit : r.Fits 1 G) (hs : r.directions.spatial = some s)
    (hc : r.directions.coefficients = .two c₁ c₂) :
    Meets E (third a b r va vb c₁ c₂) (·.HasForm (r.directions.form 1 G C)) := by
  obtain ⟨hmem₁, hmem₂⟩ := Directions.mem_coefficientList_two hc
  refine (hfit.meets_columns hs hc).bind fun W hW => ?_
  refine (ha.meets_spatialComponents hs).bind fun as has =>
    (hb.meets_spatialComponents hs).bind fun bs hbs => ?_
  refine (ha.meets_wrtCoefficient hmem₁).bind fun a₁ ha₁ =>
    (ha.meets_wrtCoefficient hmem₂).bind fun a₂ ha₂ => ?_
  refine (hb.meets_wrtCoefficient hmem₁).bind fun b₁ hb₁ =>
    (hb.meets_wrtCoefficient hmem₂).bind fun b₂ hb₂ => ?_
  refine (ha.meets_mixedComponents hs hmem₁).bind fun as₁ has₁ =>
    (ha.meets_mixedComponents hs hmem₂).bind fun as₂ has₂ => ?_
  refine (hb.meets_mixedComponents hs hmem₁).bind fun bs₁ hbs₁ =>
    (hb.meets_mixedComponents hs hmem₂).bind fun bs₂ hbs₂ => ?_
  -- The sums over the directions keep the shapes they start with. The argument has one column for
  -- each direction, so what is looked up for a column is there.
  refine (Meets.foldlM (Weighted.HasShape (C c₁.block) (C c₂.block) V) ?_ ?_).bind
    fun sums hsums => ?_
  · exact ⟨⟨ha₁.2, ha₂.2⟩, ⟨hva.1, rfl⟩, hvb.1, rfl⟩
  · rintro sums ⟨hproducts, halongA, halongB⟩ ⟨x, k⟩ hx
    have hk := hW.lt_of_mem_zipIdx hx
    refine (Meets.lift (has₁.yields_componentAt hk)).bind fun a₁k ha₁k => ?_
    refine (Meets.lift (hbs₂.yields_componentAt hk)).bind fun b₂k hb₂k => ?_
    refine (Meets.lift (yields_crossSum ha₁k hb₂ ha₁ hb₂k)).bind fun sum hsum => ?_
    refine (Meets.lift (hbs₁.yields_componentAt hk)).bind fun b₁k hb₁k => ?_
    refine (Meets.lift (yields_addProduct hsum hb₁k ha₂)).bind fun sum hsum => ?_
    refine (Meets.lift (has₂.yields_componentAt hk)).bind fun a₂k ha₂k => ?_
    refine (Meets.lift (yields_addProduct hsum hb₁ ha₂k)).bind fun sum hsum => ?_
    refine (Meets.lift (Mat.yields_add hproducts (hsum.scale x))).bind fun products hproducts => ?_
    refine (Meets.lift (hbs.yields_componentAt hk)).bind fun bk hbk => ?_
    refine (Meets.lift (Mat.yields_add halongA (hbk.scale x))).bind fun alongA halongA => ?_
    refine (Meets.lift (has.yields_componentAt hk)).bind fun ak hak => ?_
    refine (Meets.lift (Mat.yields_add halongB (hak.scale x))).bind fun alongB halongB => ?_
    exact Meets.pure ⟨hproducts, halongA, halongB⟩
  · obtain ⟨hproducts, halongA, halongB⟩ := hsums
    refine (ha.meets_secondAlong hc halongA).bind fun x hx => ?_
    refine (Meets.lift (Mat.yields_add hproducts hx)).bind fun sum hsum => ?_
    refine (hb.meets_secondAlong hc halongB).bind fun x hx => ?_
    refine (Meets.lift (Mat.yields_add hsum hx)).bind fun sum hsum => ?_
    -- A value times the argument, a row, has a row for each component: what a third derivative takes.
    refine (Meets.lift (Mat.yields_mul hvb hW)).bind fun la hla => ?_
    refine (ha.meets_thirdAlong hs hc hla).bind fun x hx => ?_
    refine (Meets.lift (Mat.yields_add hsum hx)).bind fun sum hsum => ?_
    refine (Meets.lift (Mat.yields_mul hva hW)).bind fun lb hlb => ?_
    refine (hb.meets_thirdAlong hs hc hlb).bind fun x hx => ?_
    refine (Meets.lift (Mat.yields_add hsum hx)).bind fun m hm => Meets.pure ?_
    rw [Directions.form_two hc]
    exact hm

omit hva hvb in
theorem meets_derivative (hfit : r.Fits 1 G) :
    Meets E (derivative a b r) (·.HasForm (r.directions.form 1 G C)) := by
  refine ha.value.bind fun va hva => hb.value.bind fun vb hvb => ?_
  rcases hs : r.directions.spatial with _ | s <;>
    rcases hc : r.directions.coefficients with _ | c | ⟨c₁, c₂⟩
  case none.none =>
    refine (Meets.lift (Mat.yields_dot hva hvb)).bind fun p _ => Meets.pure ?_
    rw [Directions.form, hs, hc]
    exact ⟨rfl, rfl⟩
  case none.single => exact meets_coefficient ha hb hva hvb hs hc
  case none.two => exact meets_second ha hb hva hvb hfit hs hc
  case some.none => exact meets_spatial ha hb hva hvb hs hc
  case some.single => exact meets_mixed ha hb hva hvb hs hc
  case some.two => exact meets_third ha hb hva hvb hfit hs hc

end Product

namespace Chain

variable {a : Operand K} {G : ℕ} {C : BlockId → ℕ} {r : Request K} {t : Taylor K}
  {s : SpatialDirection} {c c₁ c₂ : Coefficient}

theorem meets_value {f : ScalarMap} {site : Site K}
    (ha : Meets E (a.value site) (·.HasShape 1 1)) :
    Meets E (value f a site) (·.HasShape 1 1) := by
  refine ha.bind fun va hva => ?_
  refine (Meets.lift (Mat.yields_number hva)).bind fun v _ => ?_
  exact Meets.pure ⟨rfl, rfl⟩

variable (ha : a.Total E 1 G C r.site r.directions)
include ha

theorem meets_mixed (hs : r.directions.spatial = some s)
    (hc : r.directions.coefficients = .single c) :
    Meets E (mixed t a r c) (·.HasForm (r.directions.form 1 G C)) := by
  have hmem := Directions.mem_coefficientList hc
  refine (ha.meets_spatialComponents hs).bind fun as has => ?_
  refine (ha.meets_wrtCoefficient hmem).bind fun ac hac => ?_
  refine (ha.meets_mixedComponents hs hmem).bind fun asc hasc => ?_
  have hitem : ∀ x ∈ as.zip asc, Meets E
      (do (ac.scale (t.second * (← x.1.entryAt 0 0))).add (x.2.scale t.first) : Outcome (Mat K))
      (·.HasShape 1 (C c.block)) := by
    intro x hx
    obtain ⟨hak, hakc⟩ := has.of_mem_zip hasc hx
    refine (Meets.lift (Mat.yields_number hak)).bind fun slope _ => ?_
    exact Meets.lift (Mat.yields_add (hac.scale _) (hakc.scale _))
  refine (Meets.mapM hitem).bind fun ms hms => Meets.lift ?_
  apply Derivative.yields_ofComponents_mixed hs hc
  exact ⟨hms.1.trans (has.length_zip hasc), hms.2⟩

theorem meets_second (hfit : r.Fits 1 G) (hs : r.directions.spatial = none)
    (hc : r.directions.coefficients = .two c₁ c₂) :
    Meets E (second t a r c₁ c₂) (·.HasForm (r.directions.form 1 G C)) := by
  obtain ⟨hmem₁, hmem₂⟩ := Directions.mem_coefficientList_two hc
  refine (hfit.meets_column hs hc).bind fun W hW => ?_
  refine (Meets.lift (Mat.yields_number hW)).bind fun w _ => ?_
  refine (ha.meets_wrtCoefficient hmem₁).bind fun a₁ ha₁ =>
    (ha.meets_wrtCoefficient hmem₂).bind fun a₂ ha₂ => ?_
  refine (Meets.lift (Mat.yields_transposeMul ha₁ ha₂)).bind fun product hproduct => ?_
  refine (ha.meets_secondAlong hc ⟨rfl, rfl⟩).bind fun x hx => ?_
  refine (Meets.lift (Mat.yields_add (hproduct.scale _) hx)).bind fun m hm => Meets.pure ?_
  rw [Directions.form_two hc]
  exact hm

theorem meets_third (hfit : r.Fits 1 G) (hs : r.directions.spatial = some s)
    (hc : r.directions.coefficients = .two c₁ c₂) :
    Meets E (third t a r c₁ c₂) (·.HasForm (r.directions.form 1 G C)) := by
  obtain ⟨hmem₁, hmem₂⟩ := Directions.mem_coefficientList_two hc
  refine (hfit.meets_columns hs hc).bind fun W hW => ?_
  refine (ha.meets_spatialComponents hs).bind fun as has => ?_
  refine (ha.meets_wrtCoefficient hmem₁).bind fun a₁ ha₁ =>
    (ha.meets_wrtCoefficient hmem₂).bind fun a₂ ha₂ => ?_
  refine (ha.meets_mixedComponents hs hmem₁).bind fun as₁ has₁ =>
    (ha.meets_mixedComponents hs hmem₂).bind fun as₂ has₂ => ?_
  refine (Meets.lift (Mat.yields_transposeMul ha₁ ha₂)).bind fun a₁₂ ha₁₂ => ?_
  refine (Meets.foldlM (Weighted.HasShape (C c₁.block) (C c₂.block)) ?_ ?_).bind
    fun sums hsums => ?_
  · exact ⟨ha₁.2, ha₂.2⟩
  · rintro sums hproducts ⟨x, k⟩ hx
    have hk := hW.lt_of_mem_zipIdx hx
    refine (Meets.lift (has.yields_componentAt hk)).bind fun ak hak => ?_
    refine (Meets.lift (Mat.yields_number hak)).bind fun slope _ => ?_
    refine (Meets.lift (has₁.yields_componentAt hk)).bind fun a₁k ha₁k => ?_
    refine (Meets.lift (Mat.yields_transposeMul ha₁k ha₂)).bind fun p hp => ?_
    refine (Meets.lift (has₂.yields_componentAt hk)).bind fun a₂k ha₂k => ?_
    refine (Meets.lift (Mat.yields_transposeMul ha₁ ha₂k)).bind fun q hq => ?_
    refine (Meets.lift (Mat.yields_add hp hq)).bind fun mixed hmixed => ?_
    refine (Meets.lift (Mat.yields_add (ha₁₂.scale _) (hmixed.scale _))).bind fun sum hsum => ?_
    refine (Meets.lift (Mat.yields_add hproducts (hsum.scale x))).bind fun products hproducts => ?_
    exact Meets.pure hproducts
  · refine (ha.meets_secondAlong hc ⟨rfl, rfl⟩).bind fun x hx => ?_
    refine (Meets.lift (Mat.yields_add hsums hx)).bind fun sum hsum => ?_
    refine (ha.meets_thirdAlong hs hc (hW.scale _)).bind fun x hx => ?_
    refine (Meets.lift (Mat.yields_add hsum hx)).bind fun m hm => Meets.pure ?_
    rw [Directions.form_two hc]
    exact hm

theorem meets_derivative {f : ScalarMap} (hfit : r.Fits 1 G) :
    Meets E (derivative f a r) (·.HasForm (r.directions.form 1 G C)) := by
  refine ha.value.bind fun va hva => ?_
  refine (Meets.lift (Mat.yields_number hva)).bind fun v _ => ?_
  have hfirst (x : K) : Meets E (do return (← a.derivative r).scale x)
      (·.HasForm (r.directions.form 1 G C)) :=
    (ha.derivative r rfl (Directions.PartOf.refl _) hfit).bind fun D hD =>
      Meets.pure (hD.scale x)
  rcases hs : r.directions.spatial with _ | s <;>
    rcases hc : r.directions.coefficients with _ | c | ⟨c₁, c₂⟩
  case none.none =>
    refine Meets.pure ?_
    rw [Directions.form, hs, hc]
    exact ⟨rfl, rfl⟩
  case none.single => exact hfirst _
  case none.two => exact meets_second ha hfit hs hc
  case some.none => exact hfirst _
  case some.single => exact meets_mixed ha hs hc
  case some.two => exact meets_third ha hfit hs hc

end Chain

namespace Strain

variable {u : Operand K} {dim : ℕ} {C : BlockId → ℕ} {r : Request K}
  {reference : Site K → Outcome (Mat K)} {A S T m : Mat K} {c c₁ c₂ : Coefficient}

section Components

variable (hA : A.HasShape dim dim) (hS : S.HasShape dim dim)
include hA hS

theorem yields_diagonal {i : ℕ} (hi : i < dim) : Yields (diagonal A S i) fun _ => True := by
  refine (Mat.yields_columnAt hS hi).bind fun ui hui => ?_
  refine (Mat.yields_columnAt hA hi).bind fun Ai hAi => ?_
  exact (Vec.yields_dot (hAi.trans hui.symm)).bind fun x _ => Yields.pure trivial

theorem yields_shear {i j : ℕ} (hi : i < dim) (hj : j < dim) :
    Yields (shear A S i j) fun _ => True := by
  refine (Mat.yields_columnAt hS hi).bind fun ui hui => ?_
  refine (Mat.yields_columnAt hS hj).bind fun uj huj => ?_
  refine (Mat.yields_columnAt hA hi).bind fun Ai hAi => ?_
  refine (Vec.yields_dot (hAi.trans huj.symm)).bind fun x _ => ?_
  refine (Mat.yields_columnAt hA hj).bind fun Aj hAj => ?_
  refine (Vec.yields_dot (hui.trans hAj.symm)).bind fun y _ => ?_
  exact (Vec.yields_dot (hui.trans huj.symm)).bind fun z _ => Yields.pure trivial

end Components

theorem yields_tangentRow {i n : ℕ} (hT : T.HasShape dim dim) (hm : m.HasShape dim n)
    (hi : i < dim) : Yields (tangentRow T i m) (·.HasShape 1 n) := by
  refine (Mat.yields_columnAt hT hi).bind fun v hv => ?_
  exact Mat.yields_transposeMul ⟨hv, rfl⟩ hm

omit [Scalar K] in
theorem width_eq_of_allShaped {ms : List (Mat K)} {count rows n : ℕ}
    (h : Mat.AllShaped ms count rows n) (hcount : 0 < count) : width ms = n := by
  refine width_eq (by rw [h.1]; exact hcount) fun k hk => ?_
  exact ⟨ms[k], List.getElem?_eq_getElem hk, (h.2 _ (List.getElem_mem hk)).2⟩

theorem meets_displacementGradient
    (hgradient : Meets E (u.derivative (gradientRequest r.site)) (·.HasForm (.matrix dim dim))) :
    Meets E (displacementGradient u r) (·.HasShape dim dim) := by
  refine Meets.bind hgradient fun D hD => ?_
  obtain ⟨m, rfl, hm⟩ := hD.exists_matrix
  exact Meets.lift (Yields.pure hm)

omit [Scalar K] in
theorem meets_variation {n : ℕ} (hvariation : Meets E (u.derivative (variationRequest r.site c))
    (·.HasForm (.perDirection dim dim n))) :
    Meets E (variation u r c) (Mat.AllShaped · dim dim n) := by
  refine Meets.bind hvariation fun D hD => ?_
  obtain ⟨ms, rfl, hms⟩ := hD.exists_perDirection
  exact Meets.pure hms

theorem meets_value {site : Site K} (hdim : dim ≤ 3)
    (hA : Meets E (reference site) (·.HasShape dim dim))
    (hgradient : Meets E (u.derivative (gradientRequest site)) (·.HasForm (.matrix dim dim))) :
    Meets E (value dim reference u site) (·.HasShape (strainSize dim) 1) := by
  refine hA.bind fun A hA => ?_
  refine (meets_displacementGradient (r := ⟨site, .value, none⟩) hgradient).bind fun S hS => ?_
  have hdiagonal : ∀ i ∈ List.range dim, Meets E (liftM (diagonal A S i)) fun _ => True :=
    fun i hi => Meets.lift (yields_diagonal hA hS (List.mem_range.1 hi))
  have hshear : ∀ p ∈ shearPairs dim, Meets E (liftM (shear A S p.1 p.2)) fun _ => True := by
    intro p hp
    obtain ⟨hi, hj⟩ := lt_of_mem_shearPairs hp
    exact Meets.lift (yields_shear hA hS hi hj)
  refine (Meets.mapM hdiagonal).bind fun xs hxs => ?_
  refine (Meets.mapM hshear).bind fun ys hys => Meets.pure ⟨?_, rfl⟩
  calc (xs ++ ys).toArray.size
    _ = xs.length + ys.length := by rw [List.size_toArray, List.length_append]
    _ = dim + (shearPairs dim).length := by rw [hxs.1, hys.1, List.length_range]
    _ = strainSize dim := add_length_shearPairs hdim

variable (hdim : 1 ≤ dim ∧ dim ≤ 3)
  (hvariation : ∀ c ∈ r.directions.coefficientList,
    Meets E (u.derivative (variationRequest r.site c))
      (·.HasForm (.perDirection dim dim (C c.block))))
include hdim hvariation

theorem meets_coefficient (hA : Meets E (reference r.site) (·.HasShape dim dim))
    (hgradient : Meets E (u.derivative (gradientRequest r.site)) (·.HasForm (.matrix dim dim)))
    (hs : r.directions.spatial = none) (hc : r.directions.coefficients = .single c) :
    Meets E (coefficient dim reference u r c) (·.HasForm (r.directions.form (strainSize dim) dim C)) := by
  refine hA.bind fun A hA => (meets_displacementGradient hgradient).bind fun S hS => ?_
  refine (Meets.lift (Mat.yields_add hA hS)).bind fun T hT => ?_
  have hc' := hvariation c (Directions.mem_coefficientList hc)
  refine (meets_variation hc').bind fun δ hδ => ?_
  have hdiagonal : ∀ i ∈ List.range dim, Meets E
      (do tangentRow T i (← componentAt δ i) : Outcome (Mat K)) (·.HasShape 1 (C c.block)) := by
    intro i hi
    have hi : i < dim := List.mem_range.1 hi
    refine (Meets.lift (hδ.yields_componentAt hi)).bind fun δi hδi => ?_
    exact Meets.lift (yields_tangentRow hT hδi hi)
  have hshear : ∀ p ∈ shearPairs dim, Meets E
      (do (← tangentRow T p.2 (← componentAt δ p.1)).add
            (← tangentRow T p.1 (← componentAt δ p.2)) : Outcome (Mat K))
      (·.HasShape 1 (C c.block)) := by
    intro p hp
    obtain ⟨hi, hj⟩ := lt_of_mem_shearPairs hp
    refine (Meets.lift (hδ.yields_componentAt hi)).bind fun δi hδi => ?_
    refine (Meets.lift (yields_tangentRow hT hδi hj)).bind fun x hx => ?_
    refine (Meets.lift (hδ.yields_componentAt hj)).bind fun δj hδj => ?_
    refine (Meets.lift (yields_tangentRow hT hδj hi)).bind fun y hy => ?_
    exact Meets.lift (Mat.yields_add hx hy)
  refine (Meets.mapM hdiagonal).bind fun xs hxs => ?_
  refine (Meets.mapM hshear).bind fun ys hys => ?_
  -- The rows are as wide as the first variation, and there is one, since `dim` is not zero.
  have hrows : ∀ row ∈ xs ++ ys, row.HasShape 1 (width δ) := by
    rw [width_eq_of_allShaped hδ hdim.1]
    intro row hrow
    exact (List.mem_append.1 hrow).elim (hxs.2 row) (hys.2 row)
  refine (Meets.lift (Mat.yields_ofRows hrows)).bind fun m hm => Meets.pure ?_
  have hlength : (xs ++ ys).length = strainSize dim := by
    rw [List.length_append, hxs.1, hys.1, List.length_range, add_length_shearPairs hdim.2]
  rw [hlength, width_eq_of_allShaped hδ hdim.1] at hm
  rw [Directions.form_single hs hc]
  exact hm

theorem meets_second (hfit : r.Fits (strainSize dim) dim) (hs : r.directions.spatial = none)
    (hc : r.directions.coefficients = .two c₁ c₂) :
    Meets E (second dim u r c₁ c₂) (·.HasForm (r.directions.form (strainSize dim) dim C)) := by
  obtain ⟨hmem₁, hmem₂⟩ := Directions.mem_coefficientList_two hc
  refine (hfit.meets_column hs hc).bind fun W hW => ?_
  refine (meets_variation (hvariation c₁ hmem₁)).bind fun δ hδ => ?_
  refine (meets_variation (hvariation c₂ hmem₂)).bind fun ε hε => ?_
  -- The stress has a component for each strain, first the diagonal ones and then the shears.
  have hsize : W.flatten.size = strainSize dim := by rw [Mat.size_flatten hW, Nat.mul_one]
  have hvoigt := add_length_shearPairs hdim.2
  refine (Meets.foldlM (·.HasShape (C c₁.block) (C c₂.block)) ?_ ?_).bind fun sum hsum => ?_
  · exact ⟨width_eq_of_allShaped hδ hdim.1, width_eq_of_allShaped hε hdim.1⟩
  · intro sum hsum i hi
    have hi : i < dim := List.mem_range.1 hi
    refine (Meets.lift (hδ.yields_componentAt hi)).bind fun δi hδi => ?_
    refine (Meets.lift (hε.yields_componentAt hi)).bind fun εi hεi => ?_
    refine (Meets.lift (Mat.yields_transposeMul hδi hεi)).bind fun product hproduct => ?_
    have hstress : i < W.flatten.size := by omega
    refine (Meets.lift (Vec.yields_component hstress)).bind fun w _ => ?_
    exact Meets.lift (Mat.yields_add hsum (hproduct.scale w))
  · refine (Meets.foldlM (·.HasShape (C c₁.block) (C c₂.block)) hsum ?_).bind fun all hall =>
      Meets.pure ?_
    · rintro sum hsum ⟨⟨i, j⟩, q⟩ hq
      have hlt := lt_of_mem_zipIdx hq
      obtain ⟨-, -, hget⟩ := List.mem_zipIdx hq
      obtain ⟨hi, hj⟩ : i < dim ∧ j < dim := by
        apply lt_of_mem_shearPairs
        rw [hget]
        exact List.getElem_mem _
      refine (Meets.lift (hδ.yields_componentAt hi)).bind fun δi hδi => ?_
      refine (Meets.lift (hε.yields_componentAt hj)).bind fun εj hεj => ?_
      refine (Meets.lift (Mat.yields_transposeMul hδi hεj)).bind fun x hx => ?_
      refine (Meets.lift (hδ.yields_componentAt hj)).bind fun δj hδj => ?_
      refine (Meets.lift (hε.yields_componentAt hi)).bind fun εi hεi => ?_
      refine (Meets.lift (Mat.yields_transposeMul hδj hεi)).bind fun y hy => ?_
      refine (Meets.lift (Mat.yields_add hx hy)).bind fun both hboth => ?_
      have hstress : dim + q < W.flatten.size := by omega
      refine (Meets.lift (Vec.yields_component hstress)).bind fun w _ => ?_
      exact Meets.lift (Mat.yields_add hsum (hboth.scale w))
    · rw [Directions.form_two hc]
      exact hall

/-- Without a direction in space, the rule refuses nothing of its own. -/
theorem meets_derivative_of_nonspatial (hfit : r.Fits (strainSize dim) dim)
    (hs : r.directions.spatial = none) (hA : Meets E (reference r.site) (·.HasShape dim dim))
    (hgradient : Meets E (u.derivative (gradientRequest r.site)) (·.HasForm (.matrix dim dim))) :
    Meets E (derivative dim reference u r) (·.HasForm (r.directions.form (strainSize dim) dim C)) := by
  unfold derivative
  rcases hc : r.directions.coefficients with _ | c | ⟨c₁, c₂⟩ <;> simp only [hs]
  case none =>
    refine (meets_value hdim.2 hA hgradient).bind fun m hm => Meets.pure ?_
    rw [Directions.form, hs, hc]
    exact hm
  case single => exact meets_coefficient hdim hvariation hA hgradient hs hc
  case two => exact meets_second hdim hvariation hfit hs hc

theorem meets_derivative (hfit : r.Fits (strainSize dim) dim)
    (hE : E (.notImplemented operation r.directions))
    (hA : Meets E (reference r.site) (·.HasShape dim dim))
    (hgradient : Meets E (u.derivative (gradientRequest r.site)) (·.HasForm (.matrix dim dim))) :
    Meets E (derivative dim reference u r) (·.HasForm (r.directions.form (strainSize dim) dim C)) := by
  cases hs : r.directions.spatial with
  | none => exact meets_derivative_of_nonspatial hdim hvariation hfit hs hA hgradient
  | some s =>
    unfold derivative
    rcases r.directions.coefficients with _ | c | ⟨c₁, c₂⟩ <;> simp only [hs]
    all_goals exact Meets.refuse hE

end Strain

end ElementFields
