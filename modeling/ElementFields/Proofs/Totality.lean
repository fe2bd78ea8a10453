import ElementFields.Proofs.RealScalar
import ElementFields.Proofs.Binding
import ElementFields.Proofs.Routing
import ElementFields.Proofs.Tables
import ElementFields.Proofs.TotalRules

namespace ElementFields

variable {K : Type} [Scalar K] {E : EvaluationError → Prop}

namespace ElementField

variable {f : ElementField K} {site : Site K} {skip : Expr K → Directions → Bool}

omit [Scalar K] in
/-- The leaves of a part of the expression are leaves of the field. -/
theorem Hosts.mem_reachableLeaves {e : Expr K} (he : f.Hosts e) {l : Leaf K}
    (hl : l ∈ leavesIn f.leaves e.slots) : l ∈ f.reachableLeaves := by
  obtain ⟨slot, hs, hget⟩ := List.mem_filterMap.1 hl
  obtain ⟨signature, l', hl'⟩ := he.exists_leaf hs
  exact ElementField.mem_reachableLeaves hl'.slot_mem hget

/-- What the strains of a displacement need besides the displacement: derivatives in space may be
refused, and there are tangents of the reference configuration. -/
structure Straining (E : EvaluationError → Prop) (f : ElementField K) (site : Site K)
    (displacement : Expr K) : Prop where
  spatial : ∀ d, E (.notImplemented Strain.operation d)
  tangents : Meets E (f.referenceTangents displacement site) (·.HasShape f.gridDim f.gridDim)

/-- An operand keeps its promise if its value and the rule of its node do: a derivative that is
skipped is the zero tensor of the right form. -/
theorem total_of_rule {e : Expr K} {d : Directions} (hd : f.Admits d)
    (hvalue : Meets E ((f.operandWith skip e).value site) (·.HasShape e.valueSize 1))
    (hrule : ∀ r : Request K, r.site = site → f.Admits r.directions → r.directions.PartOf d →
      r.Fits e.valueSize f.gridDim → Meets E (f.rule skip e r)
        (·.HasForm (r.directions.form e.valueSize f.gridDim f.tangentDim))) :
    (f.operandWith skip e).Total E e.valueSize f.gridDim f.tangentDim site d := by
  refine ⟨hvalue, fun r hsite hr hfit => ?_⟩
  rw [operandWith_derivative]
  split
  · rename_i hv
    rw [hsite, hv]
    exact hvalue.bind fun m hm => Meets.pure hm
  · split
    · rw [zeroDerivative_eq (hd.drawnFrom hr.drawnFrom)]
      exact Form.hasForm_zero _
    · exact hrule r hsite (hd.drawnFrom hr.drawnFrom) hr hfit

theorem total_leaf {slot : ℕ} {l : Leaf K} (hl : f.HostsLeaf slot l.signature l)
    (hs : l.Serves E site) {d : Directions} (hd : f.Admits d) :
    (f.operandWith skip (.leaf slot l.signature)).Total E l.valueSize f.gridDim f.tangentDim site
      d := by
  refine total_of_rule hd ?_ ?_
  · show Meets E (f.leafValue slot site) _
    rw [leafValue_eq hl.get]
    exact hs.value.bind fun v hv => Meets.pure ⟨hv, rfl⟩
  · intro r hsite hr _ hfit
    show Meets E (f.leafDerivative slot r) _
    rw [leafDerivative_eq hl.get]
    split
    · rw [zeroDerivative_eq hr]
      exact Form.hasForm_zero _
    · -- Every coefficient that is named is one of its own, so the leaf has an answer of its own form.
      rename_i hown
      have hown : ∀ c ∈ r.directions.coefficientList, c.block = l.block := by
        simpa using hown
      have hanswer := hs.answer r hsite (hl.accepts hr hown hfit)
      rwa [hl.form_eq hown] at hanswer

/-- A multiple of an expression has the same shape and asks for the same derivatives. -/
theorem total_scaled {op : UnaryOp K} {a : Expr K} {x : K} {d : Directions} (hd : f.Admits d)
    (hsize : (Expr.unary op a).valueSize = a.valueSize)
    (hvalue : (f.operandWith skip (.unary op a)).value site =
      do return (← (f.operandWith skip a).value site).scale x)
    (hrule : ∀ r, f.rule skip (.unary op a) r =
      do return (← (f.operandWith skip a).derivative r).scale x)
    (ha : ∀ {d' : Directions}, f.Admits d' →
      (f.operandWith skip a).Total E a.valueSize f.gridDim f.tangentDim site d') :
    (f.operandWith skip (.unary op a)).Total E (Expr.unary op a).valueSize f.gridDim f.tangentDim
      site d := by
  refine total_of_rule hd ?_ fun r hsite hr _ hfit => ?_
  · rw [hvalue, hsize]
    exact (ha hd).value.bind fun m hm => Meets.pure (hm.scale x)
  · rw [hrule, hsize]
    rw [hsize] at hfit
    have hD := (ha hr).derivative r hsite (Directions.PartOf.refl _) hfit
    exact hD.bind fun D hD => Meets.pure (hD.scale x)

/-- Strains keep their promise if the displacement does, and there are tangents of the reference
configuration. Their derivatives in space are refused. -/
theorem total_strain {a : Expr K} (he : f.Hosts (.unary .strain a))
    (htotal : ∀ {d' : Directions}, f.Admits d' →
      (f.operandWith skip a).Total E a.valueSize f.gridDim f.tangentDim site d')
    (htangents : Meets E (f.referenceTangents a site) (·.HasShape f.gridDim f.gridDim))
    {d : Directions} (hd : f.Admits d)
    (hspatial : d.spatial = none ∨ ∀ d', E (.notImplemented Strain.operation d')) :
    (f.operandWith skip (.unary .strain a)).Total E (Expr.unary .strain a).valueSize f.gridDim
      f.tangentDim site d := by
  -- A displacement has as many components as there are directions.
  obtain ⟨ha, ⟨hV, hG⟩, hdim, -⟩ := he
  have htotal {d' : Directions} (hd' : f.Admits d') := hV ▸ htotal hd'
  have hsize : (Expr.unary .strain a).valueSize = strainSize f.gridDim := by
    rw [Expr.valueSize, hG, Option.getD_some]
  have hgradient : Meets E ((f.operandWith skip a).derivative (Strain.gradientRequest site))
      (·.HasForm (.matrix f.gridDim f.gridDim)) :=
    (htotal (f.admits_gradient site)).derivative _ rfl (.refl _) (Request.fits_of_none rfl)
  refine total_of_rule hd ?_ ?_
  · rw [hsize]
    exact Strain.meets_value hdim.2 htangents hgradient
  · rintro r rfl hr hpart hfit
    have hvariation : ∀ c ∈ r.directions.coefficientList,
        Meets E ((f.operandWith skip a).derivative (Strain.variationRequest r.site c))
          (·.HasForm (.perDirection f.gridDim f.gridDim (f.tangentDim c.block))) := by
      intro c hc
      have hone : f.Admits (Strain.variationRequest r.site c).directions :=
        ⟨fun _ hk => (by cases hk), fun c' hc' => List.mem_singleton.1 hc' ▸ hr.2 c hc⟩
      exact (htotal hone).derivative _ rfl (.refl _) (Request.fits_of_single rfl)
    rw [hsize] at hfit ⊢
    rcases hspatial with hnone | hE
    · have hs : r.directions.spatial = none := by
        rcases hpart.1 with hs | hs
        · exact hs
        · rw [hs, hnone]
      exact Strain.meets_derivative_of_nonspatial hdim hvariation hfit hs htangents hgradient
    · exact Strain.meets_derivative hdim hvariation hfit (hE _) htangents hgradient

/-- If the leaves serve at a site, and the strains have what they need, every part of the expression
answers in the form of the directions or refuses for an allowed reason. -/
theorem operandWith_total (hserve : ∀ l ∈ f.reachableLeaves, l.Serves E site)
    (skip : Expr K → Directions → Bool) {e : Expr K} (he : f.Hosts e)
    (hstrain : ∀ a, (Expr.unary .strain a).IsPart e → f.Straining E site a) {d : Directions}
    (hd : f.Admits d) :
    (f.operandWith skip e).Total E e.valueSize f.gridDim f.tangentDim site d := by
  -- The directions are arbitrary in the induction: a rule asks its operands in directions of its own.
  induction e generalizing d with
  | leaf slot signature =>
    obtain ⟨l, hl⟩ := he
    obtain rfl := hl.signature_eq
    exact total_leaf hl (hserve l hl.mem) hd
  | constant x =>
    refine total_of_rule hd (Meets.pure ⟨rfl, rfl⟩) fun r _ hr _ _ => ?_
    show Meets E (f.zeroDerivative 1 r.directions) _
    rw [zeroDerivative_eq hr]
    exact Form.hasForm_zero _
  | unary op a ih =>
    have hstrain' : ∀ b, (Expr.unary .strain b).IsPart a → f.Straining E site b :=
      fun b hb => hstrain b (hb.unary op)
    cases op with
    | negate => exact total_scaled hd rfl rfl (fun _ => rfl) (ih he hstrain')
    | scale factor => exact total_scaled hd rfl rfl (fun _ => rfl) (ih he hstrain')
    | map g =>
      obtain ⟨ha, hV⟩ := he
      have htotal {d' : Directions} (hd' : f.Admits d') := hV ▸ ih ha hstrain' hd'
      refine total_of_rule hd (Chain.meets_value (htotal hd).value) ?_
      rintro r rfl hr _ hfit
      exact Chain.meets_derivative (htotal hr) hfit
    | strain =>
      have hs := hstrain a (.refl _)
      exact total_strain he (ih he.1 hstrain') hs.tangents hd (.inr hs.spatial)
  | binary op a b iha ihb =>
    obtain ⟨⟨ha, hb⟩, hsize⟩ := he
    have hA {d' : Directions} (hd' : f.Admits d') :=
      iha ha (fun c hc => hstrain c (hc.left op b)) hd'
    have hB {d' : Directions} (hd' : f.Admits d') :=
      hsize ▸ ihb hb (fun c hc => hstrain c (hc.right op a)) hd'
    cases op with
    | sum =>
      refine total_of_rule hd ?_ ?_
      · refine (hA hd).value.bind fun x hx => (hB hd).value.bind fun y hy => ?_
        exact Meets.lift (Mat.yields_add hx hy)
      · rintro r rfl hr _ hfit
        have hself := Directions.PartOf.refl r.directions
        refine ((hA hr).derivative r rfl hself hfit).bind fun x hx => ?_
        refine ((hB hr).derivative r rfl hself hfit).bind fun y hy => ?_
        exact Meets.lift (Derivative.yields_add hx hy)
    | dot =>
      refine total_of_rule hd (Product.meets_value (hA hd).value (hB hd).value) ?_
      rintro r rfl hr _ hfit
      exact Product.meets_derivative (hA hr) (hB hr) hfit

omit [Scalar K] in
/-- The first check lets a request pass or refuses it. -/
theorem meets_validate (f : ElementField K) (r : Request K) :
    Meets (fun _ => True) (f.validate r) fun _ =>
      f.Admits r.directions ∧ r.Fits f.valueSize f.gridDim := by
  refine Meets.of_ok (P := fun _ => True) ?_ fun u hu => validate_eq_ok_iff.1 hu
  have hcoefficient : ∀ c ∈ r.directions.coefficientList, Meets (fun _ => True)
      (do let info ← f.blockInfo c.block
          if info.numCoefficients ≤ c.index then
            .refuse (.coefficientIndexOutOfRange c.block c.index info.numCoefficients) : Outcome Unit)
      fun _ => True := by
    intro c _
    refine Meets.bind (Meets.ofOption (fun _ => trivial) fun _ _ => trivial) fun info _ => ?_
    split
    · exact Meets.refuse trivial
    · exact Meets.pure trivial
  unfold validate
  extract_lets cols checkRest
  have hrest : ∀ u, Meets (fun _ => True) (checkRest u) fun _ => True := by
    refine fun _ => (Meets.forM hcoefficient).bind fun _ _ => ?_
    split
    · refine Meets.bind (Meets.ofOption (fun _ => trivial) fun _ _ => trivial) fun along _ => ?_
      split
      · exact Meets.pure trivial
      · exact Meets.refuse trivial
    · exact Meets.pure trivial
  split
  · split
    · exact Meets.refuse trivial
    · exact hrest ()
  · exact hrest ()

/-- What a built field answers or refuses, if its leaves serve at the site of the request. -/
theorem meets_evaluateRequest (hf : f.Built) {r : Request K}
    (hserve : ∀ l ∈ f.reachableLeaves, l.Serves E r.site)
    (hstrain : ∀ a, (Expr.unary .strain a).IsPart f.expr → f.Straining E r.site a)
    (hvalid : Meets E (f.validate r) fun _ =>
      f.Admits r.directions ∧ r.Fits f.valueSize f.gridDim) :
    Meets E (f.evaluateRequest r)
      (·.HasForm (r.directions.form f.valueSize f.gridDim f.tangentDim)) := by
  have hsize : f.expr.valueSize = f.valueSize := f.top.valueSize_eq.symm
  refine hvalid.bind fun _ ⟨hr, hfit⟩ => ?_
  have htotal := operandWith_total hserve Expr.annihilated hf.hosts hstrain hr
  rw [hsize] at htotal
  exact htotal.derivative r rfl (Directions.PartOf.refl _) hfit

/-- The strains of a displacement on leaves that are prepared have reference tangents, or these are
refused. -/
theorem straining_of_prepared (hleaf : ∀ l ∈ f.reachableLeaves, l.Prepared) {a : Expr K}
    (ha : f.Hosts a) : f.Straining (fun _ => True) site a := by
  refine ⟨fun _ => trivial, ?_⟩
  unfold referenceTangents tangentsOver
  split
  · exact Meets.pure ⟨rfl, rfl⟩
  · split
    · exact Meets.refuse trivial
    · split
      · exact Meets.refuse trivial
      · rename_i l rest hleaves
        have hl := hleaf l (ha.mem_reachableLeaves (hleaves ▸ List.mem_cons_self))
        refine Meets.bind (Meets.ofOption (fun _ => trivial) hl.geometry) fun g hg => ?_
        refine (hl.shapes.meets_position site.point).bind fun ξ hξ => ?_
        refine (Meets.lift (hg.yields_jacobianTransposed hξ)).bind fun jacobian _ => ?_
        split
        · rename_i hshape
          exact Meets.pure ⟨congrArg Prod.snd hshape, congrArg Prod.fst hshape⟩
        · exact Meets.refuse trivial

/-- No request breaks a contract, and every answer has the form of its directions. For a built field
on regular leaves this holds of every request, whatever it asks for and wherever; and the owners of a
block that is named have corrections of the size that the form shows. -/
theorem evaluateRequest_total (hf : f.Built) (hleaf : ∀ l ∈ f.reachableLeaves, l.Regular)
    (r : Request K) :
    (∀ v, f.evaluateRequest r ≠ .error (.broken v)) ∧
    ∀ D, f.evaluateRequest r = .ok D →
      D.HasForm (r.directions.form f.valueSize f.gridDim f.tangentDim) ∧
      ∀ c ∈ r.directions.coefficientList, f.owners c.block ≠ [] ∧
        ∀ l ∈ f.owners c.block, l.correctionSize = f.tangentDim c.block := by
  have hmeets := meets_evaluateRequest hf (fun l hl => (hleaf l hl).serves r.site)
    (fun a ha => straining_of_prepared (fun l hl => (hleaf l hl).prepared) (hf.hosts.part ha).1)
    (f.meets_validate r)
  refine ⟨hmeets.ne_broken, fun D hD => ⟨hmeets.of_eq_ok hD, fun c hc => ?_⟩⟩
  obtain ⟨_, hvalid, -⟩ := bind_eq_ok_iff.1 hD
  obtain ⟨info, hi, -⟩ := (validate_eq_ok_iff.1 hvalid).1.2 c hc
  obtain ⟨l, hl, -⟩ := hf.exists_owner hi
  refine ⟨List.ne_nil_of_mem hl, fun l' hl' => ?_⟩
  obtain ⟨hmem, hblock⟩ := List.mem_filter.1 hl'
  obtain ⟨_, _, hhost⟩ := hf.hosts_of_mem hmem
  obtain ⟨info', hi', hsize, -⟩ := hhost.info
  rw [← of_decide_eq_true hblock, tangentDim_eq hi', hsize]

/-- Binding keeps what binding a single leaf keeps. -/
theorem forall_leaf_bindSlots {P : Leaf K → Prop} {rule : QuadratureRule K} {orders : List ℕ}
    (hP : ∀ l : Leaf K, P l → P (l.bind rule orders).1) {slots : List ℕ}
    {leaves leaves' : Array (Leaf K)} {result : Outcome Unit}
    (h : bindSlots rule orders slots leaves = (leaves', result)) {s : ℕ}
    (hs : ∀ l, leaves[s]? = some l → P l) : ∀ l, leaves'[s]? = some l → P l := by
  -- The leaves may change at each slot, so `P` is carried for whatever stands in slot `s`.
  induction slots generalizing leaves with
  | nil =>
    cases h
    exact hs
  | cons slot rest ih =>
    rw [bindSlots] at h
    split at h
    · cases h
      exact hs
    · rename_i m hm
      -- The leaf that stands in the slot afterwards is the one that was bound.
      have hset (m' : Leaf K) (hm' : m' = (m.bind rule orders).1) :
          ∀ l, (leaves.setIfInBounds slot m')[s]? = some l → P l := by
        intro l hl
        by_cases hslot : slot = s
        · subst hslot
          have hlt := (Array.getElem?_eq_some_iff.1 hm).1
          rw [Array.getElem?_setIfInBounds_self_of_lt hlt] at hl
          obtain rfl := Option.some.inj hl
          exact hm' ▸ hP m (hs m hm)
        · rw [Array.getElem?_setIfInBounds_ne hslot] at hl
          exact hs l hl
      split at h
      · rename_i m' hb
        exact ih h (hset m' (congrArg Prod.fst hb).symm)
      · rename_i m' e hb
        cases h
        exact hset m' (congrArg Prod.fst hb).symm

/-- The leaves of a field stay regular when the field is bound to a regular rule, also where that
stops halfway. -/
theorem regular_bind (hleaf : ∀ l ∈ f.reachableLeaves, l.Regular) {rule : QuadratureRule K}
    (hrule : rule.Regular) (orders : List ℕ) :
    ∀ l ∈ (f.bind rule orders).1.reachableLeaves, l.Regular := by
  intro l hl
  obtain ⟨slot, hs, hget⟩ := List.mem_filterMap.1 hl
  exact forall_leaf_bindSlots (fun l hl => hl.bind hrule orders) rfl
    (fun l hl => hleaf l (mem_reachableLeaves hs hl)) l hget

def stretched (x y : K) : ElementField K where
  leaves := #[.onEdge ⟨0⟩ x y]
  nodes := #[.leaf 0, .unary .strain 0]
  root := 1
  top := .unary .strain 0 (.leaf 0 (Leaf.onEdge ⟨0⟩ x y).signature)
  slots := [0]
  blocks := [{ block := ⟨0⟩, correctionSize := 1, numCoefficients := 2 }]

theorem built_stretched (x y : K) : (stretched x y).Built :=
  .build (Builder.reachable_after [.leaf (.onEdge ⟨0⟩ x y), .strain 0])
    (build_eq_of_sorted rfl ⟨rfl, rfl⟩ rfl (List.pairwise_singleton _ _) rfl
      (List.pairwise_singleton _ _))

/-- The derivative of the strain at the only point of a rule. -/
theorem evaluateRequest_total_stretched :
    let rule : QuadratureRule ℝ := { weights := [2], points := [#[0]] }
    let f : ElementField ℝ := ((stretched 3 4).bind rule [1]).1
    let r : Request ℝ := {
      site := { point := .integrationPoint 0, transform := .referenceElement }
      directions := { coefficients := .single ⟨⟨0⟩, 1⟩ } }
    (f.Built ∧ ∀ l ∈ f.reachableLeaves, l.Regular) ∧
      (∀ v, f.evaluateRequest r ≠ .error (.broken v)) ∧
      ∃ D, f.evaluateRequest r = .ok D ∧ D.HasForm (.matrix 1 1) := by
  intro rule f r
  have hrule : rule.Regular := by
    refine ⟨rfl, fun p hp => ?_⟩
    obtain rfl := List.mem_singleton.1 hp
    rfl
  have hleaf : ∀ l ∈ f.reachableLeaves, l.Regular := by
    refine regular_bind (f := stretched 3 4) (fun l hl => ?_) hrule [1]
    have hmem : l ∈ [Leaf.onEdge ⟨0⟩ (3 : ℝ) 4] := hl
    exact List.mem_singleton.1 hmem ▸ Leaf.regular_onEdge ⟨0⟩ 3 4
  have hf : f.Built := (built_stretched 3 4).bind rule [1]
  obtain ⟨hnever, hform⟩ := evaluateRequest_total hf hleaf r
  obtain ⟨D, hD⟩ : ∃ D, f.evaluateRequest r = .ok D := ⟨_, rfl⟩
  exact ⟨⟨hf, hleaf⟩, hnever, D, hD, (hform D hD).1⟩

/-- At a position, in reference coordinates, the leaves that the library makes serve without
refusal. -/
theorem serves_at_position (hf : f.Built) (hleaf : ∀ l ∈ f.reachableLeaves, l.Standard) {ξ : Vec K}
    (hξ : f.reachableLeaves = [] ∨ ξ.size = f.gridDim) :
    ∀ l ∈ f.reachableLeaves,
      l.Serves E { point := .position ξ, transform := .referenceElement } := by
  intro l hl
  obtain ⟨_, _, hhost⟩ := hf.hosts_of_mem hl
  have hsize : ξ.size = l.gridDim := by
    rw [hhost.gridDim]
    exact hξ.resolve_left (List.ne_nil_of_mem hl)
  have hstandard := hleaf l hl
  exact hstandard.serves (LeafData.tabulated_at_position hstandard.numCoefficients_eq hsize)

/-- Without strains, at a position, in reference coordinates, a request is answered exactly when its
directions exist and two coefficients come with something of the right shape. -/
theorem evaluateRequest_answers_iff (hf : f.Built) (hleaf : ∀ l ∈ f.reachableLeaves, l.Standard)
    (hfree : f.expr.StrainFree) {ξ : Vec K} (hξ : f.reachableLeaves = [] ∨ ξ.size = f.gridDim)
    {r : Request K} (hsite : r.site = { point := .position ξ, transform := .referenceElement }) :
    (∃ D, f.evaluateRequest r = .ok D) ↔
      (∀ k, r.directions.spatial = some (.single k) → k < f.gridDim) ∧
      (∀ c ∈ r.directions.coefficientList, f.owners c.block ≠ [] ∧
        ∀ l ∈ f.owners c.block, c.index < l.numCoefficients) ∧
      r.Fits f.valueSize f.gridDim := by
  rw [← and_assoc, ← hf.admits_iff, ← validate_eq_ok_iff]
  constructor
  · rintro ⟨D, hD⟩
    obtain ⟨_, hvalid, -⟩ := bind_eq_ok_iff.1 hD
    exact hvalid
  · intro hvalid
    have hserve := hsite ▸ serves_at_position (E := fun _ => False) hf hleaf hξ
    have hcheck : Meets (fun _ => False) (f.validate r) fun _ =>
        f.Admits r.directions ∧ r.Fits f.valueSize f.gridDim := by
      rw [hvalid]
      exact Meets.pure (validate_eq_ok_iff.1 hvalid)
    obtain ⟨D, hD, -⟩ := Meets.exists_ok
      (meets_evaluateRequest hf hserve (fun a ha => (hfree.part ha).elim) hcheck)
    exact ⟨D, hD⟩

/-- The length of a number on a segment has third derivatives in the coefficients that exist. -/
theorem evaluateRequest_answers_iff_length :
    let f : ElementField ℝ := length 1 2
    let r (i : ℕ) : Request ℝ := {
      site := { point := .position #[0], transform := .referenceElement }
      directions := { spatial := some .all, coefficients := .two ⟨⟨0⟩, 0⟩ ⟨⟨0⟩, i⟩ }
      along := some (.scalar 1) }
    (f.Built ∧ (∀ l ∈ f.reachableLeaves, l.Standard) ∧ f.expr.StrainFree ∧
      (#[0] : Vec ℝ).size = f.gridDim) ∧
    (∃ D, f.evaluateRequest (r 1) = .ok D) ∧ ¬ ∃ D, f.evaluateRequest (r 2) = .ok D := by
  intro f r
  have hf : f.Built := built_length 1 2
  have hleaf : ∀ l ∈ f.reachableLeaves, l.Standard := fun l hl => standard_of_mem_square hl
  have hfree : f.expr.StrainFree := ⟨trivial, trivial⟩
  have hξ : (#[0] : Vec ℝ).size = f.gridDim := rfl
  have howners : f.owners ⟨0⟩ = [Leaf.onSegment ⟨0⟩ 1 2] := rfl
  have hanswers (i : ℕ) := evaluateRequest_answers_iff hf hleaf hfree (Or.inr hξ) (r := r i) rfl
  refine ⟨⟨hf, hleaf, hfree, hξ⟩, (hanswers 1).2 ⟨fun k hk => (nomatch hk), ?_, ?_⟩, fun h => ?_⟩
  · intro c hc
    have hmem : c ∈ [⟨⟨0⟩, 0⟩, ⟨⟨0⟩, 1⟩] := hc
    have hblock : c.block = ⟨0⟩ ∧ c.index < 2 := by
      simp only [List.mem_cons, List.not_mem_nil, or_false] at hmem
      rcases hmem with rfl | rfl <;> exact ⟨rfl, by decide⟩
    rw [hblock.1, howners]
    refine ⟨List.cons_ne_nil _ _, fun l hl => ?_⟩
    obtain rfl := List.mem_singleton.1 hl
    exact hblock.2
  · rintro c₁ c₂ -
    exact ⟨.scalar 1, rfl, rfl, rfl⟩
  · have hmem : (⟨⟨0⟩, 2⟩ : Coefficient) ∈ (r 2).directions.coefficientList :=
      List.mem_cons_of_mem _ List.mem_cons_self
    have hlt := (((hanswers 2).1 h).2.1 _ hmem).2 (.onSegment ⟨0⟩ 1 2)
      (howners ▸ List.mem_singleton.2 rfl)
    exact absurd hlt (by decide)

end ElementField

end ElementFields
