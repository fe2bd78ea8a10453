import ElementFields.Proofs.CachedEvaluation
import ElementFields.Proofs.Covariance
import ElementFields.Proofs.Sharing

namespace ElementFields

variable {K : Type} [Scalar K] {s s' : Site K}

structure Operand.AgreesOffSpace (s s' : Site K) (o o' : Operand K) : Prop where
  value : o'.value s' = o.value s
  derivative : ∀ (d : Directions) (along : Option (Mat K)), d.spatial = none →
    o'.derivative ⟨s', d, along⟩ = o.derivative ⟨s, d, along⟩

namespace Operand.AgreesOffSpace

variable {a a' : Operand K} (h : a.AgreesOffSpace s s' a')
include h

theorem wrtCoefficient (d : Directions) (along : Option (Mat K)) (c : Coefficient) :
    a'.wrtCoefficient ⟨s', d, along⟩ c = a.wrtCoefficient ⟨s, d, along⟩ c := by
  show (do (← a'.derivative ⟨s', ⟨none, .single c⟩, none⟩).toMatrix : Outcome (Mat K)) =
    do (← a.derivative ⟨s, ⟨none, .single c⟩, none⟩).toMatrix
  rw [h.derivative _ _ rfl]

theorem secondAlong (d : Directions) (along : Option (Mat K)) (W : Mat K) :
    a'.secondAlong ⟨s', d, along⟩ W = a.secondAlong ⟨s, d, along⟩ W := by
  show (do (← a'.derivative ⟨s', ⟨none, d.coefficients⟩, some W⟩).toMatrix : Outcome (Mat K)) =
    do (← a.derivative ⟨s, ⟨none, d.coefficients⟩, some W⟩).toMatrix
  rw [h.derivative _ _ rfl]

end Operand.AgreesOffSpace

section Rules

variable {a a' b b' : Operand K} {d : Directions}

theorem Product.value_off_space (ha : a.AgreesOffSpace s s' a') (hb : b.AgreesOffSpace s s' b') :
    Product.value a' b' s' = Product.value a b s := by
  rw [Product.value, ha.value, hb.value]
  rfl

/-- The product rule passes on values and derivatives with respect to coefficients only. -/
theorem Product.derivative_off_space (ha : a.AgreesOffSpace s s' a')
    (hb : b.AgreesOffSpace s s' b') (along : Option (Mat K)) (hd : d.spatial = none) :
    Product.derivative a' b' ⟨s', d, along⟩ = Product.derivative a b ⟨s, d, along⟩ := by
  obtain ⟨_, c⟩ := d
  obtain rfl : _ = none := hd
  cases c with
  | none => simp only [Product.derivative, ha.value, hb.value]
  | single c =>
    simp only [Product.derivative, Product.coefficient, ha.value, hb.value, ha.wrtCoefficient,
      hb.wrtCoefficient]
  | two c₁ c₂ =>
    simp only [Product.derivative, Product.second, ha.value, hb.value, ha.wrtCoefficient,
      hb.wrtCoefficient, ha.secondAlong, hb.secondAlong]
    rfl

theorem Chain.value_off_space (g : ScalarMap) (ha : a.AgreesOffSpace s s' a') :
    Chain.value g a' s' = Chain.value g a s := by
  rw [Chain.value, ha.value]
  rfl

theorem Chain.derivative_off_space (g : ScalarMap) (ha : a.AgreesOffSpace s s' a')
    (along : Option (Mat K)) (hd : d.spatial = none) :
    Chain.derivative g a' ⟨s', d, along⟩ = Chain.derivative g a ⟨s, d, along⟩ := by
  obtain ⟨_, c⟩ := d
  obtain rfl : _ = none := hd
  cases c with
  | none => simp only [Chain.derivative, ha.value]
  | single c => simp only [Chain.derivative, ha.value, ha.derivative ⟨none, .single c⟩ along rfl]
  | two c₁ c₂ =>
    simp only [Chain.derivative, Chain.second, ha.value, ha.wrtCoefficient, ha.secondAlong]
    rfl

end Rules

/-- The leaves have the same coefficients and evaluate them in the same way, and at these sites their
shape functions have the same values. Nothing is said of geometries and gradients. -/
structure Leaf.AgreesOffSpace (s s' : Site K) (l l' : Leaf K) : Prop where
  block : l'.block = l.block
  coefficients : l'.coefficients = l.coefficients
  primitives : l'.primitives = l.primitives
  values : l'.valuesAt s' = l.valuesAt s

section Leaves

variable {l l' : Leaf K}

/-- The primitives of the library that do not differentiate in space read nothing else of a leaf. -/
theorem Primitives.OfLibrary.off_space {p : Primitives K} (hp : p.OfLibrary)
    (h : l.AgreesOffSpace s s' l') :
    p.value l'.toLeafData s' = p.value l.toLeafData s ∧
      (∀ i, p.coefficient l'.toLeafData s' i = p.coefficient l.toLeafData s i) ∧
      ∀ i j W, p.second l'.toLeafData s' i j W = p.second l.toLeafData s i j W := by
  have hinterpolate : Normalization.interpolate l'.toLeafData s' =
      Normalization.interpolate l.toLeafData s := by
    simp only [Normalization.interpolate, h.values, h.coefficients]
  induction hp with
  | interpolation =>
    refine ⟨?_, fun i => ?_, fun i j W => ?_⟩
    · simp only [Primitives.interpolation, Interpolation.value, h.values, h.coefficients]
    · simp only [Primitives.interpolation, Interpolation.coefficient, h.values, h.coefficients]
    · have hflat : Interpolation.Flat l'.toLeafData i j ↔ Interpolation.Flat l.toLeafData i j := by
        rw [Interpolation.Flat, Interpolation.Flat, h.coefficients]
      simp only [Primitives.interpolation, Interpolation.second, hflat, Interpolation.noCurvature,
        LeafData.correctionSize, h.values, h.coefficients]
  | normalization =>
    refine ⟨?_, fun i => ?_, fun i j W => ?_⟩
    · simp only [Primitives.normalization, Normalization.value, hinterpolate]
    · simp only [Primitives.normalization, Normalization.coefficient, hinterpolate, h.coefficients]
    · simp only [Primitives.normalization, Normalization.second, hinterpolate, h.coefficients]
  | vanishing _ ih =>
    refine ⟨ih.1, fun i => ?_, fun i j W => ?_⟩
    · simp only [Primitives.vanishing, LeafData.valueSize, LeafData.correctionSize, h.coefficients]
    · simp only [Primitives.vanishing, LeafData.correctionSize, h.coefficients]

theorem Leaf.AgreesOffSpace.answer (h : l.AgreesOffSpace s s' l') (hp : l.primitives.OfLibrary)
    {d : Directions} (along : Option (Mat K)) (hd : d.spatial = none) :
    l'.answer ⟨s', d, along⟩ = l.answer ⟨s, d, along⟩ := by
  obtain ⟨hvalue, hcoefficient, hsecond⟩ := hp.off_space h
  obtain ⟨_, c⟩ := d
  obtain rfl : _ = none := hd
  cases c with
  | none => simp only [Leaf.answer, h.primitives, hvalue]
  | single c => simp only [Leaf.answer, h.primitives, hcoefficient]
  | two c₁ c₂ =>
    simp only [Leaf.answer, h.primitives, hsecond]
    rfl

end Leaves

namespace ElementField

structure AgreesOffSpace (s s' : Site K) (f f' : ElementField K) : Prop where
  rest : f' = { f with leaves := f'.leaves }
  leaves : ∀ slot ∈ f.expr.slots, ∃ l l', f.leaves[slot]? = some l ∧ f'.leaves[slot]? = some l' ∧
    l.primitives.OfLibrary ∧ l.AgreesOffSpace s s' l'

/-- Values and non-spatial derivatives of the second field at the second site are those of the first
field at the first site, and so are the failures. -/
structure SameOffSpace (f : ElementField K) (s : Site K) (f' : ElementField K) (s' : Site K) :
    Prop where
  value : f'.evaluate s' = f.evaluate s
  derivative : ∀ (d : Directions) (along : Option (Mat K)), d.spatial = none →
    f'.evaluateRequest ⟨s', d, along⟩ = f.evaluateRequest ⟨s, d, along⟩

variable {f f' : ElementField K}

namespace AgreesOffSpace

theorem zeroDerivative_eq (h : f.AgreesOffSpace s s' f') :
    f'.zeroDerivative = f.zeroDerivative := by
  rw [h.rest]
  rfl

/-- Where no derivative is skipped, it is enough that the value and the rule of the node agree. -/
theorem operand_of_rule (h : f.AgreesOffSpace s s' f') {e : Expr K}
    (hvalue : (f'.operand e).value s' = (f.operand e).value s)
    (hrule : ∀ (d : Directions) (along : Option (Mat K)), d.spatial = none →
      f'.rule Expr.annihilated e ⟨s', d, along⟩ = f.rule Expr.annihilated e ⟨s, d, along⟩) :
    (f.operand e).AgreesOffSpace s s' (f'.operand e) := by
  refine ⟨hvalue, fun d along hd => ?_⟩
  rw [operand, operandWith_derivative, operand, operandWith_derivative]
  have hvalue : (f'.operandWith Expr.annihilated e).value s' =
      (f.operandWith Expr.annihilated e).value s := hvalue
  simp only [hvalue, h.zeroDerivative_eq, hrule d along hd]

theorem leaf (h : f.AgreesOffSpace s s' f') {slot : ℕ} (hs : slot ∈ f.expr.slots)
    (signature : LeafSignature) :
    (f.operand (.leaf slot signature)).AgreesOffSpace s s' (f'.operand (.leaf slot signature)) := by
  obtain ⟨l, l', hl, hl', hlibrary, hagree⟩ := h.leaves slot hs
  refine h.operand_of_rule ?_ fun d along hd => ?_
  · show f'.leafValue slot s' = f.leafValue slot s
    rw [leafValue_eq hl', leafValue_eq hl, hagree.primitives, (hlibrary.off_space hagree).1]
  · show f'.leafDerivative slot ⟨s', d, along⟩ = f.leafDerivative slot ⟨s, d, along⟩
    have hsize : l'.valueSize = l.valueSize := congrArg Coefficients.valueSize hagree.coefficients
    rw [leafDerivative_eq hl', leafDerivative_eq hl, hagree.block, h.zeroDerivative_eq,
      hagree.answer hlibrary along hd, hsize]

/-- Every expression without strains agrees off space if its leaves do. -/
theorem operand (h : f.AgreesOffSpace s s' f') {e : Expr K} (hfree : e.StrainFree)
    (hslots : ∀ slot ∈ e.slots, slot ∈ f.expr.slots) :
    (f.operand e).AgreesOffSpace s s' (f'.operand e) := by
  -- Without an axis no rule asks an operand for one, so no gradient is ever looked at.
  induction e with
  | leaf slot signature => exact h.leaf (hslots slot List.mem_cons_self) signature
  | constant x =>
    refine h.operand_of_rule rfl fun d _ _ => ?_
    show f'.zeroDerivative 1 d = f.zeroDerivative 1 d
    rw [h.zeroDerivative_eq]
  | unary op a ih =>
    have hscaled (hfree : a.StrainFree) (x : K) :
        ((do return (← (f'.operand a).value s').scale x : Outcome (Mat K)) =
          do return (← (f.operand a).value s).scale x) ∧
        ∀ (d : Directions) (along : Option (Mat K)), d.spatial = none →
          (do return (← (f'.operand a).derivative ⟨s', d, along⟩).scale x :
            Outcome (Derivative K)) =
            do return (← (f.operand a).derivative ⟨s, d, along⟩).scale x := by
      have ha := ih hfree hslots
      refine ⟨by rw [ha.value], fun d along hd => by rw [ha.derivative d along hd]⟩
    cases op with
    | negate => exact h.operand_of_rule (hscaled hfree (-1)).1 (hscaled hfree (-1)).2
    | scale factor => exact h.operand_of_rule (hscaled hfree factor).1 (hscaled hfree factor).2
    | map g =>
      have ha := ih hfree hslots
      exact h.operand_of_rule (Chain.value_off_space g ha) fun d along hd =>
        Chain.derivative_off_space g ha along hd
    | strain => exact hfree.elim
  | binary op a b iha ihb =>
    have ha := iha hfree.1 fun slot hs => hslots slot (List.mem_append_left _ hs)
    have hb := ihb hfree.2 fun slot hs => hslots slot (List.mem_append_right _ hs)
    cases op with
    | sum =>
      refine h.operand_of_rule ?_ fun d along hd => ?_
      · show (do let x ← (f'.operand a).value s'
                 x.add (← (f'.operand b).value s') : Outcome (Mat K)) =
          do let x ← (f.operand a).value s
             x.add (← (f.operand b).value s)
        rw [ha.value, hb.value]
      · show (do let x ← (f'.operand a).derivative ⟨s', d, along⟩
                 x.add (← (f'.operand b).derivative ⟨s', d, along⟩) : Outcome (Derivative K)) =
          do let x ← (f.operand a).derivative ⟨s, d, along⟩
             x.add (← (f.operand b).derivative ⟨s, d, along⟩)
        rw [ha.derivative d along hd, hb.derivative d along hd]
    | dot =>
      exact h.operand_of_rule (Product.value_off_space ha hb) fun d along hd =>
        Product.derivative_off_space ha hb along hd

theorem same (h : f.AgreesOffSpace s s' f') (hfree : f.expr.StrainFree) :
    f.SameOffSpace s f' s' := by
  have hexpr : f'.expr = f.expr := by
    rw [h.rest]
    rfl
  have hoperand := h.operand hfree fun _ hs => hs
  refine ⟨?_, fun d along hd => ?_⟩
  · rw [evaluate, evaluate, hexpr, hoperand.value]
  · -- The checks of a request do not depend on the site.
    have hvalidate : f'.validate ⟨s', d, along⟩ = f.validate ⟨s, d, along⟩ := by
      rw [h.rest]
      rfl
    rw [evaluateRequest, evaluateRequest, hexpr, hvalidate, hoperand.derivative d along hd]

end AgreesOffSpace

def withGeometries (f : ElementField K) (g : ℕ → Option (Geometry K)) : ElementField K :=
  { f with leaves := f.leaves.mapIdx fun slot l => { l with geometry := g slot } }

omit [Scalar K] in
theorem getElem?_withGeometries {l : Leaf K} {slot : ℕ} (hl : f.leaves[slot]? = some l)
    (g : ℕ → Option (Geometry K)) :
    (f.withGeometries g).leaves[slot]? = some { l with geometry := g slot } := by
  show (f.leaves.mapIdx _)[slot]? = _
  rw [Array.getElem?_mapIdx, hl, Option.map_some]

/-- With other geometries a field agrees with itself, also at another site if the values of the shape
functions are the same there. -/
theorem agreesOffSpace_withGeometries (g : ℕ → Option (Geometry K))
    (hleaf : ∀ slot ∈ f.expr.slots, ∃ l, f.leaves[slot]? = some l ∧ l.primitives.OfLibrary ∧
      l.valuesAt s' = l.valuesAt s) : f.AgreesOffSpace s s' (f.withGeometries g) := by
  refine ⟨rfl, fun slot hs => ?_⟩
  obtain ⟨l, hl, hlibrary, hvalues⟩ := hleaf slot hs
  exact ⟨l, _, hl, getElem?_withGeometries hl g, hlibrary, rfl, rfl, rfl, hvalues⟩

end ElementField

/-- If shape functions are bound with their values, they can be bound with nothing else, and they then
have the same values at every point. -/
theorem CachedShapes.bind_values {c t : CachedShapes K} {rule : QuadratureRule K} {orders : List ℕ}
    (h : c.bind rule orders = (t, .ok ())) (hzero : 0 ∈ orders) :
    ∃ t₀, c.bind rule [0] = (t₀, .ok ()) ∧ ∀ p, t₀.valuesAt p = t.valuesAt p := by
  have hcached : cachedValues c.element rule [0] = cachedValues c.element rule orders := by
    rw [cachedValues, cachedValues, if_pos (List.contains_iff_mem.2 hzero)]
    rfl
  have hcontains : (cacheable orders).contains 0 = true := by
    rw [List.contains_iff_mem, cacheable, List.mem_filter, List.contains_iff_mem]
    exact ⟨List.mem_cons_self, hzero⟩
  unfold CachedShapes.bind at h
  split at h
  · cases h
  · split at h
    · cases h
    · rename_i hdim
      split at h
      · cases h
      · rename_i values hvalues
        split at h
        · cases h
        · obtain ⟨rfl, -⟩ := Prod.mk.inj h
          rw [← hcached] at hvalues
          refine ⟨{ c with rule := some rule, orders := [0], values, gradients := [] }, ?_, ?_⟩
          · simp only [CachedShapes.bind, unsupported?, if_neg hdim, hvalues]
            rfl
          · -- Values are looked up by rule and order; only the gradients differ.
            rintro (q | ξ)
            · simp only [valuesAt, checkIndex, hcontains]
              rfl
            · rfl

namespace ElementField

variable {f g : ElementField K}

/-- A field that is bound with values can be bound with nothing else, and agrees off space. -/
theorem Built.bind_values (hf : f.Built)
    (hleaf : ∀ l ∈ f.reachableLeaves, l.primitives.OfLibrary) {rule : QuadratureRule K}
    {orders : List ℕ} (hbind : f.bind rule orders = (g, .ok ())) (hzero : 0 ∈ orders) :
    ∃ g₀, f.bind rule [0] = (g₀, .ok ()) ∧ ∀ (G : ℕ → Option (Geometry K)) p t t',
      g.AgreesOffSpace ⟨p, t⟩ ⟨p, t'⟩ (g₀.withGeometries G) := by
  have hown : ∀ slot ∈ f.expr.slots, ∃ l t₀, f.leaves[slot]? = some l ∧
      g.leaves[slot]? = some (l.bind rule orders).1 ∧ l.shapes.bind rule [0] = (t₀, .ok ()) ∧
      ∀ p, t₀.valuesAt p = (l.bind rule orders).1.shapes.valuesAt p := by
    rcases hf.bind_leaves rule orders with ⟨next, hok, hall⟩ | ⟨slot, -, l, e, -, -, herror⟩
    · obtain rfl : g = { f with leaves := next } := congrArg Prod.fst (hbind.symm.trans hok)
      intro slot hs
      obtain ⟨l, a, hl, ha, hb⟩ := hall slot hs
      have hshapes : l.shapes.bind rule orders = ((l.bind rule orders).1.shapes, .ok ()) := by
        have hsnd : (l.bind rule orders).2 = .ok () := congrArg Prod.snd hb
        exact Prod.ext rfl hsnd
      obtain ⟨t₀, hb₀, hvalues⟩ := CachedShapes.bind_values hshapes hzero
      exact ⟨l, t₀, hl, hb ▸ ha, hb₀, hvalues⟩
    · have hok : (f.bind rule orders).2 = .ok () := congrArg Prod.snd hbind
      cases hok.symm.trans herror
  rcases hf.bind_leaves rule [0] with ⟨next, hok, hall⟩ | ⟨slot, hs, l, e, hl, herror, -⟩
  · refine ⟨_, hok, fun G p t t' => ?_⟩
    obtain rfl : (f.bind rule orders).1 = g := congrArg Prod.fst hbind
    refine ⟨rfl, fun slot (hs : slot ∈ f.expr.slots) => ?_⟩
    obtain ⟨l, t₀, hl, ha, hb₀, hvalues⟩ := hown slot hs
    obtain ⟨m, b, hm, hnext, hb⟩ := hall slot hs
    obtain rfl : l = m := Option.some.inj (hl.symm.trans hm)
    have hleaf₀ : l.bind rule [0] = (l.withShapes t₀, .ok ()) := by rw [Leaf.bind, hb₀]
    obtain rfl : l.withShapes t₀ = b := congrArg Prod.fst (hleaf₀.symm.trans hb)
    have hlibrary := hleaf l (mem_reachableLeaves (hf.mem_slots_iff.2 hs) hl)
    have hget : ({ f with leaves := next } : ElementField K).leaves[slot]? =
        some (l.withShapes t₀) := hnext
    exact ⟨_, _, ha, getElem?_withGeometries hget G, hlibrary, rfl, rfl, rfl, hvalues p⟩
  · obtain ⟨m, t₀, hm, -, hb₀, -⟩ := hown slot hs
    obtain rfl : l = m := Option.some.inj (hl.symm.trans hm)
    have hleaf₀ : l.bind rule [0] = (l.withShapes t₀, .ok ()) := by rw [Leaf.bind, hb₀]
    rw [hleaf₀] at herror
    cases herror

/-- No operation changes the expression. -/
theorem Run.expr_eq {last : Option (QuadratureRule K × List ℕ)} (h : f.Run last g) :
    g.expr = f.expr := by
  induction h with
  | start => rfl
  | @taken _ h h' rule orders _ _ hbind ih | @refused _ h h' rule orders _ _ _ hbind ih =>
    obtain rfl : (h.bind rule orders).1 = h' := congrArg Prod.fst hbind
    exact ih
  | @corrected _ h _ κ block d ih =>
    rw [← ih, correctInPlace]
    cases h.checkOwners block d.size κ.expected <;> rfl

/-- Requests without a spatial direction do not see the geometry. For a field without strains, the
value and the derivatives with respect to coefficients, and the failures, are the same in both frames,
whatever geometries are attached to the leaves or removed. After any run in which a rule was taken
with its values cached, they are at an integration point what they are at its position, whether
gradients were cached or not. So it is enough to bind the values alone. -/
theorem answers_off_space (hf : f.Built) (hfree : f.expr.StrainFree)
    (hleaf : ∀ l ∈ f.reachableLeaves, l.primitives.OfLibrary) :
    (∀ (G : ℕ → Option (Geometry K)) (p : EvaluationPoint K) (t t' : Transform),
      f.SameOffSpace ⟨p, t⟩ (f.withGeometries G) ⟨p, t'⟩) ∧
    (∀ (rule : QuadratureRule K) (orders : List ℕ) (g : ElementField K),
      f.Run (some (rule, orders)) g → 0 ∈ orders → ∀ (q : ℕ) (ξ : Vec K),
      rule.points[q]? = some ξ → ∀ (G : ℕ → Option (Geometry K)) (t t' : Transform),
      g.SameOffSpace ⟨.position ξ, t⟩ (g.withGeometries G) ⟨.integrationPoint q, t'⟩) ∧
    ∀ (rule : QuadratureRule K) (orders : List ℕ) (g : ElementField K),
      f.bind rule orders = (g, .ok ()) → 0 ∈ orders →
      ∃ g₀, f.bind rule [0] = (g₀, .ok ()) ∧
        ∀ (G : ℕ → Option (Geometry K)) (p : EvaluationPoint K) (t t' : Transform),
        g.SameOffSpace ⟨p, t⟩ (g₀.withGeometries G) ⟨p, t'⟩ := by
  refine ⟨fun G p t t' => ?_, fun rule orders g hrun hzero q ξ hq G t t' => ?_,
    fun rule orders g hbind hzero => ?_⟩
  · refine (agreesOffSpace_withGeometries G fun slot hs => ?_).same hfree
    obtain ⟨l, hl⟩ := hf.exists_leaf hs
    exact ⟨l, hl, hleaf l (mem_reachableLeaves (hf.mem_slots_iff.2 hs) hl), rfl⟩
  · have hg := hrun.holds hf hleaf
    obtain ⟨hrule, hbound⟩ := hg.bound rule orders rfl
    refine (agreesOffSpace_withGeometries G fun slot hs => ?_).same (hrun.expr_eq.symm ▸ hfree)
    obtain ⟨l, hl⟩ := hg.built.exists_leaf hs
    exact ⟨l, hl, hg.ofLibrary slot hs l hl, (hbound slot hs l hl).valuesAt_eq hrule hq hzero⟩
  · obtain ⟨g₀, hbind₀, hagree⟩ := hf.bind_values hleaf hbind hzero
    obtain rfl : (f.bind rule orders).1 = g := congrArg Prod.fst hbind
    exact ⟨g₀, hbind₀, fun G p t t' => (hagree G p t t').same hfree⟩

/-- The projected displacement on the sheared triangle, in the frame of the world: with values and
gradients cached it is answered as without the triangle, in the other frame and with values alone. -/
theorem answers_off_space_projected :
    let rule : QuadratureRule ℝ := { weights := [1], points := [#[0, 0]] }
    let f : ElementField ℝ := projected
    let g := (f.bind rule [0, 1]).1
    (f.Built ∧ f.expr.StrainFree ∧ (∀ l ∈ f.reachableLeaves, l.primitives.OfLibrary) ∧
      f.Run (some (rule, [0, 1])) g) ∧
      f.SameOffSpace ⟨.position #[0, 0], .gridElement⟩ (f.withGeometries fun _ => none)
        ⟨.position #[0, 0], .referenceElement⟩ ∧
      g.SameOffSpace ⟨.position #[0, 0], .gridElement⟩ (g.withGeometries fun _ => none)
        ⟨.integrationPoint 0, .referenceElement⟩ ∧
      ∃ g₀, f.bind rule [0] = (g₀, .ok ()) ∧
        g.SameOffSpace ⟨.integrationPoint 0, .gridElement⟩ (g₀.withGeometries fun _ => none)
          ⟨.integrationPoint 0, .referenceElement⟩ := by
  intro rule f g
  have hrule : rule.Regular := by
    refine ⟨rfl, fun p hp => ?_⟩
    obtain rfl := List.mem_singleton.1 hp
    rfl
  have hlibrary : ∀ l ∈ f.reachableLeaves, l.primitives.OfLibrary :=
    fun l hl => (forall_mem_projected l hl).1.ofLibrary
  have hbind : f.bind rule [0, 1] = (g, .ok ()) := Prod.ext rfl rfl
  have hrun : f.Run (some (rule, [0, 1])) g := Run.start.taken hrule hbind
  have hfree : f.expr.StrainFree := ⟨trivial, trivial⟩
  have hzero : 0 ∈ [0, 1] := List.mem_cons_self
  obtain ⟨hgeometry, hcached, hbound⟩ := answers_off_space built_projected hfree hlibrary
  obtain ⟨g₀, hbind₀, hsame⟩ := hbound rule [0, 1] g hbind hzero
  exact ⟨⟨built_projected, hfree, hlibrary, hrun⟩, hgeometry _ _ _ _,
    hcached rule [0, 1] g hrun hzero 0 #[0, 0] rfl _ _ _, g₀, hbind₀, hsame _ _ _ _⟩

end ElementField

end ElementFields
