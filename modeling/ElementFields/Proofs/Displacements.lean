import ElementFields.Proofs.Variations

namespace ElementFields
open Scalar
open scoped BigOperators

namespace Expr

theorem gridDim_of_slots_eq_nil {K : Type} {e : Expr K} (h : e.slots = []) : e.gridDim = none := by
  induction e with
  | leaf slot signature => nomatch h
  | constant x => rfl
  | unary op a ih => exact ih h
  | binary op a b iha ihb =>
    obtain ⟨ha, hb⟩ := List.append_eq_nil_iff.1 h
    rw [gridDim, iha ha, ihb hb]
    rfl

/-- Without leaves and strains there is nothing to differentiate. -/
theorem exists_const {K : Type} [ExactScalar K] {e : Expr K} (hfree : e.StrainFree)
    (h : e.slots = []) : ∃ c, ∀ T : ℕ → Partials K, e.partials T = .const c := by
  induction e with
  | leaf slot signature => nomatch h
  | constant x => exact ⟨x, fun _ => rfl⟩
  | unary op a ih =>
    have hscale (hfree : a.StrainFree) (s : K) :
        ∃ c, ∀ T : ℕ → Partials K, (a.partials T).scale s = .const c := by
      obtain ⟨c, hc⟩ := ih hfree h
      refine ⟨c * s, fun T => ?_⟩
      rw [hc]
      simp only [Partials.scale, Partials.const, zero_mul]
    cases op with
    | negate => exact hscale hfree (-1)
    | scale s => exact hscale hfree s
    | map g =>
      obtain ⟨c, hc⟩ := ih hfree h
      refine ⟨g.apply c, fun T => ?_⟩
      rw [partials, hc]
      simp only [Partials.map, Partials.const, mul_zero, add_zero]
    | strain => exact hfree.elim
  | binary op a b iha ihb =>
    obtain ⟨ha, hb⟩ := List.append_eq_nil_iff.1 h
    obtain ⟨c, hc⟩ := iha hfree.1 ha
    obtain ⟨d, hd⟩ := ihb hfree.2 hb
    cases op with
    | sum =>
      refine ⟨c + d, fun T => ?_⟩
      rw [partials, hc, hd]
      simp only [Partials.add, Partials.const, add_zero]
    | dot =>
      refine ⟨∑ _i ∈ Finset.range a.valueSize, c * d, fun T => ?_⟩
      rw [partials, hc, hd]
      simp only [Partials.inner, Partials.const, mul_zero, zero_mul, add_zero, Finset.sum_const_zero]

end Expr

namespace Operand

variable {K : Type} [ExactScalar K] {o o' a a' b b' : Operand K} {site : Site K}

omit [ExactScalar K] in
structure AnswersAlike (o o' : Operand K) (site : Site K) : Prop where
  value : (∃ m, o.value site = .ok m) → ∃ m, o'.value site = .ok m
  gradient : o.Answers (Strain.gradientRequest site) → o'.Answers (Strain.gradientRequest site)

theorem AnswersAlike.scaled {x : K} (h : a.AnswersAlike a' site)
    (hv : o.value site = do return (← a.value site).scale x)
    (hv' : o'.value site = do return (← a'.value site).scale x)
    (hD : o.derivative (Strain.gradientRequest site) =
      do return (← a.derivative (Strain.gradientRequest site)).scale x)
    (hD' : o'.derivative (Strain.gradientRequest site) =
      do return (← a'.derivative (Strain.gradientRequest site)).scale x) :
    o.AnswersAlike o' site := by
  refine ⟨?_, ?_⟩
  · rintro ⟨m, hm⟩
    obtain ⟨n, hn, -⟩ := bind_eq_ok_iff.1 (hv.symm.trans hm)
    obtain ⟨n', hn'⟩ := h.value ⟨n, hn⟩
    exact ⟨n'.scale x, hv'.trans (bind_eq_ok_iff.2 ⟨n', hn', rfl⟩)⟩
  · rw [answers_of_scaled hD, answers_of_scaled hD']
    exact h.gradient

variable {V G : ℕ} {C : BlockId → ℕ} (hA : a.AnswersAlike a' site) (hB : b.AnswersAlike b' site)
  (ha : a.Formed V G C (Strain.gradientRequest site).directions)
  (hb : b.Formed V G C (Strain.gradientRequest site).directions)
  (ha' : a'.Formed V G C (Strain.gradientRequest site).directions)
  (hb' : b'.Formed V G C (Strain.gradientRequest site).directions)
include hA hB ha hb ha' hb'

theorem AnswersAlike.added (hv : o.value site = do let x ← a.value site; x.add (← b.value site))
    (hv' : o'.value site = do let x ← a'.value site; x.add (← b'.value site))
    (hD : o.derivative (Strain.gradientRequest site) = sumOf a b (Strain.gradientRequest site))
    (hD' : o'.derivative (Strain.gradientRequest site) = sumOf a' b' (Strain.gradientRequest site)) :
    o.AnswersAlike o' site := by
  refine ⟨?_, fun hans => ?_⟩
  · rintro ⟨m, hm⟩
    obtain ⟨_, _, _, _, m', -, -, hm', -⟩ := value_of_added ha' hb' hv hv' hm
      fun ma mb hma hmb => ⟨hA.value ⟨ma, hma⟩, hB.value ⟨mb, hmb⟩⟩
    exact ⟨m', hm'⟩
  · obtain ⟨⟨hansa, hansb⟩, -⟩ := answers_of_added ha hb (Request.fits_of_none rfl) hD hans
    exact answers_gradient_of_added ha' hb' hD' (hA.gradient hansa) (hB.gradient hansb)

theorem AnswersAlike.product (hv : o.value site = Product.value a b site)
    (hv' : o'.value site = Product.value a' b' site)
    (hD : o.derivative (Strain.gradientRequest site) =
      Product.derivative a b (Strain.gradientRequest site))
    (hD' : o'.derivative (Strain.gradientRequest site) =
      Product.derivative a' b' (Strain.gradientRequest site)) :
    o.AnswersAlike o' site := by
  refine ⟨?_, ?_⟩
  · rintro ⟨m, hm⟩
    obtain ⟨_, _, _, _, m', -, -, hm', -⟩ := value_of_product ha ha' hb' hv hv' hm
      fun ma mb hma hmb => ⟨hA.value ⟨ma, hma⟩, hB.value ⟨mb, hmb⟩⟩
    exact ⟨m', hm'⟩
  · rintro ⟨D, hoD⟩
    -- The product rule asks for the values of both operands before it asks for their gradients.
    obtain ⟨va, hva, hoD'⟩ := bind_eq_ok_iff.1 (hD.symm.trans hoD)
    obtain ⟨vb, hvb, -⟩ := bind_eq_ok_iff.1 hoD'
    obtain ⟨⟨hansa, hansb⟩, -⟩ := gradient_of_product ha hb hD hva hvb ⟨D, hoD⟩
    obtain ⟨va', hva'⟩ := hA.value ⟨va, hva⟩
    obtain ⟨vb', hvb'⟩ := hB.value ⟨vb, hvb⟩
    exact answers_gradient_of_product ha' hb' hD' hva' hvb' (hA.gradient hansa) (hB.gradient hansb)

end Operand

/-- A linear leaf varies as its table says. -/
theorem Leaf.IsLinear.vary {l : Leaf ℝ} (h : l.IsLinear) (φ : ℕ → ℝ) (g : ℕ → ℕ → ℝ)
    (α β : Variable) :
    Partials.Vary (fun p q => (l.moved α β p q).interpolationTable φ g)
      (l.interpolationTable φ g) l.valueSize α β := by
  have hentry {j i : ℕ} (hj : j < l.numCoefficients) (hi : i < l.valueSize) :
      HasVariations (fun p q => (l.moved α β p q).coefficients.entry i j)
        (l.coefficients.entry i j) (l.share α j i) (l.share β j i) 0 := by
    have hmoved : (fun p q => (l.moved α β p q).coefficients.entry i j) = fun p q =>
        l.coefficients.entry i j + (p * l.share α j i + q * l.share β j i) := by
      funext p q
      obtain ⟨c, hc, -, he⟩ := h.moved_eq α β p q
      rw [hc]
      exact he j i hj hi
    rw [hmoved]
    exact .linear _ _ _
  have hcount (p q : ℝ) : (l.moved α β p q).numCoefficients = l.numCoefficients :=
    (sameKind_update (l.update_correction α β p q)).size
  have hsum (w : ℕ → ℝ) {i : ℕ} (hi : i < l.valueSize) : HasVariations
      (fun p q => ∑ j ∈ Finset.range (l.moved α β p q).numCoefficients,
        w j * (l.moved α β p q).coefficients.entry i j)
      (∑ j ∈ Finset.range l.numCoefficients, w j * l.coefficients.entry i j)
      (∑ j ∈ Finset.range l.numCoefficients, w j * l.share α j i)
      (∑ j ∈ Finset.range l.numCoefficients, w j * l.share β j i) 0 := by
    simp only [hcount]
    have hterms := HasVariations.sum fun j hj => (hentry hj hi).const_mul (w j)
    simp only [mul_zero, Finset.sum_const_zero] at hterms
    exact hterms
  exact ⟨fun i hi => hsum φ hi, fun k i hi => hsum (g k) hi⟩

namespace ElementField

/-- The expression is made of linear leaves and of numbers by sums, multiples and products. -/
def IsPolynomial {K : Type} [Scalar K] (f : ElementField K) : Expr K → Prop
  | .leaf slot _ => ∀ l, f.leaves[slot]? = some l → l.IsLinear
  | .constant _ => True
  | .unary .strain _ => False
  | .unary (.map _) a => a.slots = [] ∧ f.IsPolynomial a
  | .unary _ a => f.IsPolynomial a
  | .binary _ a b => f.IsPolynomial a ∧ f.IsPolynomial b

theorem IsPolynomial.strainFree {K : Type} [Scalar K] {f : ElementField K} {e : Expr K}
    (h : f.IsPolynomial e) : e.StrainFree := by
  induction e with
  | leaf | constant => trivial
  | unary op a ih =>
    cases op with
    | negate | scale => exact ih h
    | map g => exact ih h.2
    | strain => exact h
  | binary op a b iha ihb => exact ⟨iha h.1, ihb h.2⟩

section Orders

variable {K : Type} [ExactScalar K] {f : ElementField K} {e : Expr K}
  (hleaf : ∀ l ∈ f.reachableLeaves, l.Standard)
include hleaf

/-- An expression that is constant in all blocks has no leaves. -/
theorem slots_eq_nil_of_constant (he : f.Hosts e) (hconst : ∀ block, e.orderIn block = .constant) :
    e.slots = [] := by
  refine List.eq_nil_iff_forall_not_mem.2 fun slot hs => ?_
  obtain ⟨_, l, hl⟩ := he.exists_leaf hs
  -- A leaf is never constant in its own block.
  exact block_ne_of_constant hleaf he (hconst l.block) hs hl.get rfl

/-- An expression that is at most linear in each block is a polynomial in the coefficients. -/
theorem isPolynomial_of_orders (he : f.Hosts e)
    (horder : ∀ block, (e.orderIn block).annihilatedBy 2 = true) : f.IsPolynomial e := by
  induction e with
  | leaf slot signature =>
    obtain ⟨l, hl⟩ := he
    obtain rfl := hl.signature_eq
    intro l' hl'
    obtain rfl := Option.some.inj (hl.get.symm.trans hl')
    have hown : (Expr.leaf slot l.signature : Expr K).orderIn l.block = l.order := if_pos rfl
    exact ((hleaf l hl.mem).kind.linear_of_annihilated (hown ▸ horder l.block)).2
  | constant x => trivial
  | unary op a ih =>
    -- The order of a function or of strains is above linear unless the operand is constant.
    have hconst {result : PolynomialOrder} (hr : result.annihilatedBy 2 = false)
        (h : ∀ block, ((a.orderIn block).unlessConstant result).annihilatedBy 2 = true)
        (block : BlockId) : a.orderIn block = .constant :=
      PolynomialOrder.constant_of_unlessConstant hr (h block)
    cases op with
    | negate | scale => exact ih he horder
    | map g =>
      have hconst := hconst rfl horder
      refine ⟨slots_eq_nil_of_constant hleaf he.1 hconst, ih he.1 fun block => ?_⟩
      rw [hconst block]
      rfl
    | strain =>
      -- Strains of an expression without leaves would need a dimension that it does not have.
      have hslots := slots_eq_nil_of_constant hleaf he.1 (hconst rfl horder)
      exact absurd (he.2.1.2.symm.trans (Expr.gridDim_of_slots_eq_nil hslots)) (Option.some_ne_none _)
  | binary op a b iha ihb =>
    have hboth (block : BlockId) : (a.orderIn block).annihilatedBy 2 = true ∧
        (b.orderIn block).annihilatedBy 2 = true := by
      cases op with
      | sum => exact PolynomialOrder.annihilatedBy_of_max (horder block)
      | dot => exact (PolynomialOrder.linear_of_mul (horder block)).1
    exact ⟨iha he.1.1 fun block => (hboth block).1, ihb he.1.2 fun block => (hboth block).2⟩

end Orders

/-- The field with the coefficients of all leaves corrected by `p` in the coordinate `α` and by `q` in
the coordinate `β`, as far as they belong to a leaf. -/
noncomputable def moved (f : ElementField ℝ) (α β : Variable) (p q : ℝ) : ElementField ℝ :=
  { f with leaves := f.leaves.map (·.moved α β p q) }

variable {f : ElementField ℝ} {e : Expr ℝ} {site : Site ℝ} {α β : Variable} {p q : ℝ}

theorem getElem?_moved (f : ElementField ℝ) (α β : Variable) (p q : ℝ) (slot : ℕ) :
    (f.moved α β p q).leaves[slot]? = (f.leaves[slot]?).map (·.moved α β p q) :=
  Array.getElem?_map

theorem alike_moved (f : ElementField ℝ) (α β : Variable) (p q : ℝ) :
    f.Alike (f.moved α β p q) := by
  refine ⟨rfl, fun slot l hl => ⟨l.moved α β p q, ?_, ?_⟩⟩
  · rw [getElem?_moved, hl, Option.map_some]
  · exact Leaf.sameKind_update (l.update_correction α β p q)

theorem standard_moved (hleaf : ∀ l ∈ f.reachableLeaves, l.Standard) :
    ∀ l ∈ (f.moved α β p q).reachableLeaves, l.Standard := by
  intro l hl
  obtain ⟨slot, hs, hget⟩ := List.mem_filterMap.1 hl
  rw [getElem?_moved] at hget
  obtain ⟨l', hl', rfl⟩ := Option.map_eq_some_iff.1 hget
  exact (hleaf l' (mem_reachableLeaves hs hl')).update (l'.update_correction α β p q)

theorem IsPolynomial.moved (h : f.IsPolynomial e) : (f.moved α β p q).IsPolynomial e := by
  induction e with
  | leaf slot signature =>
    intro l hl
    rw [getElem?_moved] at hl
    obtain ⟨l', hl', rfl⟩ := Option.map_eq_some_iff.1 hl
    exact (h l' hl').update (l'.update_correction α β p q)
  | constant x => trivial
  | unary op a ih =>
    cases op with
    | negate | scale => exact ih h
    | map g => exact ⟨h.1, ih h.2⟩
    | strain => exact h
  | binary op a b iha ihb => exact ⟨iha h.1, ihb h.2⟩

/-- Moving coefficients moves neither the geometry nor the shape functions. -/
theorem referenceTangents_moved (f : ElementField ℝ) (α β : Variable) (p q : ℝ) (e : Expr ℝ) :
    (f.moved α β p q).referenceTangents e = f.referenceTangents e := by
  refine referenceTangents_congr (f.alike_moved α β p q).gridDim (fun slot => ?_) e
  rw [getElem?_moved, Option.map_map]
  refine congrArg (fun key => (f.leaves[slot]?).map key) (funext fun l => ?_)
  -- A leaf of another block is moved by the zero correction.
  have hu := l.update_correction α β p q
  exact Prod.ext (Leaf.sameKind_update hu).geometry (Leaf.shapes_update hu)

def ShapedBy (f : ElementField ℝ) (site : Site ℝ) (φ : ℕ → ℕ → ℝ) (g : ℕ → ℕ → ℕ → ℝ) : Prop :=
  ∀ (slot : ℕ) (l : Leaf ℝ), f.leaves[slot]? = some l →
    (∀ v, l.valuesAt site = .ok v → ∀ j, v.entry j = φ slot j) ∧
      ∀ m, l.gradientsIn site = .ok m → ∀ k j, m.entry k j = g slot k j

noncomputable def leafTable (f : ElementField ℝ) (φ : ℕ → ℕ → ℝ) (g : ℕ → ℕ → ℕ → ℝ) (slot : ℕ) :
    Partials ℝ :=
  match f.leaves[slot]? with
  | some l => l.interpolationTable (φ slot) (g slot)
  | none => .const 0

theorem leafTable_of_get (φ : ℕ → ℕ → ℝ) (g : ℕ → ℕ → ℕ → ℝ) {slot : ℕ} {l : Leaf ℝ}
    (hl : f.leaves[slot]? = some l) :
    f.leafTable φ g slot = l.interpolationTable (φ slot) (g slot) := by
  rw [leafTable, hl]

variable {φ : ℕ → ℕ → ℝ} {g : ℕ → ℕ → ℕ → ℝ}

theorem exists_shapedBy (f : ElementField ℝ) (site : Site ℝ) : ∃ φ g, f.ShapedBy site φ g := by
  have hslot (slot : ℕ) : ∃ (φ : ℕ → ℝ) (g : ℕ → ℕ → ℝ), ∀ l : Leaf ℝ, f.leaves[slot]? = some l →
      (∀ v, l.valuesAt site = .ok v → ∀ j, v.entry j = φ j) ∧
        ∀ m, l.gradientsIn site = .ok m → ∀ k j, m.entry k j = g k j := by
    cases hl : f.leaves[slot]? with
    | none => exact ⟨fun _ => 0, fun _ _ => 0, fun l h => (nomatch h)⟩
    | some l =>
      obtain ⟨φ, g, hφ, hg⟩ := l.exists_shapes site
      refine ⟨φ, g, fun l' h => ?_⟩
      obtain rfl := Option.some.inj h
      exact ⟨hφ, hg⟩
  choose φ g h using hslot
  exact ⟨φ, g, h⟩

theorem ShapedBy.moved (h : f.ShapedBy site φ g) : (f.moved α β p q).ShapedBy site φ g := by
  intro slot l hl
  rw [getElem?_moved] at hl
  obtain ⟨l', hl', rfl⟩ := Option.map_eq_some_iff.1 hl
  have hu := l'.update_correction α β p q
  rw [Leaf.valuesAt_update hu, Leaf.gradientsIn_update hu]
  exact h slot l' hl'

theorem IsPolynomial.leavesRead (h : f.IsPolynomial e) (hs : f.ShapedBy site φ g) :
    f.LeavesRead site (f.leafTable φ g) e := by
  intro slot signature l hpart hl
  have hlinear : l.IsLinear := by
    induction e with
    | leaf s _ =>
      cases hpart
      exact h l hl.get
    | constant x => nomatch hpart
    | unary op a ih =>
      cases hpart with
      | unary _ hpart =>
        cases op with
        | negate | scale => exact ih h hpart
        | map g => exact ih h.2 hpart
        | strain => exact h.elim
    | binary op a b iha ihb =>
      cases hpart with
      | left _ _ hpart => exact iha h.1 hpart
      | right _ _ hpart => exact ihb h.2 hpart
  obtain ⟨hφ, hg⟩ := hs slot l hl.get
  rw [leafTable_of_get φ g hl.get]
  exact hlinear.reads hφ hg

section Answers

variable (hleaf : ∀ l ∈ f.reachableLeaves, l.Standard)
include hleaf

/-- Operands of a moved field answer in the same shapes. -/
theorem formed_moved (he : f.Hosts e) (site : Site ℝ) (α β : Variable) (p q : ℝ) :
    ((f.moved α β p q).operand e).Formed e.valueSize f.gridDim f.tangentDim
      (Strain.gradientRequest site).directions :=
  operandWith_formed (fun l hl => (standard_moved hleaf l hl).kind.keepsShapes) Expr.annihilated
    ((f.alike_moved α β p q).hosts he) ((f.moved α β p q).admits_gradient site)

omit hleaf in
/-- A linear leaf interpolates other coefficients at the same sites. -/
theorem leaf_answers_moved {slot : ℕ} {signature : LeafSignature} {l : Leaf ℝ}
    (hl : f.HostsLeaf slot signature l) (hlinear : l.IsLinear) (α β : Variable) (p q : ℝ) :
    (f.operand (.leaf slot signature)).AnswersAlike
      ((f.moved α β p q).operand (.leaf slot signature)) site := by
  have hu := l.update_correction α β p q
  have hget : (f.moved α β p q).leaves[slot]? = some (l.moved α β p q) := by
    rw [getElem?_moved, hl.get, Option.map_some]
  refine ⟨?_, ?_⟩
  · rintro ⟨m, hm⟩
    have hm : f.leafValue slot site = .ok m := hm
    rw [leafValue_eq hl.get] at hm
    obtain ⟨v, hv, -⟩ := bind_eq_ok_iff.1 hm
    obtain ⟨v', hv'⟩ := hlinear.exists_value hu hv
    refine ⟨.column v', ?_⟩
    show (f.moved α β p q).leafValue slot site = _
    rw [leafValue_eq hget]
    exact bind_eq_ok_iff.2 ⟨v', hv', rfl⟩
  · rintro ⟨D, hD⟩
    have hD : f.leafDerivative slot (Strain.gradientRequest site) = .ok D := hD
    rw [leafDerivative_eq hl.get] at hD
    obtain ⟨m, hm, -⟩ := bind_eq_ok_iff.1 hD
    obtain ⟨m', hm'⟩ := hlinear.exists_gradient hu hm
    refine ⟨.matrix m', ?_⟩
    show (f.moved α β p q).leafDerivative slot (Strain.gradientRequest site) = _
    rw [leafDerivative_eq hget]
    exact bind_eq_ok_iff.2 ⟨m', hm', rfl⟩

/-- A polynomial has a value and a gradient after its coefficients are moved, if it has them before. -/
theorem IsPolynomial.answers_moved (h : f.IsPolynomial e) (he : f.Hosts e) (α β : Variable)
    (p q : ℝ) : (f.operand e).AnswersAlike ((f.moved α β p q).operand e) site := by
  have hrule (f : ElementField ℝ) (e : Expr ℝ) :
      (f.operand e).derivative (Strain.gradientRequest site) =
        f.rule Expr.annihilated e (Strain.gradientRequest site) :=
    derivative_eq_rule (fun hv => (nomatch hv)) rfl
  have hformed {e : Expr ℝ} (he : f.Hosts e) := operandWith_formed
    (fun l hl => (hleaf l hl).kind.keepsShapes) Expr.annihilated he (f.admits_gradient site)
  induction e with
  | leaf slot signature =>
    obtain ⟨l, hl⟩ := he
    exact leaf_answers_moved hl (h l hl.get) α β p q
  | constant x => exact ⟨id, id⟩
  | unary op a ih =>
    cases op with
    | negate => exact (ih h he).scaled rfl rfl (hrule f _) (hrule _ _)
    | scale s => exact (ih h he).scaled rfl rfl (hrule f _) (hrule _ _)
    | map g' =>
      -- Without leaves it stands for the same operand.
      have hsame : (f.moved α β p q).operand (.unary (.map g') a) =
          f.operand (.unary (.map g') a) := by
        refine operand_congr rfl fun slot hs => ?_
        exact absurd (h.1 ▸ hs : slot ∈ []) List.not_mem_nil
      rw [hsame]
      exact ⟨id, id⟩
    | strain => exact h.elim
  | binary op a b iha ihb =>
    obtain ⟨⟨ha, hb⟩, hsize⟩ := he
    have hA := iha h.1 ha
    have hB := ihb h.2 hb
    have hfb := hformed hb
    have hfb' := formed_moved hleaf hb site α β p q
    rw [← hsize] at hfb hfb'
    cases op with
    | sum =>
      exact hA.added hB (hformed ha) hfb (formed_moved hleaf ha site α β p q) hfb' rfl rfl
        (hrule f _) (hrule _ _)
    | dot =>
      exact hA.product hB (hformed ha) hfb (formed_moved hleaf ha site α β p q) hfb' rfl rfl
        (hrule f _) (hrule _ _)

/-- The gradient of a polynomial is read off its table. -/
theorem IsPolynomial.gradientOf_eq (h : f.IsPolynomial e) (he : f.Hosts e)
    (hs : f.ShapedBy site φ g) (hans : (f.operand e).Answers (Strain.gradientRequest site)) {d k : ℕ}
    (hd : d < e.valueSize) (hk : k < f.gridDim) :
    Strain.gradientOf (f.operand e) site d k = (e.partials (f.leafTable φ g)).slope k d := by
  obtain ⟨D, hD⟩ := hans
  have hread := (operand_reads (fun l hl => (hleaf l hl).kind.keepsShapes) (h.leavesRead hs) he
    h.strainFree rfl (f.admits_gradient site)).derivative _ D rfl (.refl _)
    (Request.fits_of_none rfl) hD
  rw [Strain.gradientOf, Operand.entry_of_ok hD]
  exact hread.2 d hd k hk

/-- The first variation of the gradient of a polynomial is read off its table. -/
theorem IsPolynomial.variationOf_eq (h : f.IsPolynomial e) (he : f.Hosts e)
    (hs : f.ShapedBy site φ g) {c : Coefficient}
    (hr : f.Admits (Strain.variationRequest site c).directions)
    (hans : (f.operand e).Answers (Strain.variationRequest site c)) {a d k : ℕ}
    (ha : a < f.tangentDim c.block) (hd : d < e.valueSize) (hk : k < f.gridDim) :
    Strain.variationOf (f.operand e) site c a d k =
      (e.partials (f.leafTable φ g)).mixed k ⟨c, a⟩ d := by
  obtain ⟨D, hD⟩ := hans
  have hread := (operand_reads (fun l hl => (hleaf l hl).kind.keepsShapes) (h.leavesRead hs) he
    h.strainFree rfl hr).derivative _ D rfl (.refl _) (Request.fits_of_single rfl) hD
  rw [Strain.variationOf, Operand.entry_of_ok hD]
  exact hread.2 k hk d hd a ha

end Answers

/-- The table of a polynomial varies with the leaves as its own entries say. -/
theorem IsPolynomial.vary (h : f.IsPolynomial e) (he : f.Hosts e) (φ : ℕ → ℕ → ℝ)
    (g : ℕ → ℕ → ℕ → ℝ) (α β : Variable) :
    Partials.Vary (fun p q => e.partials ((f.moved α β p q).leafTable φ g))
      (e.partials (f.leafTable φ g)) e.valueSize α β := by
  induction e with
  | leaf slot signature =>
    obtain ⟨l, hl⟩ := he
    obtain rfl := hl.signature_eq
    have hmoved (p q : ℝ) : (f.moved α β p q).leafTable φ g slot =
        (l.moved α β p q).interpolationTable (φ slot) (g slot) := by
      apply leafTable_of_get
      rw [getElem?_moved, hl.get, Option.map_some]
    simp only [Expr.partials, hmoved, leafTable_of_get φ g hl.get]
    exact (h l hl.get).vary (φ slot) (g slot) α β
  | constant x => exact .const x 1
  | unary op a ih =>
    cases op with
    | negate => exact (ih h he).scale (-1)
    | scale s => exact (ih h he).scale s
    | map g' =>
      -- Without leaves the table is that of a number, whatever is moved.
      obtain ⟨c, hc⟩ := Expr.exists_const (e := .unary (.map g') a) h.2.strainFree h.1
      simp only [hc]
      exact .const c 1
    | strain => exact h.elim
  | binary op a b iha ihb =>
    have hA := iha h.1 he.1.1
    have hB := ihb h.2 he.1.2
    rw [← he.2] at hB
    cases op with
    | sum => exact hA.add hB
    | dot => exact hA.inner hB

/-- Where the expression has more than one component, there are no products in it, and its entries of
second order vanish. -/
theorem IsPolynomial.thrice_eq_zero (h : f.IsPolynomial e) (he : f.Hosts e)
    (hV : 2 ≤ e.valueSize) (φ : ℕ → ℕ → ℝ) (g : ℕ → ℕ → ℕ → ℝ) (k : ℕ) (α β : Variable) (i : ℕ) :
    (e.partials (f.leafTable φ g)).thrice k α β i = 0 := by
  induction e with
  | leaf slot signature =>
    obtain ⟨l, hl⟩ := he
    rw [Expr.partials, leafTable_of_get φ g hl.get]
    rfl
  | constant x => exact absurd hV (by simp [Expr.valueSize])
  | unary op a ih =>
    have hscale (h : f.IsPolynomial a) (he : f.Hosts a) (hV : 2 ≤ a.valueSize) (s : ℝ) :
        ((a.partials (f.leafTable φ g)).scale s).thrice k α β i = 0 := by
      show (a.partials (f.leafTable φ g)).thrice k α β i * s = 0
      rw [ih h he hV, zero_mul]
    cases op with
    | negate => exact hscale h he hV (-1)
    | scale s => exact hscale h he hV s
    | map g' => exact absurd hV (by simp [Expr.valueSize])
    | strain => exact h.elim
  | binary op a b iha ihb =>
    cases op with
    | sum =>
      have hV : 2 ≤ a.valueSize := hV
      show (a.partials (f.leafTable φ g)).thrice k α β i +
        (b.partials (f.leafTable φ g)).thrice k α β i = 0
      rw [iha h.1 he.1.1 hV, ihb h.2 he.1.2 (he.2 ▸ hV), add_zero]
    | dot => exact absurd hV (by simp [Expr.valueSize])

end ElementField

end ElementFields
