import ElementFields.Proofs.Splitting
import ElementFields.Proofs.Totality
import ElementFields.Proofs.Updates
import ElementFields.Proofs.VanishingAnswers

/-! A leaf as the superposition of two. The fields are pruned differently: a second derivative within
the block may be annihilated while the one in the blocks of both summands is computed from all cross
terms. It then turns out to be zero. -/
namespace ElementFields
open Scalar

variable {K : Type}

section Space

variable [Scalar K]

structure Operand.AgreesInSpace (o o' : Operand K) : Prop where
  value : ∀ site, o.value site = o'.value site
  derivative : ∀ r : Request K, r.directions.coefficients = .none → o.derivative r = o'.derivative r

variable {a a' b b' : Operand K} {r : Request K}

theorem Operand.AgreesInSpace.spatialComponents (h : a.AgreesInSpace a') :
    a.spatialComponents r = a'.spatialComponents r := by
  rw [Operand.spatialComponents, Operand.derivativeMatrix, h.derivative _ rfl]
  rfl

theorem Product.value_of_agreesInSpace (ha : a.AgreesInSpace a') (hb : b.AgreesInSpace b')
    (site : Site K) : Product.value a b site = Product.value a' b' site := by
  rw [Product.value, ha.value, hb.value]
  rfl

theorem Product.derivative_of_agreesInSpace (ha : a.AgreesInSpace a') (hb : b.AgreesInSpace b')
    (hc : r.directions.coefficients = .none) :
    Product.derivative a b r = Product.derivative a' b' r := by
  cases hs : r.directions.spatial <;> simp only [Product.derivative, Product.spatial, ha.value,
    hb.value, ha.spatialComponents, hb.spatialComponents, hs, hc]

theorem Chain.value_of_agreesInSpace (g : ScalarMap) (ha : a.AgreesInSpace a') (site : Site K) :
    Chain.value g a site = Chain.value g a' site := by
  rw [Chain.value, ha.value]
  rfl

theorem Chain.derivative_of_agreesInSpace (g : ScalarMap) (ha : a.AgreesInSpace a')
    (hc : r.directions.coefficients = .none) :
    Chain.derivative g a r = Chain.derivative g a' r := by
  cases hs : r.directions.spatial <;>
    simp only [Chain.derivative, ha.value, ha.derivative r hc, hs, hc]

variable {dim : ℕ} {reference : Site K → Outcome (Mat K)}

theorem Strain.value_of_agreesInSpace (ha : a.AgreesInSpace a') (site : Site K) :
    Strain.value dim reference a site = Strain.value dim reference a' site := by
  have hgradient (r : Request K) : displacementGradient a r = displacementGradient a' r := by
    rw [displacementGradient, displacementGradient, Operand.derivativeMatrix, ha.derivative _ rfl]
    rfl
  simp only [Strain.value, hgradient]

theorem Strain.derivative_of_agreesInSpace (ha : a.AgreesInSpace a')
    (hc : r.directions.coefficients = .none) :
    Strain.derivative dim reference a r = Strain.derivative dim reference a' r := by
  cases hs : r.directions.spatial <;>
    simp only [Strain.derivative, Strain.value_of_agreesInSpace ha, hs, hc]

end Space

/-- A linear leaf has no second derivative: either both coefficients are its own, or one is foreign. -/
theorem Expr.annihilated_leaf {m : Leaf K} (hm : m.order = .linear) (slot : ℕ) {d : Directions}
    {c₁ c₂ : Coefficient} (hd : d.coefficients = .two c₁ c₂) :
    (Expr.leaf slot m.signature : Expr K).annihilated d = true := by
  obtain ⟨hmem₁, hmem₂⟩ := Directions.mem_coefficientList_two hd
  have hforeign {c : Coefficient} (hne : m.block ≠ c.block) :
      (Expr.leaf slot m.signature : Expr K).orderIn c.block = .constant := if_neg hne
  by_cases h₁ : m.block = c₁.block
  · by_cases h₂ : m.block = c₂.block
    · have horder : (Expr.leaf slot m.signature : Expr K).orderIn c₁.block = .linear :=
        (if_pos h₁).trans hm
      rw [Expr.annihilated_two_iff hd (h₂.symm.trans h₁), horder]
      rfl
    · exact Expr.annihilated_of_constant hmem₂ (hforeign h₂)
  · exact Expr.annihilated_of_constant hmem₁ (hforeign h₁)

/-- A leaf is annihilated in foreign blocks. -/
theorem Expr.block_eq_of_not_annihilated {slot : ℕ} {signature : LeafSignature} {d : Directions}
    (hann : (Expr.leaf slot signature : Expr K).annihilated d = false) :
    ∀ c ∈ d.coefficientList, signature.block = c.block := by
  intro c hc
  by_contra hne
  exact Bool.eq_false_iff.1 hann (Expr.annihilated_of_constant hc (if_neg hne))

namespace ElementField

variable [ExactScalar K] {f f' : ElementField K} {l l₁ l₂ : Leaf K} {e e' : Expr K}

theorem agreesInSpace_of_rule
    (hvalue : ∀ site, (f'.operand e').value site = (f.operand e).value site)
    (hrule : ∀ r : Request K, r.directions ≠ .value → r.directions.coefficients = .none →
      f'.rule Expr.annihilated e' r = f.rule Expr.annihilated e r) :
    (f'.operand e').AgreesInSpace (f.operand e) := by
  refine ⟨hvalue, fun r hc => ?_⟩
  by_cases hv : r.directions = .value
  · show (f'.operandWith Expr.annihilated e').derivative r =
      (f.operandWith Expr.annihilated e).derivative r
    rw [operandWith_derivative, operandWith_derivative, if_pos hv, if_pos hv]
    exact congrArg (fun x => (do return .matrix (← x) : Outcome (Derivative K))) (hvalue r.site)
  · rw [derivative_eq_rule hv (Expr.annihilated_of_none hc),
      derivative_eq_rule hv (Expr.annihilated_of_none hc), hrule r hv hc]

/-- In space a leaf answers by its primitives. -/
theorem leafDerivative_in_space {slot : ℕ} (hl : f.leaves[slot]? = some l) {r : Request K}
    (hc : r.directions.coefficients = .none) : f.leafDerivative slot r = l.answer r := by
  rw [leafDerivative_eq hl, Directions.coefficientList, hc]
  rfl

/-- In space the sum of the summands answers what the leaf does. -/
theorem agreesInSpace_of_split {slot slot₁ slot₂ : ℕ} (hl : l.SplitsInto l₁ l₂)
    (hget : f.leaves[slot]? = some l) (h₁ : f'.leaves[slot₁]? = some l₁)
    (h₂ : f'.leaves[slot₂]? = some l₂) :
    (f'.operand (.binary .sum (.leaf slot₁ l₁.signature) (.leaf slot₂ l₂.signature))).AgreesInSpace
      (f.operand (.leaf slot l.signature)) := by
  refine agreesInSpace_of_rule (fun site => ?_) fun r hv hc => ?_
  · show (do let x ← f'.leafValue slot₁ site
             x.add (← f'.leafValue slot₂ site) : Outcome (Mat K)) = f.leafValue slot site
    rw [leafValue_eq h₁, leafValue_eq h₂, leafValue_eq hget]
    exact hl.add_value site
  · have hleaf {s : ℕ} {m : Leaf K} (hm : f'.leaves[s]? = some m) :
        (f'.operandWith Expr.annihilated (.leaf s m.signature)).derivative r = m.answer r :=
      (derivative_eq_rule hv (Expr.annihilated_of_none hc)).trans (leafDerivative_in_space hm hc)
    show (do
      let x ← (f'.operandWith Expr.annihilated (.leaf slot₁ l₁.signature)).derivative r
      x.add (← (f'.operandWith Expr.annihilated (.leaf slot₂ l₂.signature)).derivative r) :
        Outcome (Derivative K)) = f.leafDerivative slot r
    rw [hleaf h₁, hleaf h₂, leafDerivative_in_space hget hc]
    exact hl.add_answer hc

variable {a a' b b' : Expr K}

theorem agreesInSpace_strain (h : (f'.operand a').AgreesInSpace (f.operand a))
    (hG : f'.gridDim = f.gridDim) (htangents : f'.referenceTangents a' = f.referenceTangents a) :
    (f'.operand (.unary .strain a')).AgreesInSpace (f.operand (.unary .strain a)) := by
  refine agreesInSpace_of_rule (fun site => ?_) fun r _ hc => ?_
  · show Strain.value f'.gridDim (f'.referenceTangents a') (f'.operand a') site =
      Strain.value f.gridDim (f.referenceTangents a) (f.operand a) site
    rw [hG, htangents]
    exact Strain.value_of_agreesInSpace h site
  · show Strain.derivative f'.gridDim (f'.referenceTangents a') (f'.operand a') r =
      Strain.derivative f.gridDim (f.referenceTangents a) (f.operand a) r
    rw [hG, htangents]
    exact Strain.derivative_of_agreesInSpace h hc

theorem agreesInSpace_sum (ha : (f'.operand a').AgreesInSpace (f.operand a))
    (hb : (f'.operand b').AgreesInSpace (f.operand b)) :
    (f'.operand (.binary .sum a' b')).AgreesInSpace (f.operand (.binary .sum a b)) := by
  refine agreesInSpace_of_rule (fun site => ?_) fun r _ hc => ?_
  · show (do let x ← (f'.operand a').value site
             x.add (← (f'.operand b').value site) : Outcome (Mat K)) =
      do let x ← (f.operand a).value site
         x.add (← (f.operand b).value site)
    rw [ha.value, hb.value]
  · show (do let x ← (f'.operand a').derivative r
             x.add (← (f'.operand b').derivative r) : Outcome (Derivative K)) =
      do let x ← (f.operand a).derivative r
         x.add (← (f.operand b).derivative r)
    rw [ha.derivative r hc, hb.derivative r hc]

/-- The values and the derivatives in space of a split expression are those of the original one. -/
theorem agreesInSpace_of_splits (h : e.Splits f.leaves f'.leaves l l₁ l₂ e')
    (hl : l.SplitsInto l₁ l₂) (hG : f'.gridDim = f.gridDim) :
    (f'.operand e').AgreesInSpace (f.operand e) := by
  -- Without coefficients nothing is pruned, so that the rules are compared as they are.
  induction h with
  | leaf h =>
    cases h with
    | kept hm hm' _ =>
      refine agreesInSpace_of_rule (fun site => ?_) fun r _ hc => ?_
      · show f'.leafValue _ site = f.leafValue _ site
        rw [leafValue_eq hm, leafValue_eq hm']
      · show f'.leafDerivative _ r = f.leafDerivative _ r
        rw [leafDerivative_in_space hm hc, leafDerivative_in_space hm' hc]
    | split hget h₁ h₂ => exact agreesInSpace_of_split hl hget h₁ h₂
  | constant x =>
    refine agreesInSpace_of_rule (fun site => rfl) fun r _ hc => ?_
    show f'.zeroDerivative 1 r.directions = f.zeroDerivative 1 r.directions
    rcases hs : r.directions.spatial with _ | _ | _ <;>
      simp only [zeroDerivative, hs, hc, hG]
  | @unary op a a' ha ih =>
    have hvalue (x : K) (site : Site K) :
        (do return (← (f'.operand a').value site).scale x : Outcome (Mat K)) =
          do return (← (f.operand a).value site).scale x := by rw [ih.value]
    have hderivative (x : K) {r : Request K} (hc : r.directions.coefficients = .none) :
        (do return (← (f'.operand a').derivative r).scale x : Outcome (Derivative K)) =
          do return (← (f.operand a).derivative r).scale x := by rw [ih.derivative r hc]
    cases op with
    | negate => exact agreesInSpace_of_rule (hvalue (-1)) fun r _ hc => hderivative (-1) hc
    | scale factor => exact agreesInSpace_of_rule (hvalue factor) fun r _ hc => hderivative factor hc
    | map g =>
      exact agreesInSpace_of_rule (fun site => Chain.value_of_agreesInSpace g ih site)
        fun r _ hc => Chain.derivative_of_agreesInSpace g ih hc
    | strain => exact agreesInSpace_strain ih hG (referenceTangents_of_splits ha hl hG)
  | @binary op a a' b b' ha hb iha ihb =>
    cases op with
    | sum => exact agreesInSpace_sum iha ihb
    | dot =>
      exact agreesInSpace_of_rule (fun site => Product.value_of_agreesInSpace iha ihb site)
        fun r _ hc => Product.derivative_of_agreesInSpace iha ihb hc

def Crosses (l₁ l₂ : Leaf K) (d : Directions) : Prop :=
  ∃ c₁ c₂, d.coefficients = .two c₁ c₂ ∧ (c₁.block = l₁.block ∨ c₁.block = l₂.block) ∧
    (c₂.block = l₁.block ∨ c₂.block = l₂.block)

omit [ExactScalar K] in
theorem not_crosses_value : ¬Crosses l₁ l₂ .value := fun ⟨_, _, hd, _⟩ => nomatch hd

def ConstantAcross (l₁ l₂ : Leaf K) (e : Expr K) : Prop :=
  ∀ block, block = l₁.block ∨ block = l₂.block → e.orderIn block = .constant

namespace ConstantAcross

variable (h : ConstantAcross l₁ l₂ e)
include h

/-- An expression that is constant in the blocks does not vary with their coefficients. -/
theorem still {r : Request K} (hr : f.Admits r.directions) {c : Coefficient}
    (hmem : c ∈ r.directions.coefficientList) (hc : c.block = l₁.block ∨ c.block = l₂.block) :
    (f.operand e).Still r c := by
  refine VanishesOn.still (.of_skipped (fun hv => nomatch hv) fun d hd => ?_) hr hmem
  exact Expr.annihilated_of_constant (Directions.mem_coefficientList hd) (h c.block hc)

theorem vanishesOn : f.VanishesOn Expr.annihilated (Crosses l₁ l₂) e := by
  refine .of_skipped not_crosses_value ?_
  rintro d ⟨c₁, c₂, hd, hc₁, -⟩
  exact Expr.annihilated_of_constant (Directions.mem_coefficientList_two hd).1 (h c₁.block hc₁)

end ConstantAcross

theorem vanishesOn_leaf {m : Leaf K} (hm : m.order = .linear) (slot : ℕ) :
    f.VanishesOn Expr.annihilated (Crosses l₁ l₂) (.leaf slot m.signature) := by
  refine .of_skipped not_crosses_value ?_
  rintro d ⟨c₁, c₂, hd, -, -⟩
  exact Expr.annihilated_leaf hm slot hd

/-- In a product with a factor that is constant, no term takes a derivative of both of them. -/
theorem vanishesOn_dot {a b : Expr K} (hshape : ∀ m ∈ f.reachableLeaves, m.KeepsShapes)
    (he : f.Hosts (.binary .dot a b)) (ha : f.VanishesOn Expr.annihilated (Crosses l₁ l₂) a)
    (hb : f.VanishesOn Expr.annihilated (Crosses l₁ l₂) b)
    (hconst : ConstantAcross l₁ l₂ a ∨ ConstantAcross l₁ l₂ b) :
    f.VanishesOn Expr.annihilated (Crosses l₁ l₂) (.binary .dot a b) := by
  obtain ⟨⟨hea, heb⟩, hsize⟩ := he
  refine .of_rule not_crosses_value ?_
  rintro r D hr hfit ⟨c₁, c₂, hd, hc₁, hc₂⟩ - hD
  have hfa := operandWith_formed hshape Expr.annihilated hea hr
  have hfb := operandWith_formed hshape Expr.annihilated heb hr
  have hcross (d : Directions) (hsame : d.coefficients = r.directions.coefficients) :
      Crosses l₁ l₂ d := ⟨c₁, c₂, hsame.trans hd, hc₁, hc₂⟩
  have hflata := (ha.mono hcross).flat hr
  have hflatb := (hb.mono hcross).flat hr
  rw [← hsize] at hfb hflatb
  obtain ⟨hmem₁, hmem₂⟩ := Directions.mem_coefficientList_two hd
  have hab : (f.operand a).Still r c₁ ∨ (f.operand b).Still r c₂ :=
    hconst.imp (fun h => h.still hr hmem₁ hc₁) fun h => h.still hr hmem₂ hc₂
  have hba : (f.operand b).Still r c₁ ∨ (f.operand a).Still r c₂ :=
    hconst.symm.imp (fun h => h.still hr hmem₁ hc₁) fun h => h.still hr hmem₂ hc₂
  exact Product.derivative_entry_eq_zero_of_two hfa hfb hd hfit ⟨hflata, hflatb⟩ hab hba hD

theorem constantAcross_of_splits (h : e.Splits f.leaves f'.leaves l l₁ l₂ e')
    (hl : l.SplitsInto l₁ l₂) (hconst : e.orderIn l.block = .constant) :
    ConstantAcross l₁ l₂ e' := by
  intro block hblock
  rw [h.orderIn_eq hl, hl.merging_eq_iff.2 hblock, hconst]

/-- What is at most linear in the block of the leaf has no second derivative in the blocks of the
summands, though there the orders do not always say so. -/
theorem vanishesOn_of_splits (hshape : ∀ m ∈ f'.reachableLeaves, m.KeepsShapes)
    (h : e.Splits f.leaves f'.leaves l l₁ l₂ e') (hl : l.SplitsInto l₁ l₂) (he' : f'.Hosts e')
    (hlinear : (e.orderIn l.block).annihilatedBy 2 = true) :
    f'.VanishesOn Expr.annihilated (Crosses l₁ l₂) e' := by
  induction h with
  | leaf h =>
    cases h with
    | kept _ _ hblock =>
      apply ConstantAcross.vanishesOn
      intro block hor
      exact if_neg fun heq => hor.elim (fun h₁ => hblock.1 (heq.trans h₁))
        fun h₂ => hblock.2 (heq.trans h₂)
    | @split slot₁ slot₂ _ _ _ =>
      exact .sum hshape he' (vanishesOn_leaf hl.left.isLinear.order slot₁)
        (vanishesOn_leaf hl.right.isLinear.order slot₂) not_crosses_value
  | constant x => exact ConstantAcross.vanishesOn fun _ _ => rfl
  | @unary op a a' ha ih =>
    -- A node that is not a multiple is at most linear only if its operand is constant.
    have hconstant {result : PolynomialOrder} (hresult : result.annihilatedBy 2 = false)
        (hlinear : ((a.orderIn l.block).unlessConstant result).annihilatedBy 2 = true) :
        ConstantAcross l₁ l₂ a' :=
      constantAcross_of_splits ha hl (PolynomialOrder.constant_of_unlessConstant hresult hlinear)
    cases op with
    | negate => exact (ih he' hlinear).scaled not_crosses_value rfl (-1) fun _ => rfl
    | scale factor => exact (ih he' hlinear).scaled not_crosses_value rfl factor fun _ => rfl
    | map _ | strain =>
      refine ConstantAcross.vanishesOn fun block hblock => ?_
      rw [Expr.orderIn, hconstant rfl hlinear block hblock]
      rfl
  | @binary op a a' b b' ha hb iha ihb =>
    cases op with
    | sum =>
      obtain ⟨hlineara, hlinearb⟩ := PolynomialOrder.annihilatedBy_of_max hlinear
      exact .sum hshape he' (iha he'.1.1 hlineara) (ihb he'.1.2 hlinearb) not_crosses_value
    | dot =>
      obtain ⟨⟨hlineara, hlinearb⟩, hconst⟩ := PolynomialOrder.linear_of_mul hlinear
      exact vanishesOn_dot hshape he' (iha he'.1.1 hlineara) (ihb he'.1.2 hlinearb)
        (hconst.imp (constantAcross_of_splits ha hl) (constantAcross_of_splits hb hl))

/-- In a foreign block a leaf answers by zeros. -/
theorem derivative_foreign {s : ℕ} {m : Leaf K} {r : Request K} (hr : f.Admits r.directions)
    {c : Coefficient} (hc : r.directions.coefficients = .single c) (hforeign : c.block ≠ m.block) :
    (f.operand (.leaf s m.signature)).derivative r =
      .ok (r.directions.form m.valueSize f.gridDim f.tangentDim).zero := by
  apply derivative_of_annihilated hr
  rw [Expr.annihilated_single_iff hc]
  exact if_neg (Ne.symm hforeign)

namespace Splits

variable (h : f.Splits f' l l₁ l₂)
include h

/-- Where the derivative of the original expression is annihilated, that of the split one is zero. -/
theorem entry_eq_zero (hsplit : e.Splits f.leaves f'.leaves l l₁ l₂ e') (he' : f'.Hosts e')
    {r : Request K} (hr : f'.Admits r.directions) (hfit : r.Fits e'.valueSize f'.gridDim)
    (hann : e.annihilated (r.directions.renamed (l.merging l₁ l₂)) = true) (k i j : ℕ) :
    (f'.operand e').entry r k i j = 0 := by
  have horder := hsplit.orderIn_eq h.leaf
  -- The renaming may have put two coefficients into one block, where the order counts them together.
  rcases Expr.annihilated_of_renamed (fun c _ => horder c.block) hann with
    hann' | ⟨c₁, c₂, hd, hb, hlinear⟩
  · exact entry_eq_zero_of_annihilated hr hann' k i j
  · by_cases hblock : c₁.block = l₁.block ∨ c₁.block = l₂.block
    · rw [h.leaf.merging_eq_iff.2 hblock] at hb hlinear
      exact vanishesOn_of_splits h.keepsShapes' hsplit h.leaf he' hlinear r hr hfit
        ⟨c₁, c₂, hd, hblock, h.leaf.merging_eq_iff.1 hb⟩ k i j
    · -- In a block apart from the summands the orders are those of the original expression.
      obtain ⟨hne₁, hne₂⟩ := not_or.1 hblock
      rw [Leaf.merging_of_ne ⟨hne₁, hne₂⟩] at hb
      have hsame : c₂.block = c₁.block := ((h.leaf.eq_merging_iff ⟨hne₁, hne₂⟩).1 hb.symm).symm
      apply entry_eq_zero_of_annihilated hr
      rw [Expr.annihilated_two_iff hd hsame, horder]
      exact hlinear

/-- If the rule of the node at the top answers no more in the split expression, then this answers no
more than the original one. -/
theorem refinedBy_of_rule (hsplit : e.Splits f.leaves f'.leaves l l₁ l₂ e') (he' : f'.Hosts e')
    {d : Directions} (hd : f'.Admits d)
    (hrule : ∀ r : Request K, f'.Admits r.directions → r.Fits e'.valueSize f'.gridDim →
      r.directions.coefficients ≠ .none →
      e.annihilated (r.directions.renamed (l.merging l₁ l₂)) = false →
      Refines (f'.rule Expr.annihilated e' r)
        (f.rule Expr.annihilated e (r.renamed (l.merging l₁ l₂)))) :
    (f'.operand e').RefinedBy ((f.operand e).renamed (l.merging l₁ l₂)) e'.valueSize f'.gridDim d := by
  have hspace := agreesInSpace_of_splits hsplit h.leaf h.gridDim_eq
  refine ⟨fun site m hm => (hspace.value site).symm.trans hm, fun r hdrawn hfit D hD => ?_⟩
  have hr := hd.drawnFrom hdrawn
  show (f.operand e).derivative (r.renamed (l.merging l₁ l₂)) = .ok D
  by_cases hc : r.directions.coefficients = .none
  · have hself : r.renamed (l.merging l₁ l₂) = r := by
      apply Request.renamed_eq_self
      rw [Directions.coefficientList, hc]
      exact fun c hmem => absurd hmem List.not_mem_nil
    rw [hself, ← hspace.derivative r hc, hD]
  have hv : r.directions ≠ .value := by
    intro hv
    rw [hv] at hc
    exact hc rfl
  have hv' : (r.renamed (l.merging l₁ l₂)).directions ≠ .value :=
    fun heq => hv (Directions.renamed_eq_value_iff.1 heq)
  by_cases hann : e.annihilated (r.directions.renamed (l.merging l₁ l₂)) = true
  · -- The original expression is answered by zeros, and the split one computes them.
    have hF := (operandWith_formed h.keepsShapes' Expr.annihilated he' hr).derivative r D
      (Directions.DrawnFrom.refl _) hfit hD
    have hzero : D = (r.directions.form e'.valueSize f'.gridDim f'.tangentDim).zero := by
      refine Derivative.ext_of_hasForm hF (Form.hasForm_zero _) fun k i j => ?_
      rw [Form.entry_zero, ← h.entry_eq_zero hsplit he' hr hfit hann k i j, Operand.entry_of_ok hD]
    rw [derivative_of_annihilated (h.admits hr) hann, Request.directions_renamed, h.form_eq hr, hzero,
      hsplit.valueSize_eq h.leaf]
  · have hann := Bool.eq_false_iff.2 hann
    have hann' : e'.annihilated r.directions = false := by
      rw [Bool.eq_false_iff] at hann ⊢
      exact fun h' => hann (Expr.annihilated_renamed (fun c _ => hsplit.orderIn_eq h.leaf c.block) h')
    rw [derivative_eq_rule hv hann'] at hD
    rw [derivative_eq_rule hv' hann]
    exact hrule r hr hfit hc hann D hD

/-- A leaf that is kept answers as before, as the blocks of other leaves stay apart from its own. -/
theorem leafDerivative_kept {slot slot' : ℕ} {m : Leaf K} (hm : f.leaves[slot]? = some m)
    (hm' : f'.leaves[slot']? = some m) (hblock : m.block ≠ l₁.block ∧ m.block ≠ l₂.block)
    {r : Request K} (hann : (Expr.leaf slot m.signature : Expr K).annihilated
      (r.directions.renamed (l.merging l₁ l₂)) = false) :
    f'.leafDerivative slot' r = f.leafDerivative slot (r.renamed (l.merging l₁ l₂)) := by
  have hown : ∀ c ∈ r.directions.coefficientList, m.block = c.block := by
    intro c hc
    exact (h.leaf.eq_merging_iff hblock).1
      (Expr.block_eq_of_not_annihilated hann _ (Directions.mem_renamed hc))
  have hself : r.renamed (l.merging l₁ l₂) = r :=
    Request.renamed_eq_self fun c hc => Leaf.merging_of_ne (hown c hc ▸ hblock)
  have hall : ¬(r.directions.coefficientList.any fun c => c.block ≠ m.block) = true := by
    simpa using fun c hc => (hown c hc).symm
  rw [hself, leafDerivative_eq hm', leafDerivative_eq hm, if_neg hall, if_neg hall]

/-- In its own block a summand answers as the leaf does in the block that this is taken for. -/
theorem derivative_summand {slot s : ℕ} {m : Leaf K} (hget : f.leaves[slot]? = some l)
    (hm : f'.leaves[s]? = some m) (hparallel : l.Parallel m) {r : Request K} {c : Coefficient}
    (hc : r.directions.coefficients = .single c) (hown : c.block = m.block)
    (hmerge : l.merging l₁ l₂ c.block = l.block) :
    (f'.operand (.leaf s m.signature)).derivative r =
      f.leafDerivative slot (r.renamed (l.merging l₁ l₂)) := by
  have hlist : r.directions.coefficientList = [c] := by
    rw [Directions.coefficientList, hc]
    rfl
  have hlist' : (r.renamed (l.merging l₁ l₂)).directions.coefficientList =
      [c.renamed (l.merging l₁ l₂)] := by
    rw [Request.directions_renamed, Directions.coefficientList_renamed, hlist]
    rfl
  have hmerge : (c.renamed (l.merging l₁ l₂)).block = l.block := hmerge
  have hv : r.directions ≠ .value := by
    intro hv
    rw [hv] at hc
    cases hc
  have hann : (Expr.leaf s m.signature : Expr K).annihilated r.directions = false := by
    have horder : (Expr.leaf s m.signature : Expr K).orderIn c.block = .linear :=
      (if_pos hown.symm).trans hparallel.isLinear.order
    rw [Bool.eq_false_iff, ne_eq, Expr.annihilated_single_iff hc, horder]
    exact fun hconst => by cases hconst
  rw [derivative_eq_rule hv hann]
  show f'.leafDerivative s r = _
  rw [leafDerivative_eq hm, leafDerivative_eq hget, hlist, hlist', if_neg (by simpa using hown),
    if_neg (by simpa using hmerge)]
  exact hparallel.answer_single h.leaf.isLinear hc _

/-- Of the two summands, the owner of the coefficient answers as the leaf, and the other one by zeros.
-/
theorem sum_refines_leaf {slot slot₁ slot₂ : ℕ} (hget : f.leaves[slot]? = some l)
    (h₁ : f'.leaves[slot₁]? = some l₁) (h₂ : f'.leaves[slot₂]? = some l₂)
    (he' : f'.Hosts (.binary .sum (.leaf slot₁ l₁.signature) (.leaf slot₂ l₂.signature)))
    {r : Request K} (hr : f'.Admits r.directions) (hc : r.directions.coefficients ≠ .none)
    (hann : (Expr.leaf slot l.signature : Expr K).annihilated
      (r.directions.renamed (l.merging l₁ l₂)) = false) :
    Refines
      (do let x ← (f'.operand (.leaf slot₁ l₁.signature)).derivative r
          x.add (← (f'.operand (.leaf slot₂ l₂.signature)).derivative r) : Outcome (Derivative K))
      (f.leafDerivative slot (r.renamed (l.merging l₁ l₂))) := by
  intro D hD
  obtain ⟨x, hx, hD⟩ := bind_eq_ok_iff.1 hD
  obtain ⟨y, hy, hD⟩ := bind_eq_ok_iff.1 hD
  have hadd := lift_eq_ok_iff.1 hD
  rcases hd : r.directions.coefficients with _ | c | ⟨c₁, c₂⟩
  · exact absurd hd hc
  swap
  · have htwo := Directions.renamed_two (σ := l.merging l₁ l₂) hd
    exact absurd (Expr.annihilated_leaf h.leaf.isLinear.order slot htwo) (Bool.eq_false_iff.1 hann)
  have hfit {V : ℕ} : r.Fits V f'.gridDim := Request.fits_of_single hd
  have hmerge : l.merging l₁ l₂ c.block = l.block := by
    have hmem := Directions.mem_coefficientList (Directions.renamed_single (σ := l.merging l₁ l₂) hd)
    exact (Expr.block_eq_of_not_annihilated hann _ hmem).symm
  have hsize : l₁.valueSize = l₂.valueSize := h.leaf.left.valueSize.trans h.leaf.right.valueSize.symm
  have hform {s : ℕ} {m : Leaf K} (hm : f'.Hosts (.leaf s m.signature)) {z : Derivative K}
      (hz : (f'.operand (.leaf s m.signature)).derivative r = .ok z) :
      z.HasForm (r.directions.form m.valueSize f'.gridDim f'.tangentDim) :=
    (operandWith_formed h.keepsShapes' Expr.annihilated hm hr).derivative r z
      (Directions.DrawnFrom.refl _) hfit hz
  rcases h.leaf.merging_eq_iff.1 hmerge with hown | hown
  · have hforeign : c.block ≠ l₂.block := hown ▸ h.leaf.apart
    rw [derivative_foreign hr hd hforeign, ← hsize] at hy
    obtain rfl := Except.ok.inj hy
    obtain rfl := Derivative.eq_of_add_zero (hform he'.1.1 hx) hadd
    rw [← h.derivative_summand hget h₁ h.leaf.left hd hown hmerge, hx]
  · have hforeign : c.block ≠ l₁.block := hown ▸ h.leaf.apart.symm
    rw [derivative_foreign hr hd hforeign, hsize] at hx
    obtain rfl := Except.ok.inj hx
    obtain rfl := Derivative.eq_of_zero_add (hform he'.1.2 hy) hadd
    rw [← h.derivative_summand hget h₂ h.leaf.right hd hown hmerge, hy]

/-- What a split expression answers is what the original one answers in the blocks that those of the
summands are taken for. -/
theorem operand_refines (hsplit : e.Splits f.leaves f'.leaves l l₁ l₂ e') (he : f.Hosts e)
    (he' : f'.Hosts e') {d : Directions} (hd : f'.Admits d) :
    (f'.operand e').RefinedBy ((f.operand e).renamed (l.merging l₁ l₂)) e'.valueSize f'.gridDim d := by
  -- The induction is on how the expression is split. Only a leaf in place of which there is a sum is
  -- compared with another rule; all other nodes have the same rule on both sides.
  induction hsplit generalizing d with
  | leaf hleaf =>
    refine h.refinedBy_of_rule (.leaf hleaf) he' hd fun r hr hfit hc hann => ?_
    cases hleaf with
    | kept hm hm' hblock =>
      intro D hD
      exact (h.leafDerivative_kept hm hm' hblock hann).symm.trans hD
    | split hget h₁ h₂ => exact h.sum_refines_leaf hget h₁ h₂ he' hr hc hann
  | constant x =>
    refine h.refinedBy_of_rule (.constant x) he' hd fun r hr _ hc hann => ?_
    obtain ⟨_, -, hmem⟩ := Directions.exists_mem_renamed (σ := l.merging l₁ l₂) hc
    exact absurd (Expr.annihilated_of_constant hmem rfl) (Bool.eq_false_iff.1 hann)
  | @unary op a a' ha ih =>
    have hsplit : (Expr.unary op a).Splits f.leaves f'.leaves l l₁ l₂ (.unary op a') := .unary op ha
    cases op with
    | negate | scale =>
      refine h.refinedBy_of_rule hsplit he' hd fun r hr hfit _ _ => ?_
      exact Refines.bind ((ih he he' hr).derivative r (Directions.DrawnFrom.refl _) hfit)
        fun _ _ => Refines.rfl
    | map g =>
      refine h.refinedBy_of_rule hsplit he' hd fun r hr hfit _ _ => ?_
      have ih := ih he.1 he'.1 hr
      rw [he'.2] at ih
      exact (Chain.derivative_refines ih hfit).trans (Chain.derivative_renamed g _ r)
    | strain =>
      refine h.refinedBy_of_rule hsplit he' hd fun r hr hfit _ _ => ?_
      have ih := ih he.1 he'.1 hr
      rw [he'.2.1.1] at ih
      have htangents := referenceTangents_of_splits ha h.leaf h.gridDim_eq
      show Refines (Strain.derivative f'.gridDim (f'.referenceTangents a') (f'.operand a') r)
        (Strain.derivative f.gridDim (f.referenceTangents a) (f.operand a)
          (r.renamed (l.merging l₁ l₂)))
      rw [← htangents, ← h.gridDim_eq]
      exact (Strain.derivative_refines ih).trans (Strain.derivative_renamed _ _ _ r)
  | @binary op a a' b b' ha hb iha ihb =>
    have hsplit : (Expr.binary op a b).Splits f.leaves f'.leaves l l₁ l₂ (.binary op a' b') :=
      .binary op ha hb
    refine h.refinedBy_of_rule hsplit he' hd fun r hr hfit _ _ => ?_
    have iha := iha he.1.1 he'.1.1 hr
    have ihb := ihb he.1.2 he'.1.2 hr
    rw [← he'.2] at ihb
    cases op with
    | sum =>
      have hrefl := Directions.DrawnFrom.refl r.directions
      refine Refines.bind (iha.derivative r hrefl hfit) fun _ _ => ?_
      exact Refines.bind (ihb.derivative r hrefl hfit) fun _ _ => Refines.rfl
    | dot =>
      have hfa := operandWith_formed h.keepsShapes' Expr.annihilated he'.1.1 hr
      have hfb := operandWith_formed h.keepsShapes' Expr.annihilated he'.1.2 hr
      rw [← he'.2] at hfb
      exact (Product.derivative_refines iha ihb hfa hfb hfit).trans (Product.derivative_renamed _ _ r)

end Splits

/-- Additive splitting of a displacement. When a linear leaf is split into the sum of two, one of which
keeps its block while the other one has a block of its own, then the values of the field stay as they
are; and whatever the second field answers to a request in the blocks of the summands, the first one
answers to the request with the block of the leaf in place of both. So any of the occurrences of this
block in a request may be replaced by the new block, one of two as well as both. -/
theorem split_displacement (h : f.Splits f' l l₁ l₂) :
    (∀ site, f'.evaluate site = f.evaluate site) ∧
      ∀ r D, f'.evaluateRequest r = .ok D →
        f.evaluateRequest (r.renamed (l.merging l₁ l₂)) = .ok D := by
  constructor
  · intro site
    have hspace := agreesInSpace_of_splits h.expr h.leaf h.gridDim_eq
    rw [evaluate, evaluate, hspace.value]
  · intro r D hD
    obtain ⟨⟨hr, hfit⟩, hD⟩ := evaluateRequest_eq_ok_iff.1 hD
    have hfit' : r.Fits f'.expr.valueSize f'.gridDim := ElementField.valueSize_eq f' ▸ hfit
    have hrefines := h.operand_refines h.expr h.built.hosts h.built'.hosts hr
    rw [h.valueSize_eq, h.gridDim_eq] at hfit
    exact evaluateRequest_eq_ok_iff.2 ⟨⟨h.admits hr, hfit.renamed⟩,
      hrefines.derivative r (Directions.DrawnFrom.refl _) hfit' D hD⟩

def stretchedTwice {K : Type} [Scalar K] (x y z w : K) : ElementField K where
  leaves := #[.onEdge ⟨0⟩ x y, .onEdge ⟨1⟩ z w]
  nodes := #[.leaf 0, .leaf 1, .binary .sum 0 1, .unary .strain 2]
  root := 3
  top :=
    .unary .strain 2 (.binary .sum 0 1 (.leaf 0 (Leaf.onEdge ⟨0⟩ x y).signature)
      (.leaf 1 (Leaf.onEdge ⟨1⟩ z w).signature))
  slots := [0, 1]
  blocks := [{ block := ⟨0⟩, correctionSize := 1, numCoefficients := 2 },
    { block := ⟨1⟩, correctionSize := 1, numCoefficients := 2 }]

theorem built_stretchedTwice {K : Type} [Scalar K] (x y z w : K) : (stretchedTwice x y z w).Built := by
  let leaves : Array (Leaf K) := #[.onEdge ⟨0⟩ x y, .onEdge ⟨1⟩ z w]
  let u : Entry K := .leaf 0 (Leaf.onEdge ⟨0⟩ x y).signature
  let v : Entry K := .leaf 1 (Leaf.onEdge ⟨1⟩ z w).signature
  have hsum : Builder.Reachable { leaves, entries := #[u, v, .binary .sum 0 1 u v] } :=
    (Builder.reachable_pair (.onEdge ⟨0⟩ x y) (.onEdge ⟨1⟩ z w)).step (.sum 0 1)
  have hstrain : Builder.Reachable { leaves, entries := #[u, v, .binary .sum 0 1 u v,
      .unary .strain 2 (.binary .sum 0 1 u v)] } := hsum.step (.strain 2)
  exact .build hstrain (build_eq_of_sorted rfl ⟨rfl, rfl⟩ rfl
    (List.pairwise_pair.2 (Nat.zero_le 1)) rfl (List.pairwise_pair.2 (Nat.zero_le 1)))

theorem splitsInto_onEdge (x y z w : K) :
    (Leaf.onEdge ⟨0⟩ (x + z) (y + w)).SplitsInto (.onEdge ⟨0⟩ x y) (.onEdge ⟨1⟩ z w) := by
  have hlinear (block : BlockId) (x y : K) : (Leaf.onEdge block x y).IsLinear :=
    (Leaf.standard_onEdge block x y).isLinear rfl
  refine ⟨hlinear _ _ _, ⟨hlinear _ _ _, rfl, rfl, rfl, rfl⟩, ⟨hlinear _ _ _, rfl, rfl, rfl, rfl⟩, ?_,
    Or.inl rfl, fun heq => Nat.zero_ne_one (congrArg BlockId.index heq)⟩
  intro k i
  match k, i with
  | 0, 0 => rfl
  | 0, 1 => rfl
  | k + 1, 0 | k + 1, 1 | k, i + 2 => exact (add_zero 0).symm

theorem splits_stretched (x y z w : K) : (stretched (x + z) (y + w)).Splits (stretchedTwice x y z w)
    (.onEdge ⟨0⟩ (x + z) (y + w)) (.onEdge ⟨0⟩ x y) (.onEdge ⟨1⟩ z w) := by
  refine ⟨built_stretched _ _, built_stretchedTwice x y z w, splitsInto_onEdge x y z w, ?_, ?_⟩
  · exact .unary .strain (.leaf (.split rfl rfl rfl))
  · intro m hm
    have hmem : m ∈ [Leaf.onEdge ⟨0⟩ (x + z) (y + w)] := hm
    obtain rfl := List.mem_singleton.1 hmem
    exact (Leaf.standard_onEdge _ _ _).kind.keepsShapes

/-- The second derivative of the strain of a sum, with respect to a coefficient of each summand. -/
theorem split_displacement_stretched :
    let f : ElementField ℝ := stretched (1 + 2) (1 + 3)
    let f' : ElementField ℝ := stretchedTwice 1 1 2 3
    let site : Site ℝ := { point := .position #[0], transform := .referenceElement }
    f.Splits f' (.onEdge ⟨0⟩ (1 + 2) (1 + 3)) (.onEdge ⟨0⟩ 1 1) (.onEdge ⟨1⟩ 2 3) ∧
      f'.evaluate site = f.evaluate site ∧
      ∃ D, f'.evaluateRequest (secondRequest site ⟨⟨0⟩, 0⟩ ⟨⟨1⟩, 1⟩ (.scalar 1)) = .ok D ∧
        f.evaluateRequest (secondRequest site ⟨⟨0⟩, 0⟩ ⟨⟨0⟩, 1⟩ (.scalar 1)) = .ok D := by
  intro f f' site
  have h : f.Splits f' (.onEdge ⟨0⟩ (1 + 2) (1 + 3)) (.onEdge ⟨0⟩ 1 1) (.onEdge ⟨1⟩ 2 3) :=
    splits_stretched 1 1 2 3
  obtain ⟨hvalue, hrequest⟩ := split_displacement h
  obtain ⟨D, hD⟩ : ∃ D,
      f'.evaluateRequest (secondRequest site ⟨⟨0⟩, 0⟩ ⟨⟨1⟩, 1⟩ (.scalar 1)) = .ok D := ⟨_, rfl⟩
  exact ⟨h, hvalue site, D, hD, hrequest _ D hD⟩

end ElementField

end ElementFields
