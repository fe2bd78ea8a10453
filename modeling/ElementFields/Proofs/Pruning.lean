import ElementFields.Proofs.RealScalar
import ElementFields.Proofs.LeafShapes
import ElementFields.Proofs.Refinement
import ElementFields.Proofs.VanishingAnswers

namespace ElementFields
open Scalar

variable {K : Type}

theorem Expr.annihilated_congr {e : Expr K} {d d' : Directions}
    (h : d'.coefficients = d.coefficients) : e.annihilated d' = e.annihilated d := by
  rw [annihilated, annihilated, Directions.coefficientList, h]
  refine congrArg _ (funext fun c => ?_)
  rw [Directions.coefficientOrderIn, Directions.coefficientList, h]
  rfl

namespace ElementField

variable [ExactScalar K] {f : ElementField K}

/-- The operand that an expression stands for, with every derivative computed in full. -/
def unpruned (f : ElementField K) : Expr K → Operand K := f.operandWith fun _ _ => false

def VanishesWhereAnnihilated (f : ElementField K) (e : Expr K) : Prop :=
  ∀ r : Request K, f.Admits r.directions → r.Fits e.valueSize f.gridDim →
    e.annihilated r.directions = true → ∀ k i j, (f.unpruned e).entry r k i j = 0

namespace VanishesWhereAnnihilated

variable {e : Expr K} {r : Request K} (he : f.VanishesWhereAnnihilated e)
  (hr : f.Admits r.directions)
include he

theorem vanishesOn {P : Directions → Prop} (hP : ∀ d, P d → e.annihilated d = true) :
    f.VanishesOn (fun _ _ => false) P e :=
  fun r hr hfit hd => he r hr hfit (hP r.directions hd)

include hr

/-- A part that is constant in the block of a coefficient does not vary with it. -/
theorem still {c : Coefficient} (hmem : c ∈ r.directions.coefficientList)
    (hc : e.orderIn c.block = .constant) : (f.unpruned e).Still r c :=
  (he.vanishesOn fun _ hd =>
    Expr.annihilated_of_constant (Directions.mem_coefficientList hd) hc).still hr hmem

theorem flat (hann : e.annihilated r.directions = true) :
    (f.unpruned e).Flat e.valueSize f.gridDim r :=
  (he.vanishesOn fun _ hd => (Expr.annihilated_congr hd).trans hann).flat hr

end VanishesWhereAnnihilated

/-- It is enough that the rule of the node at the top answers zero. -/
theorem vanishes_of_rule {e : Expr K}
    (h : ∀ (r : Request K) D, f.Admits r.directions → r.Fits e.valueSize f.gridDim →
      e.annihilated r.directions = true → f.rule (fun _ _ => false) e r = .ok D →
      ∀ k i j, D.entry k i j = 0) : f.VanishesWhereAnnihilated e := by
  apply VanishesOn.of_rule (P := fun d => e.annihilated d = true)
  · exact fun hv => nomatch hv
  · intro r D hr hfit hann _
    exact h r D hr hfit hann

section Pruning

variable (hshape : ∀ l ∈ f.reachableLeaves, l.KeepsShapes)
  (hvanish : ∀ l ∈ f.reachableLeaves, l.VanishesAboveOrder)
include hshape hvanish

omit hshape in
theorem leaf_vanishes {slot : ℕ} {signature : LeafSignature} {l : Leaf K}
    (hl : f.HostsLeaf slot signature l) :
    f.VanishesWhereAnnihilated (.leaf slot signature) := by
  refine vanishes_of_rule fun r D hr hfit hann h => ?_
  obtain rfl := hl.signature_eq
  have h : f.leafDerivative slot r = .ok D := h
  rw [leafDerivative_eq hl.get] at h
  split at h
  · rw [zeroDerivative_eq hr] at h
    cases h
    exact Form.entry_zero _
  · rename_i hown
    have hown : ∀ c ∈ r.directions.coefficientList, c.block = l.block := by
      simpa using hown
    -- All coefficients are of the block of the leaf, so they all count against its order.
    refine hvanish l hl.mem r D (hl.accepts hr hown hfit) ?_ h
    obtain ⟨c, hc, hann⟩ := Expr.annihilated_iff.1 hann
    have horder : (Expr.leaf slot l.signature : Expr K).orderIn c.block = l.order :=
      if_pos (hown c hc).symm
    have hcount : r.directions.coefficientOrderIn c.block =
        r.directions.coefficientList.length := by
      rw [Directions.coefficientOrderIn, List.filter_eq_self.2]
      intro c' hc'
      rw [hown c' hc', hown c hc]
      exact decide_eq_true rfl
    rwa [horder, hcount] at hann

section Nodes

variable {a b : Expr K}

omit hvanish in
/-- A function of a scalar is annihilated only where the scalar itself is constant. -/
theorem map_vanishes {g : ScalarMap} (ha : f.Hosts a) (hV : a.valueSize = 1)
    (hz : f.VanishesWhereAnnihilated a) : f.VanishesWhereAnnihilated (.unary (.map g) a) := by
  refine vanishes_of_rule fun r D hr hfit hann h => ?_
  have hf := operandWith_formed hshape (fun _ _ => false) ha hr
  rw [hV] at hf
  obtain ⟨c, hc, hconst⟩ := Expr.constant_of_annihilated_map hann
  have hann' : a.annihilated r.directions = true := Expr.annihilated_of_constant hc hconst
  have hstill := hz.still hr hc hconst
  rcases hd : r.directions.coefficients with _ | c' | ⟨c₁, c₂⟩
  case none =>
    rw [Directions.coefficientList, hd] at hc
    exact absurd hc List.not_mem_nil
  case single =>
    rw [Directions.coefficientList, hd] at hc
    obtain rfl := List.mem_singleton.1 hc
    exact Chain.derivative_entry_eq_zero_of_single hf hd
      (hz r hr (Request.fits_of_single hd) hann') hstill h
  case two =>
    rw [Directions.coefficientList, hd] at hc
    have hor : (f.unpruned a).Still r c₁ ∨ (f.unpruned a).Still r c₂ := by
      rcases List.mem_cons.1 hc with rfl | hc
      · exact Or.inl hstill
      · exact Or.inr (List.mem_singleton.1 hc ▸ hstill)
    exact Chain.derivative_entry_eq_zero_of_two hf hd hfit (hV ▸ hz.flat hr hann') hor h

omit hvanish in
/-- Strains are annihilated only where the displacement is constant. -/
theorem strain_vanishes (ha : f.Hosts a) (hV : a.valueSize = f.gridDim)
    (hdim : 1 ≤ f.gridDim ∧ f.gridDim ≤ 3) (hz : f.VanishesWhereAnnihilated a) :
    f.VanishesWhereAnnihilated (.unary .strain a) := by
  refine vanishes_of_rule fun r D hr hfit hann h => ?_
  have hf := operandWith_formed hshape (fun _ _ => false) ha hr
  rw [hV] at hf
  obtain ⟨c, hc, hconst⟩ := Expr.constant_of_annihilated_strain hann
  refine Strain.derivative_entry_eq_zero hf hdim ?_ ⟨c, hc, ?_⟩ h
  · intro hd
    rw [Directions.coefficientList, hd] at hc
    exact absurd hc List.not_mem_nil
  · intro i d k
    refine hz (Strain.variationRequest r.site c) (hr.drawnFrom ?_) (Request.fits_of_single rfl)
      (Expr.annihilated_of_constant (Directions.mem_coefficientList rfl) hconst) k d i
    exact ⟨Or.inr (Or.inr rfl), fun _ hm => List.mem_singleton.1 hm ▸ hc⟩

omit hvanish in
theorem dot_vanishes (ha : f.Hosts a) (hb : f.Hosts b) (hsize : a.valueSize = b.valueSize)
    (hza : f.VanishesWhereAnnihilated a) (hzb : f.VanishesWhereAnnihilated b) :
    f.VanishesWhereAnnihilated (.binary .dot a b) := by
  refine vanishes_of_rule fun r D hr hfit hann h => ?_
  have hfa := operandWith_formed hshape (fun _ _ => false) ha hr
  have hfb := operandWith_formed hshape (fun _ _ => false) hb hr
  rw [← hsize] at hfb
  rcases hd : r.directions.coefficients with _ | c | ⟨c₁, c₂⟩
  case none =>
    -- Without coefficients nothing is annihilated.
    obtain ⟨c, hc, -⟩ := Expr.annihilated_iff.1 hann
    rw [Directions.coefficientList, hd] at hc
    exact absurd hc List.not_mem_nil
  case single =>
    have hmem := Directions.mem_coefficientList hd
    obtain ⟨hca, hcb⟩ := Expr.constant_of_annihilated_dot hd hann
    exact Product.derivative_entry_eq_zero_of_single hfa hfb hd
      ⟨hza.still hr hmem hca, hzb.still hr hmem hcb⟩ h
  case two =>
    obtain ⟨hmem₁, hmem₂⟩ := Directions.mem_coefficientList_two hd
    -- Both second derivatives vanish, and so does one factor of each product of first ones.
    obtain ⟨⟨hana, hanb⟩, hab, hba⟩ := Expr.annihilated_of_dot hd hann
    have hflatb := hzb.flat hr hanb
    rw [← hsize] at hflatb
    exact Product.derivative_entry_eq_zero_of_two hfa hfb hd hfit ⟨hza.flat hr hana, hflatb⟩
      (hab.imp (hza.still hr hmem₁) (hzb.still hr hmem₂))
      (hba.imp (hzb.still hr hmem₁) (hza.still hr hmem₂)) h

end Nodes

/-- Where the orders annihilate a derivative, every part of the expression answers zero when it is
computed in full. -/
theorem vanishesWhereAnnihilated {e : Expr K} (he : f.Hosts e) : f.VanishesWhereAnnihilated e := by
  have hvalue (e : Expr K) : ¬e.annihilated .value = true :=
    Bool.eq_false_iff.1 (Expr.annihilated_of_none rfl)
  induction e with
  | leaf slot signature =>
    obtain ⟨l, hl⟩ := he
    exact leaf_vanishes hvanish hl
  | constant x =>
    refine vanishes_of_rule fun r D hr _ _ h => ?_
    have h : f.zeroDerivative 1 r.directions = .ok D := h
    rw [zeroDerivative_eq hr] at h
    cases h
    exact Form.entry_zero _
  | unary op a ih =>
    have hzero (he : f.Hosts a) := (ih he).vanishesOn fun _ hd => hd
    cases op with
    | negate => exact (hzero he).scaled (hvalue a) rfl (-1) fun _ => rfl
    | scale factor => exact (hzero he).scaled (hvalue a) rfl factor fun _ => rfl
    | map g => exact map_vanishes hshape he.1 he.2 (ih he.1)
    | strain =>
      obtain ⟨ha, ⟨hV, -⟩, hdim, -⟩ := he
      exact strain_vanishes hshape ha hV hdim (ih ha)
  | binary op a b iha ihb =>
    have hhosts := he
    obtain ⟨⟨ha, hb⟩, hsize⟩ := he
    cases op with
    | sum =>
      exact VanishesOn.sum hshape hhosts
        ((iha ha).vanishesOn fun d hd => (Expr.annihilated_of_sum hd).1)
        ((ihb hb).vanishesOn fun d hd => (Expr.annihilated_of_sum hd).2) (hvalue _)
    | dot => exact dot_vanishes hshape ha hb hsize (iha ha) (ihb hb)

/-- If the rule of the node at the top, applied to pruned operands, answers what it answers to those
computed in full, then pruning keeps the answers of the expression. -/
theorem refinedBy_of_rule {e : Expr K} (he : f.Hosts e) {d : Directions} (hd : f.Admits d)
    (hvalue : ∀ site, Refines ((f.unpruned e).value site) ((f.operand e).value site))
    (hrule : ∀ r : Request K, f.Admits r.directions → r.Fits e.valueSize f.gridDim →
      Refines (f.rule (fun _ _ => false) e r) (f.rule Expr.annihilated e r)) :
    (f.unpruned e).RefinedBy (f.operand e) e.valueSize f.gridDim d := by
  refine ⟨hvalue, ?_⟩
  intro r hr hfit D hD
  have hr := hd.drawnFrom hr
  have hF := (operandWith_formed hshape (fun _ _ => false) he hr).derivative r D
    (Directions.DrawnFrom.refl _) hfit hD
  rw [operand, operandWith_derivative]
  split
  · rename_i hv
    rcases operandWith_derivative_eq_ok hr hD with ⟨-, m, hm, rfl⟩ | ⟨h, -⟩ | ⟨h, -⟩
    · exact bind_eq_ok_iff.2 ⟨m, hvalue r.site m hm, rfl⟩
    · cases h
    · exact absurd hv h
  · rename_i hv
    split
    · -- What is skipped would have been computed to zero.
      rename_i hann
      have hz := vanishesWhereAnnihilated hshape hvanish he r hr hfit hann
      have hzero : D = (r.directions.form e.valueSize f.gridDim f.tangentDim).zero := by
        refine Derivative.ext_of_hasForm hF (Form.hasForm_zero _) fun k i j => ?_
        rw [Form.entry_zero, ← hz k i j, Operand.entry_of_ok (o := f.unpruned e) hD]
      rw [zeroDerivative_eq hr, hzero]
    · rcases operandWith_derivative_eq_ok hr hD with ⟨h, -⟩ | ⟨h, -⟩ | ⟨-, -, h⟩
      · exact absurd h hv
      · cases h
      · exact hrule r hr hfit D h

/-- Every answer that an expression gives when all derivatives are computed in full is its answer
with those skipped that the orders annihilate. -/
theorem operand_refines {e : Expr K} (he : f.Hosts e) {d : Directions} (hd : f.Admits d) :
    (f.unpruned e).RefinedBy (f.operand e) e.valueSize f.gridDim d := by
  induction e generalizing d with
  | leaf slot signature =>
    exact refinedBy_of_rule hshape hvanish he hd (fun _ => Refines.rfl) fun _ _ _ => Refines.rfl
  | constant x =>
    exact refinedBy_of_rule hshape hvanish he hd (fun _ => Refines.rfl) fun _ _ _ => Refines.rfl
  | unary op a ih =>
    cases op with
    | negate | scale _ =>
      refine refinedBy_of_rule hshape hvanish he hd (fun site => ?_) fun r hr hfit => ?_
      · exact Refines.bind ((ih he hd).value site) fun _ _ => Refines.rfl
      · exact Refines.bind ((ih he hr).derivative r (Directions.DrawnFrom.refl _) hfit)
          fun _ _ => Refines.rfl
    | map g =>
      have hhosts := he
      obtain ⟨ha, hV⟩ := he
      have ih {d : Directions} (hd : f.Admits d) := hV ▸ ih ha hd
      refine refinedBy_of_rule hshape hvanish hhosts hd (fun site => ?_) fun r hr hfit => ?_
      · exact Chain.value_refines (ih hd) site
      · exact Chain.derivative_refines (ih hr) hfit
    | strain =>
      have hhosts := he
      obtain ⟨ha, ⟨hV, hG⟩, hrest⟩ := he
      have ih {d : Directions} (hd : f.Admits d) := hV ▸ ih ha hd
      refine refinedBy_of_rule hshape hvanish hhosts hd (fun site => ?_)
        fun r hr hfit => ?_
      · exact Strain.value_refines (ih hd) site
      · exact Strain.derivative_refines (ih hr)
  | binary op a b iha ihb =>
    have hhosts := he
    obtain ⟨⟨ha, hb⟩, hsize⟩ := he
    have ihb {d : Directions} (hd : f.Admits d) := hsize ▸ ihb hb hd
    cases op with
    | sum =>
      refine refinedBy_of_rule hshape hvanish hhosts hd (fun site => ?_)
        fun r hr hfit => ?_
      · refine Refines.bind ((iha ha hd).value site) fun _ _ => ?_
        exact Refines.bind ((ihb hd).value site) fun _ _ => Refines.rfl
      · have hrefl := Directions.DrawnFrom.refl r.directions
        refine Refines.bind ((iha ha hr).derivative r hrefl hfit) fun _ _ => ?_
        exact Refines.bind ((ihb hr).derivative r hrefl hfit) fun _ _ => Refines.rfl
    | dot =>
      refine refinedBy_of_rule hshape hvanish hhosts hd (fun site => ?_)
        fun r hr hfit => ?_
      · exact Product.value_refines (iha ha hd) (ihb hd) site
      · have hfb := operandWith_formed hshape (fun _ _ => false) hb hr
        rw [← hsize] at hfb
        exact Product.derivative_refines (iha ha hr) (ihb hr)
          (operandWith_formed hshape (fun _ _ => false) ha hr) hfb hfit

/-- Skipping the derivatives that the orders annihilate changes no answer: what a part of a built
field answers to a request when all of its derivatives are computed in full, it answers with the
short cut at every node. -/
theorem pruning_keeps_answers (hf : f.Built) {e : Expr K} (he : e.IsPart f.expr) {r : Request K}
    (hr : f.Admits r.directions) (hfit : r.Fits e.valueSize f.gridDim) {D : Derivative K}
    (h : (f.unpruned e).derivative r = .ok D) : (f.operand e).derivative r = .ok D :=
  (operand_refines hshape hvanish (hf.hosts.part he) hr).derivative r (Directions.DrawnFrom.refl _)
    hfit D h

end Pruning

/-- The second derivative of the square of `u`: there the second derivatives of `u` are skipped. -/
theorem pruning_keeps_answers_square :
    let f : ElementField ℝ := square 1 2
    let r : Request ℝ := {
      site := { point := .position #[0], transform := .referenceElement }
      directions := { coefficients := .two ⟨⟨0⟩, 0⟩ ⟨⟨0⟩, 1⟩ }
      along := some (.scalar 1) }
    f.validate r = .ok () ∧ ∃ D, (f.unpruned f.expr).derivative r = .ok D ∧
      (f.operand f.expr).derivative r = .ok D := by
  intro f r
  have hvalid : f.validate r = .ok () := rfl
  obtain ⟨hr, hfit⟩ := validate_eq_ok_iff.1 hvalid
  obtain ⟨D, hD⟩ : ∃ D, (f.unpruned f.expr).derivative r = .ok D := ⟨_, rfl⟩
  exact ⟨hvalid, D, hD, pruning_keeps_answers
    (fun l hl => (standard_of_mem_square hl).kind.keepsShapes)
    (fun l hl => (standard_of_mem_square hl).kind.vanishesAboveOrder) (built_square 1 2)
    (.refl f.expr) hr hfit hD⟩

end ElementField

end ElementFields
