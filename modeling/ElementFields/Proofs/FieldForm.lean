import ElementFields.Proofs.ChainRule
import ElementFields.Proofs.StrainRule
import ElementFields.Proofs.Built
import ElementFields.Field.Evaluate

namespace ElementFields
open Scalar

variable {K : Type}

namespace ElementField

def tangentDim (f : ElementField K) (block : BlockId) : ℕ :=
  match f.blockInfo block with
  | .ok info => info.correctionSize
  | .error _ => 0

/-- The directions exist: axes of the element, and coefficients that all owners of the block have. -/
def Admits (f : ElementField K) (d : Directions) : Prop :=
  (∀ k, d.spatial = some (.single k) → k < f.gridDim) ∧
    ∀ c ∈ d.coefficientList, ∃ info, f.blockInfo c.block = .ok info ∧ c.index < info.numCoefficients

theorem admits_value (f : ElementField K) : f.Admits .value :=
  ⟨fun _ hk => (nomatch hk), fun _ hc => absurd hc List.not_mem_nil⟩

theorem admits_gradient (f : ElementField K) (site : Site K) :
    f.Admits (Strain.gradientRequest site).directions :=
  ⟨fun _ hk => (nomatch hk), fun _ hc => absurd hc List.not_mem_nil⟩

theorem tangentDim_eq {f : ElementField K} {block : BlockId} {info : BlockInfo}
    (h : f.blockInfo block = .ok info) : f.tangentDim block = info.correctionSize := by
  rw [tangentDim, h]

theorem Admits.drawnFrom {f : ElementField K} {d d' : Directions} (h : f.Admits d)
    (hd : d'.DrawnFrom d) : f.Admits d' := by
  refine ⟨?_, fun c hc => h.2 c (hd.2 c hc)⟩
  intro k hk
  rcases hd.1 with hs | hs | hs
  · rw [hs] at hk
    nomatch hk
  · exact h.1 k (hs ▸ hk)
  · rw [hs] at hk
    nomatch hk

/-- The check of the coefficients of a request. -/
theorem checkCoefficient_eq_ok_iff {f : ElementField K} {c : Coefficient} :
    (do let info ← f.blockInfo c.block
        if info.numCoefficients ≤ c.index then
          .refuse (.coefficientIndexOutOfRange c.block c.index info.numCoefficients) : Outcome Unit)
      = .ok () ↔
    ∃ info, f.blockInfo c.block = .ok info ∧ c.index < info.numCoefficients := by
  rw [bind_eq_ok_iff]
  constructor
  · rintro ⟨info, hi, h⟩
    split at h
    · nomatch h
    · exact ⟨info, hi, by omega⟩
  · rintro ⟨info, hi, h⟩
    exact ⟨info, hi, if_neg (by omega)⟩

/-- What a request is checked for: its directions, and what it is contracted with. -/
theorem validate_eq_ok_iff {f : ElementField K} {r : Request K} :
    f.validate r = .ok () ↔ f.Admits r.directions ∧ r.Fits f.valueSize f.gridDim := by
  unfold validate
  -- The axis is checked first, and then the rest whatever the axis was.
  extract_lets cols checkRest
  have hrest (u : Unit) : checkRest u = .ok () ↔
      (∀ c ∈ r.directions.coefficientList, ∃ info, f.blockInfo c.block = .ok info ∧
        c.index < info.numCoefficients) ∧ r.Fits f.valueSize f.gridDim := by
    simp only [checkRest]
    rw [bind_eq_ok_iff]
    simp only [exists_const, forM_eq_ok_iff, checkCoefficient_eq_ok_iff]
    refine and_congr_right fun _ => ?_
    cases hc : r.directions.coefficients with
    | none => exact ⟨fun _ => Request.fits_of_none hc, fun _ => rfl⟩
    | single c => exact ⟨fun _ => Request.fits_of_single hc, fun _ => rfl⟩
    | two c₁ c₂ =>
      simp only [bind_eq_ok_iff, Request.requireAlong, ofOption_eq_ok_iff]
      constructor
      · rintro ⟨W, hW, h⟩
        by_cases hs : W.shape = (f.valueSize, cols)
        · exact fun _ _ _ => ⟨W, hW, congrArg Prod.fst hs, congrArg Prod.snd hs⟩
        · rw [if_neg hs] at h
          cases h
      · intro h
        obtain ⟨W, hW, hrows, hcols⟩ := h c₁ c₂ hc
        exact ⟨W, hW, if_pos (Prod.ext hrows hcols)⟩
  split
  · rename_i k hk
    split
    · refine iff_of_false (fun h => by cases h) fun h => ?_
      have hlt := h.1.1 k hk
      omega
    · refine (hrest ()).trans ⟨fun h => ⟨⟨fun k' hk' => ?_, h.1⟩, h.2⟩, fun h => ⟨h.1.2, h.2⟩⟩
      rw [hk] at hk'
      cases hk'
      omega
  · rename_i hk
    refine (hrest ()).trans ⟨fun h => ⟨⟨fun k' hk' => ?_, h.1⟩, h.2⟩, fun h => ⟨h.1.2, h.2⟩⟩
    exact absurd hk' (hk k')

variable [Scalar K]

/-- The zero tensor in directions that the field admits. -/
theorem zeroDerivative_eq {f : ElementField K} {d : Directions} (h : f.Admits d) (rows : ℕ) :
    f.zeroDerivative rows d = .ok (d.form rows f.gridDim f.tangentDim).zero := by
  obtain ⟨s, c⟩ := d
  have hinfo : ∀ c' ∈ c.toList, f.correctionSize c'.block = .ok (f.tangentDim c'.block) := by
    intro c' hc'
    obtain ⟨info, hi, -⟩ := h.2 c' hc'
    rw [tangentDim_eq hi, correctionSize, hi]
    rfl
  cases c with
  | none => rcases s with _ | _ | _ <;> rfl
  | single c =>
    have hc := hinfo c List.mem_cons_self
    rcases s with _ | _ | _ <;> simp only [zeroDerivative, hc] <;> rfl
  | two c₁ c₂ =>
    have h₁ := hinfo c₁ List.mem_cons_self
    have h₂ := hinfo c₂ (List.mem_cons_of_mem _ List.mem_cons_self)
    rcases s with _ | _ | _ <;> simp only [zeroDerivative, h₁, h₂] <;> rfl

/-- A field answers a valid request as its expression does. -/
theorem evaluateRequest_eq_ok_iff {f : ElementField K} {r : Request K} {D : Derivative K} :
    f.evaluateRequest r = .ok D ↔
      (f.Admits r.directions ∧ r.Fits f.valueSize f.gridDim) ∧
        (f.operand f.expr).derivative r = .ok D := by
  rw [evaluateRequest, bind_eq_ok_iff, ← validate_eq_ok_iff]
  constructor
  · rintro ⟨_, hvalid, h⟩
    exact ⟨hvalid, h⟩
  · rintro ⟨hvalid, h⟩
    exact ⟨(), hvalid, h⟩

end ElementField

theorem Directions.form_congr {V G : ℕ} {C C' : BlockId → ℕ} {d : Directions}
    (h : ∀ c ∈ d.coefficientList, C c.block = C' c.block) : d.form V G C = d.form V G C' := by
  obtain ⟨s, c⟩ := d
  cases c with
  | none => rcases s with _ | _ | _ <;> rfl
  | single c =>
    have hc := h c List.mem_cons_self
    rcases s with _ | _ | _ <;> simp only [form, hc]
  | two c₁ c₂ =>
    have h₁ := h c₁ List.mem_cons_self
    have h₂ := h c₂ (List.mem_cons_of_mem _ List.mem_cons_self)
    rcases s with _ | _ | _ <;> simp only [form, h₁, h₂]

namespace Leaf

/-- What a leaf may be asked: axes and coefficients it has, contracted with something of the right
shape. -/
structure Accepts (l : Leaf K) (r : Request K) : Prop where
  axis : ∀ k, r.directions.spatial = some (.single k) → k < l.gridDim
  coefficient : ∀ c ∈ r.directions.coefficientList, c.block = l.block ∧ c.index < l.numCoefficients
  fits : r.Fits l.valueSize l.gridDim

def answer (l : Leaf K) (r : Request K) [Scalar K] : Outcome (Derivative K) :=
  match r.directions.spatial, r.directions.coefficients with
  | none, .none => do return .matrix (.column (← l.primitives.value l.toLeafData r.site))
  | some (.single k), .none => do
    return .matrix (.column (← l.primitives.axis l.toLeafData r.site k))
  | some .all, .none => do return .matrix (← l.primitives.gradient l.toLeafData r.site)
  | none, .single c => do
    return .matrix (← l.primitives.coefficient l.toLeafData r.site c.index)
  | some (.single k), .single c => do
    return .matrix (← l.primitives.coefficientAxis l.toLeafData r.site c.index k)
  | some .all, .single c => do
    return .perDirection (← l.primitives.coefficientGradient l.toLeafData r.site c.index)
  | none, .two c₁ c₂ => do
    return .matrix
      (← l.primitives.second l.toLeafData r.site c₁.index c₂.index (← r.requireAlong))
  | some (.single k), .two c₁ c₂ => do
    return .matrix
      (← l.primitives.thirdAxis l.toLeafData r.site c₁.index c₂.index k (← r.requireAlong))
  | some .all, .two c₁ c₂ => do
    return .matrix
      (← l.primitives.thirdGradient l.toLeafData r.site c₁.index c₂.index (← r.requireAlong))

variable [Scalar K]

/-- Every primitive answers in the shape that is documented for it. -/
structure KeepsShapes (l : Leaf K) : Prop where
  value : ∀ site v, l.primitives.value l.toLeafData site = .ok v → v.size = l.valueSize
  answer : ∀ r D, l.Accepts r → l.answer r = .ok D →
    D.HasForm (r.directions.form l.valueSize l.gridDim fun _ => l.correctionSize)

end Leaf

/-- The derivatives of a leaf of a higher order in its coefficients than the order it reports are
zero. -/
def Leaf.VanishesAboveOrder [ExactScalar K] (l : Leaf K) : Prop :=
  ∀ r D, l.Accepts r → l.order.annihilatedBy r.directions.coefficientList.length = true →
    l.answer r = .ok D → ∀ k i j, D.entry k i j = 0

namespace ElementField

variable {f : ElementField K}

section Evaluation

variable [Scalar K]

theorem leafValue_eq {slot : ℕ} {l : Leaf K} (hl : f.leaves[slot]? = some l) (site : Site K) :
    f.leafValue slot site = do return .column (← l.primitives.value l.toLeafData site) := by
  rw [leafValue, leafIn, hl]
  rfl

/-- A leaf answers for its own coefficients and is zero in those of other blocks. -/
theorem leafDerivative_eq {slot : ℕ} {l : Leaf K} (hl : f.leaves[slot]? = some l) (r : Request K) :
    f.leafDerivative slot r =
      if r.directions.coefficientList.any fun c => c.block ≠ l.block then
        f.zeroDerivative l.valueSize r.directions
      else l.answer r := by
  rw [leafDerivative, leafIn, hl]
  rfl

omit [Scalar K] in
theorem HostsLeaf.accepts {slot : ℕ} {signature : LeafSignature} {l : Leaf K}
    (h : f.HostsLeaf slot signature l) {r : Request K} (hr : f.Admits r.directions)
    (hown : ∀ c ∈ r.directions.coefficientList, c.block = l.block)
    (hfit : r.Fits l.valueSize f.gridDim) : l.Accepts r := by
  refine ⟨?_, ?_, ?_⟩
  · intro k hk
    rw [h.gridDim]
    exact hr.1 k hk
  · intro c hc
    obtain ⟨info, hi, -, hn⟩ := h.info
    obtain ⟨info', hi', hlt⟩ := hr.2 c hc
    rw [hown c hc, hi] at hi'
    cases hi'
    exact ⟨hown c hc, hlt.trans_le hn⟩
  · rw [h.gridDim]
    exact hfit

omit [Scalar K] in
theorem HostsLeaf.form_eq {slot : ℕ} {signature : LeafSignature} {l : Leaf K}
    (h : f.HostsLeaf slot signature l) {d : Directions}
    (hown : ∀ c ∈ d.coefficientList, c.block = l.block) :
    d.form l.valueSize l.gridDim (fun _ => l.correctionSize) =
      d.form l.valueSize f.gridDim f.tangentDim := by
  obtain ⟨info, hi, hc, -⟩ := h.info
  rw [h.gridDim]
  refine Directions.form_congr fun c hm => ?_
  rw [hown c hm, tangentDim_eq hi, hc]

/-- The rule of the node at the top of an expression, for a derivative that is not skipped. -/
def rule (f : ElementField K) (skip : Expr K → Directions → Bool) :
    Expr K → Request K → Outcome (Derivative K)
  | .leaf slot _ => f.leafDerivative slot
  | .constant _ => fun r => f.zeroDerivative 1 r.directions
  | .unary op a => f.unaryDerivative op (f.referenceTangents a) (f.operandWith skip a)
  | .binary op a b => binaryDerivative op (f.operandWith skip a) (f.operandWith skip b)

theorem operandWith_derivative (skip : Expr K → Directions → Bool) (e : Expr K) (r : Request K) :
    (f.operandWith skip e).derivative r =
      if r.directions = .value then do return .matrix (← (f.operandWith skip e).value r.site)
      else if skip e r.directions then f.zeroDerivative e.valueSize r.directions
      else f.rule skip e r := by
  cases e <;> rfl

/-- A derivative that is not annihilated is answered by the rule of the node. -/
theorem derivative_eq_rule {e : Expr K} {r : Request K} (hv : r.directions ≠ .value)
    (hann : e.annihilated r.directions = false) :
    (f.operand e).derivative r = f.rule Expr.annihilated e r := by
  rw [operand, operandWith_derivative, if_neg hv, if_neg (Bool.eq_false_iff.1 hann)]

/-- An answer is the value, a zero tensor or what the rule of the node answers. -/
theorem operandWith_derivative_eq_ok {skip : Expr K → Directions → Bool} {e : Expr K}
    {r : Request K} {D : Derivative K} (hr : f.Admits r.directions)
    (h : (f.operandWith skip e).derivative r = .ok D) :
    (r.directions = .value ∧ ∃ m, (f.operandWith skip e).value r.site = .ok m ∧ D = .matrix m) ∨
    (skip e r.directions = true ∧ D = (r.directions.form e.valueSize f.gridDim f.tangentDim).zero) ∨
    (r.directions ≠ .value ∧ skip e r.directions = false ∧ f.rule skip e r = .ok D) := by
  rw [operandWith_derivative] at h
  split at h
  · rename_i hv
    obtain ⟨m, hm, h⟩ := bind_eq_ok_iff.1 h
    rw [pure_eq_ok_iff] at h
    exact Or.inl ⟨hv, m, hm, h.symm⟩
  · rename_i hv
    split at h
    · rename_i hs
      rw [zeroDerivative_eq hr] at h
      exact Or.inr (Or.inl ⟨hs, (Except.ok.inj h).symm⟩)
    · rename_i hs
      exact Or.inr (Or.inr ⟨hv, Bool.eq_false_iff.2 hs, h⟩)

end Evaluation

variable [ExactScalar K]

theorem formed_of_rule {skip : Expr K → Directions → Bool} {e : Expr K} {d : Directions}
    (hd : f.Admits d)
    (hvalue : ∀ site m, (f.operandWith skip e).value site = .ok m →
      m.rows = e.valueSize ∧ m.cols = 1)
    (hrule : ∀ (r : Request K) D, f.Admits r.directions → r.directions.DrawnFrom d →
      r.Fits e.valueSize f.gridDim → f.rule skip e r = .ok D →
      D.HasForm (r.directions.form e.valueSize f.gridDim f.tangentDim)) :
    (f.operandWith skip e).Formed e.valueSize f.gridDim f.tangentDim d := by
  refine ⟨hvalue, ?_⟩
  intro r D hr hfit h
  rcases operandWith_derivative_eq_ok (hd.drawnFrom hr) h with ⟨hv, m, hm, rfl⟩ | ⟨-, rfl⟩ | ⟨-, -, h⟩
  · rw [hv]
    exact hvalue r.site m hm
  · exact Form.hasForm_zero _
  · exact hrule r D (hd.drawnFrom hr) hr hfit h

section Nodes

variable {skip : Expr K → Directions → Bool} {a b : Expr K} {d : Directions} (hd : f.Admits d)
include hd

theorem formed_leaf {slot : ℕ} {signature : LeafSignature} {l : Leaf K}
    (hl : f.HostsLeaf slot signature l) (hk : l.KeepsShapes) :
    (f.operandWith skip (.leaf slot signature)).Formed signature.valueSize f.gridDim f.tangentDim
      d := by
  obtain rfl := hl.signature_eq
  refine formed_of_rule hd ?_ ?_
  · intro site m hm
    have hm : f.leafValue slot site = .ok m := hm
    rw [leafValue_eq hl.get] at hm
    obtain ⟨v, hv, hm⟩ := bind_eq_ok_iff.1 hm
    rw [pure_eq_ok_iff] at hm
    subst hm
    exact ⟨hk.value site v hv, rfl⟩
  · intro r D hr _ hfit h
    have h : f.leafDerivative slot r = .ok D := h
    rw [leafDerivative_eq hl.get] at h
    -- A coefficient of another block is answered by zeros, in the form that the field gives them.
    split at h
    · rw [zeroDerivative_eq hr] at h
      cases h
      exact Form.hasForm_zero _
    · rename_i hown
      have hown : ∀ c ∈ r.directions.coefficientList, c.block = l.block := by
        simpa using hown
      have hF := hk.answer r D (hl.accepts hr hown hfit) h
      rwa [hl.form_eq hown] at hF

theorem formed_constant (x : K) :
    (f.operandWith skip (.constant x)).Formed 1 f.gridDim f.tangentDim d := by
  refine formed_of_rule hd ?_ ?_
  · intro site m hm
    cases hm
    exact ⟨rfl, rfl⟩
  · intro r D hr _ _ h
    have h : f.zeroDerivative 1 r.directions = .ok D := h
    rw [zeroDerivative_eq hr] at h
    cases h
    exact Form.hasForm_zero _

/-- A node that scales what its operand answers. -/
theorem formed_scaled {e : Expr K} {x : K}
    (hvalue : ∀ site, (f.operandWith skip e).value site = do
      return (← (f.operandWith skip a).value site).scale x)
    (hrule : ∀ r, f.rule skip e r = do return (← (f.operandWith skip a).derivative r).scale x)
    (hsize : e.valueSize = a.valueSize)
    (ha : (f.operandWith skip a).Formed a.valueSize f.gridDim f.tangentDim d) :
    (f.operandWith skip e).Formed e.valueSize f.gridDim f.tangentDim d := by
  rw [← hsize] at ha
  refine formed_of_rule hd ?_ ?_
  · intro site m hm
    rw [hvalue] at hm
    obtain ⟨m', hm', hm⟩ := bind_eq_ok_iff.1 hm
    rw [pure_eq_ok_iff] at hm
    exact hm ▸ ha.value site m' hm'
  · intro r D _ hr hfit h
    rw [hrule] at h
    obtain ⟨D', hD', h⟩ := bind_eq_ok_iff.1 h
    rw [pure_eq_ok_iff] at h
    exact h ▸ (ha.derivative r D' hr hfit hD').scale x

theorem formed_map {g : ScalarMap}
    (ha : ∀ {d : Directions}, f.Admits d →
      (f.operandWith skip a).Formed 1 f.gridDim f.tangentDim d) :
    (f.operandWith skip (.unary (.map g) a)).Formed 1 f.gridDim f.tangentDim d := by
  refine formed_of_rule hd ?_ ?_
  · intro site m hm
    obtain ⟨va, -, rfl⟩ := Chain.value_eq_ok hm
    exact ⟨rfl, rfl⟩
  · intro r D hr _ hfit h
    exact Chain.derivative_hasForm (ha hr) hfit h

theorem formed_strain (hdim : 1 ≤ f.gridDim ∧ f.gridDim ≤ 3)
    (hsize : (Expr.unary .strain a).valueSize = strainSize f.gridDim)
    (ha : ∀ {d : Directions}, f.Admits d →
      (f.operandWith skip a).Formed f.gridDim f.gridDim f.tangentDim d) :
    (f.operandWith skip (.unary .strain a)).Formed (Expr.unary .strain a).valueSize f.gridDim
      f.tangentDim d := by
  refine formed_of_rule hd ?_ ?_
  · intro site m hm
    rw [hsize, ← Strain.add_length_shearPairs hdim.2]
    obtain ⟨A, -, -, -, hm, -⟩ := Strain.value_eq_ok (ha hd) hm
    exact hm
  · intro r D hr _ _ h
    rw [hsize]
    exact Strain.derivative_hasForm (ha hr) hdim h

theorem formed_sum
    (ha : (f.operandWith skip a).Formed a.valueSize f.gridDim f.tangentDim d)
    (hb : (f.operandWith skip b).Formed a.valueSize f.gridDim f.tangentDim d) :
    (f.operandWith skip (.binary .sum a b)).Formed a.valueSize f.gridDim f.tangentDim d := by
  refine formed_of_rule hd ?_ ?_
  · intro site m hm
    obtain ⟨x, hx, hm⟩ := bind_eq_ok_iff.1 hm
    obtain ⟨y, -, hm⟩ := bind_eq_ok_iff.1 hm
    obtain ⟨-, hms, -⟩ := Mat.add_eq_ok (lift_eq_ok_iff.1 hm)
    have hxs := ha.value site x hx
    exact ⟨hms.1.trans hxs.1, hms.2.trans hxs.2⟩
  · intro r D _ hr hfit h
    obtain ⟨x, hx, h⟩ := bind_eq_ok_iff.1 h
    obtain ⟨y, hy, h⟩ := bind_eq_ok_iff.1 h
    exact (Derivative.add_eq_ok (ha.derivative r x hr hfit hx) (hb.derivative r y hr hfit hy)
      (lift_eq_ok_iff.1 h)).1

theorem formed_dot {V : ℕ}
    (ha : ∀ {d : Directions}, f.Admits d →
      (f.operandWith skip a).Formed V f.gridDim f.tangentDim d)
    (hb : ∀ {d : Directions}, f.Admits d →
      (f.operandWith skip b).Formed V f.gridDim f.tangentDim d) :
    (f.operandWith skip (.binary .dot a b)).Formed 1 f.gridDim f.tangentDim d := by
  refine formed_of_rule hd ?_ ?_
  · intro site m hm
    obtain ⟨va, vb, -, -, p, -, rfl⟩ := Product.value_eq_ok hm
    exact ⟨rfl, rfl⟩
  · intro r D hr _ hfit h
    exact Product.derivative_hasForm (ha hr) (hb hr) hfit h

end Nodes

/-- If the leaves keep their shapes, so does every part of the expression. -/
theorem operandWith_formed (hshape : ∀ l ∈ f.reachableLeaves, l.KeepsShapes)
    (skip : Expr K → Directions → Bool) {e : Expr K} (he : f.Hosts e) {d : Directions}
    (hd : f.Admits d) :
    (f.operandWith skip e).Formed e.valueSize f.gridDim f.tangentDim d := by
  -- A rule asks its operands in directions of its own, so the directions are arbitrary here.
  induction e generalizing d with
  | leaf slot signature =>
    obtain ⟨l, hl⟩ := he
    exact formed_leaf hd hl (hshape l hl.mem)
  | constant x => exact formed_constant hd x
  | unary op a ih =>
    cases op with
    | negate => exact formed_scaled hd (fun _ => rfl) (fun _ => rfl) rfl (ih he hd)
    | scale factor => exact formed_scaled hd (fun _ => rfl) (fun _ => rfl) rfl (ih he hd)
    | map g =>
      obtain ⟨ha, hV⟩ := he
      exact formed_map hd fun hd => hV ▸ ih ha hd
    | strain =>
      obtain ⟨ha, ⟨hV, hG⟩, hdim, -⟩ := he
      have hsize : (Expr.unary .strain a).valueSize = strainSize f.gridDim := by
        rw [Expr.valueSize, hG, Option.getD_some]
      exact formed_strain hd hdim hsize fun hd => hV ▸ ih ha hd
  | binary op a b iha ihb =>
    obtain ⟨⟨ha, hb⟩, hsize⟩ := he
    cases op with
    | sum => exact formed_sum hd (iha ha hd) (hsize ▸ ihb hb hd)
    | dot => exact formed_dot hd (iha ha) fun hd => hsize ▸ ihb hb hd

end ElementField

end ElementFields
