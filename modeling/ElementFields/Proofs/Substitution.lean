import ElementFields.Proofs.Routing

namespace ElementFields

variable {K : Type}

/-- The second expression is the first one with every leaf replaced by something that may stand for
it. -/
inductive Expr.Substitutes (P : ℕ → LeafSignature → Expr K → Prop) : Expr K → Expr K → Prop where
  | leaf {slot : ℕ} {signature : LeafSignature} {e' : Expr K} (h : P slot signature e') :
      Substitutes P (.leaf slot signature) e'
  | constant (x : K) : Substitutes P (.constant x) (.constant x)
  | unary (op : UnaryOp K) {a a' : Expr K} (h : Substitutes P a a') :
      Substitutes P (.unary op a) (.unary op a')
  | binary (op : BinaryOp) {a a' b b' : Expr K} (ha : Substitutes P a a') (hb : Substitutes P b b') :
      Substitutes P (.binary op a b) (.binary op a' b')

namespace Expr.Substitutes

variable {P : ℕ → LeafSignature → Expr K → Prop} {e e' : Expr K}

theorem gridDim_eq (h : Substitutes P e e')
    (hP : ∀ slot signature p, P slot signature p → p.gridDim = some signature.gridDim) :
    e'.gridDim = e.gridDim := by
  induction h with
  | leaf h => exact hP _ _ _ h
  | constant x => rfl
  | unary op _ ih => exact ih
  | binary op _ _ iha ihb => rw [Expr.gridDim, Expr.gridDim, iha, ihb]

theorem valueSize_eq (h : Substitutes P e e')
    (hP : ∀ slot signature p, P slot signature p →
      p.gridDim = some signature.gridDim ∧ p.valueSize = signature.valueSize) :
    e'.valueSize = e.valueSize := by
  induction h with
  | leaf h => exact (hP _ _ _ h).2
  | constant x => rfl
  | unary op ha ih =>
    cases op with
    | negate | scale => exact ih
    | map => rfl
    | strain =>
      rw [Expr.valueSize, Expr.valueSize, ha.gridDim_eq fun slot signature p hp => (hP _ _ _ hp).1]
  | binary op _ _ iha ihb =>
    cases op with
    | sum => exact iha
    | dot => rfl

/-- The orders in two blocks agree if they do at the leaves. -/
theorem orderIn_eq {block block' : BlockId} (h : Substitutes P e e')
    (hP : ∀ slot signature p, P slot signature p →
      p.orderIn block' = (Expr.leaf slot signature : Expr K).orderIn block) :
    e'.orderIn block' = e.orderIn block := by
  induction h with
  | leaf h => exact hP _ _ _ h
  | constant x => rfl
  | unary op _ ih => rw [Expr.orderIn, Expr.orderIn, ih]
  | binary op _ _ iha ihb => rw [Expr.orderIn, Expr.orderIn, iha, ihb]

/-- Every leaf of the second expression comes from one of the first. -/
theorem exists_of_mem {leaves leaves' : Array (Leaf K)} {R : Leaf K → Leaf K → Prop}
    (h : Substitutes P e e')
    (hP : ∀ slot ∈ e.slots, ∀ signature p, P slot signature p →
      ∀ l' ∈ leavesIn leaves' p.slots, ∃ l ∈ leavesIn leaves [slot], R l l')
    {l' : Leaf K} (hl' : l' ∈ leavesIn leaves' e'.slots) : ∃ l ∈ leavesIn leaves e.slots, R l l' := by
  induction h with
  | leaf h => exact hP _ List.mem_cons_self _ _ h l' hl'
  | constant x => exact absurd hl' List.not_mem_nil
  | unary op _ ih => exact ih hP hl'
  | binary op _ _ iha ihb =>
    simp only [Expr.slots, leavesIn, List.filterMap_append, List.mem_append] at hl' hP ⊢
    rcases hl' with hl' | hl'
    · obtain ⟨l, hl, hR⟩ := iha (fun slot hs => hP slot (Or.inl hs)) hl'
      exact ⟨l, Or.inl hl, hR⟩
    · obtain ⟨l, hl, hR⟩ := ihb (fun slot hs => hP slot (Or.inr hs)) hl'
      exact ⟨l, Or.inr hl, hR⟩

/-- Every leaf of the first expression is replaced by one of the second. -/
theorem exists_replacement {leaves leaves' : Array (Leaf K)} {R : Leaf K → Leaf K → Prop}
    (h : Substitutes P e e')
    (hP : ∀ slot signature p, P slot signature p →
      ∀ l ∈ leavesIn leaves [slot], ∃ l' ∈ leavesIn leaves' p.slots, R l l')
    {l : Leaf K} (hl : l ∈ leavesIn leaves e.slots) : ∃ l' ∈ leavesIn leaves' e'.slots, R l l' := by
  induction h with
  | leaf h => exact hP _ _ _ h l hl
  | constant x => exact absurd hl List.not_mem_nil
  | unary op _ ih => exact ih hl
  | binary op _ _ iha ihb =>
    simp only [Expr.slots, leavesIn, List.filterMap_append, List.mem_append] at hl ⊢
    rcases hl with hl | hl
    · obtain ⟨l', hl', hR⟩ := iha hl
      exact ⟨l', Or.inl hl', hR⟩
    · obtain ⟨l', hl', hR⟩ := ihb hl
      exact ⟨l', Or.inr hl', hR⟩

end Expr.Substitutes

/-- The second expression is the first one with other slots for its leaves, in which they hold the
same. Slots that are one in the first may be several in the second, and the other way round. -/
def Expr.Copies (leaves leaves' : Array (Leaf K)) : Expr K → Expr K → Prop :=
  Expr.Substitutes fun slot signature p =>
    ∃ slot', p = .leaf slot' signature ∧ leaves'[slot']? = leaves[slot]?

namespace Expr.Copies

variable {leaves leaves' : Array (Leaf K)} {e e' : Expr K}

/-- Without other slots, an expression is a copy of itself wherever its leaves are the same. -/
theorem self (h : ∀ slot ∈ e.slots, leaves'[slot]? = leaves[slot]?) : e.Copies leaves leaves' e := by
  induction e with
  | leaf slot signature => exact .leaf ⟨slot, rfl, h slot List.mem_cons_self⟩
  | constant x => exact .constant x
  | unary op a ih => exact .unary op (ih h)
  | binary op a b iha ihb =>
    exact .binary op (iha fun slot hs => h slot (List.mem_append_left _ hs))
      (ihb fun slot hs => h slot (List.mem_append_right _ hs))

theorem gridDim_eq (h : e.Copies leaves leaves' e') : e'.gridDim = e.gridDim := by
  apply Expr.Substitutes.gridDim_eq h
  rintro slot signature _ ⟨slot', rfl, -⟩
  rfl

theorem valueSize_eq (h : e.Copies leaves leaves' e') : e'.valueSize = e.valueSize := by
  apply Expr.Substitutes.valueSize_eq h
  rintro slot signature _ ⟨slot', rfl, -⟩
  exact ⟨rfl, rfl⟩

theorem orderIn_eq (h : e.Copies leaves leaves' e') (block : BlockId) :
    e'.orderIn block = e.orderIn block := by
  apply Expr.Substitutes.orderIn_eq h
  rintro slot signature _ ⟨slot', rfl, -⟩
  rfl

theorem annihilated_eq (h : e.Copies leaves leaves' e') (d : Directions) :
    e'.annihilated d = e.annihilated d := by
  simp only [Expr.annihilated, h.orderIn_eq]

/-- Occurrence by occurrence, the leaves are the same. -/
theorem leavesIn_eq (h : e.Copies leaves leaves' e') :
    leavesIn leaves' e'.slots = leavesIn leaves e.slots := by
  induction h with
  | leaf h =>
    obtain ⟨slot', rfl, hslot⟩ := h
    simp only [Expr.slots, leavesIn, List.filterMap_cons, List.filterMap_nil, hslot]
  | constant x => rfl
  | unary op _ ih => exact ih
  | binary op _ _ iha ihb =>
    simp only [leavesIn] at iha ihb
    simp only [Expr.slots, leavesIn, List.filterMap_append, iha, ihb]

/-- The leaves may change on both sides, as long as the same leaf is changed in the same way. -/
theorem changed {next next' : Array (Leaf K)} {R : Leaf K → Leaf K → Prop}
    (h : e.Copies leaves leaves' e') (hR : ∀ l a b, R l a → R l b → a = b)
    (hl : ∀ slot ∈ e.slots, ∃ l a, leaves[slot]? = some l ∧ next[slot]? = some a ∧ R l a)
    (hl' : ∀ slot ∈ e'.slots, ∃ l a, leaves'[slot]? = some l ∧ next'[slot]? = some a ∧ R l a) :
    e.Copies next next' e' := by
  induction h with
  | leaf h =>
    obtain ⟨slot', rfl, hslot⟩ := h
    obtain ⟨l, a, hget, hnext, ha⟩ := hl _ List.mem_cons_self
    obtain ⟨m, b, hget', hnext', hb⟩ := hl' _ List.mem_cons_self
    obtain rfl := Option.some.inj (hget'.symm.trans (hslot.trans hget))
    obtain rfl := hR m a b ha hb
    exact .leaf ⟨slot', rfl, hnext'.trans hnext.symm⟩
  | constant x => exact .constant x
  | unary op _ ih => exact .unary op (ih hl hl')
  | binary op _ _ iha ihb =>
    have hleft := iha (fun slot hs => hl slot (List.mem_append_left _ hs))
      fun slot hs => hl' slot (List.mem_append_left _ hs)
    have hright := ihb (fun slot hs => hl slot (List.mem_append_right _ hs))
      fun slot hs => hl' slot (List.mem_append_right _ hs)
    exact .binary op hleft hright

end Expr.Copies

namespace ElementField

variable [Scalar K] {f f' : ElementField K} {e e' : Expr K}

theorem referenceTangents_of_copies (h : e.Copies f.leaves f'.leaves e')
    (hG : f'.gridDim = f.gridDim) : f'.referenceTangents e' = f.referenceTangents e := by
  have hsame : f'.placements e' = f.placements e := by rw [placements, placements, h.leavesIn_eq]
  apply referenceTangents_of_placements hG
  · rw [hsame]
  · intro p
    rw [hsame]

theorem zeroDerivative_of_blocks (hG : f'.gridDim = f.gridDim) (hblocks : f'.blocks = f.blocks) :
    f'.zeroDerivative = f.zeroDerivative := by
  funext rows d
  simp only [zeroDerivative, correctionSize, blockInfo, hG, hblocks]

/-- An expression and its copies stand for the same operand, in fields that know the same of their
element and of their blocks. -/
theorem operand_of_copies (h : e.Copies f.leaves f'.leaves e') (hG : f'.gridDim = f.gridDim)
    (hblocks : f'.blocks = f.blocks) : f'.operand e' = f.operand e := by
  have hzero := zeroDerivative_of_blocks hG hblocks
  -- At every node the same derivatives are skipped, and they are answered by the same zeros.
  have hskip {a a' : Expr K} (ha : a.Copies f.leaves f'.leaves a')
      (value : Site K → Outcome (Mat K)) (derivative : Request K → Outcome (Derivative K)) :
      f'.skipping a'.valueSize a'.annihilated value derivative =
        f.skipping a.valueSize a.annihilated value derivative := by
    simp only [skipping, hzero, ha.annihilated_eq, ha.valueSize_eq]
  induction h with
  | @leaf slot signature p h =>
    have hcopies : Expr.Copies f.leaves f'.leaves (.leaf slot signature) p := .leaf h
    obtain ⟨slot', rfl, hslot⟩ := h
    have hin : f'.leafIn slot' = f.leafIn slot := by rw [leafIn, leafIn, hslot]
    have hvalue : f'.leafValue slot' = f.leafValue slot := by
      funext site
      simp only [leafValue, hin]
    have hderivative : f'.leafDerivative slot' = f.leafDerivative slot := by
      funext r
      simp only [leafDerivative, hin, hzero]
    simp only [operand, operandWith, hskip hcopies, hvalue, hderivative]
  | constant x => simp only [operand, operandWith, hskip (.constant x), hzero]
  | @unary op a a' ha ih =>
    have hop : f'.unaryValue op (f'.referenceTangents a') =
          f.unaryValue op (f.referenceTangents a) ∧
        f'.unaryDerivative op (f'.referenceTangents a') =
          f.unaryDerivative op (f.referenceTangents a) := by
      cases op with
      | strain =>
        have htangents := referenceTangents_of_copies ha hG
        constructor
        · funext o site
          simp only [unaryValue, hG, htangents]
        · funext o r
          simp only [unaryDerivative, hG, htangents]
      | negate | scale | map => exact ⟨rfl, rfl⟩
    have ih : f'.operandWith Expr.annihilated a' = f.operandWith Expr.annihilated a := ih
    simp only [operand, operandWith, hskip (.unary op ha), hop, ih]
  | @binary op a a' b b' ha hb iha ihb =>
    have iha : f'.operandWith Expr.annihilated a' = f.operandWith Expr.annihilated a := iha
    have ihb : f'.operandWith Expr.annihilated b' = f.operandWith Expr.annihilated b := ihb
    simp only [operand, operandWith, hskip (.binary op ha hb), iha, ihb]

def restrictedTo (f : ElementField K) (e : Expr K) : ElementField K := { f with slots := e.slots }

/-- The other leaves play no part in what an expression answers. -/
theorem operand_restrictedTo (f : ElementField K) (e e' : Expr K) :
    (f.restrictedTo e).operand e' = f.operand e' :=
  operand_of_copies (.self fun _ _ => rfl) rfl rfl

omit [Scalar K] in
theorem Hosts.restrictedTo {f : ElementField K} {e e' : Expr K} (h : f.Hosts e')
    (hslots : ∀ slot ∈ e'.slots, slot ∈ e.slots) : (f.restrictedTo e).Hosts e' := by
  induction e' with
  | leaf slot signature =>
    obtain ⟨l, hl⟩ := h
    exact ⟨l, hslots slot List.mem_cons_self, hl.get, hl.signature_eq, hl.gridDim, hl.info⟩
  | constant x => trivial
  | unary op a ih =>
    cases op with
    | negate | scale => exact ih h hslots
    | map | strain => exact ⟨ih h.1 hslots, h.2⟩
  | binary op a b iha ihb =>
    obtain ⟨⟨ha, hb⟩, hsize⟩ := h
    have hleft := iha ha fun slot hs => hslots slot (List.mem_append_left _ hs)
    have hright := ihb hb fun slot hs => hslots slot (List.mem_append_right _ hs)
    exact ⟨⟨hleft, hright⟩, hsize⟩

end ElementField

end ElementFields
