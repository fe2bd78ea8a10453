import ElementFields.Proofs.PullBack

namespace ElementFields

open Scalar

variable {K : Type}

/-- A path from the top of an expression down to a part of it, with no node on it, the part included,
whose orders annihilate the directions. -/
inductive Expr.HasOpenPath (d : Directions) : Expr K → Expr K → Prop where
  | last {p : Expr K} (h : p.annihilated d = false) : HasOpenPath d p p
  | unary {p a : Expr K} (op : UnaryOp K) (h : (Expr.unary op a).annihilated d = false)
      (hp : HasOpenPath d a p) : HasOpenPath d (.unary op a) p
  | left {p a : Expr K} (op : BinaryOp) (b : Expr K)
      (h : (Expr.binary op a b).annihilated d = false) (hp : HasOpenPath d a p) :
      HasOpenPath d (.binary op a b) p
  | right {p b : Expr K} (op : BinaryOp) (a : Expr K)
      (h : (Expr.binary op a b).annihilated d = false) (hp : HasOpenPath d b p) :
      HasOpenPath d (.binary op a b) p

/-- Without coefficients nothing is annihilated, and every part is at the end of an open path. -/
theorem Expr.IsPart.hasOpenPath {p e : Expr K} (h : p.IsPart e) {d : Directions}
    (hc : d.coefficients = .none) : e.HasOpenPath d p := by
  induction h with
  | refl => exact .last (annihilated_of_none hc)
  | unary op _ ih => exact .unary op (annihilated_of_none hc) ih
  | left op b _ ih => exact .left op b (annihilated_of_none hc) ih
  | right op a _ ih => exact .right op a (annihilated_of_none hc) ih

def Operand.AnswersIn (d : Directions) (o : Operand K) : Prop :=
  ∃ r, r.directions = d ∧ o.Answers r

variable [Scalar K]

namespace Operand

variable {o : Operand K} {r : Request K}

theorem answersIn_of_spatialComponents (hc : r.directions.coefficients = .none)
    {columns : List (Mat K)} (h : o.spatialComponents r = .ok columns) :
    o.AnswersIn r.directions := by
  obtain ⟨m, hm, -⟩ := bind_eq_ok_iff.1 h
  obtain ⟨D, hD, -⟩ := bind_eq_ok_iff.1 hm
  exact ⟨r.spatialPart, congrArg (Directions.mk _) hc.symm, D, hD⟩

omit [Scalar K] in
theorem answersIn_of_mixedComponents {c : Coefficient}
    (hc : r.directions.coefficients = .single c) {matrices : List (Mat K)}
    (h : o.mixedComponents r c = .ok matrices) : o.AnswersIn r.directions := by
  obtain ⟨D, hD, -⟩ := bind_eq_ok_iff.1 h
  exact ⟨r.mixedPart c, congrArg (Directions.mk _) hc.symm, D, hD⟩

theorem answersIn_of_thirdAlong {along m : Mat K} (h : o.thirdAlong r along = .ok m) :
    o.AnswersIn r.directions := by
  obtain ⟨D, hD, -⟩ := bind_eq_ok_iff.1 h
  exact ⟨r.withAlong (some along), rfl, D, hD⟩

end Operand

section Rules

variable {a b : Operand K} {r : Request K} {D : Derivative K}

theorem Product.answersIn (hs : r.directions.spatial ≠ none)
    (h : Product.derivative a b r = .ok D) :
    a.AnswersIn r.directions ∧ b.AnswersIn r.directions := by
  obtain ⟨s, hs⟩ := Option.ne_none_iff_exists'.1 hs
  obtain ⟨va, -, h⟩ := bind_eq_ok_iff.1 h
  obtain ⟨vb, -, h⟩ := bind_eq_ok_iff.1 h
  cases hc : r.directions.coefficients with
  | none =>
    simp only [hs, hc] at h
    obtain ⟨aₓ, haₓ, h⟩ := bind_eq_ok_iff.1 h
    obtain ⟨bₓ, hbₓ, -⟩ := bind_eq_ok_iff.1 h
    exact ⟨Operand.answersIn_of_spatialComponents hc haₓ,
      Operand.answersIn_of_spatialComponents hc hbₓ⟩
  | single c =>
    simp only [hs, hc] at h
    -- The slopes and the derivatives in the coefficient come first.
    iterate 4 obtain ⟨_, -, h⟩ := bind_eq_ok_iff.1 h
    obtain ⟨aₓc, haₓc, h⟩ := bind_eq_ok_iff.1 h
    obtain ⟨bₓc, hbₓc, -⟩ := bind_eq_ok_iff.1 h
    exact ⟨Operand.answersIn_of_mixedComponents hc haₓc,
      Operand.answersIn_of_mixedComponents hc hbₓc⟩
  | two c₁ c₂ =>
    simp only [hs, hc] at h
    -- Only the last terms contain an operand in all three directions.
    iterate 17 obtain ⟨_, -, h⟩ := bind_eq_ok_iff.1 h
    obtain ⟨ta, hta, h⟩ := bind_eq_ok_iff.1 h
    iterate 2 obtain ⟨_, -, h⟩ := bind_eq_ok_iff.1 h
    obtain ⟨tb, htb, -⟩ := bind_eq_ok_iff.1 h
    exact ⟨Operand.answersIn_of_thirdAlong hta, Operand.answersIn_of_thirdAlong htb⟩

theorem Chain.answersIn {g : ScalarMap} (hs : r.directions.spatial ≠ none)
    (h : Chain.derivative g a r = .ok D) : a.AnswersIn r.directions := by
  obtain ⟨s, hs⟩ := Option.ne_none_iff_exists'.1 hs
  iterate 2 obtain ⟨_, -, h⟩ := bind_eq_ok_iff.1 h
  cases hc : r.directions.coefficients with
  | none =>
    simp only [hs, hc] at h
    obtain ⟨E, hE, -⟩ := bind_eq_ok_iff.1 h
    exact ⟨r, rfl, E, hE⟩
  | single c =>
    simp only [hs, hc] at h
    iterate 2 obtain ⟨_, -, h⟩ := bind_eq_ok_iff.1 h
    obtain ⟨aₓc, haₓc, -⟩ := bind_eq_ok_iff.1 h
    exact Operand.answersIn_of_mixedComponents hc haₓc
  | two c₁ c₂ =>
    simp only [hs, hc] at h
    iterate 10 obtain ⟨_, -, h⟩ := bind_eq_ok_iff.1 h
    obtain ⟨ta, hta, -⟩ := bind_eq_ok_iff.1 h
    exact Operand.answersIn_of_thirdAlong hta

theorem Strain.derivative_ne_ok {dim : ℕ} {reference : Site K → Outcome (Mat K)}
    (hs : r.directions.spatial ≠ none) : Strain.derivative dim reference a r ≠ .ok D := by
  obtain ⟨s, hs⟩ := Option.ne_none_iff_exists'.1 hs
  intro h
  simp only [Strain.derivative, hs] at h
  cases h

end Rules

namespace ElementField

variable {f : ElementField K} {r : Request K}

/-- An operation that answers with a spatial direction is not a strain, and has asked its operand in
the same directions. -/
theorem unary_answersIn {op : UnaryOp K} {tangents : Site K → Outcome (Mat K)} {a : Operand K}
    {D : Derivative K} (hs : r.directions.spatial ≠ none)
    (h : f.unaryDerivative op tangents a r = .ok D) :
    op ≠ .strain ∧ a.AnswersIn r.directions := by
  cases op with
  | negate | scale _ =>
    obtain ⟨E, hE, -⟩ := bind_eq_ok_iff.1 h
    exact ⟨fun h => (nomatch h), r, rfl, E, hE⟩
  | map g => exact ⟨fun h => (nomatch h), Chain.answersIn hs h⟩
  | strain => exact absurd h (Strain.derivative_ne_ok hs)

/-- An operation on two operands that answers with a spatial direction has asked both of them in the
same directions. -/
theorem binary_answersIn {op : BinaryOp} {a b : Operand K} {D : Derivative K}
    (hs : r.directions.spatial ≠ none) (h : binaryDerivative op a b r = .ok D) :
    a.AnswersIn r.directions ∧ b.AnswersIn r.directions := by
  cases op with
  | sum =>
    obtain ⟨E, hE, h⟩ := bind_eq_ok_iff.1 h
    obtain ⟨F, hF, -⟩ := bind_eq_ok_iff.1 h
    exact ⟨⟨r, rfl, E, hE⟩, ⟨r, rfl, F, hF⟩⟩
  | dot => exact Product.answersIn hs h

theorem rule_eq_ok_of_answersIn {e : Expr K} {d : Directions} (hs : d.spatial ≠ none)
    (hann : e.annihilated d = false) (h : (f.operand e).AnswersIn d) :
    ∃ r D, r.directions = d ∧ f.rule Expr.annihilated e r = .ok D := by
  obtain ⟨r, rfl, D, hD⟩ := h
  have hv : r.directions ≠ .value := fun hv => hs (congrArg Directions.spatial hv)
  rw [derivative_eq_rule hv hann] at hD
  exact ⟨r, D, rfl, hD⟩

/-- What is answered with a spatial direction has been asked of every part at the end of an open
path. -/
theorem answersIn_of_hasOpenPath {e p : Expr K} {d : Directions} (hs : d.spatial ≠ none)
    (hp : e.HasOpenPath d p) (h : (f.operand e).AnswersIn d) : (f.operand p).AnswersIn d := by
  induction hp with
  | last => exact h
  | unary op hann _ ih =>
    obtain ⟨r, D, rfl, hD⟩ := rule_eq_ok_of_answersIn hs hann h
    exact ih (unary_answersIn hs hD).2
  | left op b hann _ ih =>
    obtain ⟨r, D, rfl, hD⟩ := rule_eq_ok_of_answersIn hs hann h
    exact ih (binary_answersIn hs hD).1
  | right op a hann _ ih =>
    obtain ⟨r, D, rfl, hD⟩ := rule_eq_ok_of_answersIn hs hann h
    exact ih (binary_answersIn hs hD).2

omit [Scalar K] in
theorem annihilated_of_hasOpenPath {e p : Expr K} {d : Directions} (hp : e.HasOpenPath d p) :
    p.annihilated d = false := by
  induction hp with
  | last h => exact h
  | unary _ _ _ ih | left _ _ _ _ ih | right _ _ _ _ ih => exact ih

theorem not_answersIn_of_strain {e a : Expr K} {d : Directions} (hs : d.spatial ≠ none)
    (hp : e.HasOpenPath d (.unary .strain a)) : ¬ (f.operand e).AnswersIn d := by
  intro h
  obtain ⟨r, D, rfl, hD⟩ := rule_eq_ok_of_answersIn hs (annihilated_of_hasOpenPath hp)
    (answersIn_of_hasOpenPath hs hp h)
  have hD : f.unaryDerivative .strain (f.referenceTangents a) (f.operand a) r = .ok D := hD
  exact (unary_answersIn hs hD).1 rfl

/-- A request with a spatial direction, alone or with coefficients, is not answered if a strain is at
the end of an open path: the strains themselves are not, and neither is anything that is put together
from them. Without coefficients, no field that contains strains answers in space. The site, the
contraction argument and the fields below the strains make no difference. -/
theorem unanswered_of_strain (f : ElementField K) (r : Request K)
    (hs : r.directions.spatial ≠ none) :
    (∀ a, f.expr.HasOpenPath r.directions (.unary .strain a) → ∀ D, f.evaluateRequest r ≠ .ok D) ∧
      (r.directions.coefficients = .none → ∀ a, (Expr.unary .strain a).IsPart f.expr →
        ∀ D, f.evaluateRequest r ≠ .ok D) := by
  have hopen (a : Expr K) (hp : f.expr.HasOpenPath r.directions (.unary .strain a))
      (D : Derivative K) : f.evaluateRequest r ≠ .ok D := fun hD =>
    not_answersIn_of_strain hs hp ⟨r, rfl, D, (evaluateRequest_eq_ok_iff.1 hD).2⟩
  exact ⟨hopen, fun hc a ha => hopen a (ha.hasOpenPath hc)⟩

omit [Scalar K] in
/-- The inner product of an entry with itself is appended, whatever the entry is. -/
theorem after_normSquared {b : Builder K} {i : ℕ} {e : Entry K} (he : b.entries[i]? = some e) :
    (Builder.normSquared i).after b =
      (.ok b.entries.size, { b with entries := b.entries.push (.binary .dot i i e e) }) := by
  rw [Builder.normSquared, Builder.dot, Builder.binary, Builder.Step.after_bind,
    Builder.Step.after_look, he]
  dsimp only
  rw [Builder.Step.after_bind, Builder.Step.after_look, he]
  dsimp only
  rw [if_pos rfl]
  cases e.gridDim with
  | none => rfl
  | some n =>
    dsimp only
    rw [if_pos rfl]
    rfl

def strainedSquare {K : Type} [ExactScalar K] : ElementField K :=
  { (strained : ElementField K) with
    nodes := #[.leaf 0, .unary .strain 0, .binary .dot 1 1]
    root := 2
    top := .binary .dot 1 1 strained.top strained.top }

theorem built_strainedSquare {K : Type} [ExactScalar K] :
    (strainedSquare : ElementField K).Built := by
  let leaves : Array (Leaf K) := #[.placed ⟨0⟩]
  let u : Entry K := .leaf 0 (Leaf.placed ⟨0⟩ : Leaf K).signature
  let ε : Entry K := .unary .strain 0 u
  have hleaf : Builder.Reachable { leaves, entries := #[u] } :=
    Builder.Reachable.empty.step (.leaf (.placed ⟨0⟩))
  have hstrain : Builder.Reachable { leaves, entries := #[u, ε] } := hleaf.step (.strain 0)
  have hafter : ((Builder.Command.normSquared 1).step.after { leaves, entries := #[u, ε] }).2 =
      { leaves, entries := #[u, ε, .binary .dot 1 1 ε ε] } :=
    congrArg Prod.snd (after_normSquared rfl)
  exact .build (hafter ▸ hstrain.step (.normSquared 1)) (build_eq_of_sorted rfl ⟨rfl, rfl⟩ rfl
    (List.pairwise_singleton _ _) rfl (List.pairwise_singleton _ _))

/-- The squared length of the strains has no spatial derivative, and none that is also with respect to
a coefficient or to two of them. -/
theorem unanswered_of_strain_square :
    let f : ElementField ℝ := strainedSquare
    let a : Expr ℝ := .leaf 0 (Leaf.placed ⟨0⟩ : Leaf ℝ).signature
    let r (c : CoefficientPart) : Request ℝ :=
      ⟨⟨.position #[0, 0], .gridElement⟩, ⟨some .all, c⟩, some (.zero 1 2)⟩
    let c₁ : CoefficientPart := .single ⟨⟨0⟩, 1⟩
    let c₂ : CoefficientPart := .two ⟨⟨0⟩, 1⟩ ⟨⟨0⟩, 2⟩
    f.Built ∧ (Expr.unary .strain a).IsPart f.expr ∧
      (∀ c ∈ [c₁, c₂], f.expr.HasOpenPath ⟨some .all, c⟩ (.unary .strain a)) ∧
      ∀ c ∈ [.none, c₁, c₂], f.validate (r c) = .ok () ∧ ∀ D, f.evaluateRequest (r c) ≠ .ok D := by
  intro f a r c₁ c₂
  have hpart : (Expr.unary .strain a).IsPart f.expr := .left .dot _ (.refl _)
  have hpath (c : CoefficientPart) (hc : c ∈ [c₁, c₂]) :
      f.expr.HasOpenPath ⟨some .all, c⟩ (.unary .strain a) := by
    simp only [List.mem_cons, List.not_mem_nil, or_false] at hc
    rcases hc with rfl | rfl <;> exact .left .dot _ rfl (.last rfl)
  have hspatial (c : CoefficientPart) : (r c).directions.spatial ≠ none := fun h => (nomatch h)
  refine ⟨built_strainedSquare, hpart, hpath, fun c hc => ?_⟩
  rcases List.mem_cons.1 hc with rfl | hc
  · exact ⟨rfl, (unanswered_of_strain f (r .none) (hspatial .none)).2 rfl a hpart⟩
  · refine ⟨?_, (unanswered_of_strain f (r c) (hspatial c)).1 a (hpath c hc)⟩
    simp only [List.mem_cons, List.not_mem_nil, or_false] at hc
    rcases hc with rfl | rfl <;> rfl

end ElementField

end ElementFields
