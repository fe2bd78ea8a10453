import ElementFields.Proofs.LeafShapes
import ElementFields.Proofs.LeavesSideBySide
import ElementFields.Proofs.RulesSideBySide

namespace ElementFields
open Scalar

variable {K : Type} [Scalar K] {A : Comparison K}

/-- The primitives of the library, and those that take a value from these and leave all derivatives
at zero. They see a site through the shape functions alone. -/
inductive Primitives.OfLibrary : Primitives K → Prop
  | interpolation : OfLibrary .interpolation
  | normalization : OfLibrary .normalization
  | vanishing {p : Primitives K} (h : OfLibrary p) : OfLibrary (.vanishing p.value)

theorem Primitives.OfLibrary.alike {p : Primitives K} (h : p.OfLibrary) {l : LeafData K}
    (hl : l.Alike A) : p.Alike A l := by
  have hS := A.respected
  induction h with
  | interpolation => exact Interpolation.alike hl
  | normalization => exact Normalization.alike hl
  | vanishing _ ih =>
    exact {
      value := ih.value
      axis := fun _ => Paired.pure (.refl hS _)
      gradient := Paired.pure (.refl hS _)
      coefficient := fun _ => Paired.pure (.refl hS _)
      coefficientAxis := fun _ _ _ _ => Paired.pure (.refl hS _)
      coefficientGradient := fun _ =>
        Paired.pure (List.forall₂_same.2 fun m _ => Mat.Like.refl hS m)
      second := fun _ _ _ _ _ => Paired.pure (.refl hS _)
      thirdAxis := fun _ _ _ _ _ _ _ _ => Paired.pure (.refl hS _)
      thirdGradient := fun _ _ _ _ _ => Paired.pure (.refl hS _) }

theorem Leaf.Standard.ofLibrary {l : Leaf K} (h : l.Standard) : l.primitives.OfLibrary := by
  rcases h.kind.primitives with ⟨hp, -⟩ | ⟨hp, -⟩
  · exact hp ▸ .interpolation
  · exact hp ▸ .normalization

/-- The answers of a leaf are related if those of its primitives are. -/
theorem Leaf.answer_paired {l : Leaf K} (hl : l.primitives.Alike A l.toLeafData) (hA : A.Names)
    {r r' : Request K} (h : r.Like A r') :
    Paired A (Derivative.Like A.number) (l.answer r) (l.answer r') := by
  have hS := A.respected
  have halong := h.requireAlong hA
  obtain ⟨hsite, hsite', hdirected, -⟩ := h
  obtain ⟨site, ⟨s, c⟩, along⟩ := r
  obtain ⟨site', ⟨s', c'⟩, along'⟩ := r'
  obtain rfl : site = A.left := hsite
  obtain rfl : site' = A.right := hsite'
  obtain rfl : c' = c := hdirected.coefficients
  cases hdirected.spatial with
  | none =>
    cases c' with
    | none => exact hl.value.bind fun _ _ hv => Paired.pure (.matrix (Mat.like_column hS hv))
    | single c => exact (hl.coefficient c.index).bind fun _ _ hm => Paired.pure (.matrix hm)
    | two c₁ c₂ =>
      exact halong.bind fun _ _ hW =>
        (hl.second c₁.index c₂.index hW).bind fun _ _ hm => Paired.pure (.matrix hm)
  | some hs =>
    cases hs with
    | single hk =>
      cases c' with
      | none => exact (hl.axis hk).bind fun _ _ hv => Paired.pure (.matrix (Mat.like_column hS hv))
      | single c => exact (hl.coefficientAxis c.index hk).bind fun _ _ hm => Paired.pure (.matrix hm)
      | two c₁ c₂ =>
        exact halong.bind fun _ _ hW =>
          (hl.thirdAxis c₁.index c₂.index hk hW).bind fun _ _ hm => Paired.pure (.matrix hm)
    | all =>
      cases c' with
      | none => exact hl.gradient.bind fun _ _ hm => Paired.pure (.matrix hm)
      | single c =>
        exact (hl.coefficientGradient c.index).bind fun _ _ hm => Paired.pure (.perDirection hm)
      | two c₁ c₂ =>
        exact halong.bind fun _ _ hW =>
          (hl.thirdGradient c₁.index c₂.index hW).bind fun _ _ hm => Paired.pure (.matrix hm)

namespace Comparison.Directed

variable {d d' : Directions} (h : A.Directed d d')
include h

theorem coefficientList : d'.coefficientList = d.coefficientList :=
  congrArg CoefficientPart.toList h.coefficients

theorem isValue_iff : d = .value ↔ d' = .value := by
  obtain ⟨s, c⟩ := d
  obtain ⟨s', c'⟩ := d'
  obtain rfl : c' = c := h.coefficients
  cases h.spatial with
  | none => exact Iff.rfl
  | some _ => exact iff_of_false (fun h => nomatch h) fun h => nomatch h

theorem annihilated_eq (e : Expr K) : e.annihilated d = e.annihilated d' := by
  simp only [Expr.annihilated, Directions.coefficientOrderIn, h.coefficientList]

end Comparison.Directed

namespace ElementField

variable {f : ElementField K}

theorem zeroDerivative_paired (rows : ℕ) {d d' : Directions} (h : A.Directed d d') :
    Paired A (Derivative.Like A.number) (f.zeroDerivative rows d) (f.zeroDerivative rows d') := by
  have hS := A.respected
  have hsize (block : BlockId) : Paired A Eq (f.correctionSize block) (f.correctionSize block) :=
    Paired.refl (fun _ => rfl) _
  have hzero {rows rows' cols cols' : ℕ} (hr : rows = rows') (hc : cols = cols') :
      (Mat.zero rows cols).Like A.number (Mat.zero rows' cols') := by
    subst hr hc
    exact .refl hS _
  obtain ⟨s, c⟩ := d
  obtain ⟨s', c'⟩ := d'
  obtain rfl : c' = c := h.coefficients
  cases c' with
  | none =>
    cases h.spatial with
    | none => exact Paired.pure (.matrix (.refl hS _))
    | some hs => cases hs <;> exact Paired.pure (.matrix (.refl hS _))
  | single c =>
    have hone : Paired A (Derivative.Like A.number)
        (do return .matrix (.zero rows (← f.correctionSize c.block)))
        (do return .matrix (.zero rows (← f.correctionSize c.block))) :=
      (hsize c.block).bind fun _ _ hn => Paired.pure (.matrix (hzero rfl hn))
    cases h.spatial with
    | none => exact hone
    | some hs =>
      cases hs with
      | single _ => exact hone
      | all =>
        refine (hsize c.block).bind fun n n' hn => Paired.pure (.perDirection ?_)
        obtain rfl : n = n' := hn
        exact List.forall₂_same.2 fun m _ => .refl hS m
  | two c₁ c₂ =>
    have hboth : Paired A (Derivative.Like A.number)
        (do return .matrix (.zero (← f.correctionSize c₁.block) (← f.correctionSize c₂.block)))
        (do return .matrix (.zero (← f.correctionSize c₁.block) (← f.correctionSize c₂.block))) :=
      (hsize c₁.block).bind fun _ _ hm => (hsize c₂.block).bind fun _ _ hn =>
        Paired.pure (.matrix (hzero hm hn))
    cases h.spatial with
    | none => exact hboth
    | some hs => cases hs <;> exact hboth

/-- Where no derivative is skipped, it is enough that the value and the rule of the node answer
alike. -/
theorem alike_of_rule {e : Expr K}
    (hvalue : Paired A (Mat.Like A.number) ((f.operand e).value A.left)
      ((f.operand e).value A.right))
    (hrule : ∀ r r' : Request K, r.Like A r' → Paired A (Derivative.Like A.number)
      (f.rule Expr.annihilated e r) (f.rule Expr.annihilated e r')) :
    (f.operand e).Alike A (f.operand e) := by
  refine ⟨hvalue, fun r r' h => ?_⟩
  rw [operand, operandWith_derivative, operandWith_derivative, h.directed.annihilated_eq e]
  by_cases hv : r.directions = .value
  · rw [if_pos hv, if_pos (h.directed.isValue_iff.1 hv), h.site, h.site']
    exact hvalue.bind fun _ _ hm => Paired.pure (.matrix hm)
  · rw [if_neg hv, if_neg fun hv' => hv (h.directed.isValue_iff.2 hv')]
    split
    · exact zeroDerivative_paired _ h.directed
    · exact hrule r r' h

def LeavesAlike (f : ElementField K) (A : Comparison K) (e : Expr K) : Prop :=
  ∀ slot ∈ e.slots, ∀ l, f.leaves[slot]? = some l → l.primitives.Alike A l.toLeafData

def TangentsAlike (f : ElementField K) (A : Comparison K) (e : Expr K) : Prop :=
  ∀ a, (Expr.unary .strain a).IsPart e → Paired A (Mat.Like A.number)
    (f.referenceTangents a A.left) (f.referenceTangents a A.right)

theorem leaf_alike (hA : A.Names) (slot : ℕ) (signature : LeafSignature)
    (hleaf : f.LeavesAlike A (.leaf slot signature)) :
    (f.operand (.leaf slot signature)).Alike A (f.operand (.leaf slot signature)) := by
  cases hget : f.leaves[slot]? with
  | none =>
    have hmissing : f.leafIn slot = .error (.broken .misfit) := by rw [leafIn, hget]
    refine alike_of_rule ?_ fun r r' _ => ?_
    · show Paired A _ (f.leafValue slot A.left) (f.leafValue slot A.right)
      rw [leafValue, leafValue, hmissing]
      exact Paired.refused (A.failure_self _)
    · show Paired A _ (f.leafDerivative slot r) (f.leafDerivative slot r')
      rw [leafDerivative, leafDerivative, hmissing]
      exact Paired.refused (A.failure_self _)
  | some l =>
    have hl := hleaf slot List.mem_cons_self l hget
    refine alike_of_rule ?_ fun r r' h => ?_
    · show Paired A _ (f.leafValue slot A.left) (f.leafValue slot A.right)
      rw [leafValue_eq hget, leafValue_eq hget]
      exact hl.value.bind fun _ _ hv => Paired.pure (Mat.like_column A.respected hv)
    · show Paired A _ (f.leafDerivative slot r) (f.leafDerivative slot r')
      rw [leafDerivative_eq hget, leafDerivative_eq hget, h.directed.coefficientList]
      split
      · exact zeroDerivative_paired _ h.directed
      · exact l.answer_paired hl hA h

/-- An expression answers alike at two sites if its leaves and the reference tangents do. -/
theorem operand_alike (hA : A.Names) {e : Expr K} (hleaf : f.LeavesAlike A e)
    (htangents : f.TangentsAlike A e) : (f.operand e).Alike A (f.operand e) := by
  have hS := A.respected
  induction e with
  | leaf slot signature => exact leaf_alike hA slot signature hleaf
  | constant x =>
    exact alike_of_rule (Paired.pure (.refl hS _)) fun r r' h =>
      zeroDerivative_paired _ h.directed
  | unary op a ih =>
    have ha := ih hleaf fun b hb => htangents b (.unary op hb)
    have hscaled (x : K) (r r' : Request K) (h : r.Like A r') : Paired A (Derivative.Like A.number)
        (do return (← (f.operand a).derivative r).scale x)
        (do return (← (f.operand a).derivative r').scale x) :=
      (ha.derivative r r' h).bind fun _ _ hD => Paired.pure (hD.scale hS (hS.refl x))
    have hvalue (x : K) : Paired A (Mat.Like A.number)
        (do return (← (f.operand a).value A.left).scale x)
        (do return (← (f.operand a).value A.right).scale x) :=
      ha.value.bind fun _ _ hm => Paired.pure (hm.scale hS (hS.refl x))
    cases op with
    | negate => exact alike_of_rule (hvalue (-1)) (hscaled (-1))
    | scale factor => exact alike_of_rule (hvalue factor) (hscaled factor)
    | map g =>
      exact alike_of_rule (Chain.value_paired ha g) fun r r' h => Chain.derivative_paired ha h hA g
    | strain =>
      -- The geometry enters here by itself, not only through the gradients of the leaves.
      have href := htangents a (.refl _)
      exact alike_of_rule (Strain.value_paired ha href) fun r r' h =>
        Strain.derivative_paired ha href h hA
  | binary op a b iha ihb =>
    have ha := iha (fun slot hs => hleaf slot (List.mem_append_left _ hs))
      fun c hc => htangents c (.left op b hc)
    have hb := ihb (fun slot hs => hleaf slot (List.mem_append_right _ hs))
      fun c hc => htangents c (.right op a hc)
    cases op with
    | sum =>
      refine alike_of_rule ?_ fun r r' h => ?_
      · exact ha.value.bind fun _ _ hm => hb.value.bind fun _ _ hn => Paired.lift (hm.add hS hn)
      · exact (ha.derivative r r' h).bind fun _ _ hD => (hb.derivative r r' h).bind fun _ _ hE =>
          Paired.lift (hD.add hS hE)
    | dot =>
      exact alike_of_rule (Product.value_paired ha hb) fun r r' h =>
        Product.derivative_paired ha hb h hA

end ElementField

end ElementFields
