import ElementFields.Proofs.Covariance
import ElementFields.Proofs.Displacements
import ElementFields.Proofs.Substitution
import ElementFields.Proofs.Totality
import ElementFields.Proofs.VoigtTensors

namespace ElementFields
open Scalar
open scoped BigOperators

variable {K : Type} [ExactScalar K]

namespace Partials

structure PullsBack (dim : ℕ) (J : Mat K) (S S' : Partials K) : Prop where
  value : ∀ q < strainSize dim,
    Combines (strainSize dim) ((Strain.pullBack dim J).entry q) (S.value q) S'.value
  varied : ∀ α, ∀ q < strainSize dim,
    Combines (strainSize dim) ((Strain.pullBack dim J).entry q) (S.varied α q) (S'.varied α)
  twice : ∀ α β, ∀ q < strainSize dim,
    Combines (strainSize dim) ((Strain.pullBack dim J).entry q) (S.twice α β q) (S'.twice α β)

/-- If the displacement and the reference tangents turn, then the strains are pulled back. -/
theorem TurnsTo.pullsBack {dim : ℕ} {J : Mat K} {U U' : Partials K}
    (hU : U.TurnsTo dim (fun k m => J.entry m k) U') (hdim : dim ≤ 3) {A A' : ℕ → ℕ → K}
    (hA : ∀ d < dim, ∀ k < dim, Combines dim (fun m => J.entry m k) (A d k) (A' d)) :
    PullsBack dim J (strains dim A U) (strains dim A' U') := by
  have hslope : ∀ d < dim, ∀ k < dim,
      Combines dim (fun m => J.entry m k) (U.slope k d) fun m => U'.slope m d :=
    fun d _ k hk => hU.slope k hk d
  have hvariation (α : Variable) : ∀ d < dim, ∀ k < dim,
      Combines dim (fun m => J.entry m k) (U.variation α d k) (U'.variation α d) :=
    fun d _ k hk => hU.mixed k hk α d
  refine ⟨fun q hq => ?_, fun α q hq => ?_, fun α β q hq => ?_⟩
  · have hlinear := Strain.pairing_of_turned hdim hA hslope hq
    have hquadratic := Strain.pairing_of_turned hdim hslope hslope hq
    exact hlinear.add (hquadratic.mul_left (1 / 2))
  · -- The current tangents are sums of families that turn.
    have hcurrent : ∀ d < dim, ∀ k < dim, Combines dim (fun m => J.entry m k)
        (A d k + U.slope k d) fun m => A' d m + U'.slope m d :=
      fun d hd k hk => (hA d hd k hk).add (hslope d hd k hk)
    exact Strain.pairing_of_turned hdim hcurrent (hvariation α) hq
  · exact Strain.pairing_of_turned hdim (hvariation α) (hvariation β) hq

namespace PullsBack

variable {G : ℕ} {J : Mat K} {S S' : Partials K} (h : S.PullsBack G J S') {C : BlockId → ℕ}
  {site site' : Site K}
include h

/-- A derivative with respect to one coefficient is pulled back column by column. -/
theorem mul_single {c : Coefficient} {along : Option (Mat K)} {D D' : Derivative K}
    (hD : S.ReadBy (strainSize G) G C ⟨site, ⟨none, .single c⟩, along⟩ D)
    (hD' : S'.ReadBy (strainSize G) G C ⟨site', ⟨none, .single c⟩, along⟩ D') :
    ∃ M M', D = .matrix M ∧ D' = .matrix M' ∧ (Strain.pullBack G J).mul M' = .ok M := by
  obtain ⟨M, rfl, hM⟩ := hD.1.exists_matrix
  obtain ⟨M', rfl, hM'⟩ := hD'.1.exists_matrix
  refine ⟨M, M', rfl, rfl, Strain.pullBack_mul_eq ⟨hM.1, hM.2.trans hM'.2.symm⟩ hM'.1 ?_⟩
  intro q hq a ha
  have ha : a < C c.block := hM'.2 ▸ ha
  have hread : M.entry q a = S.varied ⟨c, a⟩ q := hD.2 q hq a ha
  have hread' : ∀ m < strainSize G, M'.entry m a = S'.varied ⟨c, a⟩ m :=
    fun m hm => hD'.2 m hm a ha
  rw [hread]
  exact (h.varied ⟨c, a⟩ q hq).congr hread'

/-- A derivative with respect to two coefficients, contracted with `s`, is the one of the other strains
contracted with what the transpose makes of `s`. -/
theorem eq_of_two {c₁ c₂ : Coefficient} {s s' : Mat K} {D D' : Derivative K}
    (hD : S.ReadBy (strainSize G) G C ⟨site, ⟨none, .two c₁ c₂⟩, some s⟩ D)
    (hD' : S'.ReadBy (strainSize G) G C ⟨site', ⟨none, .two c₁ c₂⟩, some s'⟩ D')
    (hs : (Strain.pullBack G J).transposeMul s = .ok s') : D = D' := by
  obtain ⟨-, -, hentry⟩ := Mat.transposeMul_eq_ok hs
  apply Derivative.ext_of_hasForm hD.1 hD'.1
  apply Derivative.entry_congr hD.1 hD'.1
  intro z a b hz ha hb
  obtain rfl : z = 0 := Nat.lt_one_iff.1 hz
  have hread := hD.2 s rfl a ha b hb
  have hread' := hD'.2 s' rfl a ha b hb
  rw [hread, hread']
  calc ∑ q ∈ Finset.range (strainSize G), s.entry q 0 * S.twice ⟨c₁, a⟩ ⟨c₂, b⟩ q
      = ∑ q ∈ Finset.range (strainSize G), ∑ m ∈ Finset.range (strainSize G),
          (Strain.pullBack G J).entry q m * s.entry q 0 * S'.twice ⟨c₁, a⟩ ⟨c₂, b⟩ m := by
        apply Finset.sum_congr rfl
        intro q hq
        rw [h.twice _ _ q (Finset.mem_range.mp hq), Finset.mul_sum]
        apply Finset.sum_congr rfl
        intro m _
        ring
    _ = ∑ m ∈ Finset.range (strainSize G), s'.entry m 0 * S'.twice ⟨c₁, a⟩ ⟨c₂, b⟩ m := by
        rw [Finset.sum_comm]
        apply Finset.sum_congr rfl
        intro m _
        rw [hentry, Finset.sum_mul]
        rfl

end PullsBack

end Partials

namespace ElementField

variable {f : ElementField K} {a : Expr K} {g : Geometry K} {p : EvaluationPoint K} {Jt : Mat K}

/-- The shape functions are known at every reference position, and at an integration point for which
there are tables. -/
theorem MappedAt.tabulated (h : f.MappedAt g p Jt) (hleaf : ∀ l ∈ f.reachableLeaves, l.Standard)
    (htables : (∃ ξ, p = .position ξ) ∨ ∀ l ∈ f.reachableLeaves,
      ∃ φ m, l.shapes.valuesAt p = .ok φ ∧ l.shapes.gradientsAt p = .ok m) :
    ∀ l ∈ f.reachableLeaves, l.toLeafData.Tabulated (fun _ => False) ⟨p, .referenceElement⟩ := by
  intro l hl
  have hcount := (hleaf l hl).numCoefficients_eq
  rcases htables with ⟨ξ, rfl⟩ | htables
  · obtain ⟨η, hη, -⟩ := h.jacobian l hl
    have hξ : ξ.size = l.gridDim := by
      by_contra hne
      nomatch (if_neg hne).symm.trans hη
    exact LeafData.tabulated_at_position hcount hξ
  · obtain ⟨φ, m, hφ, hm⟩ := htables l hl
    have hsound := (hleaf l hl).kind.sound
    refine ⟨?_, Meets.bind (P := fun m => m.HasShape l.gridDim l.numCoefficients) ?_
      fun g hg => Meets.pure hg⟩
    · show Meets _ (l.shapes.valuesAt p) _
      rw [hφ, hcount]
      exact Meets.pure (hsound.size_valuesAt hφ)
    · rw [hm, hcount]
      exact Meets.pure (hsound.shape_gradientsAt hm)

section Strained

variable (he : f.Hosts (.unary .strain a)) (h : f.MappedAt g p Jt)
include he h

/-- On the reference element the reference tangents are the columns of the Jacobian. -/
theorem referenceTangents_mapped :
    f.referenceTangents a ⟨p, .referenceElement⟩ = .ok Jt.transpose := by
  have hleaves : ∀ l ∈ leavesIn f.leaves a.slots, l ∈ f.reachableLeaves :=
    fun l hl => he.1.mem_reachableLeaves hl
  have hgeometry : ((leavesIn f.leaves a.slots).any fun l => l.geometry.isNone) = false := by
    rw [List.any_eq_false]
    intro l hl
    rw [h.geometry l (hleaves l hl), Option.isNone_some]
    decide
  -- An expression without leaves has no dimension.
  have hne : a.slots ≠ [] := fun hnil =>
    absurd (he.2.1.2.symm.trans (Expr.gridDim_of_slots_eq_nil hnil)) (Option.some_ne_none _)
  obtain ⟨slot, hslot⟩ := List.exists_mem_of_ne_nil _ hne
  obtain ⟨signature, l, hl⟩ := he.1.exists_leaf hslot
  have hmem : l ∈ leavesIn f.leaves a.slots := List.mem_filterMap.2 ⟨slot, hslot, hl.get⟩
  rcases hlist : leavesIn f.leaves a.slots with _ | ⟨first, rest⟩
  · rw [hlist] at hmem
    exact absurd hmem List.not_mem_nil
  · have hfirst : first ∈ f.reachableLeaves :=
      hleaves first (hlist ▸ List.mem_cons_self)
    obtain ⟨ξ, hξ, hJt⟩ := h.jacobian first hfirst
    have hshape : Jt.shape = (f.gridDim, f.gridDim) := Prod.ext h.rows_eq h.cols_eq
    rw [hlist] at hgeometry
    simp only [referenceTangents, tangentsOver, hlist, hgeometry, Bool.false_eq_true, if_false,
      h.geometry first hfirst]
    refine bind_eq_ok_iff.2 ⟨g, rfl, bind_eq_ok_iff.2 ⟨ξ, hξ,
      bind_eq_ok_iff.2 ⟨Jt, lift_eq_ok_iff.2 hJt, ?_⟩⟩⟩
    rw [if_pos hshape]
    rfl

variable (hleaf : ∀ l ∈ f.reachableLeaves, l.Standard)
include hleaf

/-- The strains are answered in both frames or in none. -/
theorem strain_alike_frames : (f.operand (.unary .strain a)).Alike (.frames p f.gridDim)
    (f.operand (.unary .strain a)) := by
  have hfree := (isPolynomial_of_orders hleaf he.1 he.linear_of_strain).strainFree
  apply operand_alike ⟨fun _ _ _ => trivial, fun _ _ _ _ => trivial⟩
  · intro slot hs l hget
    obtain ⟨signature, l', hl⟩ := he.1.exists_leaf hs
    obtain rfl := Option.some.inj (hget.symm.trans hl.get)
    have hstandard := hleaf l hl.mem
    have halike := (h.leaf hl).alike hstandard.kind.sound
    rw [hl.gridDim] at halike
    exact hstandard.ofLibrary.alike halike
  · -- The displacement holds no strains, so tangents are asked for once, at the top.
    intro b hb
    cases hb with
    | refl =>
      show Paired _ _ (f.referenceTangents a ⟨p, .referenceElement⟩)
        (f.referenceTangents a ⟨p, .gridElement⟩)
      rw [referenceTangents_mapped he h]
      exact Paired.pure ⟨h.cols_eq, h.rows_eq, fun _ _ => trivial⟩
    | unary _ hb => exact (hfree.part hb).elim

/-- The strains are read off two tables, one for each frame, and the one is pulled back from the
other. -/
theorem exists_strains : ∃ S S' : Partials K, S.PullsBack f.gridDim Jt.transpose S' ∧
    ∀ d along, f.Admits d →
      (f.operand (.unary .strain a)).Reads (strainSize f.gridDim) f.gridDim f.tangentDim S
        ⟨⟨p, .referenceElement⟩, d, along⟩ ∧
      (f.operand (.unary .strain a)).Reads (strainSize f.gridDim) f.gridDim f.tangentDim S'
        ⟨⟨p, .gridElement⟩, d, along⟩ := by
  have hfree := (isPolynomial_of_orders hleaf he.1 he.linear_of_strain).strainFree
  have hshape : ∀ l ∈ f.reachableLeaves, l.KeepsShapes := fun l hl => (hleaf l hl).kind.keepsShapes
  obtain ⟨T, T', hT, hturns⟩ := exists_turning hleaf h
  have hJ : Jt.entry = fun k m => Jt.transpose.entry m k := by
    funext k m
    rw [Mat.entry_transpose]
  have hU : (a.partials T).TurnsTo f.gridDim (fun k m => Jt.transpose.entry m k) (a.partials T') :=
    hJ ▸ Expr.turnsTo_partials (fun slot _ => hturns slot) hfree
  -- A unit vector of the grid element is turned into a column of the Jacobian.
  have hA : ∀ d < f.gridDim, ∀ k < f.gridDim, Combines f.gridDim (fun m => Jt.transpose.entry m k)
      (f.tangentEntry ⟨p, .referenceElement⟩ a d k) (f.tangentEntry ⟨p, .gridElement⟩ a d) := by
    intro d hd k _
    have hgrid : ∀ m < f.gridDim, f.tangentEntry ⟨p, .gridElement⟩ a d m = delta d m := by
      intro m hm
      have hidentity : f.referenceTangents a ⟨p, .gridElement⟩ = .ok (.identity f.gridDim) := rfl
      rw [← entry_referenceTangents hidentity, Mat.entry_identity hd hm]
    have hunit : Combines f.gridDim (fun m => Jt.transpose.entry m k) (Jt.transpose.entry d k)
        (delta d) := by
      rw [Combines, ← sum_delta_mul hd fun m => Jt.transpose.entry m k]
      apply Finset.sum_congr rfl
      intro m _
      rw [mul_comm]
    rw [← entry_referenceTangents (referenceTangents_mapped he h)]
    exact hunit.congr hgrid
  have hsize : (Expr.unary .strain a).valueSize = strainSize f.gridDim := by
    rw [Expr.valueSize, he.2.1.2, Option.getD_some]
  refine ⟨.strains f.gridDim (f.tangentEntry ⟨p, .referenceElement⟩ a) (a.partials T),
    .strains f.gridDim (f.tangentEntry ⟨p, .gridElement⟩ a) (a.partials T'),
    hU.pullsBack he.2.2.1.2 hA, fun d along hd => ?_⟩
  have hreads := readsTable hshape (hT _).1 he ⟨⟨p, .referenceElement⟩, d, along⟩ rfl hd
  have hreads' := readsTable hshape (hT _).2 he ⟨⟨p, .gridElement⟩, d, along⟩ rfl hd
  rw [hsize, table, Expr.table, Expr.table_eq_partials hfree] at hreads hreads'
  exact ⟨hreads, hreads'⟩

/-- The strains on the reference element are those on the grid element, pulled back. -/
theorem value_pullBack :
    let value (t : Transform) := (f.operand (.unary .strain a)).value ⟨p, t⟩
    (∃ E E' : Mat K, value .referenceElement = .ok E ∧ value .gridElement = .ok E' ∧
      (Strain.pullBack f.gridDim Jt.transpose).mul E' = .ok E) ∨
    (∃ e, value .referenceElement = .error e) ∧ ∃ e, value .gridElement = .error e := by
  intro value
  obtain ⟨E, E', hE, hE'⟩ | hrefused :=
    (strain_alike_frames he h hleaf).value.ok_or_refused fun h => h
  · refine .inl ⟨E, E', hE, hE', ?_⟩
    have hformed := operandWith_formed (fun l hl => (hleaf l hl).kind.keepsShapes)
      Expr.annihilated he f.admits_value
    rw [Expr.valueSize, he.2.1.2, Option.getD_some] at hformed
    obtain ⟨hrows, hcols⟩ := hformed.value _ E hE
    obtain ⟨hrows', hcols'⟩ := hformed.value _ E' hE'
    obtain ⟨S, S', hS, hreads⟩ := exists_strains he h hleaf
    obtain ⟨hread, hread'⟩ := hreads .value none f.admits_value
    apply Strain.pullBack_mul_eq ⟨hrows, hcols.trans hcols'.symm⟩ hrows'
    intro q hq j hj
    obtain rfl : j = 0 := Nat.lt_one_iff.1 (hcols' ▸ hj)
    rw [hread.value E hE q hq]
    exact (hS.value q hq).congr fun m hm => hread'.value E' hE' m hm
  · exact .inr hrefused

/-- What is answered in both frames is read off tables of which one is the other pulled back. -/
theorem strain_answers (c : CoefficientPart) (hc : f.Admits ⟨none, c⟩) {along along' : Option (Mat K)}
    (hlike : Option.Rel (Mat.Like fun _ _ => True) along along')
    (hfits : Request.Fits (strainSize f.gridDim) f.gridDim
      ⟨⟨p, .referenceElement⟩, ⟨none, c⟩, along⟩)
    (hfits' : Request.Fits (strainSize f.gridDim) f.gridDim
      ⟨⟨p, .gridElement⟩, ⟨none, c⟩, along'⟩) :
    let answer (t : Transform) (along : Option (Mat K)) :=
      (f.operand (.unary .strain a)).derivative ⟨⟨p, t⟩, ⟨none, c⟩, along⟩
    (∃ D D', answer .referenceElement along = .ok D ∧ answer .gridElement along' = .ok D' ∧
      ∃ S S' : Partials K, S.PullsBack f.gridDim Jt.transpose S' ∧
        S.ReadBy (strainSize f.gridDim) f.gridDim f.tangentDim
          ⟨⟨p, .referenceElement⟩, ⟨none, c⟩, along⟩ D ∧
        S'.ReadBy (strainSize f.gridDim) f.gridDim f.tangentDim
          ⟨⟨p, .gridElement⟩, ⟨none, c⟩, along'⟩ D') ∨
    (∃ e, answer .referenceElement along = .error e) ∧
      ∃ e, answer .gridElement along' = .error e := by
  intro answer
  have hrequests : Request.Like (.frames p f.gridDim)
      ⟨⟨p, .referenceElement⟩, ⟨none, c⟩, along⟩ ⟨⟨p, .gridElement⟩, ⟨none, c⟩, along'⟩ :=
    ⟨rfl, rfl, ⟨.none, rfl⟩, hlike⟩
  have halike := (strain_alike_frames he h hleaf).derivative _ _ hrequests
  obtain ⟨D, D', hD, hD'⟩ | hrefused := halike.ok_or_refused fun h => h
  · obtain ⟨S, S', hS, hreads⟩ := exists_strains he h hleaf
    obtain ⟨hread, -⟩ := hreads ⟨none, c⟩ along hc
    obtain ⟨-, hread'⟩ := hreads ⟨none, c⟩ along' hc
    exact .inl ⟨D, D', hD, hD', S, S', hS, hread.derivative _ D rfl (.refl _) hfits hD,
      hread'.derivative _ D' rfl (.refl _) hfits' hD'⟩
  · exact .inr hrefused

/-- Where the shape functions are known, the strains are answered. -/
theorem strains_answered (htables : (∃ ξ, p = .position ξ) ∨ ∀ l ∈ f.reachableLeaves,
      ∃ φ m, l.shapes.valuesAt p = .ok φ ∧ l.shapes.gradientsAt p = .ok m) {c : CoefficientPart}
    (hc : f.Admits ⟨none, c⟩) :
    (f.operand (.unary .strain a)).Total (fun _ => False) (strainSize f.gridDim) f.gridDim
      f.tangentDim ⟨p, .referenceElement⟩ ⟨none, c⟩ := by
  have hfree := (isPolynomial_of_orders hleaf he.1 he.linear_of_strain).strainFree
  have hserve : ∀ l ∈ f.reachableLeaves, l.Serves (fun _ => False) ⟨p, .referenceElement⟩ :=
    fun l hl => (hleaf l hl).serves (h.tabulated hleaf htables l hl)
  have htangents : Meets (fun _ => False) (f.referenceTangents a ⟨p, .referenceElement⟩)
      (·.HasShape f.gridDim f.gridDim) := by
    rw [referenceTangents_mapped he h]
    exact Meets.pure ⟨h.cols_eq, h.rows_eq⟩
  have hsize : (Expr.unary .strain a).valueSize = strainSize f.gridDim := by
    rw [Expr.valueSize, he.2.1.2, Option.getD_some]
  rw [← hsize]
  apply total_strain he _ htangents hc (Or.inl rfl)
  exact operandWith_total hserve Expr.annihilated he.1 fun b hb => (hfree.part hb).elim

end Strained

/-- Strains in the two frames. Let `J` be the Jacobian of the geometry of all leaves of a displacement
at the point. The tensor of its strains on the reference element is `Jᵀ E J`, with `E` the one on the
grid element. The linear map of the components that this is takes every derivative with respect to a
coefficient on the grid element to the one on the reference element, and a derivative with respect to
two coefficients on the reference element, contracted with `s`, is the one on the grid element
contracted with what its transpose makes of `s`. Where one of the two is refused, so is the other; and
neither is at a reference position, or at an integration point for which the leaves have tables. -/
theorem strain_pulls_back (hf : f.Built) (ha : (Expr.unary .strain a).IsPart f.expr)
    (hleaf : ∀ l ∈ (f.restrictedTo a).reachableLeaves, l.Standard)
    (h : (f.restrictedTo a).MappedAt g p Jt) :
    let J := Jt.transpose
    let G := f.gridDim
    let T : Mat K := Strain.pullBack G J
    let value (t : Transform) := (f.operand (.unary .strain a)).value ⟨p, t⟩
    let answer (t : Transform) (c : CoefficientPart) (along : Option (Mat K)) :=
      (f.operand (.unary .strain a)).derivative ⟨⟨p, t⟩, ⟨none, c⟩, along⟩
    (∀ v w : Mat K, T.mul v = .ok w → J.Congruent (Strain.tensor G v) (Strain.tensor G w)) ∧
    ((∃ E E' : Mat K, value .referenceElement = .ok E ∧ value .gridElement = .ok E' ∧
        J.Congruent (Strain.tensor G E') (Strain.tensor G E) ∧ T.mul E' = .ok E) ∨
      (∃ e, value .referenceElement = .error e) ∧ ∃ e, value .gridElement = .error e) ∧
    (∀ c along, f.Admits ⟨none, .single c⟩ →
      (∃ M M' : Mat K, answer .referenceElement (.single c) along = .ok (.matrix M) ∧
        answer .gridElement (.single c) along = .ok (.matrix M') ∧ T.mul M' = .ok M) ∨
      (∃ e, answer .referenceElement (.single c) along = .error e) ∧
        ∃ e, answer .gridElement (.single c) along = .error e) ∧
    (∀ c₁ c₂, f.Admits ⟨none, .two c₁ c₂⟩ → ∀ s : Mat K, s.shape = (strainSize G, 1) →
      ∃ s', T.transposeMul s = .ok s' ∧
        ((∃ M : Mat K, answer .referenceElement (.two c₁ c₂) (some s) = .ok (.matrix M) ∧
          answer .gridElement (.two c₁ c₂) (some s') = .ok (.matrix M)) ∨
        (∃ e, answer .referenceElement (.two c₁ c₂) (some s) = .error e) ∧
          ∃ e, answer .gridElement (.two c₁ c₂) (some s') = .error e)) ∧
    ((∃ ξ, p = .position ξ) ∨ (∀ l ∈ (f.restrictedTo a).reachableLeaves, ∃ φ m,
        l.shapes.valuesAt p = .ok φ ∧ l.shapes.gradientsAt p = .ok m) →
      (∃ E, value .referenceElement = .ok E) ∧
      (∀ c along, f.Admits ⟨none, .single c⟩ →
        ∃ D, answer .referenceElement (.single c) along = .ok D) ∧
      ∀ c₁ c₂, f.Admits ⟨none, .two c₁ c₂⟩ → ∀ s : Mat K, s.shape = (strainSize G, 1) →
        ∃ D, answer .referenceElement (.two c₁ c₂) (some s) = .ok D) := by
  intro J G T value answer
  have hpart := hf.hosts.part ha
  have hG : G ≤ 3 := hpart.2.2.1.2
  have he : (f.restrictedTo a).Hosts (.unary .strain a) := hpart.restrictedTo fun _ hs => hs
  -- Only the leaves below the displacement count; nothing is known of the others.
  have hoperand := f.operand_restrictedTo a (.unary .strain a)
  have hcongruent (v w : Mat K) (hw : T.mul v = .ok w) :
      J.Congruent (Strain.tensor G v) (Strain.tensor G w) :=
    Strain.congruent_tensor hG ⟨h.cols_eq, h.rows_eq⟩ hw
  have hfits {site : Site K} {c₁ c₂ : Coefficient} {W : Mat K} (hW : W.rows = strainSize G)
      (hW' : W.cols = 1) : Request.Fits (strainSize G) G ⟨site, ⟨none, .two c₁ c₂⟩, some W⟩ :=
    fun _ _ _ => ⟨W, rfl, hW, hW'⟩
  refine ⟨hcongruent, ?_, ?_, ?_, fun htables => ?_⟩
  · have hvalue := value_pullBack he h hleaf
    rw [hoperand] at hvalue
    obtain ⟨E, E', hE, hE', hT⟩ | hrefused := hvalue
    · exact .inl ⟨E, E', hE, hE', hcongruent E' E hT, hT⟩
    · exact .inr hrefused
  · intro c along hc
    have hanswers := strain_answers he h hleaf (.single c) hc (along_refl along)
      (Request.fits_of_single rfl) (Request.fits_of_single rfl)
    rw [hoperand] at hanswers
    obtain ⟨D, D', hD, hD', S, S', hS, hread, hread'⟩ | hrefused := hanswers
    · obtain ⟨M, M', rfl, rfl, hT⟩ := hS.mul_single hread hread'
      exact .inl ⟨M, M', hD, hD', hT⟩
    · exact .inr hrefused
  · intro c₁ c₂ hc s hs
    obtain ⟨hrows, hcols⟩ := Prod.mk.inj hs
    obtain ⟨s', hs'⟩ : ∃ s', T.transposeMul s = .ok s' := ⟨_, require_eq_ok.2 ⟨hrows.symm, rfl⟩⟩
    obtain ⟨-, ⟨hrows', hcols'⟩, -⟩ := Mat.transposeMul_eq_ok hs'
    have hlike : s.Like (fun _ _ => True) s' :=
      ⟨hrows.trans hrows'.symm, hcols'.symm, fun _ _ => trivial⟩
    have hanswers := strain_answers he h hleaf (.two c₁ c₂) hc (.some hlike) (hfits hrows hcols)
      (hfits hrows' (hcols'.trans hcols))
    rw [hoperand] at hanswers
    refine ⟨s', hs', ?_⟩
    obtain ⟨D, D', hD, hD', S, S', hS, hread, hread'⟩ | hrefused := hanswers
    · obtain rfl := hS.eq_of_two hread hread' hs'
      obtain ⟨M, rfl, -⟩ := hread.1.exists_matrix
      exact .inl ⟨M, hD, hD'⟩
    · exact .inr hrefused
  · have htotal {c : CoefficientPart} (hc : f.Admits ⟨none, c⟩) :=
      strains_answered he h hleaf htables hc
    rw [hoperand] at htotal
    refine ⟨?_, fun c along hc => ?_, fun c₁ c₂ hc s hs => ?_⟩
    · obtain ⟨E, hE, -⟩ := (htotal (c := .none) ⟨fun _ hk => (nomatch hk),
        fun _ hc => absurd hc List.not_mem_nil⟩).value.exists_ok
      exact ⟨E, hE⟩
    · obtain ⟨D, hD, -⟩ := ((htotal hc).derivative ⟨⟨p, .referenceElement⟩, ⟨none, .single c⟩, along⟩
        rfl (.refl _) (Request.fits_of_single rfl)).exists_ok
      exact ⟨D, hD⟩
    · obtain ⟨hrows, hcols⟩ := Prod.mk.inj hs
      obtain ⟨D, hD, -⟩ := ((htotal hc).derivative _ rfl (.refl _) (hfits hrows hcols)).exists_ok
      exact ⟨D, hD⟩

def strained : ElementField K where
  leaves := #[.placed ⟨0⟩]
  nodes := #[.leaf 0, .unary .strain 0]
  root := 1
  top := .unary .strain 0 (.leaf 0 (Leaf.placed ⟨0⟩ : Leaf K).signature)
  slots := [0]
  blocks := [{ block := ⟨0⟩, correctionSize := 2, numCoefficients := 3 }]

theorem built_strained : (strained : ElementField K).Built := by
  let leaves : Array (Leaf K) := #[.placed ⟨0⟩]
  let u : Entry K := .leaf 0 (Leaf.placed ⟨0⟩ : Leaf K).signature
  have hleaf : Builder.Reachable { leaves, entries := #[u] } :=
    Builder.Reachable.empty.step (.leaf (.placed ⟨0⟩))
  have hstrain : Builder.Reachable { leaves, entries := #[u, .unary .strain 0 u] } :=
    hleaf.step (.strain 0)
  exact .build hstrain (build_eq_of_sorted rfl ⟨rfl, rfl⟩ rfl
    (List.pairwise_singleton _ _) rfl (List.pairwise_singleton _ _))

theorem mem_strained {l : Leaf K} (hl : l ∈ (strained : ElementField K).reachableLeaves) :
    l = .placed ⟨0⟩ := List.mem_singleton.1 hl

theorem mappedAt_strained :
    (strained : ElementField K).MappedAt .sheared (.position #[0, 0]) Geometry.shear where
  geometry l hl := by rw [mem_strained hl]; rfl
  referenceDim := rfl
  jacobian l hl := by
    refine ⟨#[0, 0], ?_, Geometry.jacobianTransposed_sheared #[0, 0]⟩
    rw [mem_strained hl]
    rfl
  rows := rfl
  invertible := Geometry.invertible_shear

/-- The strains of that displacement, their derivative with respect to a coefficient, and the one with
respect to two coefficients. -/
theorem strain_pulls_back_strained :
    let f : ElementField ℝ := strained
    let p : EvaluationPoint ℝ := .position #[0, 0]
    let u : Expr ℝ := .leaf 0 (Leaf.placed ⟨0⟩ : Leaf ℝ).signature
    let J : Mat ℝ := Geometry.shear.transpose
    let T : Mat ℝ := Strain.pullBack 2 J
    let c₁ : Coefficient := ⟨⟨0⟩, 1⟩
    let c₂ : Coefficient := ⟨⟨0⟩, 2⟩
    let s : Mat ℝ := .ofFn 3 1 fun q _ => if q = 0 then 1 else 2
    let value (t : Transform) := (f.operand (.unary .strain u)).value ⟨p, t⟩
    let answer (t : Transform) (c : CoefficientPart) (along : Option (Mat ℝ)) :=
      (f.operand (.unary .strain u)).derivative ⟨⟨p, t⟩, ⟨none, c⟩, along⟩
    (f.Built ∧ (Expr.unary .strain u).IsPart f.expr ∧
      (∀ l ∈ (f.restrictedTo u).reachableLeaves, l.Standard) ∧
      (f.restrictedTo u).MappedAt .sheared p Geometry.shear ∧ f.Admits ⟨none, .two c₁ c₂⟩) ∧
    (∃ E E' : Mat ℝ, value .referenceElement = .ok E ∧ value .gridElement = .ok E' ∧
      J.Congruent (Strain.tensor 2 E') (Strain.tensor 2 E) ∧ T.mul E' = .ok E) ∧
    (∃ M M' : Mat ℝ, answer .referenceElement (.single c₁) none = .ok (.matrix M) ∧
      answer .gridElement (.single c₁) none = .ok (.matrix M') ∧ T.mul M' = .ok M) ∧
    ∃ s' M : Mat ℝ, T.transposeMul s = .ok s' ∧
      answer .referenceElement (.two c₁ c₂) (some s) = .ok (.matrix M) ∧
      answer .gridElement (.two c₁ c₂) (some s') = .ok (.matrix M) := by
  intro f p u J T c₁ c₂ s value answer
  have hf : f.Built := built_strained
  have hleaf : ∀ l ∈ (f.restrictedTo u).reachableLeaves, l.Standard := fun l hl =>
    mem_strained hl ▸ Leaf.standard_placed ⟨0⟩
  have hmapped : (f.restrictedTo u).MappedAt .sheared p Geometry.shear := mappedAt_strained
  have hinfo : f.blockInfo ⟨0⟩ = .ok ⟨⟨0⟩, 2, 3⟩ := rfl
  have hone : f.Admits ⟨none, .single c₁⟩ :=
    ⟨fun _ hk => (nomatch hk), fun c hc => List.mem_singleton.1 hc ▸ ⟨_, hinfo, by decide⟩⟩
  have htwo : f.Admits ⟨none, .two c₁ c₂⟩ := by
    refine ⟨fun _ hk => (nomatch hk), fun c hc => ?_⟩
    rcases List.mem_cons.1 hc with rfl | hc
    · exact ⟨_, hinfo, by decide⟩
    · obtain rfl := List.mem_singleton.1 hc
      exact ⟨_, hinfo, by decide⟩
  obtain ⟨-, hvalue, hsingle, hcontracted, hanswered⟩ :=
    strain_pulls_back hf (.refl _) hleaf hmapped
  obtain ⟨⟨E, hE⟩, hanswer, hcontract⟩ := hanswered (.inl ⟨_, rfl⟩)
  have hG : f.gridDim = 2 := rfl
  have hshape : s.shape = (strainSize f.gridDim, 1) := by
    rw [hG]
    rfl
  refine ⟨⟨hf, .refl _, hleaf, hmapped, htwo⟩, ?_, ?_, ?_⟩
  · obtain hE | ⟨⟨e, he⟩, -⟩ := hvalue
    · exact hE
    · nomatch he.symm.trans hE
  · obtain hM | ⟨⟨e, he⟩, -⟩ := hsingle c₁ none hone
    · exact hM
    · obtain ⟨D, hD⟩ := hanswer c₁ none hone
      nomatch he.symm.trans hD
  · obtain ⟨s', hs', hM⟩ := hcontracted c₁ c₂ htwo s hshape
    obtain ⟨M, hM⟩ | ⟨⟨e, he⟩, -⟩ := hM
    · exact ⟨s', M, hs', hM⟩
    · obtain ⟨D, hD⟩ := hcontract c₁ c₂ htwo s hshape
      nomatch he.symm.trans hD

end ElementField

end ElementFields
