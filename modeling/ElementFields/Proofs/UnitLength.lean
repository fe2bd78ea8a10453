import ElementFields.Proofs.LeafDerivatives
import ElementFields.Proofs.Totality

namespace ElementFields

open Scalar
open scoped BigOperators

namespace Jet

variable {V : ℕ}

theorem sum_mul (f : ℕ → Jet ℝ) (R : Jet ℝ) :
    sum V (fun d => (f d).mul R) = (sum V f).mul R := by
  ext <;> simp only [sum, mul, Finset.sum_add_distrib, Finset.sum_mul]

theorem sum_congr {f g : ℕ → Jet ℝ} (h : ∀ d < V, f d = g d) : sum V f = sum V g := by
  have hsum (entry : Jet ℝ → ℝ) :
      ∑ d ∈ Finset.range V, entry (f d) = ∑ d ∈ Finset.range V, entry (g d) :=
    Finset.sum_congr rfl fun d hd => congrArg entry (h d (Finset.mem_range.1 hd))
  ext
  exacts [hsum v, hsum x, hsum p, hsum q, hsum xp, hsum xq, hsum pq, hsum xpq]

theorem mul_mul_mul_comm (J R : Jet ℝ) : (J.mul R).mul (J.mul R) = (J.mul J).mul (R.mul R) := by
  ext <;> simp only [mul] <;> ring

/-- A perturbed positive number times the square of the reciprocal of its root. -/
theorem mul_square_reciprocal {S : Jet ℝ} (hpos : 0 < S.v) :
    let R := S.map (1 / Real.sqrt S.v) (reciprocalRoot S.v)
    S.mul (R.mul R) = const 1 := by
  intro R
  have hr : Real.sqrt S.v ≠ 0 := (Real.sqrt_pos.2 hpos).ne'
  have hv : S.v = Real.sqrt S.v * Real.sqrt S.v := (Real.mul_self_sqrt hpos.le).symm
  simp only [R, map, mul, const, reciprocalRoot, Nat.cast_ofNat]
  -- The unperturbed number is the square of its root, in which everything is rational.
  generalize Real.sqrt S.v = r at hr hv ⊢
  simp only [hv]
  ext
  all_goals
    simp only
    field_simp
  all_goals ring

/-- A perturbed vector, divided by its length, has the length one. -/
theorem square_normalize {J : ℕ → Jet ℝ} (hpos : 0 < (square V J).v) :
    square V (normalize V J) = const 1 := by
  rw [← mul_square_reciprocal hpos]
  simp only [square, normalize, mul_mul_mul_comm, sum_mul]

end Jet

namespace Partials

variable {V : ℕ} {T : Partials ℝ}

/-- A table is known by the perturbed numbers that it lists. -/
theorem ext_jet {A B : Partials ℝ} (h : ∀ k α β i, A.jet k α β i = B.jet k α β i) : A = B := by
  have γ : Variable := ⟨⟨⟨0⟩, 0⟩, 0⟩
  cases A
  cases B
  rw [Partials.mk.injEq]
  refine ⟨funext fun i => congrArg Jet.v (h 0 γ γ i), ?_, ?_, ?_, ?_, ?_⟩
  · exact funext fun k => funext fun i => congrArg Jet.x (h k γ γ i)
  · exact funext fun α => funext fun i => congrArg Jet.p (h 0 α γ i)
  · exact funext fun k => funext fun α => funext fun i => congrArg Jet.xp (h k α γ i)
  · exact funext fun α => funext fun β => funext fun i => congrArg Jet.pq (h 0 α β i)
  · exact funext fun k => funext fun α => funext fun β => funext fun i =>
      congrArg Jet.xpq (h k α β i)

/-- The inner product of a normalized field with itself is the constant one. -/
theorem inner_normalize (hpos : 0 < innerTo V T.value T.value) :
    inner V (T.normalize V) (T.normalize V) = const 1 := by
  refine ext_jet fun k α β i => ?_
  have hunit : ∀ d < V, (T.normalize V).jet k α β d = Jet.normalize V (T.jet k α β) d :=
    fun d hd => jet_normalize k α β hpos hd
  rw [jet_inner, jet_const, ← Jet.square_normalize (V := V) (J := T.jet k α β) hpos, Jet.square]
  exact Jet.sum_congr fun d hd => by rw [hunit d hd]

section Read

variable {K : Type} [ExactScalar K] {c : K} {V G : ℕ} {C : BlockId → ℕ} {r : Request K}
  {D : Derivative K}

/-- What is read from the table of a constant, other than the value, is zero. -/
theorem ReadBy.eq_zero_of_const (h : (const c : Partials K).ReadBy V G C r D)
    (hv : r.directions ≠ .value) (hfit : r.Fits V G) : D = (r.directions.form V G C).zero := by
  obtain ⟨hform, hentry⟩ := h
  refine Derivative.ext_of_hasForm hform (Form.hasForm_zero _)
    (Derivative.entry_congr hform (Form.hasForm_zero _) fun k i j hk hi hj => ?_)
  rw [Form.entry_zero]
  rcases hs : r.directions.spatial with _ | d <;>
    rcases hc : r.directions.coefficients with _ | c | ⟨c₁, c₂⟩ <;> simp only [hs, hc] at hentry
  case none.none => exact absurd (congrArg₂ Directions.mk hs hc) hv
  case none.single =>
    rw [Directions.form_single hs hc] at hk hi hj
    rw [Nat.lt_one_iff.1 hk, hentry i hi j hj]
    rfl
  case none.two =>
    obtain ⟨W, hW, -⟩ := hfit c₁ c₂ hc
    rw [Directions.form_two hc] at hk hi hj
    rw [Nat.lt_one_iff.1 hk, hentry W hW i hi j hj]
    exact Finset.sum_eq_zero fun _ _ => mul_zero _
  case some.none =>
    rw [Directions.form_spatial hs hc] at hk hi hj
    rw [Nat.lt_one_iff.1 hk, hentry i hi j hj]
    rfl
  case some.single =>
    obtain ⟨hcount, hrows, hcols⟩ := Directions.count_form_mixed (V := V) (G := G) (C := C) hs hc
    rw [hcount] at hk
    rw [hrows] at hi
    rw [hcols] at hj
    rw [hentry k hk i hi j hj]
    rfl
  case some.two =>
    obtain ⟨W, hW, -⟩ := hfit c₁ c₂ hc
    rw [Directions.form_two hc] at hk hi hj
    rw [Nat.lt_one_iff.1 hk, hentry W hW i hi j hj]
    exact Finset.sum_eq_zero fun _ _ => Finset.sum_eq_zero fun _ _ => mul_zero _

end Read

end Partials

/-- At different coefficients of a leaf without a quadrature rule, the one is zero without further ado
where the other asks for the shape functions first. -/
theorem Primitives.interpolation_ne_normalization {K : Type} [Scalar K] :
    (Primitives.interpolation : Primitives K) ≠ .normalization := by
  intro h
  let l : Leaf K := .onSegment ⟨0⟩ 0 0
  let site : Site K := ⟨.integrationPoint 0, .referenceElement⟩
  have hsecond := congrArg (fun P : Primitives K => P.second l.toLeafData site 0 1 (.zero 1 1)) h
  have hsecond : (Except.ok _ : Outcome (Mat K)) = .error _ := hsecond
  cases hsecond

namespace Leaf

variable {l : Leaf ℝ} {site : Site ℝ} {φ p : Vec ℝ}

theorem tableAt_of_normalization (hp : l.primitives = .normalization) (site : Site ℝ) :
    l.tableAt site =
      (l.table (l.valueEntry site) (l.gradientEntry site)).normalize l.valueSize :=
  if_neg fun h => Primitives.interpolation_ne_normalization (h.symm.trans hp)

/-- Where the interpolant is not zero, the table lists a perturbed vector of length one. -/
theorem inner_tableAt (hp : l.primitives = .normalization)
    (hinterpolate : Normalization.interpolate l.toLeafData site = .ok (φ, p))
    (hne : p ≠ .zero p.size) :
    .inner l.valueSize (l.tableAt site) (l.tableAt site) = (.const 1 : Partials ℝ) := by
  rw [tableAt_of_normalization hp]
  refine Partials.inner_normalize ?_
  obtain ⟨-, hp⟩ := Normalization.interpolate_tabled (g := l.gradientEntry site)
    (fun v hv => LeafData.entry_valuesAt hv) hinterpolate
  rw [← Vec.inner_ofFn, ← hp]
  exact lt_of_le_of_ne p.inner_self_nonneg fun h => hne (Vec.eq_zero_of_inner_self h.symm)

end Leaf

theorem Mat.dot_column {K : Type} [ExactScalar K] (v : Vec K) :
    (Mat.column v).dot (.column v) = .ok (v.inner v) := by
  obtain ⟨x, hx⟩ := Mat.exists_dot (a := .column v) (b := .column v) rfl rfl
  rw [hx, (Mat.dot_eq_ok hx).2, Vec.inner_eq_sum]
  refine congrArg Except.ok ((Finset.sum_range_one _).trans (Finset.sum_congr rfl fun i _ => ?_))
  rw [Mat.entry_column]

namespace ElementField

variable {f : ElementField ℝ} {slot : ℕ} {signature : LeafSignature} {l : Leaf ℝ} {site : Site ℝ}
  {φ p : Vec ℝ}

section SquaredLength

variable (hexpr : f.expr = .binary .dot (.leaf slot signature) (.leaf slot signature))
  (hl : f.leaves[slot]? = some l) (hp : l.primitives = .normalization)
  (hinterpolate : Normalization.interpolate l.toLeafData site = .ok (φ, p))
  (hne : p ≠ .zero p.size)
include hexpr hl hp hinterpolate hne

/-- The value of the squared length of a field of unit vectors. -/
theorem evaluate_squaredLength : f.evaluate site = .ok #[1] := by
  have hunit : (normalized p).inner (normalized p) = 1 :=
    (Vec.norm_eq_one_iff _).1 (Vec.norm_divide (mt Vec.norm_eq_zero_iff_eq_zero.1 hne))
  have hvalue : f.leafValue slot site = .ok (.column (normalized p)) := by
    rw [leafValue_eq hl, hp]
    exact bind_eq_ok_iff.2 ⟨_, bind_eq_ok_iff.2 ⟨_, hinterpolate, rfl⟩, rfl⟩
  refine bind_eq_ok_iff.2 ⟨.scalar 1, ?_, rfl⟩
  rw [hexpr]
  refine bind_eq_ok_iff.2 ⟨_, hvalue, bind_eq_ok_iff.2 ⟨_, hvalue, ?_⟩⟩
  rw [Mat.dot_column, hunit]
  rfl

/-- The table of the squared length is that of the constant one. -/
theorem tableAt_squaredLength (hf : f.Built) : f.tableAt site = .const 1 := by
  obtain ⟨⟨⟨l', hl'⟩, -⟩, -⟩ := hexpr ▸ hf.hosts
  obtain rfl := Option.some.inj (hl'.get.symm.trans hl)
  have hleaf : f.leafTables site slot = l'.tableAt site := by rw [leafTables, hl]
  have htable : f.tableAt site =
      .inner signature.valueSize (f.leafTables site slot) (f.leafTables site slot) := by
    rw [tableAt, hexpr]
    rfl
  rw [htable, hleaf, ← hl'.signature_eq]
  exact Leaf.inner_tableAt hp hinterpolate hne

end SquaredLength

/-- The squared length of a field of unit vectors is one wherever the interpolant is not zero, and
whatever else is answered there is the zero tensor of its directions: the frame of spatial derivatives,
the kind of the request and what it is contracted with make no difference. -/
theorem squared_length_of_unit (hf : f.Built) (hleaf : ∀ l ∈ f.reachableLeaves, l.Standard)
    (hexpr : f.expr = .binary .dot (.leaf slot signature) (.leaf slot signature))
    (hl : f.leaves[slot]? = some l) (hp : l.primitives = .normalization)
    (hinterpolate : Normalization.interpolate l.toLeafData site = .ok (φ, p))
    (hne : p ≠ .zero p.size) :
    f.evaluate site = .ok #[1] ∧ ∀ d along, d ≠ .value → ∀ D,
      f.evaluateRequest ⟨site, d, along⟩ = .ok D → f.zeroDerivative 1 d = .ok D := by
  refine ⟨evaluate_squaredLength hexpr hl hp hinterpolate hne, fun d along hd D hD => ?_⟩
  obtain ⟨⟨hadmits, hfits⟩, -⟩ := evaluateRequest_eq_ok_iff.1 hD
  have hread := readBy_tableAt hleaf hf hD
  rw [tableAt_squaredLength hexpr hl hp hinterpolate hne hf] at hread
  have hsize : f.valueSize = 1 := f.valueSize_eq.trans (congrArg Expr.valueSize hexpr)
  rw [zeroDerivative_eq hadmits, ← hsize, hread.eq_zero_of_const hd hfits]

/-- Without strains, a valid request is answered where the leaves serve without refusal. -/
theorem exists_answer_of_valid {K : Type} [ExactScalar K] {f : ElementField K} (hf : f.Built)
    (hfree : f.expr.StrainFree) {r : Request K}
    (hserve : ∀ l ∈ f.reachableLeaves, l.Serves (fun _ => False) r.site)
    (hvalid : f.validate r = .ok ()) : ∃ D, f.evaluateRequest r = .ok D := by
  have hcheck : Meets (fun _ => False) (f.validate r) fun _ =>
      f.Admits r.directions ∧ r.Fits f.valueSize f.gridDim := by
    rw [hvalid]
    exact Meets.pure (validate_eq_ok_iff.1 hvalid)
  obtain ⟨D, hD, -⟩ :=
    (meets_evaluateRequest hf hserve (fun a ha => (hfree.part ha).elim) hcheck).exists_ok
  exact ⟨D, hD⟩

def directedSquare {K : Type} [ExactScalar K] : ElementField K where
  leaves := #[.directed ⟨0⟩]
  nodes := #[.leaf 0, .binary .dot 0 0]
  root := 1
  top :=
    let n : Entry K := .leaf 0 (Leaf.directed ⟨0⟩ : Leaf K).signature
    .binary .dot 0 0 n n
  slots := [0]
  blocks := [{ block := ⟨0⟩, correctionSize := 1, numCoefficients := 3 }]

theorem built_directedSquare {K : Type} [ExactScalar K] :
    (directedSquare : ElementField K).Built :=
  .build (Builder.reachable_after [.leaf (.directed ⟨0⟩), .normSquared 0])
    (build_eq_of_sorted rfl ⟨rfl, rfl⟩ rfl (List.pairwise_singleton _ _) rfl
      (List.pairwise_singleton _ _))

/-- In the middle of a side, the spatial derivatives in the frame of the triangle, alone and with one
coefficient, twice the same or two different ones. -/
theorem squared_length_of_unit_directed :
    let f : ElementField ℝ := directedSquare
    let l : Leaf ℝ := .directed ⟨0⟩
    let site : Site ℝ := ⟨.position #[0, 0], .gridElement⟩
    let along : Mat ℝ := .ofFn 1 2 fun _ _ => 1
    (f.Built ∧ (∀ l ∈ f.reachableLeaves, l.Standard) ∧
      f.expr = .binary .dot (.leaf 0 l.signature) (.leaf 0 l.signature) ∧
      f.leaves[0]? = some l ∧ l.primitives = .normalization) ∧
    (∃ φ p, Normalization.interpolate l.toLeafData site = .ok (φ, p) ∧ p ≠ .zero p.size) ∧
    f.evaluate site = .ok #[1] ∧
    ∀ c ∈ [.none, .single ⟨⟨0⟩, 1⟩, .two ⟨⟨0⟩, 1⟩ ⟨⟨0⟩, 1⟩, .two ⟨⟨0⟩, 1⟩ ⟨⟨0⟩, 2⟩],
      ∃ D, f.evaluateRequest ⟨site, ⟨some .all, c⟩, some along⟩ = .ok D ∧
        f.zeroDerivative 1 ⟨some .all, c⟩ = .ok D := by
  intro f l site along
  have hl : l.Standard := Leaf.standard_directed ⟨0⟩
  have hmem {l' : Leaf ℝ} (h : l' ∈ f.reachableLeaves) : l' = l := List.mem_singleton.1 h
  have hleaf : ∀ l' ∈ f.reachableLeaves, l'.Standard := fun l' h => hmem h ▸ hl
  have hξ : l.shapes.position site.point = .ok #[0, 0] := rfl
  obtain ⟨⟨φ, hφ⟩, hgradients⟩ := hl.known_at_position hξ rfl
  obtain ⟨m, hm⟩ := hgradients fun _ => ⟨_, Leaf.mappedAt_onSheared⟩
  obtain ⟨⟨ψ, p⟩, hp, -⟩ := (Normalization.meets_interpolate (hl.meets_valuesAt hφ)).exists_ok
  have hne : p ≠ .zero p.size := by
    obtain ⟨-, rfl⟩ := Normalization.interpolate_tabled (g := l.gradientEntry site)
      (fun v hv => hl.entry_valuesAt hξ hv) hp
    rw [Vec.size_ofFn]
    exact Leaf.interpolant_onSheared_ne_zero
  obtain ⟨hvalue, hzero⟩ := squared_length_of_unit built_directedSquare hleaf rfl rfl rfl hp hne
  refine ⟨⟨built_directedSquare, hleaf, rfl, rfl, rfl⟩, ⟨ψ, p, hp, hne⟩, hvalue, fun c hc => ?_⟩
  have hvalid : f.validate ⟨site, ⟨some .all, c⟩, some along⟩ = .ok () := by
    simp only [List.mem_cons, List.not_mem_nil, or_false] at hc
    rcases hc with rfl | rfl | rfl | rfl <;> rfl
  have hserve : ∀ l' ∈ f.reachableLeaves, l'.Serves (fun _ => False) site := fun l' h =>
    hmem h ▸ hl.serves (hl.tabulated hφ hm)
  have hfree : f.expr.StrainFree := ⟨trivial, trivial⟩
  obtain ⟨D, hD⟩ := exists_answer_of_valid built_directedSquare hfree hserve hvalid
  have hd : (⟨some .all, c⟩ : Directions) ≠ .value := fun h => nomatch congrArg (·.spatial) h
  exact ⟨D, hD, hzero _ _ hd D hD⟩

end ElementField

end ElementFields
