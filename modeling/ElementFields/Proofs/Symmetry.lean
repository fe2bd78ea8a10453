import ElementFields.Proofs.AllDirections

namespace ElementFields
open Scalar
open scoped BigOperators

variable {K : Type} [ExactScalar K]

theorem bilinear_comm {m : ℕ → ℕ → K} (h : ∀ d e, m d e = m e d) (V : ℕ) (x y : ℕ → K) :
    bilinear V x m y = bilinear V y m x := by
  rw [bilinear, Finset.sum_comm, bilinear]
  refine Finset.sum_congr rfl fun d _ => Finset.sum_congr rfl fun e _ => ?_
  rw [h e d]
  ring

theorem thirdEntry_comm (p : Vec K) (u v : ℕ → K) (i j : ℕ) :
    thirdEntry p u v i j = thirdEntry p u v j i := by
  rw [thirdEntry, thirdEntry, add_comm]

structure Partials.Symmetric (T : Partials K) : Prop where
  twice : ∀ α β i, T.twice α β i = T.twice β α i
  thrice : ∀ k α β i, T.thrice k α β i = T.thrice k β α i

namespace Partials

variable {T A B : Partials K}

theorem symmetric_const (c : K) : (const c).Symmetric := ⟨fun _ _ _ => rfl, fun _ _ _ _ => rfl⟩

theorem Symmetric.scale (h : T.Symmetric) (s : K) : (T.scale s).Symmetric where
  twice α β i := congrArg (· * s) (h.twice α β i)
  thrice k α β i := congrArg (· * s) (h.thrice k α β i)

theorem Symmetric.add (hA : A.Symmetric) (hB : B.Symmetric) : (A.add B).Symmetric where
  twice α β i := congrArg₂ (· + ·) (hA.twice α β i) (hB.twice α β i)
  thrice k α β i := congrArg₂ (· + ·) (hA.thrice k α β i) (hB.thrice k α β i)

theorem Symmetric.inner (hA : A.Symmetric) (hB : B.Symmetric) (V : ℕ) :
    (Partials.inner V A B).Symmetric where
  twice α β i := by
    simp only [Partials.inner]
    refine Finset.sum_congr rfl fun d _ => ?_
    rw [hA.twice α β, hB.twice α β]
    ring
  thrice k α β i := by
    simp only [Partials.inner]
    refine Finset.sum_congr rfl fun d _ => ?_
    rw [hA.thrice k α β, hB.thrice k α β, hA.twice α β, hB.twice α β]
    ring

theorem Symmetric.map (h : T.Symmetric) (y : K) (t : Taylor K) :
    (Partials.map y t T).Symmetric where
  twice α β i := by
    simp only [Partials.map]
    rw [h.twice α β]
    ring
  thrice k α β i := by
    simp only [Partials.map]
    rw [h.twice α β, h.thrice k α β]
    ring

/-- Strains pair the two variations with each other. -/
theorem symmetric_strains (dim : ℕ) (A : ℕ → ℕ → K) (U : Partials K) :
    (strains dim A U).Symmetric where
  twice α β q := Strain.pairing_comm (U.variation α) (U.variation β) q
  thrice _ _ _ _ := rfl

theorem Symmetric.normalize (h : T.Symmetric) (V : ℕ) : (T.normalize V).Symmetric where
  twice α β i := by
    simp only [Partials.normalize]
    rw [bilinear_comm (hessianEntry_comm _ _)]
    simp only [h.twice α β]
  thrice k α β i := by
    simp only [Partials.normalize]
    -- The two terms in which a mixed derivative occurs are exchanged with each other.
    rw [bilinear_comm (hessianEntry_comm _ _) V (T.mixed k α),
      bilinear_comm (hessianEntry_comm _ _) V (T.varied α) (T.mixed k β),
      bilinear_comm (thirdEntry_comm _ _ _)]
    simp only [h.twice α β, h.thrice k α β]
    ring

end Partials

theorem LeafData.bend_comm (l : LeafData K) (α β : Variable) (d : ℕ) :
    l.bend α β d = l.bend β α d := by
  by_cases h : α.coefficient = β.coefficient
  · have hblock : α.block = β.block := congrArg Coefficient.block h
    simp only [bend, Coefficients.bendEntry, h, hblock, delta_comm α.coordinate]
  · rw [bend, bend, if_neg fun hα => h hα.2, if_neg fun hβ => h hβ.2.symm]

/-- Both variables of a second derivative that is not zero move the same coefficient. -/
theorem LeafData.symmetric_table (l : LeafData K) (φ : ℕ → K) (g : ℕ → ℕ → K) :
    (l.table φ g).Symmetric := by
  have hweighted (w : ℕ → K) (α β : Variable) (d : ℕ) :
      w α.coefficient.index * l.bend α β d = w β.coefficient.index * l.bend β α d := by
    by_cases h : α.coefficient = β.coefficient
    · rw [h, l.bend_comm]
    · rw [bend, bend, if_neg fun hα => h hα.2, if_neg fun hβ => h hβ.2.symm, mul_zero, mul_zero]
  exact ⟨hweighted φ, fun k => hweighted (g k)⟩

theorem Leaf.symmetric_tableAt (l : Leaf K) (site : Site K) : (l.tableAt site).Symmetric := by
  have h := l.symmetric_table (l.valueEntry site) (l.gradientEntry site)
  unfold tableAt
  split
  · exact h
  · exact h.normalize _

/-- The table of an expression is symmetric if those of its leaves are. -/
theorem Expr.symmetric_table {e : Expr K} {dim : ℕ} {A : Expr K → ℕ → ℕ → K} {T : ℕ → Partials K}
    (h : ∀ slot, (T slot).Symmetric) : (e.table dim A T).Symmetric := by
  induction e with
  | leaf slot _ => exact h slot
  | constant x => exact Partials.symmetric_const x
  | unary op a ih =>
    cases op with
    | negate => exact ih.scale (-1)
    | scale s => exact ih.scale s
    | map g => exact ih.map _ _
    | strain => exact Partials.symmetric_strains _ _ _
  | binary op a b iha ihb =>
    cases op with
    | sum => exact iha.add ihb
    | dot => exact iha.inner ihb _

namespace ElementField

variable {f : ElementField K}

theorem symmetric_tableAt (f : ElementField K) (site : Site K) : (f.tableAt site).Symmetric := by
  refine Expr.symmetric_table fun slot => ?_
  rw [leafTables]
  split
  · exact Leaf.symmetric_tableAt _ site
  · exact Partials.symmetric_const 0

end ElementField

/-- Answers that are read off a symmetric table are transposed with the coefficients. -/
theorem Partials.Symmetric.exists_transpose {T : Partials K} (hT : T.Symmetric) {V G : ℕ}
    {C : BlockId → ℕ} {site : Site K} {s : Option SpatialDirection} {c₁ c₂ : Coefficient}
    {along : Option (Mat K)} {D D' : Derivative K}
    (hfit : Request.Fits V G ⟨site, ⟨s, .two c₁ c₂⟩, along⟩)
    (h : T.ReadBy V G C ⟨site, ⟨s, .two c₁ c₂⟩, along⟩ D)
    (h' : T.ReadBy V G C ⟨site, ⟨s, .two c₂ c₁⟩, along⟩ D') :
    ∃ M, D = .matrix M ∧ D' = .matrix M.transpose := by
  obtain ⟨W, hW, -⟩ := hfit c₁ c₂ rfl
  obtain ⟨hform, h⟩ := h
  obtain ⟨hform', h'⟩ := h'
  rw [Directions.form_two rfl] at hform hform'
  obtain ⟨M, rfl, hrows, hcols⟩ := hform.exists_matrix
  obtain ⟨M', rfl, hrows', hcols'⟩ := hform'.exists_matrix
  refine ⟨M, rfl, ?_⟩
  congr 1
  refine Mat.ext_entry (hrows'.trans hcols.symm) (hcols'.trans hrows.symm) fun b a hb ha => ?_
  have hb : b < C c₂.block := hrows' ▸ hb
  have ha : a < C c₁.block := hcols' ▸ ha
  rw [Mat.entry_transpose]
  cases s with
  | none =>
    refine ((h' W hW b hb a ha).trans ?_).trans (h W hW a ha b hb).symm
    simp only [hT.twice ⟨c₂, b⟩]
  | some s =>
    refine ((h' W hW b hb a ha).trans ?_).trans (h W hW a ha b hb).symm
    simp only [hT.thrice _ ⟨c₂, b⟩]

namespace ElementField

variable {f : ElementField K}

/-- Tangent matrices are symmetric. For a built field on leaves of the library, with or without
strains, exchanging the two coefficients of a request, of one block or of two, transposes the answer,
whatever the request is contracted with and in whichever direction in space; and if the one is refused,
so is the other. -/
theorem transposed_of_swapped (hf : f.Built) (hleaf : ∀ l ∈ f.reachableLeaves, l.Standard)
    (site : Site K) (s : Option SpatialDirection) (along : Option (Mat K)) (c₁ c₂ : Coefficient) :
    let answer (c c' : Coefficient) := f.evaluateRequest ⟨site, ⟨s, .two c c'⟩, along⟩
    (∃ M : Mat K, answer c₁ c₂ = .ok (.matrix M) ∧ answer c₂ c₁ = .ok (.matrix M.transpose)) ∨
      (∃ e, answer c₁ c₂ = .error e) ∧ ∃ e, answer c₂ c₁ = .error e := by
  intro answer
  -- Either order of the coefficients asks the same of the leaves.
  have hswap (c c' : Coefficient) (D : Derivative K) (hD : answer c c' = .ok D) :
      ∃ D', answer c' c = .ok D' := by
    obtain ⟨⟨hadmits, hfits⟩, -⟩ := evaluateRequest_eq_ok_iff.1 hD
    have hadmits' : f.Admits ⟨s, .two c' c⟩ :=
      ⟨hadmits.1, fun d hd => hadmits.2 d ((List.Perm.swap c c' []).mem_iff.1 hd)⟩
    exact exists_evaluateRequest hf hleaf (r := ⟨site, ⟨s, .two c c'⟩, along⟩) rfl
      (.swap c c') hadmits' (fun _ _ _ => hfits c c' rfl) hD
  cases h : answer c₁ c₂ with
  | ok D =>
    obtain ⟨D', hD'⟩ := hswap c₁ c₂ D h
    obtain ⟨M, rfl, rfl⟩ := (f.symmetric_tableAt site).exists_transpose
      (evaluateRequest_eq_ok_iff.1 h).1.2 (readBy_tableAt hleaf hf h) (readBy_tableAt hleaf hf hD')
    exact .inl ⟨M, rfl, hD'⟩
  | error e =>
    refine .inr ⟨⟨e, rfl⟩, ?_⟩
    cases h' : answer c₂ c₁ with
    | error e' => exact ⟨e', rfl⟩
    | ok D' =>
      obtain ⟨D, hD⟩ := hswap c₂ c₁ D' h'
      nomatch h.symm.trans hD

/-- The second derivative of the projected displacement on the sheared triangle, along all axes, with
respect to a coefficient of the displacement and one of the director. -/
theorem transposed_of_swapped_projected :
    let f : ElementField ℝ := projected
    let W : Mat ℝ := .ofFn 1 2 fun _ k => if k = 0 then 1 else 2
    let answer (c c' : Coefficient) := f.evaluateRequest
      ⟨⟨.position #[0, 0], .referenceElement⟩, ⟨some .all, .two c c'⟩, some W⟩
    (f.Built ∧ ∀ l ∈ f.reachableLeaves, l.Standard) ∧
    ∃ M : Mat ℝ, answer ⟨⟨0⟩, 1⟩ ⟨⟨1⟩, 2⟩ = .ok (.matrix M) ∧
      answer ⟨⟨1⟩, 2⟩ ⟨⟨0⟩, 1⟩ = .ok (.matrix M.transpose) := by
  intro f W answer
  have hf : f.Built := built_projected
  have hleaf : ∀ l ∈ f.reachableLeaves, l.Standard := fun l hl => (forall_mem_projected l hl).1
  refine ⟨⟨hf, hleaf⟩, ?_⟩
  obtain hM | ⟨⟨e, he⟩, -⟩ := transposed_of_swapped hf hleaf
    ⟨.position #[0, 0], .referenceElement⟩ (some .all) (some W) ⟨⟨0⟩, 1⟩ ⟨⟨1⟩, 2⟩
  · exact hM
  · obtain ⟨D, hD⟩ : ∃ D, answer ⟨⟨0⟩, 1⟩ ⟨⟨1⟩, 2⟩ = .ok D := ⟨_, rfl⟩
    nomatch he.symm.trans hD

end ElementField

end ElementFields
