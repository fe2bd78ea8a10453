import ElementFields.Proofs.Answering
import ElementFields.Proofs.Covariance

namespace ElementFields
open Scalar
open scoped BigOperators

variable {K : Type} [ExactScalar K]

namespace Partials

variable {T : Partials K} {V G : ℕ} {C : BlockId → ℕ} {site : Site K} {along : Option (Mat K)}
  {k : ℕ} {D : Derivative K}

/-- The derivative along an axis is a column of the gradient. -/
theorem ReadBy.eq_column {M : Mat K}
    (hall : T.ReadBy V G C ⟨site, ⟨some .all, .none⟩, along⟩ (.matrix M)) (hk : k < G)
    (h : T.ReadBy V G C ⟨site, ⟨some (.single k), .none⟩, along⟩ D) :
    D = .matrix (.column (M.columnVec k)) := by
  obtain ⟨⟨hrows, -⟩, hM⟩ := hall
  have hcolumn : (Derivative.matrix (.column (M.columnVec k))).HasForm (.matrix V 1) :=
    ⟨(M.size_columnVec k).trans hrows, rfl⟩
  refine Derivative.ext_of_hasForm h.1 hcolumn
    (Derivative.entry_congr h.1 hcolumn fun z i j hz hi hj => ?_)
  obtain rfl := Nat.lt_one_iff.1 hz
  obtain rfl := Nat.lt_one_iff.1 hj
  rw [Derivative.entry_matrix, Mat.entry_column, Mat.entry_columnVec]
  exact (h.2 i hi 0 Nat.zero_lt_one).trans (hM i hi k hk).symm

/-- The derivative along an axis is one of the matrices for all axes. -/
theorem ReadBy.eq_component {c : Coefficient} {ms : List (Mat K)} {m : Mat K}
    (hall : T.ReadBy V G C ⟨site, ⟨some .all, .single c⟩, along⟩ (.perDirection ms)) (hk : k < G)
    (hm : ms[k]? = some m)
    (h : T.ReadBy V G C ⟨site, ⟨some (.single k), .single c⟩, along⟩ D) : D = .matrix m := by
  obtain ⟨⟨-, hshapes⟩, hms⟩ := hall
  have hcomponent : (Derivative.matrix m).HasForm (.matrix V (C c.block)) :=
    hshapes m (List.mem_of_getElem? hm)
  refine Derivative.ext_of_hasForm h.1 hcomponent
    (Derivative.entry_congr h.1 hcomponent fun z i a hz hi ha => ?_)
  obtain rfl := Nat.lt_one_iff.1 hz
  rw [Derivative.entry_matrix, ← Derivative.entry_perDirection hm]
  exact (h.2 0 Nat.zero_lt_one i hi a ha).trans (hms k hk i hi a ha).symm

/-- The contracted derivative along all axes adds up those along the axes, contracted with columns. -/
theorem ReadBy.eq_sum {c₁ c₂ : Coefficient} {W : Mat K} {D' : ℕ → Derivative K}
    (hall : T.ReadBy V G C ⟨site, ⟨some .all, .two c₁ c₂⟩, some W⟩ D)
    (h : ∀ k < G, T.ReadBy V G C
      ⟨site, ⟨some (.single k), .two c₁ c₂⟩, some (.column (W.columnVec k))⟩ (D' k)) (a b : ℕ) :
    D.entry 0 a b = ∑ k ∈ Finset.range G, (D' k).entry 0 a b := by
  by_cases hab : a < C c₁.block ∧ b < C c₂.block
  · rw [hall.2 W rfl a hab.1 b hab.2]
    refine Finset.sum_congr rfl fun k hk => ?_
    have hone := ((h k (Finset.mem_range.mp hk)).2 _ rfl a hab.1 b hab.2).trans
      (Finset.sum_range_one _)
    simp only [Mat.entry_column, Mat.entry_columnVec] at hone
    exact hone.symm
  · rw [hall.1.entry_eq_zero fun hin => hab hin.2]
    refine (Finset.sum_eq_zero fun k hk => ?_).symm
    exact (h k (Finset.mem_range.mp hk)).1.entry_eq_zero fun hin => hab hin.2

end Partials

namespace ElementField

variable {f : ElementField K} {site : Site K}

section Single

variable (hf : f.Built) (hleaf : ∀ l ∈ f.reachableLeaves, l.Standard)
include hf hleaf

/-- A field that answers for all axes answers for each of them. -/
theorem exists_single {c : CoefficientPart} {along : Option (Mat K)} {D : Derivative K}
    (hD : f.evaluateRequest ⟨site, ⟨some .all, c⟩, along⟩ = .ok D) {k : ℕ} (hk : k < f.gridDim)
    (along' : Option (Mat K))
    (hfit : Request.Fits f.valueSize f.gridDim ⟨site, ⟨some (.single k), c⟩, along'⟩) :
    ∃ D', f.evaluateRequest ⟨site, ⟨some (.single k), c⟩, along'⟩ = .ok D' := by
  obtain ⟨⟨hadmits, -⟩, -⟩ := evaluateRequest_eq_ok_iff.1 hD
  have haxis : f.Admits ⟨some (.single k), c⟩ := by
    refine ⟨?_, hadmits.2⟩
    rintro _ ⟨⟩
    exact hk
  exact exists_evaluateRequest hf hleaf (r := ⟨site, ⟨some .all, c⟩, along⟩) rfl (.axis k) haxis
    hfit hD

theorem columns_of_all {along : Option (Mat K)} {D : Derivative K}
    (hD : f.evaluateRequest ⟨site, ⟨some .all, .none⟩, along⟩ = .ok D) :
    ∃ M, D = .matrix M ∧ M.cols = f.gridDim ∧ ∀ k < f.gridDim,
      f.evaluateRequest ⟨site, ⟨some (.single k), .none⟩, along⟩ =
        .ok (.matrix (.column (M.columnVec k))) := by
  have hall := readBy_tableAt hleaf hf hD
  obtain ⟨M, rfl, -, hcols⟩ := hall.1.exists_matrix
  refine ⟨M, rfl, hcols, fun k hk => ?_⟩
  obtain ⟨D', hD'⟩ := exists_single hf hleaf hD hk along (Request.fits_of_none rfl)
  rw [hD', hall.eq_column hk (readBy_tableAt hleaf hf hD')]

theorem components_of_all {c : Coefficient} {along : Option (Mat K)} {D : Derivative K}
    (hD : f.evaluateRequest ⟨site, ⟨some .all, .single c⟩, along⟩ = .ok D) :
    ∃ ms, D = .perDirection ms ∧ ms.length = f.gridDim ∧ ∀ k < f.gridDim, ∃ m, ms[k]? = some m ∧
      f.evaluateRequest ⟨site, ⟨some (.single k), .single c⟩, along⟩ = .ok (.matrix m) := by
  have hall := readBy_tableAt hleaf hf hD
  obtain ⟨ms, rfl, hlength, -⟩ := hall.1.exists_perDirection
  refine ⟨ms, rfl, hlength, fun k hk => ?_⟩
  have hm : ms[k]? = some (ms.get ⟨k, hlength ▸ hk⟩) := List.getElem?_eq_getElem (hlength ▸ hk)
  obtain ⟨D', hD'⟩ := exists_single hf hleaf hD hk along (Request.fits_of_single rfl)
  exact ⟨_, hm, by rw [hD', hall.eq_component hk hm (readBy_tableAt hleaf hf hD')]⟩

theorem sum_of_all {c₁ c₂ : Coefficient} {along : Option (Mat K)} {D : Derivative K}
    (hD : f.evaluateRequest ⟨site, ⟨some .all, .two c₁ c₂⟩, along⟩ = .ok D) :
    ∃ W, along = some W ∧ W.shape = (f.valueSize, f.gridDim) ∧
      ∃ (M : Mat K) (Ms : ℕ → Mat K), D = .matrix M ∧
        (∀ k < f.gridDim, f.evaluateRequest
            ⟨site, ⟨some (.single k), .two c₁ c₂⟩, some (.column (W.columnVec k))⟩ =
              .ok (.matrix (Ms k)) ∧
          (Ms k).shape = M.shape) ∧
        ∀ i j, M.entry i j = ∑ k ∈ Finset.range f.gridDim, (Ms k).entry i j := by
  have hall := readBy_tableAt hleaf hf hD
  obtain ⟨M, rfl, hrows, hcols⟩ := hall.1.exists_matrix
  obtain ⟨⟨-, hfits⟩, -⟩ := evaluateRequest_eq_ok_iff.1 hD
  obtain ⟨W, rfl, hWrows, hWcols⟩ := hfits c₁ c₂ rfl
  have hsingle (k : ℕ) (hk : k < f.gridDim) :=
    exists_single hf hleaf hD hk (some (.column (W.columnVec k)))
      fun _ _ _ => ⟨_, rfl, (W.size_columnVec k).trans hWrows, rfl⟩
  have : Nonempty (Derivative K) := ⟨.matrix M⟩
  choose! D' hD' using hsingle
  -- The answer and its terms are all read off the one table of the field at the site.
  have hread := fun k hk => readBy_tableAt hleaf hf (hD' k hk)
  have hmatrix (k : ℕ) (hk : k < f.gridDim) := (hread k hk).1.exists_matrix
  have : Nonempty (Mat K) := ⟨M⟩
  choose! Ms hMs using hmatrix
  refine ⟨W, rfl, Prod.ext hWrows hWcols, M, Ms, rfl, fun k hk => ?_, fun i j => ?_⟩
  · obtain ⟨hD'k, hshape⟩ := hMs k hk
    exact ⟨hD'k ▸ hD' k hk, Prod.ext (hshape.1.trans hrows.symm) (hshape.2.trans hcols.symm)⟩
  · refine (hall.eq_sum hread i j).trans (Finset.sum_congr rfl fun k hk => ?_)
    rw [(hMs k (Finset.mem_range.mp hk)).1, Derivative.entry_matrix]

end Single

/-- Requests for all axes are those for the single axes put together. If a built field on leaves of
the library, with or without strains, answers for all axes, it answers for every axis; the gradient has
the answers in its columns; a derivative with respect to one coefficient has them as its matrices; and
a derivative with respect to two, contracted with a matrix, is the sum of those that are contracted
with its columns. -/
theorem all_directions (hf : f.Built) (hleaf : ∀ l ∈ f.reachableLeaves, l.Standard)
    (site : Site K) :
    let G := f.gridDim
    let answer (s : SpatialDirection) (c : CoefficientPart) (along : Option (Mat K)) :=
      f.evaluateRequest ⟨site, ⟨some s, c⟩, along⟩
    (∀ along D, answer .all .none along = .ok D → ∃ M, D = .matrix M ∧ M.cols = G ∧
      ∀ k < G, answer (.single k) .none along = .ok (.matrix (.column (M.columnVec k)))) ∧
    (∀ c along D, answer .all (.single c) along = .ok D →
      ∃ ms, D = .perDirection ms ∧ ms.length = G ∧ ∀ k < G, ∃ m, ms[k]? = some m ∧
        answer (.single k) (.single c) along = .ok (.matrix m)) ∧
    ∀ c₁ c₂ along D, answer .all (.two c₁ c₂) along = .ok D →
      ∃ W, along = some W ∧ W.shape = (f.valueSize, G) ∧
        ∃ (M : Mat K) (Ms : ℕ → Mat K), D = .matrix M ∧
          (∀ k < G, answer (.single k) (.two c₁ c₂) (some (.column (W.columnVec k))) =
            .ok (.matrix (Ms k)) ∧ (Ms k).shape = M.shape) ∧
          ∀ i j, M.entry i j = ∑ k ∈ Finset.range G, (Ms k).entry i j :=
  ⟨fun _ _ => columns_of_all hf hleaf, fun _ _ _ => components_of_all hf hleaf,
    fun _ _ _ _ => sum_of_all hf hleaf⟩

/-- The gradient of the projected displacement on the sheared triangle, and its derivative with
respect to a coefficient of the displacement and one of the director. -/
theorem all_directions_projected :
    let f : ElementField ℝ := projected
    let site : Site ℝ := ⟨.position #[0, 0], .referenceElement⟩
    let c : CoefficientPart := .two ⟨⟨0⟩, 1⟩ ⟨⟨1⟩, 2⟩
    let W : Mat ℝ := .ofFn 1 2 fun _ k => if k = 0 then 1 else 2
    let answer (s : SpatialDirection) (c : CoefficientPart) (along : Option (Mat ℝ)) :=
      f.evaluateRequest ⟨site, ⟨some s, c⟩, along⟩
    (f.Built ∧ ∀ l ∈ f.reachableLeaves, l.Standard) ∧
    (∃ M, answer .all .none none = .ok (.matrix M) ∧
      answer (.single 1) .none none = .ok (.matrix (.column (M.columnVec 1)))) ∧
    ∃ M M₀ M₁ : Mat ℝ, answer .all c (some W) = .ok (.matrix M) ∧
      answer (.single 0) c (some (.column (W.columnVec 0))) = .ok (.matrix M₀) ∧
      answer (.single 1) c (some (.column (W.columnVec 1))) = .ok (.matrix M₁) ∧
      ∀ i j, M.entry i j = M₀.entry i j + M₁.entry i j := by
  intro f site c W answer
  have hf : f.Built := built_projected
  have hleaf : ∀ l ∈ f.reachableLeaves, l.Standard := fun l hl => (forall_mem_projected l hl).1
  obtain ⟨hgradient, -, hcontracted⟩ := all_directions hf hleaf site
  refine ⟨⟨hf, hleaf⟩, ?_, ?_⟩
  · obtain ⟨D, hD⟩ : ∃ D, answer .all .none none = .ok D := ⟨_, rfl⟩
    obtain ⟨M, rfl, -, hM⟩ := hgradient none D hD
    exact ⟨M, hD, hM 1 Nat.one_lt_two⟩
  · obtain ⟨D, hD⟩ : ∃ D, answer .all c (some W) = .ok D := ⟨_, rfl⟩
    obtain ⟨W', hW, -, M, Ms, rfl, hMs, hsum⟩ := hcontracted ⟨⟨0⟩, 1⟩ ⟨⟨1⟩, 2⟩ (some W) D hD
    obtain rfl : W' = W := (Option.some.inj hW).symm
    refine ⟨M, Ms 0, Ms 1, hD, (hMs 0 Nat.zero_lt_two).1, (hMs 1 Nat.one_lt_two).1, fun i j => ?_⟩
    exact (hsum i j).trans (Finset.sum_range_succ _ 1 |>.trans (by rw [Finset.sum_range_one]))

end ElementField

end ElementFields
