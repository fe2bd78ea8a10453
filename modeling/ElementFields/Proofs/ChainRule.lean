import Mathlib.Algebra.BigOperators.Pi
import ElementFields.Expression.Chain
import ElementFields.Proofs.Linearity
import ElementFields.Proofs.ProductRule

namespace ElementFields
open Scalar
open scoped BigOperators

variable {K : Type} [ExactScalar K]

namespace Chain

variable {a : Operand K} {G : ℕ} {C : BlockId → ℕ} {r : Request K} {t : Taylor K}
  {D : Derivative K} (ha : a.Formed 1 G C r.directions)

theorem value_eq_ok {f : ScalarMap} {site : Site K} {m : Mat K}
    (h : Chain.value f a site = .ok m) :
    ∃ va, a.value site = .ok va ∧ m = .scalar (f.apply (va.entry 0 0)) := by
  obtain ⟨va, hva, h⟩ := bind_eq_ok_iff.1 h
  obtain ⟨v, hv, h⟩ := bind_eq_ok_iff.1 h
  obtain ⟨-, rfl⟩ := Mat.entryAt_eq_ok (lift_eq_ok_iff.1 hv)
  exact ⟨va, hva, (pure_eq_ok_iff.1 h).symm⟩

include ha

theorem mixed_eq_ok {s : SpatialDirection} {c : Coefficient}
    (hs : r.directions.spatial = some s) (hc : r.directions.coefficients = .single c)
    (h : mixed t a r c = .ok D) :
    (a.Answers r.spatialPart ∧ a.Answers (r.coefficientPart c) ∧ a.Answers (r.mixedPart c)) ∧
      D.HasForm (r.directions.form 1 G C) ∧
      ∀ k, k < s.count G → ∀ j, D.entry k 0 j =
        a.varied r c 0 j * (t.second * a.slope r 0 k) + a.mixed r c k 0 j * t.first := by
  have hmem := Directions.mem_coefficientList hc
  obtain ⟨aks, haks, h⟩ := bind_eq_ok_iff.1 h
  obtain ⟨ac, hac, h⟩ := bind_eq_ok_iff.1 h
  obtain ⟨akcs, hakcs, h⟩ := bind_eq_ok_iff.1 h
  obtain ⟨ms, hms, h⟩ := bind_eq_ok_iff.1 h
  rw [lift_eq_ok_iff] at h
  obtain ⟨h1, hakl, hake⟩ := Operand.spatialComponents_eq_ok ha hs haks
  obtain ⟨h2, hacs, hace⟩ := Operand.wrtCoefficient_eq_ok ha hmem hac
  obtain ⟨h3, hakcl, hakce⟩ := Operand.mixedComponents_eq_ok ha hs hmem hakcs
  obtain ⟨hml, hme⟩ := mapM_eq_ok hms
  rw [List.length_zip, hakl, hakcl, Nat.min_self] at hml
  have hcomp (k : ℕ) (hk : k < s.count G) : ∃ m, ms[k]? = some m ∧
      (m.rows = 1 ∧ m.cols = C c.block) ∧ ∀ j, m.entry 0 j =
        a.varied r c 0 j * (t.second * a.slope r 0 k) + a.mixed r c k 0 j * t.first := by
    obtain ⟨ak, hak, -, hake⟩ := hake k hk
    obtain ⟨akc, hakc, -, hakce⟩ := hakce k hk
    obtain ⟨m, hm, hf⟩ := hme k (ak, akc) (List.getElem?_zip_eq_some.2 ⟨hak, hakc⟩)
    obtain ⟨x, hx, hf⟩ := bind_eq_ok_iff.1 hf
    obtain ⟨-, rfl⟩ := Mat.entryAt_eq_ok (lift_eq_ok_iff.1 hx)
    obtain ⟨-, hfs, hfe⟩ := Mat.add_eq_ok (lift_eq_ok_iff.1 hf)
    refine ⟨m, hm, ⟨hfs.1.trans hacs.1, hfs.2.trans hacs.2⟩, ?_⟩
    intro j
    rw [hfe, Mat.entry_scale, Mat.entry_scale, hace, hake, hakce]
  have hshape : ∀ m ∈ ms, m.rows = 1 ∧ m.cols = C c.block :=
    forall_mem_of_getElem? hml fun k hk => (hcomp k hk).imp fun m hm => ⟨hm.1, hm.2.1⟩
  obtain ⟨hF, he⟩ := Derivative.ofComponents_mixed (C := C) hs hc hml hshape h
  refine ⟨⟨h1, h2, h3⟩, hF, ?_⟩
  intro k hk j
  obtain ⟨m, hm, -, hme⟩ := hcomp k hk
  rw [he k m hm, hme]

theorem second_eq_ok {c₁ c₂ : Coefficient} (hc : r.directions.coefficients = .two c₁ c₂)
    (h : second t a r c₁ c₂ = .ok D) :
    ∃ W w, r.along = some W ∧ W.entryAt 0 0 = .ok w ∧
      (a.Answers (r.coefficientPart c₁) ∧ a.Answers (r.coefficientPart c₂) ∧
        a.Answers (r.withoutSpatialAlong (some (.scalar (w * t.first))))) ∧
      D.HasForm (r.directions.form 1 G C) ∧
      ∀ i j, D.entry 0 i j = a.varied r c₁ 0 i * a.varied r c₂ 0 j * (w * t.second) +
        a.twice r (.scalar (w * t.first)) i j := by
  obtain ⟨hmem₁, hmem₂⟩ := Directions.mem_coefficientList_two hc
  obtain ⟨W, hW, h⟩ := bind_eq_ok_iff.1 h
  obtain ⟨w, hw, h⟩ := bind_eq_ok_iff.1 h
  obtain ⟨a₁, ha₁, h⟩ := bind_eq_ok_iff.1 h
  obtain ⟨a₂, ha₂, h⟩ := bind_eq_ok_iff.1 h
  obtain ⟨p, hp, h⟩ := bind_eq_ok_iff.1 h
  obtain ⟨aw, haw, h⟩ := bind_eq_ok_iff.1 h
  obtain ⟨z, hz, h⟩ := bind_eq_ok_iff.1 h
  rw [pure_eq_ok_iff] at h
  subst h
  obtain ⟨h1, ha₁s, ha₁e⟩ := Operand.wrtCoefficient_eq_ok ha hmem₁ ha₁
  obtain ⟨h2, ha₂s, ha₂e⟩ := Operand.wrtCoefficient_eq_ok ha hmem₂ ha₂
  obtain ⟨h3, -, hawe⟩ := Operand.secondAlong_eq_ok ha hc haw ⟨rfl, rfl⟩
  obtain ⟨-, hps, hpe⟩ := Mat.transposeMul_eq_ok (lift_eq_ok_iff.1 hp)
  obtain ⟨-, hzs, hze⟩ := Mat.add_eq_ok (lift_eq_ok_iff.1 hz)
  refine ⟨W, w, ofOption_eq_ok_iff.1 hW, lift_eq_ok_iff.1 hw, ⟨h1, h2, h3⟩, ?_, ?_⟩
  · rw [Directions.form_two hc]
    exact ⟨hzs.1.trans (hps.1.trans ha₁s.2), hzs.2.trans (hps.2.trans ha₂s.2)⟩
  · intro i j
    rw [Derivative.entry_matrix, hze, Mat.entry_scale, hpe, hawe, ha₁s.1, Finset.sum_range_one,
      ha₁e, ha₂e]

def products (t : Taylor K) (a : Operand K) (r : Request K) (c₁ c₂ : Coefficient) (k i j : ℕ) : K :=
  a.varied r c₁ 0 i * a.varied r c₂ 0 j * (t.third * a.slope r 0 k) +
    (a.mixed r c₁ k 0 i * a.varied r c₂ 0 j + a.varied r c₁ 0 i * a.mixed r c₂ k 0 j) * t.second

def Weighted.HasShape (rows cols : ℕ) (sums : Weighted K) : Prop :=
  sums.products.rows = rows ∧ sums.products.cols = cols

def Weighted.totals (sums : Weighted K) : (ℕ → ℕ → K) × K := (sums.products.entry, sums.along)

omit ha in
/-- What direction `k` adds to the sums, with the component `w` of the argument. -/
theorem weigh_eq_ok {c₁ c₂ : Coefficient} {as as₁ as₂ : List (Mat K)} {a₁ a₂ a₁₂ : Mat K}
    (hA : a.PartsAre r 1 C c₁ c₂ as a₁ a₂ as₁ as₂) (ha₁₂ : a₁.transposeMul a₂ = .ok a₁₂)
    {sums z : Weighted K} {w : K} {k : ℕ} (hP : sums.HasShape (C c₁.block) (C c₂.block))
    (h : (do
      let aₖ ← (← componentAt as k).entryAt 0 0
      let mixedProducts ←
        (← (← componentAt as₁ k).transposeMul a₂).add (← a₁.transposeMul (← componentAt as₂ k))
      let products ← (a₁₂.scale (t.third * aₖ)).add (mixedProducts.scale t.second)
      return {
        products := ← sums.products.add (products.scale w)
        along := sums.along + w * t.second * aₖ } : Outcome (Weighted K)) = .ok z) :
    z.HasShape (C c₁.block) (C c₂.block) ∧ z.totals = sums.totals +
      (fun i j => products t a r c₁ c₂ k i j * w, w * t.second * a.slope r 0 k) := by
  obtain ⟨ak, hak, h⟩ := bind_eq_ok_iff.1 h
  obtain ⟨y, hy, h⟩ := bind_eq_ok_iff.1 h
  obtain ⟨a₁k, ha₁k, h⟩ := bind_eq_ok_iff.1 h
  obtain ⟨p, hp, h⟩ := bind_eq_ok_iff.1 h
  obtain ⟨a₂k, ha₂k, h⟩ := bind_eq_ok_iff.1 h
  obtain ⟨q, hq, h⟩ := bind_eq_ok_iff.1 h
  obtain ⟨x, hx, h⟩ := bind_eq_ok_iff.1 h
  obtain ⟨u, hu, h⟩ := bind_eq_ok_iff.1 h
  obtain ⟨v, hv, h⟩ := bind_eq_ok_iff.1 h
  rw [pure_eq_ok_iff] at h
  subst h
  obtain ⟨-, hake⟩ := hA.slope hak
  obtain ⟨ha₁ks, ha₁ke⟩ := hA.mixedFirst ha₁k
  obtain ⟨-, ha₂ke⟩ := hA.mixedSecond ha₂k
  obtain ⟨-, -, ha₁₂e⟩ := Mat.transposeMul_eq_ok ha₁₂
  obtain ⟨-, rfl⟩ := Mat.entryAt_eq_ok (lift_eq_ok_iff.1 hy)
  obtain ⟨-, -, hpe⟩ := Mat.transposeMul_eq_ok (lift_eq_ok_iff.1 hp)
  obtain ⟨-, -, hqe⟩ := Mat.transposeMul_eq_ok (lift_eq_ok_iff.1 hq)
  obtain ⟨-, -, hxe⟩ := Mat.add_eq_ok (lift_eq_ok_iff.1 hx)
  obtain ⟨-, -, hue⟩ := Mat.add_eq_ok (lift_eq_ok_iff.1 hu)
  obtain ⟨-, hvs, hve⟩ := Mat.add_eq_ok (lift_eq_ok_iff.1 hv)
  refine ⟨⟨hvs.1.trans hP.1, hvs.2.trans hP.2⟩, Prod.ext ?_ ?_⟩
  · funext i j
    show v.entry i j = sums.products.entry i j + products t a r c₁ c₂ k i j * w
    rw [hve, Mat.entry_scale, hue, Mat.entry_scale, Mat.entry_scale, hxe, hpe, hqe, ha₁₂e,
      ha₁ks.1, hA.first.1.1]
    simp only [Finset.sum_range_one, hake, hA.first.2, hA.second.2, ha₁ke, ha₂ke, products]
  · show sums.along + w * t.second * ak.entry 0 0 = sums.along + w * t.second * a.slope r 0 k
    rw [hake]

omit ha in
/-- Both sums over the directions are followed at once, the products entry by entry. -/
theorem sums_eq_ok {c₁ c₂ : Coefficient} {W : Mat K} (hrow : W.rows = 1)
    {step : Weighted K → K × ℕ → Outcome (Weighted K)} {rows cols : ℕ} {sums : Weighted K}
    (hstart : Weighted.HasShape (K := K) (C c₁.block) (C c₂.block) ⟨.zero rows cols, 0⟩)
    (hstep : ∀ {s z : Weighted K} {w : K} {k : ℕ}, s.HasShape (C c₁.block) (C c₂.block) →
      step s (w, k) = .ok z → z.HasShape (C c₁.block) (C c₂.block) ∧ z.totals = s.totals +
        (fun i j => products t a r c₁ c₂ k i j * w, w * t.second * a.slope r 0 k))
    (h : W.flatten.toList.zipIdx.foldlM step ⟨.zero rows cols, 0⟩ = .ok sums) :
    sums.HasShape (C c₁.block) (C c₂.block) ∧
      (∀ i j, sums.products.entry i j =
        ∑ k ∈ Finset.range W.cols, products t a r c₁ c₂ k i j * W.entry 0 k) ∧
      sums.along = ∑ k ∈ Finset.range W.cols, W.entry 0 k * t.second * a.slope r 0 k := by
  obtain ⟨hshape, hμ⟩ := foldlM_zipIdx_adds (Weighted.HasShape (C c₁.block) (C c₂.block))
    Weighted.totals _ (fun s w k z hP hz => hstep hP hz) hstart h
  have hsize : W.flatten.size = W.cols := by
    rw [Mat.flatten, W.size_entries, hrow, Nat.one_mul]
  rw [hsize] at hμ
  refine ⟨hshape, fun i j => ?_, ?_⟩
  · have := congrFun (congrFun (congrArg Prod.fst hμ) i) j
    simpa [Weighted.totals, Prod.fst_sum, Finset.sum_apply, Mat.entry_flatten_row hrow] using this
  · have := congrArg Prod.snd hμ
    simpa [Weighted.totals, Prod.snd_sum, Mat.entry_flatten_row hrow] using this

theorem third_eq_ok {s : SpatialDirection} {c₁ c₂ : Coefficient}
    (hs : r.directions.spatial = some s) (hc : r.directions.coefficients = .two c₁ c₂)
    (hfit : r.Fits 1 G) (h : third t a r c₁ c₂ = .ok D) :
    ∃ W x, r.along = some W ∧ (W.rows = 1 ∧ W.cols = s.count G) ∧
      x = ∑ k ∈ Finset.range W.cols, W.entry 0 k * t.second * a.slope r 0 k ∧
      (a.AnswersParts r c₁ c₂ ∧ a.Answers (r.withoutSpatialAlong (some (.scalar x))) ∧
        a.Answers (r.withAlong (some (W.scale t.first)))) ∧
      D.HasForm (r.directions.form 1 G C) ∧
      ∀ i j, D.entry 0 i j =
        ∑ k ∈ Finset.range W.cols, products t a r c₁ c₂ k i j * W.entry 0 k +
          a.twice r (.scalar x) i j + a.thrice r (W.scale t.first) i j := by
  obtain ⟨W, hW, h⟩ := bind_eq_ok_iff.1 h
  obtain ⟨aks, haks, h⟩ := bind_eq_ok_iff.1 h
  obtain ⟨a₁, ha₁, h⟩ := bind_eq_ok_iff.1 h
  obtain ⟨a₂, ha₂, h⟩ := bind_eq_ok_iff.1 h
  obtain ⟨aks₁, haks₁, h⟩ := bind_eq_ok_iff.1 h
  obtain ⟨aks₂, haks₂, h⟩ := bind_eq_ok_iff.1 h
  obtain ⟨a₁₂, ha₁₂, h⟩ := bind_eq_ok_iff.1 h
  obtain ⟨sums, hsums, h⟩ := bind_eq_ok_iff.1 h
  obtain ⟨la, hla, h⟩ := bind_eq_ok_iff.1 h
  obtain ⟨x, hx, h⟩ := bind_eq_ok_iff.1 h
  obtain ⟨ta, hta, h⟩ := bind_eq_ok_iff.1 h
  obtain ⟨w, hw, h⟩ := bind_eq_ok_iff.1 h
  rw [pure_eq_ok_iff] at h
  subst h
  obtain ⟨hrow, hcol⟩ := hfit.rows_cols hs hc (ofOption_eq_ok_iff.1 hW)
  obtain ⟨h1, hA⟩ := Operand.parts_eq_ok ha hs hc haks ha₁ ha₂ haks₁ haks₂
  obtain ⟨hproductss, hproducts, halong⟩ :=
    sums_eq_ok hrow ⟨hA.first.1.2, hA.second.1.2⟩
      (fun hP hz => weigh_eq_ok hA (lift_eq_ok_iff.1 ha₁₂) hP hz) hsums
  obtain ⟨h2, -, hlae⟩ := Operand.secondAlong_eq_ok ha hc hla ⟨rfl, rfl⟩
  obtain ⟨h3, -, htae⟩ := Operand.thirdAlong_eq_ok ha hs hc hta ⟨hrow, hcol⟩
  obtain ⟨-, hxs, hxe⟩ := Mat.add_eq_ok (lift_eq_ok_iff.1 hx)
  obtain ⟨-, hws, hwe⟩ := Mat.add_eq_ok (lift_eq_ok_iff.1 hw)
  refine ⟨W, sums.along, ofOption_eq_ok_iff.1 hW, ⟨hrow, hcol⟩, halong, ⟨h1, h2, h3⟩, ?_, ?_⟩
  · rw [Directions.form_two hc]
    exact ⟨hws.1.trans (hxs.1.trans hproductss.1), hws.2.trans (hxs.2.trans hproductss.2)⟩
  · intro i j
    rw [Derivative.entry_matrix, hwe, hxe, hproducts, hlae, htae]

theorem derivative_hasForm {f : ScalarMap} (hfit : r.Fits 1 G)
    (h : Chain.derivative f a r = .ok D) : D.HasForm (r.directions.form 1 G C) := by
  obtain ⟨va, hva, h⟩ := bind_eq_ok_iff.1 h
  obtain ⟨v, hv, h⟩ := bind_eq_ok_iff.1 h
  have hfirst {E : Derivative K} (hE : a.derivative r = .ok E) (s : K) :
      (E.scale s).HasForm (r.directions.form 1 G C) :=
    (ha.derivative r E (Directions.DrawnFrom.refl _) hfit hE).scale s
  rcases hs : r.directions.spatial with _ | s <;>
    rcases hc : r.directions.coefficients with _ | c | ⟨c₁, c₂⟩ <;> simp only [hs, hc] at h
  case none.none =>
    rw [pure_eq_ok_iff] at h
    subst h
    rw [Directions.form, hs, hc]
    exact ⟨rfl, rfl⟩
  case none.single =>
    obtain ⟨E, hE, h⟩ := bind_eq_ok_iff.1 h
    exact pure_eq_ok_iff.1 h ▸ hfirst hE _
  case none.two =>
    obtain ⟨W, w, -, -, -, hF, -⟩ := second_eq_ok ha hc h
    exact hF
  case some.none =>
    obtain ⟨E, hE, h⟩ := bind_eq_ok_iff.1 h
    exact pure_eq_ok_iff.1 h ▸ hfirst hE _
  case some.single => exact (mixed_eq_ok ha hs hc h).2.1
  case some.two =>
    obtain ⟨W, x, -, -, -, -, hF, -⟩ := third_eq_ok ha hs hc hfit h
    exact hF

end Chain

end ElementFields
