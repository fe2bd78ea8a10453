import ElementFields.Proofs.RealScalar
import ElementFields.Proofs.EuclideanLeaf
import ElementFields.Proofs.IncrementRules
import ElementFields.Proofs.Substitution

namespace ElementFields
open Scalar
open scoped BigOperators

variable {K : Type} [ExactScalar K]

namespace Leaf

variable {l l' : Leaf K} {d : Vec K}

/-- The values and the gradients of the shape functions at a site, if they are answered. -/
theorem exists_shapes (l : Leaf K) (site : Site K) : ∃ (φ : ℕ → K) (g : ℕ → ℕ → K),
    (∀ v, l.valuesAt site = .ok v → ∀ j, v.entry j = φ j) ∧
      ∀ m, l.gradientsIn site = .ok m → ∀ k j, m.entry k j = g k j := by
  have hφ : ∃ φ : ℕ → K, ∀ v, l.valuesAt site = .ok v → ∀ j, v.entry j = φ j := by
    cases hv : l.valuesAt site with
    | ok v => exact ⟨v.entry, fun w hw j => by cases hw; rfl⟩
    | error e => exact ⟨fun _ => 0, fun _ hw => (nomatch hw)⟩
  have hg : ∃ g : ℕ → ℕ → K, ∀ m, l.gradientsIn site = .ok m → ∀ k j, m.entry k j = g k j := by
    cases hm : l.gradientsIn site with
    | ok m => exact ⟨m.entry, fun n hn k j => by cases hn; rfl⟩
    | error e => exact ⟨fun _ _ => 0, fun _ hn => (nomatch hn)⟩
  obtain ⟨φ, hφ⟩ := hφ
  obtain ⟨g, hg⟩ := hg
  exact ⟨φ, g, hφ, hg⟩

theorem IsLinear.order_ne_constant (h : l.IsLinear) : l.order ≠ .constant := by
  rw [h.order]
  decide

section Update

variable (hu : l.update d = .ok l')
include hu

theorem valuesAt_update (site : Site K) : l'.valuesAt site = l.valuesAt site := by
  rw [LeafData.valuesAt, LeafData.valuesAt, shapes_update hu]

theorem gradientsIn_update (site : Site K) : l'.gradientsIn site = l.gradientsIn site := by
  rw [LeafData.gradientsIn, LeafData.gradientsIn, shapes_update hu, (sameKind_update hu).geometry]

end Update

namespace IsLinear

variable (h : l.IsLinear) (hu : l.update d = .ok l')
include h hu

theorem update : l'.IsLinear := by
  have hk := sameKind_update hu
  exact ⟨shapes_update hu ▸ h.sound, hk.primitives.trans h.primitives, hk.manifold ▸ h.euclidean,
    hk.order.trans h.order⟩

/-- The leaf is read off a table before and after the correction, with the same shape functions. -/
theorem exists_tables (site : Site K) : ∃ (φ : ℕ → K) (g : ℕ → ℕ → K),
    l.Reads site (l.interpolationTable φ g) ∧ l'.Reads site (l'.interpolationTable φ g) := by
  obtain ⟨φ, g, hφ, hg⟩ := l.exists_shapes site
  refine ⟨φ, g, h.reads hφ hg, (h.update hu).reads ?_ ?_⟩
  · rw [valuesAt_update hu]
    exact hφ
  · rw [gradientsIn_update hu]
    exact hg

/-- The value is answered afterwards if it was before. -/
theorem exists_value {site : Site K} {v : Vec K}
    (hv : l.primitives.value l.toLeafData site = .ok v) :
    ∃ v', l'.primitives.value l'.toLeafData site = .ok v' := by
  rw [h.primitives] at hv
  obtain ⟨φ, hφ, -⟩ := bind_eq_ok_iff.1 hv
  rw [(h.update hu).primitives]
  exact ⟨_, bind_eq_ok_iff.2 ⟨φ, (valuesAt_update hu site).trans hφ, rfl⟩⟩

/-- The gradient is answered afterwards if it was before. -/
theorem exists_gradient {site : Site K} {m : Mat K}
    (hm : l.primitives.gradient l.toLeafData site = .ok m) :
    ∃ m', l'.primitives.gradient l'.toLeafData site = .ok m' := by
  rw [h.primitives] at hm
  obtain ⟨g, hg, hm⟩ := bind_eq_ok_iff.1 hm
  obtain ⟨hcols, -⟩ := Mat.mul_eq_ok (lift_eq_ok_iff.1 hm)
  have hsize : l'.coefficients.matrix.cols = g.transpose.rows :=
    (sameKind_update hu).size.trans hcols
  obtain ⟨m', hm'⟩ := Mat.exists_mul hsize
  rw [(h.update hu).primitives]
  exact ⟨m', bind_eq_ok_iff.2 ⟨g, (gradientsIn_update hu site).trans hg, lift_eq_ok_iff.2 hm'⟩⟩

omit h hu in
/-- A weighted sum of the coefficients changes by the weighted sum of the correction. -/
theorem sum_update {δ : Correction K} (h : l.IsLinear) (hu : l.update δ.stacked = .ok l')
    (hn : l.numCoefficients = δ.count) (hs : l.correctionSize = δ.size)
    {i : ℕ} (hi : i < l.valueSize) (w : ℕ → K) :
    ∑ j ∈ Finset.range l'.numCoefficients, w j * l'.coefficients.entry i j =
      ∑ j ∈ Finset.range l.numCoefficients, w j * l.coefficients.entry i j +
        δ.weigh fun j a => w j * delta i a := by
  have hk : l'.numCoefficients = l.numCoefficients := (sameKind_update hu).size
  obtain ⟨c, hc, hu⟩ := bind_eq_ok_iff.1 hu
  rw [pure_eq_ok_iff] at hu
  subst hu
  have hcs : i < δ.size :=
    calc i < l.valueSize := hi
      _ = l.correctionSize := (Manifold.correctionSize_of_isEuclidean h.euclidean).symm
      _ = δ.size := hs
  rw [δ.weigh_delta hcs, hk, ← hn, ← Finset.sum_add_distrib]
  refine Finset.sum_congr rfl fun j hj => ?_
  rw [← mul_add]
  congr 1
  rw [Correction.part, ← hs]
  exact Coefficients.entry_update h.euclidean hc (Finset.mem_range.mp hj) hi

end IsLinear

end Leaf

namespace ElementField

/-- The field `f'` is the field `f` after the correction. All leaves are leaves of the library, and
those that own the block have the same number of coefficients. -/
structure Moves (f f' : ElementField K) (δ : Correction K) : Prop where
  corrected : f.Corrected f' δ.block δ.stacked
  standard : ∀ l ∈ f.reachableLeaves, l.Standard
  count : ∀ l ∈ f.reachableLeaves, l.block = δ.block → l.numCoefficients = δ.count
  info : ∃ info, f.blockInfo δ.block = .ok info ∧ info.correctionSize = δ.size ∧
    info.numCoefficients = δ.count

/-- What is annihilated is answered by zeros. -/
theorem derivative_of_annihilated {f : ElementField K} {e : Expr K} {r : Request K}
    (hr : f.Admits r.directions) (hann : e.annihilated r.directions = true) :
    (f.operand e).derivative r =
      .ok (r.directions.form e.valueSize f.gridDim f.tangentDim).zero := by
  have hv : r.directions ≠ .value := by
    intro hv
    rw [hv] at hann
    nomatch hann
  show (f.operandWith Expr.annihilated e).derivative r = _
  rw [operandWith_derivative, if_neg hv, if_pos hann, zeroDerivative_eq hr]

theorem entry_eq_zero_of_annihilated {f : ElementField K} {e : Expr K} {r : Request K}
    (hr : f.Admits r.directions) (hann : e.annihilated r.directions = true) (k i j : ℕ) :
    (f.operand e).entry r k i j = 0 := by
  rw [Operand.entry_of_ok (derivative_of_annihilated hr hann), Form.entry_zero]

section Leaves

variable {f : ElementField K} {slot : ℕ} {signature : LeafSignature} {l : Leaf K} {site : Site K}
  {T : Partials K} (hl : f.HostsLeaf slot signature l)
include hl

/-- In its own block a leaf answers by its primitives. -/
theorem leaf_derivative_eq {r : Request K} (hv : r.directions ≠ .value)
    (hann : (Expr.leaf slot signature : Expr K).annihilated r.directions = false)
    (hown : ∀ c ∈ r.directions.coefficientList, c.block = l.block) :
    (f.operand (.leaf slot signature)).derivative r = l.answer r := by
  rw [derivative_eq_rule hv hann]
  show f.leafDerivative slot r = _
  rw [leafDerivative_eq hl.get, if_neg]
  simpa using hown

theorem gradientOf_leaf (hT : l.Reads site T)
    (h : (f.operand (.leaf slot signature)).Answers (Strain.gradientRequest site)) {i k : ℕ}
    (hi : i < l.valueSize) (hk : k < f.gridDim) :
    Strain.gradientOf (f.operand (.leaf slot signature)) site i k = T.slope k i := by
  obtain ⟨D, hD⟩ := h
  have hown : ∀ c ∈ (Strain.gradientRequest site).directions.coefficientList, c.block = l.block :=
    fun c hc => absurd hc List.not_mem_nil
  have haccepts := hl.accepts (f.admits_gradient site) hown (Request.fits_of_none rfl)
  have hv : (Strain.gradientRequest site).directions ≠ .value := fun hv => (nomatch hv)
  have hanswer := (leaf_derivative_eq hl hv rfl hown).symm.trans hD
  have hread := (hT.answer _ D rfl haccepts hanswer).2 i hi k (hl.gridDim.symm ▸ hk)
  rw [Strain.gradientOf, Operand.entry_of_ok hD]
  exact hread

/-- The answer with respect to one of its coefficients is read off the table of the leaf. -/
theorem leaf_readBy (hT : l.Reads site T) (horder : l.order ≠ .constant) {c : Coefficient}
    (hb : c.block = l.block) {r : Request K} (hsite : r.site = site)
    (hr : f.Admits r.directions) (hc : r.directions.coefficients = .single c) {D : Derivative K}
    (hD : (f.operand (.leaf slot signature)).derivative r = .ok D) :
    T.ReadBy l.valueSize l.gridDim (fun _ => l.correctionSize) r D := by
  obtain rfl := hl.signature_eq
  have hown : ∀ c' ∈ r.directions.coefficientList, c'.block = l.block := by
    rw [Directions.coefficientList, hc]
    exact fun c' hc' => List.mem_singleton.1 hc' ▸ hb
  have hann : (Expr.leaf slot l.signature : Expr K).annihilated r.directions = false := by
    rw [Bool.eq_false_iff, ne_eq, Expr.annihilated_single_iff hc]
    intro hconst
    exact horder ((if_pos hb.symm).symm.trans hconst)
  have hv : r.directions ≠ .value := by
    intro hv
    rw [hv] at hc
    cases hc
  rw [leaf_derivative_eq hl hv hann hown] at hD
  exact hT.answer r D hsite (hl.accepts hr hown (Request.fits_of_single hc)) hD

end Leaves

/-- An expression stands for the same operand in two fields that differ in other leaves only. -/
theorem operand_congr {f f' : ElementField K} {e : Expr K}
    (hrest : f' = { f with leaves := f'.leaves })
    (hleaf : ∀ slot ∈ e.slots, f'.leaves[slot]? = f.leaves[slot]?) :
    f'.operand e = f.operand e := by
  apply operand_of_copies (.self hleaf)
  · rw [hrest]
    rfl
  · rw [hrest]

/-- A leaf of the library is never constant in its own block, so the leaves below an expression that is
constant in a block belong to others. -/
theorem block_ne_of_constant {f : ElementField K} {e : Expr K}
    (hleaf : ∀ l ∈ f.reachableLeaves, l.Standard) {block : BlockId} (he : f.Hosts e)
    (hconst : e.orderIn block = .constant) {slot : ℕ} (hs : slot ∈ e.slots) {l : Leaf K}
    (hl : f.leaves[slot]? = some l) : l.block ≠ block := by
  induction e with
  | leaf s signature =>
    obtain rfl := List.mem_singleton.1 hs
    obtain ⟨l', hl'⟩ := he
    obtain rfl := hl'.signature_eq
    obtain rfl := Option.some.inj (hl.symm.trans hl'.get)
    rintro rfl
    -- A leaf of the library is at least linear in its block.
    have horder : l.order = .constant := (if_pos rfl).symm.trans hconst
    have hann : l.order.annihilatedBy 1 = true := horder ▸ rfl
    exact absurd ((hleaf l hl'.mem).kind.linear_of_annihilated hann).1 (by decide)
  | constant x => exact absurd hs List.not_mem_nil
  | unary op a ih =>
    cases op with
    | negate | scale => exact ih he hconst hs
    | map | strain =>
      have hone := PolynomialOrder.annihilatedBy_one_iff.2 hconst
      exact ih he.1 (PolynomialOrder.constant_of_unlessConstant (n := 1) rfl hone) hs
  | binary op a b iha ihb =>
    have hone := PolynomialOrder.annihilatedBy_one_iff.2 hconst
    have hboth : a.orderIn block = .constant ∧ b.orderIn block = .constant := by
      cases op with
      | sum =>
        obtain ⟨ha, hb⟩ := PolynomialOrder.annihilatedBy_of_max hone
        exact ⟨PolynomialOrder.annihilatedBy_one_iff.1 ha, PolynomialOrder.annihilatedBy_one_iff.1 hb⟩
      | dot => exact PolynomialOrder.constant_of_mul hone
    rcases List.mem_append.1 hs with hs | hs
    · exact iha he.1.1 hboth.1 hs
    · exact ihb he.1.2 hboth.2 hs

omit [ExactScalar K] in
theorem ne_constant_of_curved {e : Expr K} {block : BlockId}
    (hcurved : (e.orderIn block).annihilatedBy 2 ≠ true) : e.orderIn block ≠ .constant :=
  fun hconst => hcurved (hconst ▸ rfl)

theorem rule_of_firstOrder (f : ElementField K) {δ : Correction K} {site : Site K} {e : Expr K}
    (hconst : e.orderIn δ.block ≠ .constant) {r : Request K} (hr : r.FirstOrder δ site) :
    (f.operand e).derivative r = f.rule Expr.annihilated e r := by
  cases hr with
  | gradient => exact derivative_eq_rule (fun hv => (nomatch hv)) rfl
  | @first j hj =>
    refine derivative_eq_rule (fun hv => (nomatch hv)) (Bool.eq_false_iff.2 ?_)
    rwa [ne_eq, Expr.annihilated_single_iff rfl]
  | @variation j hj =>
    refine derivative_eq_rule (fun hv => (nomatch hv)) (Bool.eq_false_iff.2 ?_)
    rwa [ne_eq, Expr.annihilated_single_iff rfl]

theorem rule_of_second (f : ElementField K) {δ : Correction K} (site : Site K) {e : Expr K}
    (hcurved : (e.orderIn δ.block).annihilatedBy 2 ≠ true) (W : Mat K) (j j' : ℕ) :
    (f.operand e).derivative (secondRequest site (δ.coefficient j) (δ.coefficient j') W) =
      f.rule Expr.annihilated e (secondRequest site (δ.coefficient j) (δ.coefficient j') W) := by
  refine derivative_eq_rule (fun hv => (nomatch hv)) (Bool.eq_false_iff.2 ?_)
  have hd : (secondRequest site (δ.coefficient j) (δ.coefficient j') W).directions.coefficients =
      .two (δ.coefficient j) (δ.coefficient j') := rfl
  rwa [ne_eq, Expr.annihilated_two_iff hd rfl]

namespace Moves

variable {f f' : ElementField K} {δ : Correction K} (h : f.Moves f' δ) {e a b : Expr K}
  {site : Site K}
include h

theorem admits {d : Directions} (hd : d.Concern δ) : f.Admits d := by
  obtain ⟨info, hi, -, hn⟩ := h.info
  refine ⟨fun k hk => absurd hk (hd.1 k), fun c hc => ?_⟩
  obtain ⟨j, hj, rfl⟩ := hd.2 c hc
  exact ⟨info, hi, hn ▸ hj⟩

theorem tangentDim : f.tangentDim δ.block = δ.size := by
  obtain ⟨info, hi, hs, -⟩ := h.info
  rw [tangentDim_eq hi, hs]

theorem formed (he : f.Hosts e) {d : Directions} (hd : d.Concern δ) :
    (f.operand e).Formed e.valueSize f.gridDim f.tangentDim d :=
  operandWith_formed (fun l hl => (h.standard l hl).kind.keepsShapes) _ he (h.admits hd)

theorem formed' (he : f.Hosts e) {d : Directions} (hd : d.Concern δ) :
    (f'.operand e).Formed e.valueSize f.gridDim f.tangentDim d := by
  have ha := h.corrected.alike
  have hadmits : f'.Admits d := by
    have hd := h.admits hd
    rw [Admits, ha.gridDim]
    exact ⟨hd.1, fun c hc => ha.blockInfo c.block ▸ hd.2 c hc⟩
  have hstandard := h.corrected.standard h.standard
  have hf := operandWith_formed (fun l hl => (hstandard l hl).kind.keepsShapes)
    Expr.annihilated (ha.hosts he) hadmits
  have hdim : f'.tangentDim = f.tangentDim := by
    funext block
    simp only [ElementField.tangentDim, ha.blockInfo]
  rwa [ha.gridDim, hdim] at hf

/-- An expression of constant order in the block stands for the same operand afterwards. -/
theorem operand_eq (he : f.Hosts e) (hconst : e.orderIn δ.block = .constant) :
    f'.operand e = f.operand e := by
  refine operand_congr h.corrected.rest fun slot hs => ?_
  exact h.corrected.other slot fun _ l hl => block_ne_of_constant h.standard he hconst hs hl

theorem entry_eq_zero {r : Request K} (hd : r.directions.Concern δ)
    (hann : e.annihilated r.directions = true) (k i j : ℕ) : (f.operand e).entry r k i j = 0 :=
  entry_eq_zero_of_annihilated (h.admits hd) hann k i j

theorem along_eq_zero (hconst : e.orderIn δ.block = .constant) (site : Site K) (i : ℕ) :
    (f.operand e).along δ site i = 0 :=
  δ.weigh_zero fun _ hj _ _ => h.entry_eq_zero (concern_first site hj)
    (Expr.annihilated_of_constant List.mem_cons_self hconst) 0 i _

theorem gradientAlong_eq_zero (hconst : e.orderIn δ.block = .constant) (site : Site K) (i k : ℕ) :
    (f.operand e).gradientAlong δ site i k = 0 :=
  δ.weigh_zero fun _ hj _ _ => h.entry_eq_zero (concern_variation site hj)
    (Expr.annihilated_of_constant List.mem_cons_self hconst) k i _

theorem alongTwice_eq_zero (hlinear : (e.orderIn δ.block).annihilatedBy 2 = true) (site : Site K)
    (W : Mat K) : (f.operand e).alongTwice δ site W = 0 := by
  refine δ.weigh_zero fun j hj a _ => δ.weigh_zero fun j' hj' b _ => ?_
  have hd : (secondRequest site (δ.coefficient j) (δ.coefficient j') W).directions.coefficients =
      .two (δ.coefficient j) (δ.coefficient j') := rfl
  have hann := (Expr.annihilated_two_iff hd rfl).2 hlinear
  exact h.entry_eq_zero (concern_second site W hj hj') hann 0 a b

theorem affine_of_constant (site : Site K) (he : f.Hosts e)
    (hconst : e.orderIn δ.block = .constant) (G : ℕ) :
    (f.operand e).Affine δ site (f'.operand e) e.valueSize G := by
  rw [h.operand_eq he hconst]
  refine ⟨fun m hm _ => ⟨m, hm, fun i _ => ?_⟩, fun hG _ => ⟨hG, fun i _ k _ => ?_⟩⟩
  · rw [h.along_eq_zero hconst, add_zero]
  · rw [h.gradientAlong_eq_zero hconst, add_zero]

section LeafTerms

variable {slot : ℕ} {signature : LeafSignature} {l : Leaf K} (hl : f.HostsLeaf slot signature l)
  (hb : l.block = δ.block)
include hl hb

theorem correctionSize_eq : l.correctionSize = δ.size := by
  obtain ⟨info, hi, hsize, -⟩ := hl.info
  rw [← hsize, ← tangentDim_eq hi]
  exact (congrArg f.tangentDim hb).trans h.tangentDim

theorem sum_share {j : ℕ} (hj : j < δ.count) (w : ℕ → K) (a i : ℕ) :
    ∑ n ∈ Finset.range l.numCoefficients, w n * l.share ⟨δ.coefficient j, a⟩ n i =
      w j * delta i a :=
  LeafData.sum_share (c := δ.coefficient j) hb.symm ((h.count l hl.mem hb).symm ▸ hj) w a i

variable (hlinear : l.IsLinear) {φ : ℕ → K} {g : ℕ → ℕ → K}
  (hT : l.Reads site (l.interpolationTable φ g)) {i : ℕ} (hi : i < l.valueSize)
include hlinear hT hi

/-- The term of first order weighs the correction with the shape functions. -/
theorem along_leaf (hfirst : (f.operand (.leaf slot signature)).AnswersFirst δ site) :
    (f.operand (.leaf slot signature)).along δ site i = δ.weigh fun j a => φ j * delta i a := by
  refine δ.weigh_congr fun j hj a ha => ?_
  obtain ⟨D, hD⟩ := hfirst j hj
  have hread := leaf_readBy hl hT hlinear.order_ne_constant hb.symm rfl
    (h.admits (concern_first site hj)) rfl hD
  rw [Operand.entry_of_ok hD, ← h.sum_share hl hb hj φ]
  exact hread.2 i hi a (h.correctionSize_eq hl hb ▸ ha)

/-- The gradient of the term of first order weighs the correction with the gradients of the shape
functions. -/
theorem gradientAlong_leaf (hfirst : (f.operand (.leaf slot signature)).AnswersVariations δ site)
    {k : ℕ} (hk : k < f.gridDim) : (f.operand (.leaf slot signature)).gradientAlong δ site i k =
      δ.weigh fun j a => g k j * delta i a := by
  refine δ.weigh_congr fun j hj a ha => ?_
  obtain ⟨D, hD⟩ := hfirst j hj
  have hread := leaf_readBy hl hT hlinear.order_ne_constant hb.symm rfl
    (h.admits (concern_variation site hj)) rfl hD
  rw [Strain.variationOf, Operand.entry_of_ok hD, ← h.sum_share hl hb hj (g k)]
  exact hread.2 k (hl.gridDim.symm ▸ hk) i hi a (h.correctionSize_eq hl hb ▸ ha)

end LeafTerms

theorem affine_leaf {slot : ℕ} {signature : LeafSignature} (he : f.Hosts (.leaf slot signature))
    (hb : signature.block = δ.block) (horder : signature.order.annihilatedBy 2 = true) :
    (f.operand (.leaf slot signature)).Affine δ site (f'.operand (.leaf slot signature))
      signature.valueSize f.gridDim := by
  obtain ⟨l, hl⟩ := he
  obtain ⟨l'', hl'', -⟩ := h.corrected.alike.hostsLeaf hl
  obtain rfl := hl.signature_eq
  have hlinear := ((h.standard l hl.mem).kind.linear_of_annihilated horder).2
  obtain ⟨l', hl', hu⟩ := h.corrected.owned slot hl.slot_mem l hl.get hb
  obtain rfl := Option.some.inj (hl''.get.symm.trans hl')
  -- Before and after the correction the leaf weighs its coefficients with the same shape functions.
  obtain ⟨φ, g, hT, hT'⟩ := hlinear.exists_tables hu site
  have hsum {i : ℕ} (hi : i < l.valueSize) :=
    hlinear.sum_update hu (h.count l hl.mem hb) (h.correctionSize_eq hl hb) hi
  have hvalueSize : l''.valueSize = l.valueSize := (Leaf.sameKind_update hu).valueSize
  refine ⟨fun m hm hfirst => ?_, fun hgradient hvariations => ?_⟩
  · have hm : f.leafValue slot site = .ok m := hm
    rw [leafValue_eq hl.get] at hm
    obtain ⟨v, hv, hm⟩ := bind_eq_ok_iff.1 hm
    rw [pure_eq_ok_iff] at hm
    subst hm
    obtain ⟨v', hv'⟩ := hlinear.exists_value hu hv
    refine ⟨.column v', ?_, fun i hi => ?_⟩
    · show f'.leafValue slot site = _
      rw [leafValue_eq hl']
      exact bind_eq_ok_iff.2 ⟨v', hv', rfl⟩
    · rw [h.along_leaf hl hb hlinear hT hi hfirst, Mat.entry_column, Mat.entry_column,
        hT.value hv hi, hT'.value hv' (hvalueSize.symm ▸ hi)]
      exact hsum hi φ
  · have hv : (Strain.gradientRequest site).directions ≠ .value := fun hv => (nomatch hv)
    have hgradient' :
        (f'.operand (.leaf slot l.signature)).Answers (Strain.gradientRequest site) := by
      obtain ⟨D, hD⟩ := hgradient
      rw [leaf_derivative_eq hl hv rfl fun c hc => absurd hc List.not_mem_nil] at hD
      obtain ⟨m, hm, -⟩ := bind_eq_ok_iff.1 hD
      obtain ⟨m', hm'⟩ := hlinear.exists_gradient hu hm
      refine ⟨.matrix m', ?_⟩
      rw [leaf_derivative_eq hl'' hv rfl fun c hc => absurd hc List.not_mem_nil]
      exact bind_eq_ok_iff.2 ⟨m', hm', rfl⟩
    refine ⟨hgradient', fun i hi k hk => ?_⟩
    rw [h.gradientAlong_leaf hl hb hlinear hT hi hvariations hk,
      gradientOf_leaf hl hT hgradient hi hk, gradientOf_leaf hl'' hT' hgradient'
        (hvalueSize.symm ▸ hi) (h.corrected.alike.gridDim.symm ▸ hk)]
    exact hsum hi (g k)

theorem fixed_of_constant (hconst : e.orderIn δ.block = .constant) (site : Site K) :
    (f.operand e).Fixed δ site :=
  ⟨h.along_eq_zero hconst site, h.gradientAlong_eq_zero hconst site⟩

/-- An expression of at most linear order in the block is affine in the correction. -/
theorem affine (site : Site K) (he : f.Hosts e) (horder : (e.orderIn δ.block).annihilatedBy 2 = true) :
    (f.operand e).Affine δ site (f'.operand e) e.valueSize f.gridDim := by
  induction e with
  | leaf slot signature =>
    by_cases hb : signature.block = δ.block
    · have hown : (Expr.leaf slot signature : Expr K).orderIn δ.block = signature.order := if_pos hb
      exact h.affine_leaf he hb (hown ▸ horder)
    · exact h.affine_of_constant site he (if_neg hb) f.gridDim
  | constant x => exact h.affine_of_constant site he rfl f.gridDim
  | unary op a ih =>
    by_cases hconst : (Expr.unary op a).orderIn δ.block = .constant
    · exact h.affine_of_constant site he hconst f.gridDim
    have hD (r : Request K) (hr : r.FirstOrder δ site) := rule_of_firstOrder f hconst hr
    have hD' := rule_of_firstOrder f' hconst (.gradient : Request.FirstOrder δ site _)
    cases op with
    | negate => exact (ih he horder).scale (x := -1) rfl rfl hD hD'
    | scale x => exact (ih he horder).scale (x := x) rfl rfl hD hD'
    | map _ | strain =>
      have ha := PolynomialOrder.constant_of_unlessConstant (n := 2) rfl horder
      exact absurd (if_pos ha) hconst
  | binary op a b iha ihb =>
    by_cases hconst : (Expr.binary op a b).orderIn δ.block = .constant
    · exact h.affine_of_constant site he hconst f.gridDim
    have hD (r : Request K) (hr : r.FirstOrder δ site) := rule_of_firstOrder f hconst hr
    have hD' := rule_of_firstOrder f' hconst (.gradient : Request.FirstOrder δ site _)
    obtain ⟨⟨ha, hb⟩, hsize⟩ := he
    have hfb {d : Directions} (hd : d.Concern δ) := h.formed hb hd
    have hfb' {d : Directions} (hd : d.Concern δ) := h.formed' hb hd
    rw [← hsize] at hfb hfb'
    cases op with
    | sum =>
      obtain ⟨hoa, hob⟩ := PolynomialOrder.annihilatedBy_of_max horder
      have hB := ihb hb hob
      rw [← hsize] at hB
      exact (iha ha hoa).add (h.formed ha) hfb (h.formed' ha) hfb' rfl rfl hD hB hD'
    | dot =>
      -- One of the factors does not change, so there is no product of two changes.
      obtain ⟨⟨hoa, hob⟩, hor⟩ := PolynomialOrder.linear_of_mul horder
      have hB := ihb hb hob
      rw [← hsize] at hB
      have hfixed : (f.operand a).Fixed δ site ∨ (f.operand b).Fixed δ site :=
        hor.imp (h.fixed_of_constant · site) (h.fixed_of_constant · site)
      exact (iha ha hoa).dot (h.formed ha) hfb (h.formed' ha) hfb' rfl rfl hD hB hfixed hD'

theorem quadratic_of_linear (he : f.Hosts e) (horder : (e.orderIn δ.block).annihilatedBy 2 = true) :
    (f.operand e).Quadratic δ site (f'.operand e) e.valueSize :=
  (h.affine site he horder).quadratic (h.alongTwice_eq_zero horder site)

theorem quadratic_leaf {slot : ℕ} {signature : LeafSignature}
    (he : f.Hosts (.leaf slot signature))
    (horder : ((Expr.leaf slot signature : Expr K).orderIn δ.block).annihilatedBy 3 = true) :
    (f.operand (.leaf slot signature)).Quadratic δ site (f'.operand (.leaf slot signature))
      signature.valueSize := by
  apply h.quadratic_of_linear he
  by_cases hb : signature.block = δ.block
  · have hown : (Expr.leaf slot signature : Expr K).orderIn δ.block = signature.order := if_pos hb
    obtain ⟨l, hl⟩ := id he
    obtain rfl := hl.signature_eq
    have hlinear := ((h.standard l hl.mem).kind.linear_of_annihilated (hown ▸ horder)).2
    have ho : l.signature.order = .linear := hlinear.order
    rw [hown, ho]
    rfl
  · have hconst : (Expr.leaf slot signature : Expr K).orderIn δ.block = .constant := if_neg hb
    rw [hconst]
    rfl

/-- The displacement is affine, and the strains are quadratic in its gradient. -/
theorem quadratic_strain (he : f.Hosts (.unary .strain a))
    (hcurved : ((Expr.unary .strain a).orderIn δ.block).annihilatedBy 2 ≠ true) :
    (f.operand (.unary .strain a)).Quadratic δ site (f'.operand (.unary .strain a))
      (Expr.unary .strain a).valueSize := by
  have hU := h.affine site he.1 (he.linear_of_strain δ.block)
  obtain ⟨ha, ⟨hV, hG⟩, hdim, -⟩ := he
  have hfu {d : Directions} (hd : d.Concern δ) := h.formed ha hd
  have hfu' {d : Directions} (hd : d.Concern δ) := h.formed' ha hd
  rw [hV] at hU hfu hfu'
  have hv' : (f'.operand (.unary .strain a)).value site =
      Strain.value f.gridDim (f.referenceTangents a) (f'.operand a) site := by
    rw [← h.corrected.alike.gridDim, ← h.corrected.referenceTangents]
    rfl
  have hsize : (Expr.unary .strain a).valueSize =
      f.gridDim + (Strain.shearPairs f.gridDim).length := by
    rw [Strain.add_length_shearPairs hdim.2, Expr.valueSize, hG, Option.getD_some]
  rw [hsize]
  exact Strain.quadratic_strain hfu hdim h.tangentDim
    (fun r hr => rule_of_firstOrder f (ne_constant_of_curved hcurved) hr) hfu' hU rfl hv'
    fun W j _ j' _ => rule_of_second f site hcurved W j j'

/-- Two affine factors, or a quadratic one and one that does not change. -/
theorem quadratic_dot (ha : f.Hosts a) (hb : f.Hosts b) (hsize : a.valueSize = b.valueSize)
    (hcurved : ((Expr.binary .dot a b).orderIn δ.block).annihilatedBy 2 ≠ true)
    (horder : ((Expr.binary .dot a b).orderIn δ.block).annihilatedBy 3 = true)
    (hA : (a.orderIn δ.block).annihilatedBy 3 = true →
      (f.operand a).Quadratic δ site (f'.operand a) a.valueSize)
    (hB : (b.orderIn δ.block).annihilatedBy 3 = true →
      (f.operand b).Quadratic δ site (f'.operand b) b.valueSize) :
    (f.operand (.binary .dot a b)).Quadratic δ site (f'.operand (.binary .dot a b)) 1 := by
  have hfa {d : Directions} (hd : d.Concern δ) := h.formed ha hd
  have hfa' {d : Directions} (hd : d.Concern δ) := h.formed' ha hd
  have hfb {d : Directions} (hd : d.Concern δ) := h.formed hb hd
  have hfb' {d : Directions} (hd : d.Concern δ) := h.formed' hb hd
  rw [← hsize] at hB hfb hfb'
  have hD (r : Request K) (hr : r.FirstOrder δ site) :=
    rule_of_firstOrder f (ne_constant_of_curved hcurved) hr
  have hD₂ (W : Mat K) (j : ℕ) (_ : j < δ.count) (j' : ℕ) (_ : j' < δ.count) :=
    rule_of_second f site hcurved W j j'
  have hzero (e : Expr K) (he : (e.orderIn δ.block).annihilatedBy 2 = true) :=
    h.alongTwice_eq_zero he site
  rcases PolynomialOrder.quadratic_of_mul horder with ⟨hoa, hob⟩ | ⟨hoa, hob⟩ | ⟨hoa, hob⟩
  · have hB := h.affine site hb hob
    rw [← hsize] at hB
    exact (h.affine site ha hoa).quadratic_dot hfa hfb hfa' hfb' rfl rfl hD hB
      (fun W => ⟨hzero a hoa W, hzero b hob W⟩) hD₂
  · exact .dot_left hfa hfb hfa' hfb' rfl rfl hD (h.affine_of_constant site ha hoa f.gridDim)
      (h.fixed_of_constant hoa site) (hzero a (hoa ▸ rfl)) (hB hob) hD₂
  · have hB := h.affine_of_constant site hb hob f.gridDim
    rw [← hsize] at hB
    exact (hA hoa).dot_right hfa hfb hfa' hfb' rfl rfl hD hB (h.fixed_of_constant hob site)
      (hzero b (hob ▸ rfl)) hD₂

/-- An expression of at most quadratic order in the block is quadratic in the correction. -/
theorem quadratic (he : f.Hosts e) (horder : (e.orderIn δ.block).annihilatedBy 3 = true) :
    (f.operand e).Quadratic δ site (f'.operand e) e.valueSize := by
  induction e with
  | leaf slot signature => exact h.quadratic_leaf he horder
  | constant x => exact h.quadratic_of_linear he rfl
  | unary op a ih =>
    by_cases hlinear : ((Expr.unary op a).orderIn δ.block).annihilatedBy 2 = true
    · exact h.quadratic_of_linear he hlinear
    have hconst := ne_constant_of_curved hlinear
    have hD (r : Request K) (hr : r.FirstOrder δ site) := rule_of_firstOrder f hconst hr
    have hD₂ (W : Mat K) (j : ℕ) (_ : j < δ.count) (j' : ℕ) (_ : j' < δ.count) :=
      rule_of_second f site hlinear W j j'
    cases op with
    | negate => exact (ih he horder).scale (x := -1) rfl rfl hD hD₂
    | scale x => exact (ih he horder).scale (x := x) rfl rfl hD hD₂
    | map g =>
      -- A function of a scalar is of no finite order unless the scalar is constant.
      have ha := PolynomialOrder.constant_of_unlessConstant (n := 3) rfl horder
      exact absurd (if_pos ha) hconst
    | strain => exact h.quadratic_strain he hlinear
  | binary op a b iha ihb =>
    by_cases hlinear : ((Expr.binary op a b).orderIn δ.block).annihilatedBy 2 = true
    · exact h.quadratic_of_linear he hlinear
    obtain ⟨⟨ha, hb⟩, hsize⟩ := he
    cases op with
    | sum =>
      obtain ⟨hoa, hob⟩ := PolynomialOrder.annihilatedBy_of_max horder
      have hB := ihb hb hob
      have hfb {d : Directions} (hd : d.Concern δ) := h.formed hb hd
      have hfb' {d : Directions} (hd : d.Concern δ) := h.formed' hb hd
      rw [← hsize] at hB hfb hfb'
      exact (iha ha hoa).add (h.formed ha) hfb (h.formed' ha) hfb' rfl rfl
        (fun r hr => rule_of_firstOrder f (ne_constant_of_curved hlinear) hr) hB
        fun W j _ j' _ => rule_of_second f site hlinear W j j'
    | dot => exact h.quadratic_dot ha hb hsize hlinear horder (iha ha) (ihb hb)

end Moves

variable {f f' : ElementField K}

theorem moves_of_addToCoefficients (hf : f.Built) (hleaf : ∀ l ∈ f.reachableLeaves, l.Standard)
    {block : BlockId} {n : ℕ} (hn : ∀ l ∈ f.owners block, l.numCoefficients = n) {d : Vec K}
    (hd : f.addToCoefficients block d = .ok f') :
    f.Moves f' { block, count := n, size := f.tangentDim block, stacked := d } := by
  have hlisted := hf.listed
  refine ⟨corrected_of_addToCoefficients hlisted.nodup hd, hleaf, fun l hl hb => hn l ?_, ?_⟩
  · exact List.mem_filter.2 ⟨hl, decide_eq_true hb⟩
  · obtain ⟨⟨hne, -⟩, -⟩ := correctOwners_eq_ok hd
    obtain ⟨l, hl⟩ := List.exists_mem_of_ne_nil _ hne
    obtain ⟨hl, hb⟩ := List.mem_filter.1 hl
    obtain ⟨slot, hs, hget⟩ := List.mem_filterMap.1 hl
    obtain ⟨signature, l', hl'⟩ := hf.hosts.exists_leaf (hlisted.slots slot hs)
    obtain rfl := Option.some.inj (hget.symm.trans hl'.get)
    obtain ⟨info, hi, -, -⟩ := hl'.info
    rw [of_decide_eq_true hb] at hi
    exact ⟨info, hi, (tangentDim_eq hi).symm, hf.numCoefficients_eq hn hi⟩

theorem evaluate_eq_ok_iff {site : Site K} {v : Vec K} : f.evaluate site = .ok v ↔
    ∃ m, (f.operand f.expr).value site = .ok m ∧ m.cols = 1 ∧ m.flatten = v := by
  rw [evaluate, bind_eq_ok_iff]
  simp only [lift_eq_ok_iff, Mat.singleColumn, require_eq_ok]

theorem answers_of_evaluateRequest {r : Request K} {D : Derivative K}
    (h : f.evaluateRequest r = .ok D) : (f.operand f.expr).derivative r = .ok D :=
  (evaluateRequest_eq_ok_iff.1 h).2

/-- The declared orders of a built field are true. A correction that is accepted leaves the value of a
field of constant order in the block as it is; the value of one of linear order changes by the first
derivatives, and, contracted with any weights, the value of one of quadratic order by the first and
second derivatives. The derivatives are those before the correction. -/
theorem addToCoefficients_expands (hf : f.Built) (hleaf : ∀ l ∈ f.reachableLeaves, l.Standard)
    {block : BlockId} {n : ℕ} (hn : ∀ l ∈ f.owners block, l.numCoefficients = n) {d : Vec K}
    (hd : f.addToCoefficients block d = .ok f') (site : Site K) :
    let size := f.tangentDim block
    let part (i a : ℕ) : K := d.entry (i * size + a)
    (f.orderIn block = .constant → f'.evaluate site = f.evaluate site) ∧
    ∀ (v : Vec K) (D : ℕ → Derivative K), f.evaluate site = .ok v →
      (∀ i < n, f.evaluateRequest (firstRequest site ⟨block, i⟩) = .ok (D i)) →
      let change (k : ℕ) : K := ∑ i ∈ Finset.range n, ∑ a ∈ Finset.range size,
        (D i).entry 0 k a * part i a
      (f.orderIn block = .linear → ∃ v', f'.evaluate site = .ok v' ∧ v'.size = v.size ∧
        ∀ k < v.size, v'.entry k = v.entry k + change k) ∧
      (f.orderIn block = .quadratic → ∀ (W : Mat K) (H : ℕ → ℕ → Derivative K),
        W.rows = f.valueSize ∧ W.cols = 1 →
        (∀ i < n, ∀ j < n,
          f.evaluateRequest (secondRequest site ⟨block, i⟩ ⟨block, j⟩ W) = .ok (H i j)) →
        ∃ v', f'.evaluate site = .ok v' ∧ v'.size = v.size ∧
          ∑ k ∈ Finset.range v.size, W.entry k 0 * (v'.entry k - v.entry k) =
            ∑ k ∈ Finset.range v.size, W.entry k 0 * change k +
              1 / 2 * ∑ i ∈ Finset.range n, ∑ j ∈ Finset.range n,
                ∑ a ∈ Finset.range size, ∑ b ∈ Finset.range size,
                  part i a * (H i j).entry 0 a b * part j b) := by
  intro size part
  let δ : Correction K := { block, count := n, size, stacked := d }
  have h : f.Moves f' δ := moves_of_addToCoefficients hf hleaf hn hd
  have hexpr : f'.expr = f.expr := h.corrected.alike.expr
  have hV : f.valueSize = f.expr.valueSize := f.top.valueSize_eq
  rw [orderIn, f.top.orderIn_eq block]
  refine ⟨fun hconst => ?_, fun v D hv hD => ?_⟩
  · rw [evaluate, evaluate, hexpr, h.operand_eq hf.hosts hconst]
  intro change
  have hform := concern_gradient δ site
  obtain ⟨m, hm, hcols, rfl⟩ := evaluate_eq_ok_iff.1 hv
  have hrows := ((h.formed hf.hosts hform).value site m hm).1
  -- What is said of columns is said of the vectors that they hold.
  have hflatten {m' : Mat K} (hm' : (f'.operand f.expr).value site = .ok m') :
      f'.evaluate site = .ok m'.flatten ∧ m'.flatten.size = f.expr.valueSize ∧
        ∀ k, m'.flatten.entry k = m'.entry k 0 := by
    obtain ⟨hr, hc⟩ := (h.formed' hf.hosts hform).value site m' hm'
    refine ⟨evaluate_eq_ok_iff.2 ⟨m', hexpr ▸ hm', hc, rfl⟩, ?_, Mat.entry_flatten_column hc⟩
    rw [Mat.flatten, m'.size_entries, hr, hc, Nat.mul_one]
  have hsize : m.flatten.size = f.expr.valueSize := by
    rw [Mat.flatten, m.size_entries, hrows, hcols, Nat.mul_one]
  have hfirst : (f.operand f.expr).AnswersFirst δ site :=
    fun j hj => ⟨D j, answers_of_evaluateRequest (hD j hj)⟩
  have hchange (k : ℕ) : (f.operand f.expr).along δ site k = change k := by
    rw [Operand.along, Correction.weigh]
    refine Finset.sum_congr rfl fun j hj => Finset.sum_congr rfl fun a _ => ?_
    have hDj := answers_of_evaluateRequest (hD j (Finset.mem_range.mp hj))
    rw [Correction.coefficient, Operand.entry_of_ok hDj]
    rfl
  rw [hsize]
  refine ⟨fun hlinear => ?_, fun hquadratic W H hW hH => ?_⟩
  · obtain ⟨m', hm', he⟩ := (h.affine site hf.hosts (hlinear ▸ rfl)).value m hm hfirst
    obtain ⟨hv', hsize', hentry⟩ := hflatten hm'
    refine ⟨m'.flatten, hv', hsize', fun k hk => ?_⟩
    rw [hentry, Mat.entry_flatten_column hcols, he k hk, hchange]
  · have hsecond : (f.operand f.expr).AnswersSecond δ site W :=
      fun i hi j hj => ⟨H i j, answers_of_evaluateRequest (hH i hi j hj)⟩
    obtain ⟨m', hm', he⟩ := h.quadratic hf.hosts (hquadratic ▸ rfl) m hm hfirst W (hV ▸ hW) hsecond
    obtain ⟨hv', hsize', hentry⟩ := hflatten hm'
    have htwice : (f.operand f.expr).alongTwice δ site W =
        ∑ i ∈ Finset.range n, ∑ j ∈ Finset.range n, ∑ a ∈ Finset.range size,
          ∑ b ∈ Finset.range size, part i a * (H i j).entry 0 a b * part j b := by
      rw [Operand.alongTwice, Correction.weigh]
      refine Finset.sum_congr rfl fun i hi => ?_
      -- The sum over the second coefficient moves out of the one over the components of the first.
      simp only [Correction.weigh, Finset.sum_mul]
      rw [Finset.sum_comm]
      refine Finset.sum_congr rfl fun j hj => Finset.sum_congr rfl fun a _ =>
        Finset.sum_congr rfl fun b _ => ?_
      have hHij := answers_of_evaluateRequest (hH i (Finset.mem_range.mp hi) j
        (Finset.mem_range.mp hj))
      rw [Correction.coefficient, Correction.coefficient, Operand.entry_of_ok hHij]
      show (H i j).entry 0 a b * δ.part j b * δ.part i a =
        δ.part i a * (H i j).entry 0 a b * δ.part j b
      ring
    refine ⟨m'.flatten, hv', hsize', ?_⟩
    calc ∑ k ∈ Finset.range f.expr.valueSize,
          W.entry k 0 * (m'.flatten.entry k - m.flatten.entry k)
        = ∑ k ∈ Finset.range f.expr.valueSize, W.entry k 0 * m'.entry k 0 -
          ∑ k ∈ Finset.range f.expr.valueSize, W.entry k 0 * m.entry k 0 := by
          rw [← Finset.sum_sub_distrib]
          refine Finset.sum_congr rfl fun k _ => ?_
          rw [hentry, Mat.entry_flatten_column hcols, mul_sub]
      _ = _ := by
        rw [he, htwice]
        simp only [hchange, mul_add, Finset.sum_add_distrib]
        ring

/-- The square of a number on a segment, in the middle, when its ends move by 3 and 4. -/
theorem addToCoefficients_expands_square :
    let f : ElementField ℝ := square 1 2
    let site : Site ℝ := { point := .position #[0], transform := .referenceElement }
    let d : Vec ℝ := #[3, 4]
    (f.Built ∧ (∀ l ∈ f.reachableLeaves, l.Standard) ∧
      ∀ l ∈ f.owners ⟨0⟩, l.numCoefficients = 2) ∧
    ∃ (f' : ElementField ℝ) (v v' : Vec ℝ) (D : ℕ → Derivative ℝ) (H : ℕ → ℕ → Derivative ℝ),
      f.addToCoefficients ⟨0⟩ d = .ok f' ∧ f.evaluate site = .ok v ∧ f'.evaluate site = .ok v' ∧
      (∀ i < 2, f.evaluateRequest (firstRequest site ⟨⟨0⟩, i⟩) = .ok (D i)) ∧
      (∀ i < 2, ∀ j < 2,
        f.evaluateRequest (secondRequest site ⟨⟨0⟩, i⟩ ⟨⟨0⟩, j⟩ (.scalar 1)) = .ok (H i j)) ∧
      v'.entry 0 - v.entry 0 = ∑ i ∈ Finset.range 2, (D i).entry 0 0 0 * d.entry i +
        1 / 2 * ∑ i ∈ Finset.range 2, ∑ j ∈ Finset.range 2,
          d.entry i * (H i j).entry 0 0 0 * d.entry j := by
  intro f site d
  have hleaf : ∀ l ∈ f.reachableLeaves, l.Standard := fun l hl => standard_of_mem_square hl
  have hn : ∀ l ∈ f.owners ⟨0⟩, l.numCoefficients = 2 := by
    intro l hl
    have hmem : l ∈ [Leaf.onSegment ⟨0⟩ (1 : ℝ) 2] := hl
    obtain rfl := List.mem_singleton.1 hmem
    rfl
  obtain ⟨f', hd⟩ : ∃ f', f.addToCoefficients ⟨0⟩ d = .ok f' := ⟨_, rfl⟩
  obtain ⟨v, hv, hone⟩ : ∃ v, f.evaluate site = .ok v ∧ v.size = 1 := ⟨_, rfl, rfl⟩
  have hfirst : ∀ i : ℕ, ∃ D, i < 2 → f.evaluateRequest (firstRequest site ⟨⟨0⟩, i⟩) = .ok D := by
    intro i
    match i with
    | 0 => exact ⟨_, fun _ => rfl⟩
    | 1 => exact ⟨_, fun _ => rfl⟩
    | i + 2 => exact ⟨.matrix (.scalar 0), fun h => by omega⟩
  choose D hD using hfirst
  have hsecond : ∀ i j : ℕ, ∃ H, i < 2 → j < 2 →
      f.evaluateRequest (secondRequest site ⟨⟨0⟩, i⟩ ⟨⟨0⟩, j⟩ (.scalar 1)) = .ok H := by
    intro i j
    match i, j with
    | 0, 0 | 0, 1 | 1, 0 | 1, 1 => exact ⟨_, fun _ _ => rfl⟩
    | i + 2, _ => exact ⟨.matrix (.scalar 0), fun h => by omega⟩
    | _, j + 2 => exact ⟨.matrix (.scalar 0), fun _ h => by omega⟩
  choose H hH using hsecond
  have hquadratic : f.orderIn ⟨0⟩ = .quadratic := rfl
  obtain ⟨v', hv', hsize, he⟩ :=
    ((addToCoefficients_expands (built_square 1 2) hleaf hn hd site).2 v D hv hD).2 hquadratic
      (.scalar 1) H ⟨rfl, rfl⟩ fun i hi j hj => hH i j hi hj
  refine ⟨⟨built_square 1 2, hleaf, hn⟩, f', v, v', D, H, hd, hv, hv', hD,
    fun i hi j hj => hH i j hi hj, ?_⟩
  have htangent : (square (1 : ℝ) 2).tangentDim ⟨0⟩ = 1 := rfl
  simpa only [hone, htangent, Finset.sum_range_one, Mat.entry_scalar, one_mul, mul_one, add_zero]
    using he

end ElementField

end ElementFields
