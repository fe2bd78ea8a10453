import ElementFields.Expression.Chain
import ElementFields.Expression.Product
import ElementFields.Expression.Strain
import ElementFields.Proofs.SideBySide

namespace ElementFields
open Scalar

variable {K : Type} [Scalar K] {A : Comparison K}

structure Request.Like (A : Comparison K) (r r' : Request K) : Prop where
  site : r.site = A.left
  site' : r'.site = A.right
  directed : A.Directed r.directions r'.directions
  along : Option.Rel (Mat.Like A.number) r.along r'.along

structure Operand.Alike (A : Comparison K) (o o' : Operand K) : Prop where
  value : Paired A (Mat.Like A.number) (o.value A.left) (o'.value A.right)
  derivative : ∀ r r' : Request K, r.Like A r' →
    Paired A (Derivative.Like A.number) (o.derivative r) (o'.derivative r')

namespace Request.Like

variable {r r' : Request K} (h : r.Like A r')
include h

theorem derived {s s' : Option SpatialDirection} (hs : Option.Rel A.Beside s s') (c : CoefficientPart)
    {along along' : Option (Mat K)} (ha : Option.Rel (Mat.Like A.number) along along') :
    (r.derived s c along).Like A (r'.derived s' c along') :=
  ⟨h.site, h.site', ⟨hs, rfl⟩, ha⟩

theorem spatialPart : r.spatialPart.Like A r'.spatialPart := h.derived h.directed.spatial _ .none

theorem coefficientPart (c : Coefficient) : (r.coefficientPart c).Like A (r'.coefficientPart c) :=
  h.derived .none _ .none

theorem mixedPart (c : Coefficient) : (r.mixedPart c).Like A (r'.mixedPart c) :=
  h.derived h.directed.spatial _ .none

theorem withoutSpatialAlong {W W' : Mat K} (hW : W.Like A.number W') :
    (r.withoutSpatialAlong (some W)).Like A (r'.withoutSpatialAlong (some W')) := by
  rw [Request.withoutSpatialAlong, Request.withoutSpatialAlong, h.directed.coefficients]
  exact h.derived .none _ (.some hW)

theorem withAlong {W W' : Mat K} (hW : W.Like A.number W') :
    (r.withAlong (some W)).Like A (r'.withAlong (some W')) := by
  rw [Request.withAlong, Request.withAlong, h.directed.coefficients]
  exact h.derived h.directed.spatial _ (.some hW)

theorem requireAlong (hA : A.Names) :
    Paired A (Mat.Like A.number) r.requireAlong r'.requireAlong := by
  unfold Request.requireAlong
  have halong := h.along
  cases hr : r.along <;> cases hr' : r'.along <;> rw [hr, hr'] at halong
  · exact Paired.refused (hA.missingAlong _ _ h.directed)
  · nomatch halong
  · nomatch halong
  · cases halong with
    | some hW => exact hW

end Request.Like

namespace Operand.Alike

variable {o o' : Operand K} (ho : o.Alike A o') {r r' : Request K} (h : r.Like A r')
include ho h

theorem value_at : Paired A (Mat.Like A.number) (o.value r.site) (o'.value r'.site) := by
  rw [h.site, h.site']
  exact ho.value

theorem derivativeMatrix :
    Paired A (Mat.Like A.number) (o.derivativeMatrix r) (o'.derivativeMatrix r') :=
  (ho.derivative r r' h).bind fun _ _ hD => Paired.lift (hD.toMatrix A.respected)

theorem spatialComponents :
    Paired A (List.Forall₂ (Mat.Like A.number)) (o.spatialComponents r) (o'.spatialComponents r') :=
  (ho.derivativeMatrix h.spatialPart).bind fun _ _ hm => Paired.pure (hm.splitColumns A.respected)

theorem wrtCoefficient (c : Coefficient) :
    Paired A (Mat.Like A.number) (o.wrtCoefficient r c) (o'.wrtCoefficient r' c) :=
  ho.derivativeMatrix (h.coefficientPart c)

theorem mixedComponents (c : Coefficient) : Paired A (List.Forall₂ (Mat.Like A.number))
    (o.mixedComponents r c) (o'.mixedComponents r' c) :=
  (ho.derivative _ _ (h.mixedPart c)).bind fun _ _ hD => Paired.pure hD.toComponents

theorem secondAlong {W W' : Mat K} (hW : W.Like A.number W') :
    Paired A (Mat.Like A.number) (o.secondAlong r W) (o'.secondAlong r' W') :=
  ho.derivativeMatrix (h.withoutSpatialAlong hW)

theorem thirdAlong {W W' : Mat K} (hW : W.Like A.number W') :
    Paired A (Mat.Like A.number) (o.thirdAlong r W) (o'.thirdAlong r' W') :=
  ho.derivativeMatrix (h.withAlong hW)

end Operand.Alike

/-- Contraction arguments that are related are gone through together. -/
theorem Mat.Like.weights {S : K → K → Prop} (hS : Respected S) {W W' : Mat K} (h : W.Like S W') :
    W.flatten.toList.zipIdx.Forall₂ (fun p q => S p.1 q.1 ∧ p.2 = q.2) W'.flatten.toList.zipIdx :=
  forall₂_zipIdx (h.flatten hS).toList 0

namespace Product

variable {a a' b b' : Operand K} {r r' : Request K} {va va' vb vb' : Mat K}

section Sums

variable {S : K → K → Prop} (hS : Respected S) {x x' y y' m m' n n' : Mat K}
  (hx : x.Like S x') (hm : m.Like S m')
include hS hx hm

theorem agree_crossSum (hy : y.Like S y') (hn : n.Like S n') :
    Agree (Mat.Like S) (crossSum x m y n) (crossSum x' m' y' n') :=
  (hx.transposeMul hS hm).bind fun _ _ hp => (hy.transposeMul hS hn).bind fun _ _ hq => hp.add hS hq

theorem agree_addProduct (hy : y.Like S y') :
    Agree (Mat.Like S) (addProduct y x m) (addProduct y' x' m') :=
  (hx.transposeMul hS hm).bind fun _ _ hp => hy.add hS hp

end Sums

variable (ha : a.Alike A a') (hb : b.Alike A b')
include ha hb

theorem value_paired : Paired A (Mat.Like A.number) (Product.value a b A.left)
    (Product.value a' b' A.right) := by
  refine ha.value.bind fun va va' hva => hb.value.bind fun vb vb' hvb => ?_
  exact (Paired.lift (hva.dot A.respected hvb)).bind fun _ _ hp =>
    Paired.pure (Mat.like_scalar A.respected hp)

variable (h : r.Like A r') (hva : va.Like A.number va') (hvb : vb.Like A.number vb')
include h hva hvb

theorem spatial_paired : Paired A (Derivative.Like A.number) (spatial a b r va vb)
    (spatial a' b' r' va' vb') := by
  have hS := A.respected
  refine (ha.spatialComponents h).bind fun as as' has => ?_
  refine (hb.spatialComponents h).bind fun bs bs' hbs => ?_
  refine Paired.bind (Paired.mapM (Q := Mat.Like A.number) (forall₂_zip has hbs) ?_)
    fun ms ms' hms => Paired.lift (Derivative.agree_ofComponents hS h.directed 1 hms)
  rintro ⟨aₖ, bₖ⟩ ⟨aₖ', bₖ'⟩ ⟨hak, hbk⟩
  refine (Paired.lift (hak.dot hS hvb)).bind fun _ _ hp => ?_
  exact (Paired.lift (hva.dot hS hbk)).bind fun _ _ hq =>
    Paired.pure (Mat.like_scalar hS (hS.add hp hq))

theorem coefficient_paired (c : Coefficient) : Paired A (Derivative.Like A.number)
    (coefficient a b r va vb c) (coefficient a' b' r' va' vb' c) := by
  refine (ha.wrtCoefficient h c).bind fun ac ac' hac => ?_
  refine (hb.wrtCoefficient h c).bind fun bc bc' hbc => ?_
  exact (Paired.lift (agree_crossSum A.respected hvb hac hva hbc)).bind fun _ _ hm =>
    Paired.pure (.matrix hm)

theorem mixed_paired (c : Coefficient) : Paired A (Derivative.Like A.number)
    (mixed a b r va vb c) (mixed a' b' r' va' vb' c) := by
  have hS := A.respected
  refine (ha.spatialComponents h).bind fun as as' has => ?_
  refine (hb.spatialComponents h).bind fun bs bs' hbs => ?_
  refine (ha.wrtCoefficient h c).bind fun ac ac' hac => ?_
  refine (hb.wrtCoefficient h c).bind fun bc bc' hbc => ?_
  refine (ha.mixedComponents h c).bind fun acs acs' hacs => ?_
  refine (hb.mixedComponents h c).bind fun bcs bcs' hbcs => ?_
  refine Paired.bind (Paired.mapM (Q := Mat.Like A.number)
    (forall₂_zip (forall₂_zip has hbs) (forall₂_zip hacs hbcs)) ?_)
    fun ms ms' hms => Paired.lift (Derivative.agree_ofComponents hS h.directed 1 hms)
  rintro ⟨⟨aₖ, bₖ⟩, aₖc, bₖc⟩ ⟨⟨aₖ', bₖ'⟩, aₖc', bₖc'⟩ ⟨⟨hak, hbk⟩, hakc, hbkc⟩
  refine (Paired.lift (agree_crossSum hS hbk hac hvb hakc)).bind fun _ _ hsum => ?_
  refine (Paired.lift (agree_addProduct hS hak hbc hsum)).bind fun _ _ hsum => ?_
  exact Paired.lift (agree_addProduct hS hva hbkc hsum)

variable (hA : A.Names)
include hA

theorem second_paired (c₁ c₂ : Coefficient) : Paired A (Derivative.Like A.number)
    (second a b r va vb c₁ c₂) (second a' b' r' va' vb' c₁ c₂) := by
  have hS := A.respected
  refine (h.requireAlong hA).bind fun W W' hW => ?_
  refine (Paired.lift (hW.entryAt 0 0)).bind fun s s' hs => ?_
  refine (ha.wrtCoefficient h c₁).bind fun a₁ a₁' ha₁ => ?_
  refine (ha.wrtCoefficient h c₂).bind fun a₂ a₂' ha₂ => ?_
  refine (hb.wrtCoefficient h c₁).bind fun b₁ b₁' hb₁ => ?_
  refine (hb.wrtCoefficient h c₂).bind fun b₂ b₂' hb₂ => ?_
  refine (Paired.lift (agree_crossSum hS ha₁ hb₂ hb₁ ha₂)).bind fun m m' hm => ?_
  refine (ha.secondAlong h (hvb.scale hS hs)).bind fun n n' hn => ?_
  refine (Paired.lift ((hm.scale hS hs).add hS hn)).bind fun m m' hm => ?_
  refine (hb.secondAlong h (hva.scale hS hs)).bind fun n n' hn => ?_
  exact (Paired.lift (hm.add hS hn)).bind fun _ _ hm => Paired.pure (.matrix hm)

structure Weighted.Like (S : K → K → Prop) (w w' : Weighted K) : Prop where
  products : w.products.Like S w'.products
  alongA : w.alongA.Like S w'.alongA
  alongB : w.alongB.Like S w'.alongB

theorem third_paired (c₁ c₂ : Coefficient) : Paired A (Derivative.Like A.number)
    (third a b r va vb c₁ c₂) (third a' b' r' va' vb' c₁ c₂) := by
  have hS := A.respected
  refine (h.requireAlong hA).bind fun W W' hW => ?_
  refine (ha.spatialComponents h).bind fun as as' has => ?_
  refine (hb.spatialComponents h).bind fun bs bs' hbs => ?_
  refine (ha.wrtCoefficient h c₁).bind fun a₁ a₁' ha₁ => ?_
  refine (ha.wrtCoefficient h c₂).bind fun a₂ a₂' ha₂ => ?_
  refine (hb.wrtCoefficient h c₁).bind fun b₁ b₁' hb₁ => ?_
  refine (hb.wrtCoefficient h c₂).bind fun b₂ b₂' hb₂ => ?_
  refine (ha.mixedComponents h c₁).bind fun as₁ as₁' has₁ => ?_
  refine (ha.mixedComponents h c₂).bind fun as₂ as₂' has₂ => ?_
  refine (hb.mixedComponents h c₁).bind fun bs₁ bs₁' hbs₁ => ?_
  refine (hb.mixedComponents h c₂).bind fun bs₂ bs₂' hbs₂ => ?_
  have hstart : Weighted.Like A.number
      { products := .zero a₁.cols a₂.cols, alongA := .zero va.rows 1, alongB := .zero vb.rows 1 }
      { products := .zero a₁'.cols a₂'.cols, alongA := .zero va'.rows 1
        alongB := .zero vb'.rows 1 } := by
    rw [ha₁.cols, ha₂.cols, hva.rows, hvb.rows]
    exact ⟨.refl hS _, .refl hS _, .refl hS _⟩
  refine Paired.bind (Paired.foldlM (Q := Weighted.Like A.number) (hW.weights hS) hstart ?_)
    fun sums sums' hsums => ?_
  · rintro w w' ⟨s, k⟩ ⟨s', k'⟩ hw ⟨hs, hk⟩
    obtain rfl : k = k' := hk
    refine (Paired.lift (agree_componentAt has₁ k)).bind fun _ _ h1 => ?_
    refine (Paired.lift (agree_componentAt hbs₂ k)).bind fun _ _ h2 => ?_
    refine (Paired.lift (agree_crossSum hS h1 hb₂ ha₁ h2)).bind fun _ _ hsum => ?_
    refine (Paired.lift (agree_componentAt hbs₁ k)).bind fun _ _ h3 => ?_
    refine (Paired.lift (agree_addProduct hS h3 ha₂ hsum)).bind fun _ _ hsum => ?_
    refine (Paired.lift (agree_componentAt has₂ k)).bind fun _ _ h4 => ?_
    refine (Paired.lift (agree_addProduct hS hb₁ h4 hsum)).bind fun _ _ hsum => ?_
    refine (Paired.lift (hw.products.add hS (hsum.scale hS hs))).bind fun _ _ hp => ?_
    refine (Paired.lift (agree_componentAt hbs k)).bind fun _ _ h5 => ?_
    refine (Paired.lift (hw.alongA.add hS (h5.scale hS hs))).bind fun _ _ hla => ?_
    refine (Paired.lift (agree_componentAt has k)).bind fun _ _ h6 => ?_
    exact (Paired.lift (hw.alongB.add hS (h6.scale hS hs))).bind fun _ _ hlb =>
      Paired.pure ⟨hp, hla, hlb⟩
  · refine (ha.secondAlong h hsums.alongA).bind fun _ _ hn => ?_
    refine (Paired.lift (hsums.products.add hS hn)).bind fun _ _ hm => ?_
    refine (hb.secondAlong h hsums.alongB).bind fun _ _ hn => ?_
    refine (Paired.lift (hm.add hS hn)).bind fun _ _ hm => ?_
    refine (Paired.lift (hvb.mul hS hW)).bind fun _ _ hl => ?_
    refine (ha.thirdAlong h hl).bind fun _ _ hn => ?_
    refine (Paired.lift (hm.add hS hn)).bind fun _ _ hm => ?_
    refine (Paired.lift (hva.mul hS hW)).bind fun _ _ hl => ?_
    refine (hb.thirdAlong h hl).bind fun _ _ hn => ?_
    exact (Paired.lift (hm.add hS hn)).bind fun _ _ hm => Paired.pure (.matrix hm)

omit hva hvb

/-- The product rule, side by side. -/
theorem derivative_paired : Paired A (Derivative.Like A.number) (derivative a b r)
    (derivative a' b' r') := by
  refine (ha.value_at h).bind fun va va' hva => (hb.value_at h).bind fun vb vb' hvb => ?_
  obtain ⟨site, ⟨s, c⟩, along⟩ := r
  obtain ⟨site', ⟨s', c'⟩, along'⟩ := r'
  obtain rfl : c' = c := h.directed.coefficients
  cases h.directed.spatial with
  | none =>
    cases c' with
    | none =>
      exact (Paired.lift (hva.dot A.respected hvb)).bind fun _ _ hp =>
        Paired.pure (.matrix (Mat.like_scalar A.respected hp))
    | single c => exact coefficient_paired ha hb h hva hvb c
    | two c₁ c₂ => exact second_paired ha hb h hva hvb hA c₁ c₂
  | some hs =>
    cases c' with
    | none => exact spatial_paired ha hb h hva hvb
    | single c => exact mixed_paired ha hb h hva hvb c
    | two c₁ c₂ => exact third_paired ha hb h hva hvb hA c₁ c₂

end Product

structure Taylor.Like (S : K → K → Prop) (t t' : Taylor K) : Prop where
  first : S t.first t'.first
  second : S t.second t'.second
  third : S t.third t'.third

namespace ScalarMap

variable {S : K → K → Prop} (hS : Respected S) (f : ScalarMap) {v v' : K} (h : S v v')
include hS h

theorem like_apply : S (f.apply v) (f.apply v') := by
  cases f with
  | sqrt => exact hS.sqrt h
  | log => exact hS.log h

theorem like_derivatives : (f.derivatives v).Like S (f.derivatives v') := by
  cases f with
  | sqrt =>
    have hs := hS.sqrt h
    exact ⟨hS.div (hS.refl _) (hS.mul (hS.refl _) hs),
      hS.div (hS.refl _) (hS.mul (hS.mul (hS.refl _) h) hs),
      hS.div (hS.refl _) (hS.mul (hS.mul (hS.mul (hS.refl _) h) h) hs)⟩
  | log =>
    exact ⟨hS.div (hS.refl _) h, hS.div (hS.refl _) (hS.mul h h),
      hS.div (hS.refl _) (hS.mul (hS.mul h h) h)⟩

end ScalarMap

namespace Chain

variable {a a' : Operand K} {r r' : Request K} {t t' : Taylor K} (ha : a.Alike A a')
include ha

theorem value_paired (f : ScalarMap) : Paired A (Mat.Like A.number) (Chain.value f a A.left)
    (Chain.value f a' A.right) := by
  refine ha.value.bind fun m m' hm => (Paired.lift (hm.entryAt 0 0)).bind fun v v' hv => ?_
  exact Paired.pure (Mat.like_scalar A.respected (f.like_apply A.respected hv))

variable (h : r.Like A r') (ht : t.Like A.number t')
include h ht

theorem mixed_paired (c : Coefficient) : Paired A (Derivative.Like A.number) (mixed t a r c)
    (mixed t' a' r' c) := by
  have hS := A.respected
  refine (ha.spatialComponents h).bind fun as as' has => ?_
  refine (ha.wrtCoefficient h c).bind fun ac ac' hac => ?_
  refine (ha.mixedComponents h c).bind fun acs acs' hacs => ?_
  refine Paired.bind (Paired.mapM (Q := Mat.Like A.number) (forall₂_zip has hacs) ?_)
    fun ms ms' hms => Paired.lift (Derivative.agree_ofComponents hS h.directed 1 hms)
  rintro ⟨aₖ, aₖc⟩ ⟨aₖ', aₖc'⟩ ⟨hak, hakc⟩
  refine (Paired.lift (hak.entryAt 0 0)).bind fun _ _ hx => ?_
  exact Paired.lift ((hac.scale hS (hS.mul ht.second hx)).add hS (hakc.scale hS ht.first))

variable (hA : A.Names)
include hA

theorem second_paired (c₁ c₂ : Coefficient) : Paired A (Derivative.Like A.number)
    (second t a r c₁ c₂) (second t' a' r' c₁ c₂) := by
  have hS := A.respected
  refine (h.requireAlong hA).bind fun W W' hW => ?_
  refine (Paired.lift (hW.entryAt 0 0)).bind fun s s' hs => ?_
  refine (ha.wrtCoefficient h c₁).bind fun a₁ a₁' ha₁ => ?_
  refine (ha.wrtCoefficient h c₂).bind fun a₂ a₂' ha₂ => ?_
  refine (Paired.lift (ha₁.transposeMul hS ha₂)).bind fun m m' hm => ?_
  refine (ha.secondAlong h (Mat.like_scalar hS (hS.mul hs ht.first))).bind fun n n' hn => ?_
  exact (Paired.lift ((hm.scale hS (hS.mul hs ht.second)).add hS hn)).bind fun _ _ hm =>
    Paired.pure (.matrix hm)

structure Weighted.Like (S : K → K → Prop) (w w' : Weighted K) : Prop where
  products : w.products.Like S w'.products
  along : S w.along w'.along

theorem third_paired (c₁ c₂ : Coefficient) : Paired A (Derivative.Like A.number)
    (third t a r c₁ c₂) (third t' a' r' c₁ c₂) := by
  have hS := A.respected
  refine (h.requireAlong hA).bind fun W W' hW => ?_
  refine (ha.spatialComponents h).bind fun as as' has => ?_
  refine (ha.wrtCoefficient h c₁).bind fun a₁ a₁' ha₁ => ?_
  refine (ha.wrtCoefficient h c₂).bind fun a₂ a₂' ha₂ => ?_
  refine (ha.mixedComponents h c₁).bind fun as₁ as₁' has₁ => ?_
  refine (ha.mixedComponents h c₂).bind fun as₂ as₂' has₂ => ?_
  refine (Paired.lift (ha₁.transposeMul hS ha₂)).bind fun a₁₂ a₁₂' ha₁₂ => ?_
  have hstart : Weighted.Like A.number { products := .zero a₁.cols a₂.cols, along := 0 }
      { products := .zero a₁'.cols a₂'.cols, along := 0 } := by
    rw [ha₁.cols, ha₂.cols]
    exact ⟨.refl hS _, hS.refl _⟩
  refine Paired.bind (Paired.foldlM (Q := Weighted.Like A.number) (hW.weights hS) hstart ?_)
    fun sums sums' hsums => ?_
  · rintro w w' ⟨s, k⟩ ⟨s', k'⟩ hw ⟨hs, hk⟩
    obtain rfl : k = k' := hk
    refine (Paired.lift (agree_componentAt has k)).bind fun _ _ h0 => ?_
    refine (Paired.lift (h0.entryAt 0 0)).bind fun _ _ hx => ?_
    refine (Paired.lift (agree_componentAt has₁ k)).bind fun _ _ h1 => ?_
    refine (Paired.lift (h1.transposeMul hS ha₂)).bind fun _ _ hp => ?_
    refine (Paired.lift (agree_componentAt has₂ k)).bind fun _ _ h2 => ?_
    refine (Paired.lift (ha₁.transposeMul hS h2)).bind fun _ _ hq => ?_
    refine (Paired.lift (hp.add hS hq)).bind fun _ _ hmixed => ?_
    refine (Paired.lift ((ha₁₂.scale hS (hS.mul ht.third hx)).add hS
      (hmixed.scale hS ht.second))).bind fun _ _ hall => ?_
    exact (Paired.lift (hw.products.add hS (hall.scale hS hs))).bind fun _ _ hsum =>
      Paired.pure ⟨hsum, hS.add hw.along (hS.mul (hS.mul hs ht.second) hx)⟩
  · refine (ha.secondAlong h (Mat.like_scalar hS hsums.along)).bind fun _ _ hn => ?_
    refine (Paired.lift (hsums.products.add hS hn)).bind fun _ _ hm => ?_
    refine (ha.thirdAlong h (hW.scale hS ht.first)).bind fun _ _ hn => ?_
    exact (Paired.lift (hm.add hS hn)).bind fun _ _ hm => Paired.pure (.matrix hm)

omit ht

/-- The chain rule, side by side. -/
theorem derivative_paired (f : ScalarMap) : Paired A (Derivative.Like A.number) (derivative f a r)
    (derivative f a' r') := by
  have hS := A.respected
  refine (ha.value_at h).bind fun m m' hm => (Paired.lift (hm.entryAt 0 0)).bind fun v v' hv => ?_
  have ht := f.like_derivatives hS hv
  have hscaled : Paired A (Derivative.Like A.number)
      (do return (← a.derivative r).scale (f.derivatives v).first)
      (do return (← a'.derivative r').scale (f.derivatives v').first) :=
    (ha.derivative r r' h).bind fun _ _ hD => Paired.pure (hD.scale hS ht.first)
  obtain ⟨site, ⟨s, c⟩, along⟩ := r
  obtain ⟨site', ⟨s', c'⟩, along'⟩ := r'
  obtain rfl : c' = c := h.directed.coefficients
  cases h.directed.spatial with
  | none =>
    cases c' with
    | none => exact Paired.pure (.matrix (Mat.like_scalar hS (f.like_apply hS hv)))
    | single c => exact hscaled
    | two c₁ c₂ => exact second_paired ha h ht hA c₁ c₂
  | some hs =>
    cases c' with
    | none => exact hscaled
    | single c => exact mixed_paired ha h ht c
    | two c₁ c₂ => exact third_paired ha h ht hA c₁ c₂

end Chain

namespace Strain

section Components

variable {S : K → K → Prop} (hS : Respected S) {m m' n n' : Mat K} (hm : m.Like S m')
  (hn : n.Like S n')
include hS hm hn

theorem agree_diagonal (i : ℕ) : Agree S (diagonal m n i) (diagonal m' n' i) := by
  refine (hn.columnAt hS i).bind fun u u' hu => (hm.columnAt hS i).bind fun v v' hv => ?_
  exact (hv.dot hS hu).bind fun _ _ hp =>
    Agree.pure (hS.add hp (hS.mul (hS.refl _) (hu.inner hS hu)))

theorem agree_shear (i j : ℕ) : Agree S (shear m n i j) (shear m' n' i j) := by
  refine (hn.columnAt hS i).bind fun ui ui' hui => (hn.columnAt hS j).bind fun uj uj' huj => ?_
  refine (hm.columnAt hS i).bind fun vi vi' hvi => (hvi.dot hS huj).bind fun _ _ hp => ?_
  refine (hm.columnAt hS j).bind fun vj vj' hvj => (hui.dot hS hvj).bind fun _ _ hq => ?_
  exact (hui.dot hS huj).bind fun _ _ hr => Agree.pure (hS.add (hS.add hp hq) hr)

theorem agree_tangentRow (i : ℕ) :
    Agree (Mat.Like S) (tangentRow m i n) (tangentRow m' i n') :=
  (hm.columnAt hS i).bind fun _ _ hv => (Mat.like_column hS hv).transposeMul hS hn

omit hS hm hn in
theorem width_like {l l' : List (Mat K)} (h : l.Forall₂ (Mat.Like S) l') : width l = width l' := by
  cases h with
  | nil => rfl
  | cons hm _ => exact hm.cols

end Components

variable {u u' : Operand K} {r r' : Request K} {reference reference' : Site K → Outcome (Mat K)}
  {dim : ℕ} (hu : u.Alike A u')
include hu

section Parts

variable (h : r.Like A r')
include h

theorem displacementGradient_paired : Paired A (Mat.Like A.number) (displacementGradient u r)
    (displacementGradient u' r') :=
  hu.derivativeMatrix (h.derived (.some .all) .none .none)

theorem variation_paired (c : Coefficient) : Paired A (List.Forall₂ (Mat.Like A.number))
    (variation u r c) (variation u' r' c) :=
  (hu.derivative _ _ (h.derived (.some .all) (.single c) .none)).bind fun _ _ hD =>
    Paired.pure hD.toComponents

theorem second_paired (hA : A.Names) (c₁ c₂ : Coefficient) :
    Paired A (Derivative.Like A.number) (second dim u r c₁ c₂) (second dim u' r' c₁ c₂) := by
  have hS := A.respected
  refine (h.requireAlong hA).bind fun W W' hW => ?_
  refine (variation_paired hu h c₁).bind fun δ δ' hδ => ?_
  refine (variation_paired hu h c₂).bind fun ε ε' hε => ?_
  have hstart : (Mat.zero (width δ) (width ε)).Like A.number (Mat.zero (width δ') (width ε')) := by
    rw [width_like hδ, width_like hε]
    exact .refl hS _
  refine Paired.bind (Paired.foldlM (R := Eq) (Q := Mat.Like A.number)
    (List.forall₂_eq_eq_eq ▸ rfl) hstart ?_) fun sum sum' hsum => ?_
  · rintro sum sum' i _ hsum rfl
    refine (Paired.lift (agree_componentAt hδ i)).bind fun _ _ hp => ?_
    refine (Paired.lift (agree_componentAt hε i)).bind fun _ _ hq => ?_
    refine (Paired.lift (hp.transposeMul hS hq)).bind fun _ _ hpq => ?_
    refine (Paired.lift ((hW.flatten hS).component i)).bind fun _ _ hs => ?_
    exact Paired.lift (hsum.add hS (hpq.scale hS hs))
  · refine Paired.bind (Paired.foldlM (R := Eq) (Q := Mat.Like A.number)
      (List.forall₂_eq_eq_eq ▸ rfl) hsum ?_) fun _ _ hsum => Paired.pure (.matrix hsum)
    rintro sum sum' ⟨⟨i, j⟩, m⟩ _ hsum rfl
    refine (Paired.lift (agree_componentAt hδ i)).bind fun _ _ h1 => ?_
    refine (Paired.lift (agree_componentAt hε j)).bind fun _ _ h2 => ?_
    refine (Paired.lift (h1.transposeMul hS h2)).bind fun _ _ hp => ?_
    refine (Paired.lift (agree_componentAt hδ j)).bind fun _ _ h3 => ?_
    refine (Paired.lift (agree_componentAt hε i)).bind fun _ _ h4 => ?_
    refine (Paired.lift (h3.transposeMul hS h4)).bind fun _ _ hq => ?_
    refine (Paired.lift (hp.add hS hq)).bind fun _ _ hpq => ?_
    refine (Paired.lift ((hW.flatten hS).component (dim + m))).bind fun _ _ hs => ?_
    exact Paired.lift (hsum.add hS (hpq.scale hS hs))

end Parts

variable (href : Paired A (Mat.Like A.number) (reference A.left) (reference' A.right))
include href

theorem value_paired : Paired A (Mat.Like A.number) (value dim reference u A.left)
    (value dim reference' u' A.right) := by
  have hS := A.respected
  have hr : Request.Like A { site := A.left, directions := .value }
      { site := A.right, directions := .value } := ⟨rfl, rfl, ⟨.none, rfl⟩, .none⟩
  refine href.bind fun m m' hm => ?_
  refine (displacementGradient_paired hu hr).bind fun n n' hn => ?_
  refine Paired.bind (Paired.mapM (R := Eq) (Q := A.number) (List.forall₂_eq_eq_eq ▸ rfl) ?_)
    fun ds ds' hds => ?_
  · rintro i _ rfl
    exact Paired.lift (agree_diagonal hS hm hn i)
  · refine Paired.bind (Paired.mapM (R := Eq) (Q := A.number) (List.forall₂_eq_eq_eq ▸ rfl) ?_)
      fun ss ss' hss => Paired.pure (Mat.like_column hS (Vec.like_toArray hS (List.rel_append hds hss)))
    rintro ⟨i, j⟩ _ rfl
    exact Paired.lift (agree_shear hS hm hn i j)

variable (h : r.Like A r')
include h

theorem coefficient_paired (c : Coefficient) : Paired A (Derivative.Like A.number)
    (coefficient dim reference u r c) (coefficient dim reference' u' r' c) := by
  have hS := A.respected
  unfold coefficient
  rw [h.site, h.site']
  refine href.bind fun m m' hm => ?_
  refine (displacementGradient_paired hu h).bind fun n n' hn => ?_
  refine (Paired.lift (hm.add hS hn)).bind fun t t' ht => ?_
  refine (variation_paired hu h c).bind fun δ δ' hδ => ?_
  refine Paired.bind (Paired.mapM (R := Eq) (Q := Mat.Like A.number)
    (List.forall₂_eq_eq_eq ▸ rfl) ?_) fun ds ds' hds => ?_
  · rintro i _ rfl
    exact (Paired.lift (agree_componentAt hδ i)).bind fun _ _ hi =>
      Paired.lift (agree_tangentRow hS ht hi i)
  · refine Paired.bind (Paired.mapM (R := Eq) (Q := Mat.Like A.number)
      (List.forall₂_eq_eq_eq ▸ rfl) ?_) fun ss ss' hss => ?_
    · rintro ⟨i, j⟩ _ rfl
      refine (Paired.lift (agree_componentAt hδ i)).bind fun _ _ hi => ?_
      refine (Paired.lift (agree_tangentRow hS ht hi j)).bind fun _ _ hp => ?_
      refine (Paired.lift (agree_componentAt hδ j)).bind fun _ _ hj => ?_
      refine (Paired.lift (agree_tangentRow hS ht hj i)).bind fun _ _ hq => ?_
      exact Paired.lift (hp.add hS hq)
    · exact (Paired.lift (Mat.agree_ofRows hS (List.rel_append hds hss) (width_like hδ))).bind
        fun _ _ hm => Paired.pure (.matrix hm)

/-- The rules of the strains, side by side. -/
theorem derivative_paired (hA : A.Names) : Paired A (Derivative.Like A.number)
    (derivative dim reference u r) (derivative dim reference' u' r') := by
  have hdirected := h.directed
  have hvalue : Paired A (Derivative.Like A.number) (do
      return .matrix (← value dim reference u r.site)) (do
      return .matrix (← value dim reference' u' r'.site)) := by
    rw [h.site, h.site']
    exact (value_paired hu href).bind fun _ _ hm => Paired.pure (.matrix hm)
  obtain ⟨site, ⟨s, c⟩, along⟩ := r
  obtain ⟨site', ⟨s', c'⟩, along'⟩ := r'
  obtain rfl : c' = c := hdirected.coefficients
  cases hdirected.spatial with
  | none =>
    cases c' with
    | none => exact hvalue
    | single c => exact coefficient_paired hu href h c
    | two c₁ c₂ => exact second_paired hu h hA c₁ c₂
  | some hs => exact Paired.refused (hA.notImplemented operation _ _ hdirected)

end Strain

end ElementFields
