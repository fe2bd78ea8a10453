import Mathlib.Order.Nat
import ElementFields.Leaf.Interpolated
import ElementFields.Leaf.Normalized
import ElementFields.Proofs.SideBySide

namespace ElementFields
open Scalar

variable {K : Type} [Scalar K] {A : Comparison K}

structure Comparison.Gradients (A : Comparison K) (g g' : Mat K) : Prop where
  cols : g.cols = g'.cols
  inside : ∀ k k', A.axis k k' → (k < g.rows ↔ k' < g'.rows)
  entry : ∀ k k', A.axis k k' → ∀ i, A.number (g.entry k i) (g'.entry k' i)

structure Comparison.Slopes (A : Comparison K) (m m' : Mat K) : Prop where
  rows : m.rows = m'.rows
  inside : ∀ k k', A.axis k k' → (k < m.cols ↔ k' < m'.cols)
  entry : ∀ k k', A.axis k k' → ∀ i, A.number (m.entry i k) (m'.entry i k')

structure LeafData.Alike (A : Comparison K) (l : LeafData K) : Prop where
  values : Paired A (Vec.Like A.number) (l.valuesAt A.left) (l.valuesAt A.right)
  gradients : Paired A A.Gradients (l.gradientsIn A.left) (l.gradientsIn A.right)

namespace Comparison

variable {g g' m m' : Mat K} {k k' : ℕ}

theorem Gradients.rows (h : A.Gradients g g') : g.rows = g'.rows :=
  eq_of_forall_lt_iff fun k => h.inside k k (A.axis_self k)

theorem Gradients.like (h : A.Gradients g g') : g.Like A.number g' :=
  ⟨h.rows, h.cols, fun k i => h.entry k k (A.axis_self k) i⟩

theorem Gradients.entryAt (h : A.Gradients g g') (hk : A.axis k k') (i : ℕ) :
    Agree A.number (g.entryAt k i) (g'.entryAt k' i) :=
  Agree.require (by rw [h.inside k k' hk, h.cols]) (h.entry k k' hk i)

theorem Slopes.cols (h : A.Slopes m m') : m.cols = m'.cols :=
  eq_of_forall_lt_iff fun k => h.inside k k (A.axis_self k)

theorem Slopes.like (h : A.Slopes m m') : m.Like A.number m' :=
  ⟨h.rows, h.cols, fun i k => h.entry k k (A.axis_self k) i⟩

theorem Slopes.columnAt (h : A.Slopes m m') (hk : A.axis k k') :
    Agree (Vec.Like A.number) (m.columnAt k) (m'.columnAt k') := by
  refine Agree.require (h.inside k k' hk) ?_
  rw [Mat.columnVec, Mat.columnVec, h.rows]
  exact Vec.like_ofFn A.respected fun i _ => h.entry k k' hk i

/-- The product of the coefficients with an entry of the gradients in each column. -/
theorem entry_mul_transpose {c g : Mat K} {i k : ℕ} (hi : i < c.rows) (hk : k < g.rows)
    (hc : c.cols = g.cols) :
    (Mat.ofFn c.rows g.transpose.cols fun i k => sumTo c.cols fun j =>
      c.entry i j * g.transpose.entry j k).entry i k =
        sumTo c.cols fun j => c.entry i j * g.entry k j := by
  have hk' : k < g.transpose.cols := hk
  rw [Mat.entry_ofFn _ hi hk']
  exact sumTo_congr fun j hj => by rw [Mat.transpose, Mat.entry_ofFn _ (hc ▸ hj) hk]

/-- The coefficients times the gradients. -/
theorem Gradients.slopes (h : A.Gradients g g') (c : Mat K) :
    Agree A.Slopes (c.mul g.transpose) (c.mul g'.transpose) := by
  have hS := A.respected
  have hcols : g.transpose.rows = g'.transpose.rows := h.cols
  by_cases hc : c.cols = g.cols
  · have hl : c.cols = g.transpose.rows := hc
    have hr : c.cols = g'.transpose.rows := hc.trans h.cols
    refine Agree.require (iff_of_true hl hr) ⟨rfl, h.inside, fun k k' hk i => ?_⟩
    have hin := h.inside k k' hk
    by_cases hi : i < c.rows ∧ k < g.rows
    · rw [entry_mul_transpose hi.1 hi.2 hc, entry_mul_transpose hi.1 (hin.1 hi.2) hr]
      exact hS.sumTo fun j _ => hS.mul (hS.refl _) (h.entry k k' hk j)
    · rw [Mat.entry_outside (m := Mat.ofFn c.rows g.transpose.cols _) hi,
        Mat.entry_outside (m := Mat.ofFn c.rows g'.transpose.cols _) fun hm =>
          hi ⟨hm.1, hin.2 hm.2⟩]
      exact hS.refl 0
  · have hl : c.mul g.transpose = .error .misfit := if_neg hc
    have hr : c.mul g'.transpose = .error .misfit := if_neg fun hr => hc (hr.trans h.cols.symm)
    rw [hl, hr]
    exact rfl

end Comparison

section Coefficients

variable {S : K → K → Prop} (hS : Respected S) (c : Coefficients K)
include hS

namespace Coefficients

theorem like_combine {n n' : ℕ} (hn : n = n') {w w' : ℕ → K} (hw : ∀ i, S (w i) (w' i)) :
    (c.combine n w).Like S (c.combine n' w') := by
  subst hn
  exact Vec.like_ofFn hS fun _ _ => hS.sumTo fun i _ => hS.mul (hw i) (hS.refl _)

theorem agree_frame (i : ℕ) : Agree (Mat.Like S) (c.frame i) (c.frame i) :=
  .refl (Mat.Like.refl hS) _

theorem agree_weingarten (i : ℕ) {u u' : Vec K} (hu : u.Like S u') :
    Agree (Mat.Like S) (c.weingarten i u) (c.weingarten i u') := by
  refine (Agree.refl (fun _ => rfl) (c.point i)).bind (R := Eq) fun x _ hx => ?_
  subst hx
  unfold Manifold.Point.weingarten Manifold.Point.curvature
  split
  · exact Agree.pure (.refl hS _)
  · refine ((Vec.Like.refl hS x.coords).dot hS hu).bind fun _ _ hs => Agree.pure ?_
    exact (Mat.Like.refl hS _).scale hS (hS.neg hs)

end Coefficients

end Coefficients

structure Primitives.Alike (A : Comparison K) (p : Primitives K) (l : LeafData K) : Prop where
  value : Paired A (Vec.Like A.number) (p.value l A.left) (p.value l A.right)
  axis : ∀ {k k'}, A.axis k k' →
    Paired A (Vec.Like A.number) (p.axis l A.left k) (p.axis l A.right k')
  gradient : Paired A (Mat.Like A.number) (p.gradient l A.left) (p.gradient l A.right)
  coefficient : ∀ i,
    Paired A (Mat.Like A.number) (p.coefficient l A.left i) (p.coefficient l A.right i)
  coefficientAxis : ∀ i {k k'}, A.axis k k' → Paired A (Mat.Like A.number)
    (p.coefficientAxis l A.left i k) (p.coefficientAxis l A.right i k')
  coefficientGradient : ∀ i, Paired A (List.Forall₂ (Mat.Like A.number))
    (p.coefficientGradient l A.left i) (p.coefficientGradient l A.right i)
  second : ∀ i j {W W'}, W.Like A.number W' →
    Paired A (Mat.Like A.number) (p.second l A.left i j W) (p.second l A.right i j W')
  thirdAxis : ∀ i j {k k'}, A.axis k k' → ∀ {W W'}, W.Like A.number W' →
    Paired A (Mat.Like A.number) (p.thirdAxis l A.left i j k W) (p.thirdAxis l A.right i j k' W')
  thirdGradient : ∀ i j {W W'}, W.Like A.number W' → Paired A (Mat.Like A.number)
    (p.thirdGradient l A.left i j W) (p.thirdGradient l A.right i j W')

/-- Going through the same indices on both sides. -/
theorem forall₂_range_self {n n' : ℕ} (h : n = n') :
    (List.range n).Forall₂ (fun i j => i = j) (List.range n') := by
  subst h
  exact List.forall₂_same.2 fun _ _ => rfl

namespace Interpolation

variable {l : LeafData K} (h : l.Alike A)
include h

theorem alike : (Primitives.interpolation : Primitives K).Alike A l where
  value := h.values.bind fun _ _ hv =>
    Paired.pure (l.coefficients.like_combine A.respected hv.size hv.entry)
  axis {k k'} hk := by
    refine h.gradients.bind fun g g' hg => ?_
    have hin := hg.inside k k' hk
    by_cases hlt : k < g.rows
    · rw [if_pos hlt, if_pos (hin.1 hlt)]
      exact Paired.pure (l.coefficients.like_combine A.respected hg.cols (hg.entry k k' hk))
    · rw [if_neg hlt, if_neg fun hlt' => hlt (hin.2 hlt')]
      exact Paired.refused (A.failure_self _)
  gradient := h.gradients.bind fun _ _ hg =>
    Paired.lift ((Mat.Like.refl A.respected _).mul A.respected
      ((hg.like).transpose A.respected))
  coefficient i := by
    refine h.values.bind fun φ φ' hφ => ?_
    refine (Paired.lift (l.coefficients.agree_frame A.respected i)).bind fun _ _ hf => ?_
    exact (Paired.lift (hφ.component i)).bind fun _ _ hx => Paired.pure (hf.scale A.respected hx)
  coefficientAxis i {k k'} hk := by
    refine h.gradients.bind fun g g' hg => ?_
    refine (Paired.lift (l.coefficients.agree_frame A.respected i)).bind fun _ _ hf => ?_
    exact (Paired.lift (hg.entryAt hk i)).bind fun _ _ hx => Paired.pure (hf.scale A.respected hx)
  coefficientGradient i := by
    refine h.gradients.bind fun g g' hg => ?_
    refine (Paired.lift (l.coefficients.agree_frame A.respected i)).bind fun _ _ hf => ?_
    refine Paired.mapM (forall₂_range_self (hg.rows)) ?_
    rintro k _ rfl
    exact (Paired.lift (hg.entryAt (A.axis_self k) i)).bind fun _ _ hx =>
      Paired.pure (hf.scale A.respected hx)
  second i j W W' hW := by
    show Paired A _ (second l A.left i j W) (second l A.right i j W')
    unfold second
    split
    · exact Paired.pure (.refl A.respected _)
    · refine h.values.bind fun φ φ' hφ => ?_
      refine (Paired.lift (l.coefficients.agree_weingarten A.respected i
        (hW.flatten A.respected))).bind fun _ _ hc => ?_
      exact (Paired.lift (hφ.component i)).bind fun _ _ hx => Paired.pure (hc.scale A.respected hx)
  thirdAxis i j {k k'} hk W W' hW := by
    show Paired A _ (thirdAxis l A.left i j k W) (thirdAxis l A.right i j k' W')
    unfold thirdAxis
    split
    · exact Paired.pure (.refl A.respected _)
    · refine h.gradients.bind fun g g' hg => ?_
      refine (Paired.lift (l.coefficients.agree_weingarten A.respected i
        (hW.flatten A.respected))).bind fun _ _ hc => ?_
      exact (Paired.lift (hg.entryAt hk i)).bind fun _ _ hx => Paired.pure (hc.scale A.respected hx)
  thirdGradient i j W W' hW := by
    show Paired A _ (thirdGradient l A.left i j W) (thirdGradient l A.right i j W')
    unfold thirdGradient
    split
    · exact Paired.pure (.refl A.respected _)
    · refine h.gradients.bind fun g g' hg => ?_
      refine Paired.foldlM (forall₂_range_self hW.cols) (.refl A.respected _) ?_
      rintro sum sum' k _ hsum rfl
      refine (Paired.lift (l.coefficients.agree_weingarten A.respected i
        (hW.columnVec A.respected k))).bind fun _ _ hc => ?_
      refine (Paired.lift (hg.entryAt (A.axis_self k) i)).bind fun _ _ hx => ?_
      exact Paired.lift (hsum.add A.respected (hc.scale A.respected hx))

end Interpolation

section Normalized

variable {S : K → K → Prop} (hS : Respected S) {p p' u u' w w' : Vec K} (hp : p.Like S p')
include hS hp

theorem like_normalized : (normalized p).Like S (normalized p') := hp.divide hS (hp.norm hS)

theorem like_normalizationJacobian :
    (normalizationJacobian p).Like S (normalizationJacobian p') := by
  have hn := like_normalized hS hp
  rw [normalizationJacobian, normalizationJacobian, hp.size]
  exact Mat.like_ofFn hS fun i j _ _ =>
    hS.div (hS.sub (hS.refl _) (hS.mul (hn.entry i) (hn.entry j))) (hp.norm hS)

variable (hu : u.Like S u')
include hu

theorem agree_normalizationSecond :
    Agree (Mat.Like S) (normalizationSecond p u) (normalizationSecond p' u') := by
  have hn := like_normalized hS hp
  have hr := hp.norm hS
  refine Agree.require (by rw [hu.size, hp.size]) ?_
  rw [hp.size]
  refine Mat.like_ofFn hS fun i j _ _ => hS.div (hS.sub (hS.sub (hS.mul (hS.sub
    (hS.mul (hS.mul (hn.entry i) (hn.entry j)) (hS.refl _)) (hS.refl _)) (hn.inner hS hu))
    (hS.mul (hu.entry i) (hn.entry j))) (hS.mul (hn.entry i) (hu.entry j))) (hS.mul hr hr)

omit hp in
theorem like_halfThirdEntry {n n' : Vec K} (hn : n.Like S n') (hw : w.Like S w') (i j : ℕ) :
    S (halfThirdEntry n u w i j) (halfThirdEntry n' u' w' i j) := by
  have hnu := hn.inner hS hu
  have hnw := hn.inner hS hw
  have hhalf := hS.mul (hS.refl (1 / (2 : Nat))) (hu.inner hS hw)
  have hnn := hS.mul (hn.entry i) (hn.entry j)
  have hfirst := hS.mul (hS.add (hS.mul (hu.entry i) (hn.entry j)) (hS.mul
    (hS.sub (hS.refl (delta i j)) (hS.mul hnn (hS.refl (5 : Nat))))
    (hS.mul hnu (hS.refl (1 / (2 : Nat)))))) (hS.mul (hS.refl (3 : Nat)) hnw)
  have hsecond := hS.mul (hS.add (hS.mul hnn hhalf) (hS.mul (hS.mul (hw.entry i) (hn.entry j))
    hnu)) (hS.refl (3 : Nat))
  exact hS.sub (hS.sub (hS.add hfirst hsecond) (hS.mul (hu.entry i) (hw.entry j)))
    (hS.mul (hS.refl (delta i j)) hhalf)

theorem agree_normalizationThird (hw : w.Like S w') :
    Agree (Mat.Like S) (normalizationThird p u w) (normalizationThird p' u' w') := by
  have hn := like_normalized hS hp
  have hr := hp.norm hS
  refine Agree.require (by rw [hu.size, hw.size, hp.size]) ?_
  rw [hp.size]
  exact Mat.like_ofFn hS fun i j _ _ => hS.div (hS.add (like_halfThirdEntry hS hu hn hw i j)
    (like_halfThirdEntry hS hu hn hw j i)) (hS.mul (hS.mul hr hr) hr)

end Normalized

structure Interpolant.Alike (A : Comparison K) (f f' : Interpolant K) : Prop where
  values : f.values.Like A.number f'.values
  gradients : A.Gradients f.gradients f'.gradients
  p : f.p.Like A.number f'.p
  slopes : A.Slopes f.slopes f'.slopes

namespace Normalization

section Parts

variable {l : LeafData K} {f f' : Interpolant K} (h : f.Alike A f') {k k' : ℕ} (hk : A.axis k k')

theorem agree_betweenFrames {S : K → K → Prop} (hS : Respected S) {a a' m m' b b' : Mat K}
    (ha : a.Like S a') (hm : m.Like S m') (hb : b.Like S b') :
    Agree (Mat.Like S) (betweenFrames a m b) (betweenFrames a' m' b') :=
  (hm.mul hS hb).bind fun _ _ hp => ha.transposeMul hS hp

include h hk

theorem agree_mixed (i : ℕ) : Agree (Mat.Like A.number) (mixed l f i k) (mixed l f' i k') := by
  have hS := A.respected
  refine (h.slopes.columnAt hk).bind fun pₖ pₖ' hpₖ => ?_
  refine (l.coefficients.agree_frame hS i).bind fun b b' hb => ?_
  refine (agree_normalizationSecond hS h.p hpₖ).bind fun _ _ hm => ?_
  refine (hm.mul hS hb).bind fun _ _ hmoved => ?_
  refine (h.values.component i).bind fun _ _ hx => ?_
  refine ((like_normalizationJacobian hS h.p).mul hS hb).bind fun _ _ hturned => ?_
  refine (h.gradients.entryAt hk i).bind fun _ _ hy => ?_
  exact (hmoved.scale hS hx).add hS (hturned.scale hS hy)

variable {along along' : Vec K} (halong : along.Like A.number along')
include halong

theorem agree_curvatureAlong (i : ℕ) {pₖ pₖ' : Vec K} (hpₖ : pₖ.Like A.number pₖ') :
    Agree (Mat.Like A.number) (curvatureAlong l f i k pₖ along)
      (curvatureAlong l f' i k' pₖ' along') := by
  have hS := A.respected
  refine ((like_normalizationJacobian hS h.p).mulVec hS halong).bind fun _ _ hprojected => ?_
  refine (agree_normalizationSecond hS h.p hpₖ).bind fun _ _ hm => ?_
  refine (hm.mulVec hS halong).bind fun _ _ hdifferentiated => ?_
  refine (l.coefficients.agree_weingarten hS i hprojected).bind fun _ _ hfixed => ?_
  refine (h.gradients.entryAt hk i).bind fun _ _ hy => ?_
  refine (l.coefficients.agree_weingarten hS i hdifferentiated).bind fun _ _ hmoving => ?_
  exact (h.values.component i).bind fun _ _ hx =>
    (hfixed.scale hS hy).add hS (hmoving.scale hS hx)

theorem agree_third (i j : ℕ) :
    Agree (Mat.Like A.number) (third l f i j k along) (third l f' i j k' along') := by
  have hS := A.respected
  refine (h.slopes.columnAt hk).bind fun pₖ pₖ' hpₖ => ?_
  refine (l.coefficients.agree_frame hS i).bind fun bi bi' hbi => ?_
  refine (l.coefficients.agree_frame hS j).bind fun bj bj' hbj => ?_
  refine (h.values.component i).bind fun φi φi' hφi => ?_
  refine (h.values.component j).bind fun φj φj' hφj => ?_
  refine (h.gradients.entryAt hk i).bind fun gi gi' hgi => ?_
  refine (h.gradients.entryAt hk j).bind fun gj gj' hgj => ?_
  refine (agree_normalizationSecond hS h.p halong).bind fun _ _ hm => ?_
  refine (agree_betweenFrames hS hbi hm hbj).bind fun _ _ hlower => ?_
  refine (agree_normalizationThird hS h.p halong hpₖ).bind fun _ _ hm => ?_
  refine (agree_betweenFrames hS hbi hm hbj).bind fun _ _ hupper => ?_
  have hweight := hS.add (hS.mul hgi hφj) (hS.mul hφi hgj)
  refine ((hlower.scale hS hweight).add hS (hupper.scale hS (hS.mul hφi hφj))).bind
    fun _ _ hsum => ?_
  split
  · exact (agree_curvatureAlong h hk halong i hpₖ).bind fun _ _ hc => hsum.add hS hc
  · exact Agree.pure hsum

end Parts

variable {l : LeafData K} (h : l.Alike A)
include h

theorem interpolate_paired : Paired A
    (fun x y => x.1.Like A.number y.1 ∧ x.2.Like A.number y.2)
    (interpolate l A.left) (interpolate l A.right) :=
  h.values.bind fun _ _ hφ =>
    (Paired.lift ((Mat.Like.refl A.respected _).mulVec A.respected hφ)).bind fun _ _ hp =>
      Paired.pure ⟨hφ, hp⟩

theorem interpolant_paired :
    Paired A (Interpolant.Alike A) (interpolant l A.left) (interpolant l A.right) := by
  refine (interpolate_paired h).bind ?_
  rintro ⟨φ, p⟩ ⟨φ', p'⟩ ⟨hφ, hp⟩
  refine h.gradients.bind fun g g' hg => ?_
  exact (Paired.lift (hg.slopes _)).bind fun _ _ hs => Paired.pure ⟨hφ, hg, hp, hs⟩

theorem alike : (Primitives.normalization : Primitives K).Alike A l where
  value := by
    refine (interpolate_paired h).bind ?_
    rintro ⟨φ, p⟩ ⟨φ', p'⟩ ⟨-, hp⟩
    exact Paired.pure (like_normalized A.respected hp)
  axis {k k'} hk := by
    refine (interpolant_paired h).bind fun f f' hf => ?_
    exact (Paired.lift (hf.slopes.columnAt hk)).bind fun _ _ hs =>
      Paired.lift ((like_normalizationJacobian A.respected hf.p).mulVec A.respected hs)
  gradient := (interpolant_paired h).bind fun f f' hf => Paired.lift
    ((like_normalizationJacobian A.respected hf.p).mul A.respected (hf.slopes.like))
  coefficient i := by
    have hS := A.respected
    refine (interpolate_paired h).bind ?_
    rintro ⟨φ, p⟩ ⟨φ', p'⟩ ⟨hφ, hp⟩
    refine (Paired.lift (l.coefficients.agree_frame hS i)).bind fun _ _ hb => ?_
    refine (Paired.lift ((like_normalizationJacobian hS hp).mul hS hb)).bind fun _ _ hm => ?_
    exact (Paired.lift (hφ.component i)).bind fun _ _ hx => Paired.pure (hm.scale hS hx)
  coefficientAxis i {k k'} hk :=
    (interpolant_paired h).bind fun f f' hf => Paired.lift (agree_mixed hf hk i)
  coefficientGradient i := by
    refine (interpolant_paired h).bind fun f f' hf => ?_
    refine (Paired.lift (l.coefficients.agree_frame A.respected i)).bind fun _ _ _ => ?_
    refine Paired.mapM (forall₂_range_self (hf.gradients.rows)) ?_
    rintro k _ rfl
    exact Paired.lift (agree_mixed hf (A.axis_self k) i)
  second i j W W' hW := by
    have hS := A.respected
    refine (interpolate_paired h).bind ?_
    rintro ⟨φ, p⟩ ⟨φ', p'⟩ ⟨hφ, hp⟩
    refine (Paired.lift (hW.singleColumn hS)).bind fun _ _ halong => ?_
    refine (Paired.lift (l.coefficients.agree_frame hS i)).bind fun _ _ hbi => ?_
    refine (Paired.lift (l.coefficients.agree_frame hS j)).bind fun _ _ hbj => ?_
    refine (Paired.lift (hφ.component i)).bind fun _ _ hφi => ?_
    refine (Paired.lift (hφ.component j)).bind fun _ _ hφj => ?_
    refine (Paired.lift (agree_normalizationSecond hS hp halong)).bind fun _ _ hm => ?_
    refine (Paired.lift (agree_betweenFrames hS hbi hm hbj)).bind fun _ _ hsum => ?_
    split
    · refine (Paired.lift ((like_normalizationJacobian hS hp).mulVec hS halong)).bind
        fun _ _ hprojected => ?_
      refine (Paired.lift (l.coefficients.agree_weingarten hS i hprojected)).bind fun _ _ hc => ?_
      exact Paired.lift ((hsum.scale hS (hS.mul hφi hφj)).add hS (hc.scale hS hφi))
    · exact Paired.pure (hsum.scale hS (hS.mul hφi hφj))
  thirdAxis i j {k k'} hk W W' hW := by
    refine (interpolant_paired h).bind fun f f' hf => ?_
    exact (Paired.lift (hW.singleColumn A.respected)).bind fun _ _ halong =>
      Paired.lift (agree_third hf hk halong i j)
  thirdGradient i j W W' hW := by
    refine (interpolant_paired h).bind fun f f' hf => ?_
    refine Paired.foldlM (forall₂_range_self (hf.gradients.rows)) (.refl A.respected _) ?_
    rintro sum sum' k _ hsum rfl
    refine (Paired.lift (hW.columnAt A.respected k)).bind fun _ _ halong => ?_
    refine (Paired.lift (agree_third hf (A.axis_self k) halong i j)).bind fun _ _ hm => ?_
    exact Paired.lift (hsum.add A.respected hm)

end Normalization

end ElementFields
