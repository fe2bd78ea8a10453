import ElementFields.Proofs.LeafShapes
import ElementFields.Proofs.Tables

namespace ElementFields
open Scalar
open scoped BigOperators

variable {K : Type}

variable [ExactScalar K]

theorem Vec.entry_slice {v : Vec K} {start n i : ℕ} (hi : i < n) :
    (v.slice start n).entry i = v.entry (start + i) := entry_ofFn _ hi

namespace Manifold

variable {M : Manifold}

theorem Point.exists_update (x : M.Point K) {d : Vec K} (hd : d.size = M.correctionSize) :
    ∃ y, x.update d = .ok y := ⟨_, Checked.require_eq_ok_iff.2 ⟨hd, rfl⟩⟩

theorem Point.entry_update {x y : M.Point K} {d : Vec K} (hM : M.isEuclidean = true)
    (h : x.update d = .ok y) {i : ℕ} (hi : i < M.valueSize) :
    y.coords.entry i = x.coords.entry i + d.entry i := by
  obtain ⟨-, rfl⟩ := Checked.require_eq_ok_iff.1 h
  cases M with
  | sphere dim => nomatch hM
  | euclidean dim =>
    have hx : i < x.coords.size := x.size_coords.symm ▸ hi
    have hstep : x.step d = x.coords.add d := rfl
    have hy : (x.moveTo (x.step d)).coords.entry i = (x.step d).entry i := Vec.entry_ofFn _ hi
    rw [hy, hstep, Vec.add, Vec.entry_ofFn _ hx]

theorem Point.entry_frame (x : M.Point K) (hM : M.isEuclidean = true) {i a : ℕ}
    (hi : i < M.valueSize) (ha : a < M.correctionSize) : x.frame.entry i a = delta i a := by
  cases M with
  | sphere dim => nomatch hM
  | euclidean dim => exact Mat.entry_identity hi ha

theorem correctionSize_of_isEuclidean (hM : M.isEuclidean = true) :
    M.correctionSize = M.valueSize := by
  cases M with
  | sphere dim => nomatch hM
  | euclidean dim => rfl

end Manifold

namespace Coefficients

variable {c c' : Coefficients K} {d : Vec K}

theorem exists_update (hd : d.size = c.size * c.correctionSize) : ∃ c', c.update d = .ok c' := by
  rw [update, if_pos hd]
  have hmove (p : c.manifold.Point K × ℕ) (_ : p ∈ c.points.zipIdx) :
      ∃ y, p.1.update (d.slice (p.2 * c.correctionSize) c.correctionSize) = .ok y :=
    p.1.exists_update (Vec.size_ofFn _ _)
  obtain ⟨points, hp⟩ := exists_mapM hmove
  exact ⟨_, bind_eq_ok_iff.2 ⟨points, hp, rfl⟩⟩

/-- The correction of a Euclidean coefficient is added to it. -/
theorem entry_update (he : c.manifold.isEuclidean = true) (h : c.update d = .ok c') {i k : ℕ}
    (hi : i < c.size) (hk : k < c.valueSize) :
    c'.entry k i = c.entry k i + d.entry (i * c.correctionSize + k) := by
  have hcs : c.correctionSize = c.valueSize := Manifold.correctionSize_of_isEuclidean he
  rw [update] at h
  split at h
  · obtain ⟨points, hp, h⟩ := bind_eq_ok_iff.1 h
    rw [pure_eq_ok_iff] at h
    subst h
    have hx : c.points[i]? = some c.points[i] := List.getElem?_eq_getElem hi
    have hxi : c.points.zipIdx[i]? = some (c.points[i], i) := by
      rw [List.getElem?_zipIdx, hx, Option.map_some, Nat.zero_add]
    obtain ⟨y, hy, hu⟩ := (mapM_eq_ok hp).2 i _ hxi
    have hyk := Manifold.Point.entry_update he hu hk
    rw [Vec.entry_slice (hcs ▸ hk)] at hyk
    simp only [entry, hx, hy]
    exact hyk
  · cases h

theorem entry_frame (he : c.manifold.isEuclidean = true) {i : ℕ} {m : Mat K}
    (h : c.frame i = .ok m) : i < c.size ∧
      ∀ k a, k < c.valueSize → a < c.correctionSize → m.entry k a = delta k a := by
  obtain ⟨x, hx, h⟩ := bind_eq_ok_iff.1 h
  rw [pure_eq_ok_iff] at h
  subst h
  refine ⟨?_, fun k a hk ha => x.entry_frame he hk ha⟩
  rw [point] at hx
  split at hx
  · rename_i y hy
    exact (List.getElem?_eq_some_iff.1 hy).1
  · nomatch hx

/-- The combination with weights that vanish beyond the first `n`. -/
theorem entry_combine {n : ℕ} {w : ℕ → K} (hw : ∀ j, n ≤ j → w j = 0) {k : ℕ}
    (hk : k < c.valueSize) :
    (c.combine n w).entry k = ∑ j ∈ Finset.range c.size, w j * c.entry k j := by
  rw [combine, Vec.entry_ofFn _ hk, sumTo_eq_sum]
  apply Finset.sum_subset (Finset.range_mono (Nat.min_le_right n c.size))
  intro j hj hj'
  have hn : n ≤ j := by
    have hj := Finset.mem_range.mp hj
    have hj' : ¬j < min n c.size := fun h => hj' (Finset.mem_range.mpr h)
    omega
  rw [hw j hn, zero_mul]

end Coefficients

namespace LeafData

def share (l : LeafData K) (α : Variable) (j k : ℕ) : K :=
  if α.block = l.block ∧ j = α.coefficient.index ∧ k = α.coordinate then 1 else 0

def interpolationTable (l : LeafData K) (φ : ℕ → K) (g : ℕ → ℕ → K) : Partials K where
  value i := ∑ j ∈ Finset.range l.numCoefficients, φ j * l.coefficients.entry i j
  slope k i := ∑ j ∈ Finset.range l.numCoefficients, g k j * l.coefficients.entry i j
  varied α i := ∑ j ∈ Finset.range l.numCoefficients, φ j * l.share α j i
  mixed k α i := ∑ j ∈ Finset.range l.numCoefficients, g k j * l.share α j i
  twice _ _ _ := 0
  thrice _ _ _ _ := 0

variable {l : LeafData K}

/-- Only the coefficient itself remains of a sum of shares. -/
theorem sum_share {c : Coefficient} (hb : c.block = l.block) (hc : c.index < l.numCoefficients)
    (w : ℕ → K) (a k : ℕ) :
    ∑ j ∈ Finset.range l.numCoefficients, w j * l.share ⟨c, a⟩ j k = w c.index * delta k a := by
  rw [Finset.sum_eq_single_of_mem c.index (Finset.mem_range.mpr hc)]
  · simp [share, Variable.block, hb, delta]
  · intro j _ hj
    simp [share, hj]

theorem share_of_foreign {α : Variable} (h : α.block ≠ l.block) (j k : ℕ) : l.share α j k = 0 :=
  if_neg fun hα => h hα.1

theorem obeys_interpolationTable (V : ℕ) (φ : ℕ → K) (g : ℕ → ℕ → K) :
    (l.interpolationTable φ g).Obeys V fun block =>
      if l.block = block then .linear else .constant := by
  refine ⟨?_, fun α β _ _ i _ => ⟨rfl, fun _ => rfl⟩⟩
  intro α hα i _
  have hb : α.block ≠ l.block := by
    intro hb
    rw [if_pos hb.symm] at hα
    nomatch hα
  simp [interpolationTable, share_of_foreign hb]

end LeafData

/-- What the primitives answer at a leaf that holds `l` are the entries of the table. -/
structure Primitives.Reads (p : Primitives K) (l : LeafData K) (site : Site K) (T : Partials K) :
    Prop where
  value : ∀ {v}, p.value l site = .ok v → ∀ i < l.valueSize, v.entry i = T.value i
  axis : ∀ {k v}, p.axis l site k = .ok v → ∀ i < l.valueSize, v.entry i = T.slope k i
  gradient : ∀ {m}, p.gradient l site = .ok m →
    ∀ i < l.valueSize, ∀ k < l.gridDim, m.entry i k = T.slope k i
  coefficient : ∀ {c m}, c.block = l.block → p.coefficient l site c.index = .ok m →
    ∀ i < l.valueSize, ∀ a < l.correctionSize, m.entry i a = T.varied ⟨c, a⟩ i
  coefficientAxis : ∀ {c k m}, c.block = l.block → p.coefficientAxis l site c.index k = .ok m →
    ∀ i < l.valueSize, ∀ a < l.correctionSize, m.entry i a = T.mixed k ⟨c, a⟩ i
  coefficientGradient : ∀ {c ms}, c.block = l.block → p.coefficientGradient l site c.index = .ok ms →
    ∀ k m, ms[k]? = some m →
      ∀ i < l.valueSize, ∀ a < l.correctionSize, m.entry i a = T.mixed k ⟨c, a⟩ i
  second : ∀ {c₁ c₂ W m}, c₁.block = l.block → c₂.block = l.block →
    W.rows = l.valueSize ∧ W.cols = 1 → p.second l site c₁.index c₂.index W = .ok m →
    ∀ a < l.correctionSize, ∀ b < l.correctionSize, m.entry a b =
      ∑ i ∈ Finset.range l.valueSize, W.entry i 0 * T.twice ⟨c₁, a⟩ ⟨c₂, b⟩ i
  thirdAxis : ∀ {c₁ c₂ k W m}, c₁.block = l.block → c₂.block = l.block →
    W.rows = l.valueSize ∧ W.cols = 1 → p.thirdAxis l site c₁.index c₂.index k W = .ok m →
    ∀ a < l.correctionSize, ∀ b < l.correctionSize, m.entry a b =
      ∑ i ∈ Finset.range l.valueSize, W.entry i 0 * T.thrice k ⟨c₁, a⟩ ⟨c₂, b⟩ i
  thirdGradient : ∀ {c₁ c₂ W m}, c₁.block = l.block → c₂.block = l.block →
    W.rows = l.valueSize ∧ W.cols = l.gridDim →
    p.thirdGradient l site c₁.index c₂.index W = .ok m →
    ∀ a < l.correctionSize, ∀ b < l.correctionSize, m.entry a b =
      ∑ k ∈ Finset.range l.gridDim, ∑ i ∈ Finset.range l.valueSize,
        W.entry i k * T.thrice k ⟨c₁, a⟩ ⟨c₂, b⟩ i

/-- A leaf answers the entries of a table if its primitives do. -/
theorem Leaf.reads_of_primitives {l : Leaf K} {site : Site K} {T : Partials K}
    (hshape : l.KeepsShapes)
    (hobeys : T.Obeys l.valueSize fun block => if l.block = block then l.order else .constant)
    (h : l.primitives.Reads l.toLeafData site T) : l.Reads site T := by
  refine ⟨hobeys, ?_⟩
  intro r D hsite haccepts hD
  have hform := hshape.answer r D haccepts hD
  refine ⟨hform, ?_⟩
  have hown : ∀ c ∈ r.directions.coefficientList, c.block = l.block :=
    fun c hc => (haccepts.coefficient c hc).1
  have hfits := haccepts.fits
  obtain ⟨site', ⟨s, c⟩, along⟩ := r
  obtain rfl : site' = site := hsite
  rcases s with _ | k | _ <;> rcases c with _ | c | ⟨c₁, c₂⟩ <;>
    obtain ⟨m, hm, hD⟩ := bind_eq_ok_iff.1 hD
  case none.none =>
    rw [pure_eq_ok_iff] at hD
    subst hD
    intro i hi
    rw [Derivative.entry_matrix, Mat.entry_column]
    exact h.value hm i hi
  case none.single =>
    rw [pure_eq_ok_iff] at hD
    subst hD
    exact h.coefficient (hown c List.mem_cons_self) hm
  case none.two =>
    obtain ⟨n, hn, hD⟩ := bind_eq_ok_iff.1 hD
    rw [pure_eq_ok_iff] at hD
    subst hD
    intro W hW
    obtain ⟨W', hW', hshape⟩ := hfits c₁ c₂ rfl
    obtain rfl := Option.some.inj (hW'.symm.trans hW)
    obtain rfl := Option.some.inj (hW'.symm.trans (ofOption_eq_ok_iff.1 hm))
    exact h.second (hown c₁ List.mem_cons_self) (hown c₂ (List.mem_cons_of_mem _ List.mem_cons_self))
      hshape hn
  case some.single.none =>
    rw [pure_eq_ok_iff] at hD
    subst hD
    intro i hi j hj
    obtain rfl := Nat.lt_one_iff.1 hj
    rw [Derivative.entry_matrix, Mat.entry_column]
    exact h.axis hm i hi
  case some.single.single =>
    rw [pure_eq_ok_iff] at hD
    subst hD
    intro j hj
    obtain rfl := Nat.lt_one_iff.1 hj
    exact h.coefficientAxis (hown c List.mem_cons_self) hm
  case some.single.two =>
    obtain ⟨n, hn, hD⟩ := bind_eq_ok_iff.1 hD
    rw [pure_eq_ok_iff] at hD
    subst hD
    intro W hW a ha b hb
    obtain ⟨W', hW', hshape⟩ := hfits c₁ c₂ rfl
    obtain rfl := Option.some.inj (hW'.symm.trans hW)
    obtain rfl := Option.some.inj (hW'.symm.trans (ofOption_eq_ok_iff.1 hm))
    refine Eq.trans ?_ (Finset.sum_range_one _).symm
    exact h.thirdAxis (hown c₁ List.mem_cons_self)
      (hown c₂ (List.mem_cons_of_mem _ List.mem_cons_self)) hshape hn a ha b hb
  case some.all.none =>
    rw [pure_eq_ok_iff] at hD
    subst hD
    exact h.gradient hm
  case some.all.single =>
    rw [pure_eq_ok_iff] at hD
    subst hD
    intro k hk
    have hlt : k < m.length := hform.1.symm ▸ hk
    have hk' : m[k]? = some m[k] := List.getElem?_eq_getElem hlt
    simp only [Derivative.entry_perDirection hk']
    exact h.coefficientGradient (hown c List.mem_cons_self) hm k _ hk'
  case some.all.two =>
    obtain ⟨n, hn, hD⟩ := bind_eq_ok_iff.1 hD
    rw [pure_eq_ok_iff] at hD
    subst hD
    intro W hW
    obtain ⟨W', hW', hshape⟩ := hfits c₁ c₂ rfl
    obtain rfl := Option.some.inj (hW'.symm.trans hW)
    obtain rfl := Option.some.inj (hW'.symm.trans (ofOption_eq_ok_iff.1 hm))
    exact h.thirdGradient (hown c₁ List.mem_cons_self)
      (hown c₂ (List.mem_cons_of_mem _ List.mem_cons_self)) hshape hn

section Answers

variable {l : LeafData K} {site : Site K} {φ : ℕ → K} {g : ℕ → ℕ → K}
  (he : l.coefficients.manifold.isEuclidean = true)
  (hφ : ∀ v, l.valuesAt site = .ok v → ∀ j, v.entry j = φ j)
  (hg : ∀ m, l.gradientsIn site = .ok m → ∀ k j, m.entry k j = g k j)

namespace Interpolation

include hφ in
theorem value_entry {v : Vec K} (h : value l site = .ok v) {i : ℕ} (hi : i < l.valueSize) :
    v.entry i = (l.interpolationTable φ g).value i := by
  obtain ⟨w, hw, h⟩ := bind_eq_ok_iff.1 h
  rw [pure_eq_ok_iff] at h
  rw [← h, Coefficients.entry_combine (fun j hj => Vec.entry_of_size_le hj) hi]
  exact Finset.sum_congr rfl fun j _ => by rw [hφ w hw j]

include hg in
theorem axis_entry {k : ℕ} {v : Vec K} (h : axis l site k = .ok v) {i : ℕ} (hi : i < l.valueSize) :
    v.entry i = (l.interpolationTable φ g).slope k i := by
  obtain ⟨m, hm, h⟩ := bind_eq_ok_iff.1 h
  split at h
  · rw [pure_eq_ok_iff] at h
    rw [← h, Coefficients.entry_combine (fun j hj => Mat.entry_outside fun hin => by omega) hi]
    exact Finset.sum_congr rfl fun j _ => by rw [hg m hm k j]
  · nomatch h

include hg in
theorem gradient_entry {m : Mat K} (h : gradient l site = .ok m) {i : ℕ} (hi : i < l.valueSize)
    (k : ℕ) : m.entry i k = (l.interpolationTable φ g).slope k i := by
  obtain ⟨n, hn, h⟩ := bind_eq_ok_iff.1 h
  obtain ⟨-, -, hentry⟩ := Mat.mul_eq_ok (lift_eq_ok_iff.1 h)
  rw [hentry]
  refine Finset.sum_congr rfl fun j hj => ?_
  have hin : (l.coefficients.matrix).entry i j = l.coefficients.entry i j :=
    Mat.entry_ofFn _ hi (Finset.mem_range.mp hj)
  rw [hin, Mat.entry_transpose, hg n hn, mul_comm]

include he hφ in
theorem coefficient_entry {c : Coefficient} (hb : c.block = l.block) {m : Mat K}
    (h : coefficient l site c.index = .ok m) {i a : ℕ} (hi : i < l.valueSize)
    (ha : a < l.correctionSize) : m.entry i a = (l.interpolationTable φ g).varied ⟨c, a⟩ i := by
  obtain ⟨w, hw, h⟩ := bind_eq_ok_iff.1 h
  obtain ⟨frame, hf, h⟩ := bind_eq_ok_iff.1 h
  obtain ⟨x, hx, h⟩ := bind_eq_ok_iff.1 h
  rw [pure_eq_ok_iff] at h
  obtain ⟨hc, hfe⟩ := Coefficients.entry_frame he (lift_eq_ok_iff.1 hf)
  obtain ⟨-, rfl⟩ := Checked.require_eq_ok_iff.1 (lift_eq_ok_iff.1 hx)
  rw [← h, Mat.entry_scale, hfe i a hi ha, hφ w hw, mul_comm]
  exact (LeafData.sum_share hb hc φ a i).symm

/-- The frame of a coefficient, times an entry of the gradients. -/
theorem scaled_frame_entry (he : l.coefficients.manifold.isEuclidean = true)
    (hg : ∀ m, l.gradientsIn site = .ok m → ∀ k j, m.entry k j = g k j) {c : Coefficient}
    (hb : c.block = l.block) {m frame : Mat K} (hm : l.gradientsIn site = .ok m)
    (hf : l.coefficients.frame c.index = .ok frame) {k : ℕ} {x : K}
    (hx : m.entryAt k c.index = .ok x) {i a : ℕ} (hi : i < l.valueSize)
    (ha : a < l.correctionSize) :
    (frame.scale x).entry i a = (l.interpolationTable φ g).mixed k ⟨c, a⟩ i := by
  obtain ⟨hc, hfe⟩ := Coefficients.entry_frame he hf
  obtain ⟨-, rfl⟩ := Mat.entryAt_eq_ok hx
  rw [Mat.entry_scale, hfe i a hi ha, hg m hm, mul_comm]
  exact (LeafData.sum_share hb hc (g k) a i).symm

include he hg in
theorem coefficientAxis_entry {c : Coefficient} (hb : c.block = l.block) {k : ℕ} {m : Mat K}
    (h : coefficientAxis l site c.index k = .ok m) {i a : ℕ} (hi : i < l.valueSize)
    (ha : a < l.correctionSize) :
    m.entry i a = (l.interpolationTable φ g).mixed k ⟨c, a⟩ i := by
  obtain ⟨n, hn, h⟩ := bind_eq_ok_iff.1 h
  obtain ⟨frame, hf, h⟩ := bind_eq_ok_iff.1 h
  obtain ⟨x, hx, h⟩ := bind_eq_ok_iff.1 h
  rw [pure_eq_ok_iff] at h
  rw [← h]
  exact scaled_frame_entry he hg hb hn (lift_eq_ok_iff.1 hf) (lift_eq_ok_iff.1 hx) hi ha

include he hg in
theorem coefficientGradient_entry {c : Coefficient} (hb : c.block = l.block) {ms : List (Mat K)}
    (h : coefficientGradient l site c.index = .ok ms) {k : ℕ} {m : Mat K} (hk : ms[k]? = some m)
    {i a : ℕ} (hi : i < l.valueSize) (ha : a < l.correctionSize) :
    m.entry i a = (l.interpolationTable φ g).mixed k ⟨c, a⟩ i := by
  obtain ⟨n, hn, h⟩ := bind_eq_ok_iff.1 h
  obtain ⟨frame, hf, h⟩ := bind_eq_ok_iff.1 h
  obtain ⟨hl, hr⟩ := mapM_eq_ok h
  have hlt : k < n.rows := by
    rw [List.length_range] at hl
    exact hl ▸ (List.getElem?_eq_some_iff.1 hk).1
  obtain ⟨m', hm', h⟩ := hr k k (List.getElem?_range hlt)
  obtain rfl := Option.some.inj (hk.symm.trans hm')
  obtain ⟨x, hx, h⟩ := bind_eq_ok_iff.1 h
  rw [pure_eq_ok_iff] at h
  rw [← h]
  exact scaled_frame_entry he hg hb hn (lift_eq_ok_iff.1 hf) (lift_eq_ok_iff.1 hx) hi ha

end Interpolation

include he hφ hg in
/-- On Euclidean coefficients an interpolation answers the entries of its table. -/
theorem Interpolation.reads_of_isEuclidean :
    (Primitives.interpolation : Primitives K).Reads l site (l.interpolationTable φ g) := by
  -- Two coefficients are answered by zeros, whether they are the same or not.
  have hzero {i j : ℕ} {x : Outcome (Mat K)} {m : Mat K}
      (hm : (if Flat l i j then return noCurvature l else x) = .ok m) (a b : ℕ) :
      m.entry a b = 0 := by
    have hflat : Flat l i j := Or.inr he
    rw [if_pos hflat, pure_eq_ok_iff] at hm
    rw [← hm, noCurvature, Mat.entry_zero]
  refine { value := fun h i hi => Interpolation.value_entry hφ h hi
           axis := fun h i hi => Interpolation.axis_entry hg h hi
           gradient := fun h i hi k _ => Interpolation.gradient_entry hg h hi k
           coefficient := fun hb h i hi a ha => Interpolation.coefficient_entry he hφ hb h hi ha
           coefficientAxis := fun hb h i hi a ha =>
             Interpolation.coefficientAxis_entry he hg hb h hi ha
           coefficientGradient := fun hb h k m hk i hi a ha =>
             Interpolation.coefficientGradient_entry he hg hb h hk hi ha
           second := ?_
           thirdAxis := ?_
           thirdGradient := ?_ }
  · intro c₁ c₂ W m _ _ _ h a _ b _
    rw [hzero h]
    exact (Finset.sum_eq_zero fun i _ => mul_zero _).symm
  · intro c₁ c₂ k W m _ _ _ h a _ b _
    rw [hzero h]
    exact (Finset.sum_eq_zero fun i _ => mul_zero _).symm
  · intro c₁ c₂ W m _ _ _ h a _ b _
    rw [hzero h]
    exact (Finset.sum_eq_zero fun k _ => Finset.sum_eq_zero fun i _ => mul_zero _).symm

/-- An interpolation of Euclidean coefficients answers the entries of its table. -/
theorem Leaf.IsLinear.reads {l : Leaf K} (h : l.IsLinear)
    (hφ : ∀ v, l.valuesAt site = .ok v → ∀ j, v.entry j = φ j)
    (hg : ∀ m, l.gradientsIn site = .ok m → ∀ k j, m.entry k j = g k j) :
    l.Reads site (l.interpolationTable φ g) := by
  refine Leaf.reads_of_primitives h.keepsShapes ?_ ?_
  · rw [h.order]
    exact LeafData.obeys_interpolationTable _ φ g
  · rw [h.primitives]
    exact Interpolation.reads_of_isEuclidean h.euclidean hφ hg

end Answers

def segmentValue (ξ : K) : ℕ → K
  | 0 => (1 - ξ) / 2
  | 1 => (1 + ξ) / 2
  | _ => 0

def segmentSlope : ℕ → K
  | 0 => -1 / 2
  | 1 => 1 / 2
  | _ => 0

theorem entry_shapeValues_segment {ξ : K} {v : Vec K}
    (h : Element.segment.shapeValues #[ξ] = .ok v) (j : ℕ) : v.entry j = segmentValue ξ j := by
  have h : tensorValues 1 Element.segment.nodes #[ξ] = .ok v := h
  obtain ⟨-, rfl⟩ := Checked.require_eq_ok_iff.1 h
  match j with
  | 0 =>
    refine (Vec.entry_ofFn _ Nat.zero_lt_two).trans ?_
    simp [tensorValue, productTo, hat, segmentValue, Vec.entry, Element.nodes, Element.corners,
      List.range_succ]
    ring
  | 1 =>
    refine (Vec.entry_ofFn _ Nat.one_lt_two).trans ?_
    simp [tensorValue, productTo, hat, segmentValue, Vec.entry, Element.nodes, Element.corners,
      List.range_succ]
  | j + 2 => exact Vec.entry_of_size_le (by rw [Vec.size_ofFn]; show 2 ≤ j + 2; omega)

theorem entry_shapeGradients_segment {ξ : K} {m : Mat K}
    (h : Element.segment.shapeGradients #[ξ] = .ok m) (k j : ℕ) :
    m.entry k j = delta k 0 * segmentSlope j := by
  have h : tensorGradients 1 Element.segment.nodes #[ξ] = .ok m := h
  obtain ⟨-, rfl⟩ := Checked.require_eq_ok_iff.1 h
  match k, j with
  | 0, 0 =>
    refine (Mat.entry_ofFn _ Nat.zero_lt_one Nat.zero_lt_two).trans ?_
    simp [tensorSlope, productTo, hat, segmentSlope, Vec.entry, Element.nodes, Element.corners,
      List.range_succ, delta]
  | 0, 1 =>
    refine (Mat.entry_ofFn _ Nat.zero_lt_one Nat.one_lt_two).trans ?_
    simp [tensorSlope, productTo, hat, segmentSlope, Vec.entry, Element.nodes, Element.corners,
      List.range_succ, delta]
  | 0, j + 2 =>
    rw [Mat.entry_outside]
    · simp [segmentSlope]
    · rintro ⟨-, h⟩
      have : j + 2 < 2 := h
      omega
  | k + 1, j =>
    rw [Mat.entry_outside]
    · simp [delta]
    · rintro ⟨h, -⟩
      have : k + 1 < 1 := h
      omega

end ElementFields
