import ElementFields.Proofs.EuclideanLeaf
import ElementFields.Proofs.Frames

namespace ElementFields
open Scalar
open scoped BigOperators

variable {K : Type} [ExactScalar K]

namespace Coefficients

variable {c : Coefficients K} {i : ℕ} {m : Mat K}

def tangentEntry (c : Coefficients K) (i d a : ℕ) : K :=
  match c.points[i]? with
  | some x => x.frame.entry d a
  | none => 0

/-- Component `d` of the second derivative of the retraction at coefficient `i` along the tangents `a`
and `b`. -/
def bendEntry (c : Coefficients K) (i a b d : ℕ) : K :=
  if c.manifold.isEuclidean then 0 else -(delta a b * c.entry d i)

omit [ExactScalar K] in
theorem point_eq_ok {x : c.manifold.Point K} (h : c.point i = .ok x) : c.points[i]? = some x := by
  rw [point] at h
  cases hp : c.points[i]? with
  | none =>
    rw [hp] at h
    cases h
  | some y =>
    rw [hp] at h
    exact congrArg some (Except.ok.inj h)

theorem entry_of_valueSize_le {d : ℕ} (hd : c.valueSize ≤ d) (i : ℕ) : c.entry d i = 0 := by
  rw [entry]
  split
  · rename_i x _
    exact Vec.entry_of_size_le (x.size_coords.symm ▸ hd)
  · rfl

theorem tangentEntry_of_frame (h : c.frame i = .ok m) (d a : ℕ) :
    m.entry d a = c.tangentEntry i d a := by
  obtain ⟨x, hx, h⟩ := bind_eq_ok_iff.1 h
  rw [pure_eq_ok_iff] at h
  rw [← h, tangentEntry, point_eq_ok hx]

/-- The curvature of a retraction is its second derivative, contracted. -/
theorem combines_weingarten {u : Vec K} (h : c.weingarten i u = .ok m) {a b : ℕ}
    (ha : a < c.correctionSize) (hb : b < c.correctionSize) :
    Combines c.valueSize u.entry (m.entry a b) fun d => c.bendEntry i a b d := by
  obtain ⟨x, hx, h⟩ := bind_eq_ok_iff.1 h
  rw [Manifold.Point.weingarten, Manifold.Point.curvature] at h
  rw [Combines]
  split at h
  · rename_i he
    obtain rfl := Except.ok.inj h
    simp only [bendEntry, if_pos he, Mat.entry_zero]
    exact (Finset.sum_eq_zero fun d _ => mul_zero _).symm
  · rename_i he
    obtain ⟨s, hs, h⟩ := bind_eq_ok_iff.1 h
    obtain ⟨-, rfl⟩ := Checked.require_eq_ok_iff.1 hs
    rw [pure_eq_ok_iff] at h
    have hentry : (Mat.identity c.manifold.correctionSize : Mat K).entry a b = delta a b :=
      Mat.entry_identity ha hb
    simp only [bendEntry, if_neg he]
    rw [← h, Mat.scaledIdentity, Mat.entry_scale, hentry, Vec.inner_eq_sum,
      x.size_coords, ← Finset.sum_neg_distrib, Finset.mul_sum]
    refine Finset.sum_congr rfl fun d _ => ?_
    rw [entry, point_eq_ok hx]
    ring

end Coefficients

namespace LeafData

def tangent (l : LeafData K) (α : Variable) (d : ℕ) : K :=
  if α.block = l.block then l.coefficients.tangentEntry α.coefficient.index d α.coordinate else 0

def bend (l : LeafData K) (α β : Variable) (d : ℕ) : K :=
  if α.block = l.block ∧ α.coefficient = β.coefficient then
    l.coefficients.bendEntry α.coefficient.index α.coordinate β.coordinate d
  else 0

def table (l : LeafData K) (φ : ℕ → K) (g : ℕ → ℕ → K) : Partials K :=
  { l.interpolationTable φ g with
    varied := fun α d => φ α.coefficient.index * l.tangent α d
    mixed := fun k α d => g k α.coefficient.index * l.tangent α d
    twice := fun α β d => φ α.coefficient.index * l.bend α β d
    thrice := fun k α β d => g k α.coefficient.index * l.bend α β d }

def valueEntry (l : LeafData K) (site : Site K) (j : ℕ) : K :=
  match l.valuesAt site with
  | .ok v => v.entry j
  | .error _ => 0

def gradientEntry (l : LeafData K) (site : Site K) (k j : ℕ) : K :=
  match l.gradientsIn site with
  | .ok m => m.entry k j
  | .error _ => 0

theorem entry_valuesAt {l : LeafData K} {site : Site K} {v : Vec K} (h : l.valuesAt site = .ok v)
    (j : ℕ) : v.entry j = l.valueEntry site j := by rw [valueEntry, h]

theorem entry_gradientsIn {l : LeafData K} {site : Site K} {m : Mat K}
    (h : l.gradientsIn site = .ok m) (k j : ℕ) : m.entry k j = l.gradientEntry site k j := by
  rw [gradientEntry, h]

variable {l : LeafData K} {φ : ℕ → K} {g : ℕ → ℕ → K}

theorem tangent_own {c : Coefficient} (hb : c.block = l.block) (a d : ℕ) :
    l.tangent ⟨c, a⟩ d = l.coefficients.tangentEntry c.index d a := if_pos hb

theorem tangent_foreign {α : Variable} (h : α.block ≠ l.block) (d : ℕ) : l.tangent α d = 0 :=
  if_neg h

theorem bend_own {c : Coefficient} (hb : c.block = l.block) (a b d : ℕ) :
    l.bend ⟨c, a⟩ ⟨c, b⟩ d = l.coefficients.bendEntry c.index a b d := if_pos ⟨hb, rfl⟩

theorem bend_of_index_ne {c₁ c₂ : Coefficient} (h : c₁.index ≠ c₂.index) (a b d : ℕ) :
    l.bend ⟨c₁, a⟩ ⟨c₂, b⟩ d = 0 := if_neg fun hc => h (congrArg Coefficient.index hc.2)

theorem bend_foreign {α : Variable} (h : α.block ≠ l.block) (β : Variable) (d : ℕ) :
    l.bend α β d = 0 ∧ l.bend β α d = 0 := by
  refine ⟨if_neg fun hα => h hα.1, if_neg fun hβ => h ?_⟩
  exact (congrArg Coefficient.block hβ.2).symm.trans hβ.1

theorem bend_of_isEuclidean (he : l.coefficients.manifold.isEuclidean = true) (α β : Variable)
    (d : ℕ) : l.bend α β d = 0 := by
  rw [bend]
  split
  · exact if_pos he
  · rfl

theorem slope_of_valueSize_le {i : ℕ} (hi : l.valueSize ≤ i) (k : ℕ) :
    (l.table φ g).slope k i = 0 := by
  have hslope : (l.table φ g).slope k i =
      ∑ j ∈ Finset.range l.numCoefficients, g k j * l.coefficients.entry i j := rfl
  rw [hslope]
  refine Finset.sum_eq_zero fun j _ => ?_
  rw [Coefficients.entry_of_valueSize_le hi, mul_zero]

/-- An interpolation is linear in its own coefficients where they are Euclidean. -/
theorem obeys_table (V : ℕ) {order : PolynomialOrder} (hconst : order ≠ .constant)
    (hlinear : order.annihilatedBy 2 = true → l.coefficients.manifold.isEuclidean = true) :
    (l.table φ g).Obeys V fun block => if l.block = block then order else .constant := by
  refine ⟨?_, ?_⟩
  · intro α hα i _
    have hne : α.block ≠ l.block := fun hb => hconst ((if_pos hb.symm).symm.trans hα)
    refine ⟨?_, fun k => ?_, fun β => ⟨⟨?_, ?_⟩, fun k => ⟨?_, ?_⟩⟩⟩ <;>
      simp only [table, tangent_foreign hne, bend_foreign hne, mul_zero]
  · intro α β _ hα i _
    have hzero : l.bend α β i = 0 := by
      by_cases hb : α.block = l.block
      · rw [if_pos hb.symm] at hα
        exact bend_of_isEuclidean (hlinear hα) α β i
      · exact (bend_foreign hb β i).1
    simp only [table, hzero, mul_zero, implies_true, and_self]

/-- The table turns as the gradients of the shape functions do. -/
theorem table_turnsTo {G : ℕ} {J : ℕ → ℕ → K} {g' : ℕ → ℕ → K}
    (h : ∀ k < G, ∀ j, Combines G (J k) (g k j) fun m => g' m j) :
    (l.table φ g).TurnsTo G J (l.table φ g') where
  value := rfl
  slope k hk _ := .sum fun j _ => (h k hk j).mul_right _
  varied := rfl
  mixed k hk _ _ := (h k hk _).mul_right _
  twice := rfl
  thrice k hk _ _ _ := (h k hk _).mul_right _

end LeafData

/-- What is made for each of the axes. -/
theorem eq_of_mapM_range {α : Type} {n : ℕ} {f : ℕ → Outcome α} {l : List α}
    (h : (List.range n).mapM f = .ok l) {k : ℕ} {a : α} (hk : l[k]? = some a) : f k = .ok a := by
  obtain ⟨hl, hr⟩ := mapM_eq_ok h
  have hlt : k < n := by
    rw [List.length_range] at hl
    exact hl ▸ (List.getElem?_eq_some_iff.1 hk).1
  obtain ⟨b, hb, hf⟩ := hr k k (List.getElem?_range hlt)
  rw [hf, Option.some.inj (hk.symm.trans hb)]

section Answers

variable {l : LeafData K} {site : Site K} {φ : ℕ → K} {g : ℕ → ℕ → K}
  (hφ : ∀ v, l.valuesAt site = .ok v → ∀ j, v.entry j = φ j)
  (hg : ∀ m, l.gradientsIn site = .ok m → ∀ k j, m.entry k j = g k j)

/-- The curvature at a coefficient that is varied twice. -/
theorem LeafData.combines_curvature {c : Coefficient} (hb : c.block = l.block) {u : Vec K} {m : Mat K}
    (h : l.coefficients.weingarten c.index u = .ok m) (s : K) {a b : ℕ} (ha : a < l.correctionSize)
    (hb' : b < l.correctionSize) : Combines l.valueSize u.entry ((m.scale s).entry a b)
      fun d => s * l.bend ⟨c, a⟩ ⟨c, b⟩ d := by
  have hm := (Coefficients.combines_weingarten h ha hb').mul_left s
  simp only [LeafData.bend_own hb]
  rwa [Mat.entry_scale, mul_comm]

omit [ExactScalar K] in
theorem LeafData.coefficient_eq {l : LeafData K} {c₁ c₂ : Coefficient} (h₁ : c₁.block = l.block)
    (h₂ : c₂.block = l.block) (h : c₁.index = c₂.index) : c₁ = c₂ := by
  obtain ⟨b₁, i₁⟩ := c₁
  obtain ⟨b₂, i₂⟩ := c₂
  exact congrArg₂ Coefficient.mk (h₁.trans h₂.symm) h

theorem LeafData.entry_frame {c : Coefficient} (hb : c.block = l.block) {frame : Mat K}
    (h : l.coefficients.frame c.index = .ok frame) (d a : ℕ) :
    frame.entry d a = l.tangent ⟨c, a⟩ d := by
  rw [Coefficients.tangentEntry_of_frame h, LeafData.tangent_own hb]

theorem LeafData.entry_scaled_frame {c : Coefficient} (hb : c.block = l.block) {frame : Mat K}
    (h : l.coefficients.frame c.index = .ok frame) (s : K) (d a : ℕ) :
    (frame.scale s).entry d a = s * l.tangent ⟨c, a⟩ d := by
  rw [Mat.entry_scale, LeafData.entry_frame hb h, mul_comm]

namespace Interpolation

/-- Different coefficients, and coefficients in a flat space, are answered by zeros. -/
theorem bend_of_flat {c₁ c₂ : Coefficient} (h : Flat l c₁.index c₂.index) (a b d : ℕ) :
    l.bend ⟨c₁, a⟩ ⟨c₂, b⟩ d = 0 := by
  rcases h with h | h
  · exact LeafData.bend_of_index_ne h a b d
  · exact LeafData.bend_of_isEuclidean h _ _ d

omit [ExactScalar K] in
theorem index_eq_of_not_flat [Scalar K] {l : LeafData K} {i j : ℕ} (h : ¬Flat l i j) : i = j :=
  Decidable.not_not.1 fun hne => h (Or.inl hne)

/-- What an interpolation answers to two coefficients, where `s` is the value or the gradient of the
shape function of the first one. -/
theorem combines_varied_twice {c₁ c₂ : Coefficient} (h₁ : c₁.block = l.block)
    (h₂ : c₂.block = l.block) {u : Vec K} {s : K} {x : Outcome (Mat K)} {m : Mat K}
    (h : (if Flat l c₁.index c₂.index then return noCurvature l else x) = .ok m)
    (hx : ¬Flat l c₁.index c₂.index → x = .ok m →
      ∃ n, l.coefficients.weingarten c₁.index u = .ok n ∧ m = n.scale s) {a b : ℕ}
    (ha : a < l.correctionSize) (hb : b < l.correctionSize) :
    Combines l.valueSize u.entry (m.entry a b) fun d => s * l.bend ⟨c₁, a⟩ ⟨c₂, b⟩ d := by
  split at h
  · rename_i hflat
    rw [pure_eq_ok_iff] at h
    simp only [bend_of_flat hflat, mul_zero]
    rw [← h, noCurvature, Mat.entry_zero, Combines]
    exact (Finset.sum_eq_zero fun d _ => mul_zero _).symm
  · rename_i hflat
    obtain ⟨n, hn, rfl⟩ := hx hflat h
    obtain rfl := LeafData.coefficient_eq h₁ h₂ (index_eq_of_not_flat hflat)
    exact LeafData.combines_curvature h₁ hn s ha hb

include hφ hg in
/-- An interpolation answers the entries of its table. -/
theorem reads : (Primitives.interpolation : Primitives K).Reads l site (l.table φ g) where
  value h _ hi := value_entry (g := g) hφ h hi
  axis h _ hi := axis_entry (φ := φ) hg h hi
  gradient h _ hi k _ := gradient_entry (φ := φ) hg h hi k
  coefficient {c m} hb h i _ a _ := by
    obtain ⟨w, hw, h⟩ := bind_eq_ok_iff.1 h
    obtain ⟨frame, hf, h⟩ := bind_eq_ok_iff.1 h
    obtain ⟨x, hx, h⟩ := bind_eq_ok_iff.1 h
    rw [pure_eq_ok_iff] at h
    obtain ⟨-, rfl⟩ := Checked.require_eq_ok_iff.1 (lift_eq_ok_iff.1 hx)
    rw [← h, LeafData.entry_scaled_frame hb (lift_eq_ok_iff.1 hf), hφ w hw]
    rfl
  coefficientAxis {c k m} hb h i _ a _ := by
    obtain ⟨n, hn, h⟩ := bind_eq_ok_iff.1 h
    obtain ⟨frame, hf, h⟩ := bind_eq_ok_iff.1 h
    obtain ⟨x, hx, h⟩ := bind_eq_ok_iff.1 h
    rw [pure_eq_ok_iff] at h
    obtain ⟨-, rfl⟩ := Mat.entryAt_eq_ok (lift_eq_ok_iff.1 hx)
    rw [← h, LeafData.entry_scaled_frame hb (lift_eq_ok_iff.1 hf), hg n hn]
    rfl
  coefficientGradient {c ms} hb h k m hk i _ a _ := by
    obtain ⟨n, hn, h⟩ := bind_eq_ok_iff.1 h
    obtain ⟨frame, hf, h⟩ := bind_eq_ok_iff.1 h
    obtain ⟨x, hx, h⟩ := bind_eq_ok_iff.1 (eq_of_mapM_range h hk)
    rw [pure_eq_ok_iff] at h
    obtain ⟨-, rfl⟩ := Mat.entryAt_eq_ok (lift_eq_ok_iff.1 hx)
    rw [← h, LeafData.entry_scaled_frame hb (lift_eq_ok_iff.1 hf), hg n hn]
    rfl
  second {c₁ c₂ W m} h₁ h₂ hW h a ha b hb := by
    have hall := combines_varied_twice (u := W.flatten) (s := φ c₁.index) h₁ h₂ h ?_ ha hb
    · simp only [Combines, Mat.entry_flatten_column hW.2] at hall
      exact hall
    · intro _ hx
      obtain ⟨w, hw, hx⟩ := bind_eq_ok_iff.1 hx
      obtain ⟨n, hn, hx⟩ := bind_eq_ok_iff.1 hx
      obtain ⟨x, hc, hx⟩ := bind_eq_ok_iff.1 hx
      rw [pure_eq_ok_iff] at hx
      obtain ⟨-, rfl⟩ := Checked.require_eq_ok_iff.1 (lift_eq_ok_iff.1 hc)
      exact ⟨n, lift_eq_ok_iff.1 hn, hφ w hw c₁.index ▸ hx.symm⟩
  thirdAxis {c₁ c₂ k W m} h₁ h₂ hW h a ha b hb := by
    have hall := combines_varied_twice (u := W.flatten) (s := g k c₁.index) h₁ h₂ h ?_ ha hb
    · simp only [Combines, Mat.entry_flatten_column hW.2] at hall
      exact hall
    · intro _ hx
      obtain ⟨G, hG, hx⟩ := bind_eq_ok_iff.1 hx
      obtain ⟨n, hn, hx⟩ := bind_eq_ok_iff.1 hx
      obtain ⟨x, hc, hx⟩ := bind_eq_ok_iff.1 hx
      rw [pure_eq_ok_iff] at hx
      obtain ⟨-, rfl⟩ := Mat.entryAt_eq_ok (lift_eq_ok_iff.1 hc)
      exact ⟨n, lift_eq_ok_iff.1 hn, hg G hG k c₁.index ▸ hx.symm⟩
  thirdGradient {c₁ c₂ W m} h₁ h₂ hW h a ha b hb := by
    change thirdGradient l site c₁.index c₂.index W = .ok m at h
    rw [thirdGradient] at h
    split at h
    · rename_i hflat
      rw [pure_eq_ok_iff] at h
      rw [← h, noCurvature, Mat.entry_zero]
      refine (Finset.sum_eq_zero fun k _ => Finset.sum_eq_zero fun d _ => ?_).symm
      simp only [LeafData.table, bend_of_flat hflat, mul_zero]
    · rename_i hflat
      obtain rfl := LeafData.coefficient_eq h₁ h₂ (index_eq_of_not_flat hflat)
      obtain ⟨G, hG, h⟩ := bind_eq_ok_iff.1 h
      have hsum := foldlM_adds (fun _ : Mat K => True) (fun n => n.entry a b)
        (fun k => ∑ d ∈ Finset.range l.valueSize,
          W.entry d k * (g k c₁.index * l.bend ⟨c₁, a⟩ ⟨c₁, b⟩ d)) ?_ trivial h
      · rw [hsum.2, noCurvature, Mat.entry_zero, zero_add, sum_map_range, hW.2]
        rfl
      · intro sum k next _ hnext
        obtain ⟨n, hn, hnext⟩ := bind_eq_ok_iff.1 hnext
        obtain ⟨x, hc, hnext⟩ := bind_eq_ok_iff.1 hnext
        obtain ⟨-, rfl⟩ := Mat.entryAt_eq_ok (lift_eq_ok_iff.1 hc)
        obtain ⟨-, -, hadd⟩ := Mat.add_eq_ok (lift_eq_ok_iff.1 hnext)
        have hcurved := LeafData.combines_curvature h₁ (lift_eq_ok_iff.1 hn) (g k c₁.index) ha hb
        simp only [Combines, Mat.entry_columnVec] at hcurved
        refine ⟨trivial, ?_⟩
        show next.entry a b = sum.entry a b + _
        rw [hadd, hg G hG, hcurved]

end Interpolation

end Answers

end ElementFields
