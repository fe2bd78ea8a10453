import ElementFields.Proofs.LeafTables
import ElementFields.Proofs.NormalizedJets
import ElementFields.Proofs.Variations

namespace ElementFields
open Scalar
open scoped BigOperators

/-- A component of a vector that is divided by its length. -/
theorem entry_normalized {v : Vec ℝ} {n : ℕ} (hv : v.size = n) (i : ℕ) :
    (normalized v).entry i =
      v.entry i / Real.sqrt (∑ d ∈ Finset.range n, v.entry d * v.entry d) := by
  rw [normalized, Vec.entry_divide, Vec.norm, Vec.inner_eq_sum, hv]
  rfl

noncomputable def Vec.onAxes (n a b : ℕ) (p q : ℝ) : Vec ℝ :=
  .ofFn n fun c => p * delta a c + q * delta b c

theorem Vec.entry_onAxes {n a b c : ℕ} (p q : ℝ) (hc : c < n) :
    (onAxes n a b p q).entry c = p * delta a c + q * delta b c := Vec.entry_ofFn _ hc

namespace Manifold.Point

def OnManifold : {M : Manifold} → M.Point ℝ → Prop
  | .euclidean _, _ => True
  | .sphere _, x => x.coords.norm = 1

noncomputable def updated {M : Manifold} (x : M.Point ℝ) (v : Vec ℝ) (i : ℕ) : ℝ :=
  match x.update v with
  | .ok y => y.coords.entry i
  | .error _ => 0

noncomputable def reached {M : Manifold} (x : M.Point ℝ) (v : Vec ℝ) : Vec ℝ :=
  .ofFn M.valueSize fun d =>
    x.coords.entry d + ∑ a ∈ Finset.range M.correctionSize, x.frame.entry d a * v.entry a

noncomputable def retracted {M : Manifold} (x : M.Point ℝ) (v : Vec ℝ) (i : ℕ) : ℝ :=
  (normalized (x.reached v)).entry i

theorem updated_euclidean {dim : ℕ} (x : (Manifold.euclidean dim).Point ℝ) {v : Vec ℝ}
    (hv : v.size = dim) {i : ℕ} (hi : i < dim) : x.updated v i = x.coords.entry i + v.entry i := by
  obtain ⟨y, hy⟩ := x.exists_update hv
  rw [updated, hy]
  exact entry_update rfl hy hi

section Sphere

variable {dim : ℕ} {x : (Manifold.sphere dim).Point ℝ}

theorem entry_reached (v : Vec ℝ) {d : ℕ} (hd : d < dim) :
    (x.reached v).entry d = x.coords.entry d + x.tangentOf v.entry d := Vec.entry_ofFn _ hd

theorem size_reached (v : Vec ℝ) : (x.reached v).size = dim := Vec.size_ofFn _ _

theorem retracted_eq_div (v : Vec ℝ) {i : ℕ} (hi : i < dim) :
    x.retracted v i = (x.coords.entry i + x.tangentOf v.entry i) /
      Real.sqrt (∑ d ∈ Finset.range dim, (x.coords.entry d + x.tangentOf v.entry d) *
        (x.coords.entry d + x.tangentOf v.entry d)) := by
  have hsquare : ∑ d ∈ Finset.range dim, (x.reached v).entry d * (x.reached v).entry d =
      ∑ d ∈ Finset.range dim, (x.coords.entry d + x.tangentOf v.entry d) *
        (x.coords.entry d + x.tangentOf v.entry d) := by
    refine Finset.sum_congr rfl fun d hd => ?_
    rw [entry_reached v (Finset.mem_range.1 hd)]
  rw [retracted, entry_normalized (size_reached v), entry_reached v hi, hsquare]

variable (hx : x.coords.norm = 1)
include hx

/-- On the sphere a correction retracts. -/
theorem updated_eq_retracted {v : Vec ℝ} (hv : v.size = dim - 1) (i : ℕ) :
    x.updated v i = x.retracted v i := by
  obtain ⟨y, -, hupdate, hcoords⟩ := exists_direction_step hx hv
  have hreached : x.step v = x.reached v := by
    refine Vec.ext_entry ((size_step v).trans (size_reached v).symm) fun d hd => ?_
    rw [size_step] at hd
    rw [entry_step hv hd, entry_reached v hd]
  rw [updated, hupdate, retracted, normalized, ← hreached]
  exact congrArg (Vec.entry · i) hcoords

/-- A unit point that is moved by a step with the components `p s + q r` and divided by its length: the
first derivatives are the tangents, and the second one is along the point. -/
theorem hasVariations_retracted {v : ℝ → ℝ → Vec ℝ} {s r : ℕ → ℝ}
    (hv : ∀ p q, ∀ a < dim - 1, (v p q).entry a = p * s a + q * r a) {i : ℕ} (hi : i < dim) :
    HasVariations (fun p q => x.retracted (v p q) i) (x.coords.entry i) (x.tangentOf s i)
      (x.tangentOf r i) (-(innerTo (dim - 1) s r * x.coords.entry i)) := by
  let J (d : ℕ) : Jet ℝ :=
    { Jet.const (x.coords.entry d) with p := x.tangentOf s d, q := x.tangentOf r d }
  have hstep (p q : ℝ) (d : ℕ) : x.tangentOf (v p q).entry d =
      p * x.tangentOf s d + q * x.tangentOf r d := by
    simp only [tangentOf, Finset.mul_sum, ← Finset.sum_add_distrib]
    refine Finset.sum_congr rfl fun a ha => ?_
    rw [hv p q a (Finset.mem_range.1 ha)]
    ring
  -- Of the inner products in the square of the length, only those of the point with itself and of
  -- the two tangents are left.
  have hunit : innerTo dim x.coords.entry x.coords.entry = 1 := sum_coords_mul_self hx
  have hs : innerTo dim x.coords.entry (x.tangentOf s) = 0 := innerTo_tangentOf hx s
  have hr : innerTo dim x.coords.entry (x.tangentOf r) = 0 := innerTo_tangentOf hx r
  have hsr : innerTo dim (x.tangentOf s) (x.tangentOf r) = innerTo (dim - 1) s r :=
    innerTo_tangentOf_tangentOf hx s r
  have hzero (a : ℕ → ℝ) : innerTo dim a (fun _ => 0) = 0 ∧ innerTo dim (fun _ => 0) a = 0 := by
    simp only [innerTo, mul_zero, zero_mul, Finset.sum_const_zero, and_self]
  have hsquare : Jet.square dim J = { Jet.const 1 with pq := 2 * innerTo (dim - 1) s r } := by
    simp only [Jet.square_eq, J, Jet.const, hunit, hs, hr, hsr, (hzero _).1, (hzero _).2, mul_zero,
      add_zero, zero_add]
  have hnormalize : Jet.normalize dim J i = { Jet.const (x.coords.entry i) with
      p := x.tangentOf s i, q := x.tangentOf r i,
      pq := -(innerTo (dim - 1) s r * x.coords.entry i) } := by
    rw [Jet.normalize, hsquare]
    simp only [Jet.mul, Jet.map, Jet.const, J, reciprocalRoot, Real.sqrt_one]
    ext <;> ring
  have hlinear : ∀ d < dim, HasPartials
      (fun p q _ => x.coords.entry d + (p * x.tangentOf s d + q * x.tangentOf r d)) (J d) :=
    fun d _ => HasPartials.of_variables _ _ _
  have hpos : 0 < (Jet.square dim J).v := by
    rw [hsquare]
    exact one_pos
  have hall := HasPartials.normalized hlinear hpos hi
  rw [hnormalize] at hall
  simp only [retracted_eq_div _ hi, hstep]
  exact hall

end Sphere

/-- The corrections of a point of the sphere are retractions. -/
theorem retracted_eq_updated {M : Manifold} {dim : ℕ} (hM : M = .sphere dim) {x : M.Point ℝ}
    (hx : x.coords.norm = 1) {v : Vec ℝ} (hv : v.size = M.correctionSize) (i : ℕ) :
    x.retracted v i = x.updated v i := by
  subst hM
  exact (updated_eq_retracted hx hv i).symm

theorem onManifold_of_norm {M : Manifold} {x : M.Point ℝ} (hx : x.coords.norm = 1) :
    x.OnManifold := by
  cases M with
  | euclidean => trivial
  | sphere => exact hx

/-- How a point of either manifold varies with the correction `p s + q r`. -/
theorem hasVariations_updated {M : Manifold} {x : M.Point ℝ} (hx : x.OnManifold)
    {v : ℝ → ℝ → Vec ℝ} (hsize : ∀ p q, (v p q).size = M.correctionSize) {s r : ℕ → ℝ}
    (hv : ∀ p q, ∀ a < M.correctionSize, (v p q).entry a = p * s a + q * r a) {i : ℕ}
    (hi : i < M.valueSize) :
    HasVariations (fun p q => x.updated (v p q) i) (x.coords.entry i)
      (∑ a ∈ Finset.range M.correctionSize, x.frame.entry i a * s a)
      (∑ a ∈ Finset.range M.correctionSize, x.frame.entry i a * r a)
      (if M.isEuclidean then 0 else -(innerTo M.correctionSize s r * x.coords.entry i)) := by
  cases M with
  | euclidean dim =>
    have hframe (s : ℕ → ℝ) : ∑ a ∈ Finset.range dim, x.frame.entry i a * s a = s i := by
      refine Eq.trans (Finset.sum_congr rfl fun a ha => ?_) (sum_delta_mul hi s)
      rw [x.entry_frame rfl hi (Finset.mem_range.1 ha)]
    have hvalue (p q : ℝ) : x.updated (v p q) i = x.coords.entry i + (p * s i + q * r i) := by
      rw [updated_euclidean x (hsize p q) hi, hv p q i hi]
    simp only [hvalue]
    exact (HasVariations.linear _ _ _).congr rfl (hframe s).symm (hframe r).symm rfl
  | sphere dim =>
    have hvalue (p q : ℝ) : x.updated (v p q) i = x.retracted (v p q) i :=
      updated_eq_retracted hx (hsize p q) i
    simp only [hvalue]
    exact hasVariations_retracted hx hv hi

/-- The second derivative of the correction of a point, contracted with `u`. -/
theorem hasMixed_updated {M : Manifold} {x : M.Point ℝ} (hx : x.OnManifold) (u : ℕ → ℝ) {a b : ℕ}
    (ha : a < M.correctionSize) :
    HasMixed (fun p q => ∑ d ∈ Finset.range M.valueSize,
        u d * x.updated (.onAxes M.correctionSize a b p q) d)
      (∑ d ∈ Finset.range M.valueSize,
        u d * if M.isEuclidean then 0 else -(delta a b * x.coords.entry d)) := by
  have hinner : innerTo M.correctionSize (delta a : ℕ → ℝ) (delta b) = delta a b :=
    (innerTo_delta ha (delta b)).1.trans (delta_comm b a)
  have hall (d : ℕ) (hd : d < M.valueSize) := hasVariations_updated hx
    (fun p q => Vec.size_ofFn _ _) (fun p q c hc => Vec.entry_onAxes (a := a) (b := b) p q hc) hd
  simp only [hinner] at hall
  exact (HasVariations.sum fun d hd => (hall d hd).const_mul (u d)).hasMixed

end Manifold.Point

/-- Component `d` of coefficient `j` once every coefficient is moved by its own correction, or zero
beyond the last one. -/
noncomputable def Coefficients.moved (c : Coefficients ℝ)
    (move : c.manifold.Point ℝ → Vec ℝ → ℕ → ℝ) (v : ℕ → Vec ℝ) (d j : ℕ) : ℝ :=
  match c.points[j]? with
  | some x => move x (v j) d
  | none => 0

namespace LeafData

variable {l : LeafData ℝ} {α β : Variable}

/-- The correction of coefficient `j` when the coordinate `α` is corrected by `p` and `β` by `q`. -/
noncomputable def correctionOf (l : LeafData ℝ) (α β : Variable) (p q : ℝ) (j : ℕ) : Vec ℝ :=
  .ofFn l.correctionSize fun a => p * l.share α j a + q * l.share β j a

theorem sum_mul_share {j n : ℕ} (f : ℕ → ℝ) (hα : α.coordinate < n) :
    ∑ a ∈ Finset.range n, f a * l.share α j a =
      if α.block = l.block ∧ j = α.coefficient.index then f α.coordinate else 0 := by
  rw [Finset.sum_eq_single_of_mem α.coordinate (Finset.mem_range.2 hα) fun a _ ha => ?_]
  · simp only [share, and_true, mul_ite, mul_one, mul_zero]
  · rw [share, if_neg fun h => ha h.2.2, mul_zero]

/-- The corrections of a coefficient are orthogonal unless both variables stand for one coordinate. -/
theorem innerTo_share {j : ℕ} (hα : α.coordinate < l.correctionSize) :
    innerTo l.correctionSize (l.share α j) (l.share β j) =
      if (α.block = l.block ∧ α.coefficient = β.coefficient) ∧ j = α.coefficient.index then
        delta α.coordinate β.coordinate
      else 0 := by
  rw [innerTo_comm, innerTo, sum_mul_share _ hα]
  simp only [share, delta, ← ite_and]
  refine if_congr ⟨?_, ?_⟩ rfl rfl
  · rintro ⟨⟨hα, hj⟩, hβ, hj', hab⟩
    exact ⟨⟨⟨hα, coefficient_eq hα hβ (hj.symm.trans hj')⟩, hj⟩, hab⟩
  · rintro ⟨⟨⟨hα, hαβ⟩, hj⟩, hab⟩
    exact ⟨⟨hα, hj⟩, (congrArg Coefficient.block hαβ).symm.trans hα,
      hj.trans (congrArg Coefficient.index hαβ), hab⟩

/-- On the sphere the coefficients are moved by retractions. -/
theorem moved_retracted {dim : ℕ} (hM : l.coefficients.manifold = .sphere dim)
    (hunit : ∀ x ∈ l.coefficients.points, x.coords.norm = 1) (p q : ℝ) :
    l.coefficients.moved (·.retracted ·) (l.correctionOf α β p q) =
      l.coefficients.moved (·.updated ·) (l.correctionOf α β p q) := by
  funext d j
  rw [Coefficients.moved, Coefficients.moved]
  split
  · rename_i x hx
    exact Manifold.Point.retracted_eq_updated hM (hunit x (List.mem_of_getElem? hx))
      (Vec.size_ofFn _ _) d
  · rfl

/-- How the coefficients of a leaf vary with two coordinates of their corrections. -/
theorem hasVariations_moved (hon : ∀ x ∈ l.coefficients.points, x.OnManifold)
    (hα : α.coordinate < l.correctionSize) (hβ : β.coordinate < l.correctionSize) {d : ℕ}
    (hd : d < l.valueSize) (j : ℕ) :
    HasVariations (fun p q => l.coefficients.moved (·.updated ·) (l.correctionOf α β p q) d j)
      (l.coefficients.entry d j) (if j = α.coefficient.index then l.tangent α d else 0)
      (if j = β.coefficient.index then l.tangent β d else 0)
      (if j = α.coefficient.index then l.bend α β d else 0) := by
  have htangent (γ : Variable) : (if j = γ.coefficient.index then l.tangent γ d else 0) =
      if γ.block = l.block ∧ j = γ.coefficient.index then
        l.coefficients.tangentEntry j d γ.coordinate else 0 := by
    by_cases hj : j = γ.coefficient.index
    · simp only [tangent, hj, and_true, if_true]
    · simp only [hj, and_false, if_false]
  have hbend : (if j = α.coefficient.index then l.bend α β d else 0) =
      if l.coefficients.manifold.isEuclidean then 0
      else -(innerTo l.correctionSize (l.share α j) (l.share β j) * l.coefficients.entry d j) := by
    rw [innerTo_share hα]
    by_cases hj : j = α.coefficient.index
    · simp only [bend, Coefficients.bendEntry, hj, and_true, if_true]
      split <;> simp
    · simp only [hj, and_false, if_false, zero_mul, neg_zero, ite_self]
  -- What depends on the variables is now a sum over the components of the correction.
  rw [htangent, htangent, hbend]
  cases hpoint : l.coefficients.points[j]? with
  | none =>
    simp only [Coefficients.moved, Coefficients.entry, Coefficients.tangentEntry, hpoint, mul_zero,
      neg_zero, ite_self]
    exact .const 0
  | some x =>
    have hall := Manifold.Point.hasVariations_updated (hon x (List.mem_of_getElem? hpoint))
      (v := fun p q => l.correctionOf α β p q j) (fun p q => Vec.size_ofFn _ _)
      (fun p q a ha => Vec.entry_ofFn _ ha) hd
    simp only [Coefficients.moved, Coefficients.entry, Coefficients.tangentEntry, hpoint]
    exact hall.congr rfl (sum_mul_share _ hα) (sum_mul_share _ hβ) rfl

end LeafData

end ElementFields
