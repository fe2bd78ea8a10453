import ElementFields.Proofs.Perturbation
import ElementFields.Proofs.EuclideanLeaf

/-! What a built field without strains answers are the partial derivatives of its value. Nothing is
assumed of the leaves but that their own answers are partial derivatives and that the orders they
report are true. -/
namespace ElementFields
open Filter Scalar Topology

section Perturbed

variable {K : Type} [Scalar K]

namespace Leaf

def evaluate (l : Leaf K) (site : Site K) : Outcome (Vec K) := l.primitives.value l.toLeafData site

/-- The stacked correction by `p` in the coordinate `α` and by `q` in the coordinate `β`, as far as
they belong to the leaf. -/
def correction (l : Leaf K) (α β : Variable) (p q : K) : Vec K :=
  let part (γ : Variable) (s : K) (n : ℕ) : K :=
    if γ.block = l.block ∧ n / l.correctionSize = γ.coefficient.index ∧
      n % l.correctionSize = γ.coordinate then s else 0
  .ofFn (l.numCoefficients * l.correctionSize) fun n => part α p n + part β q n

def moved (l : Leaf K) (α β : Variable) (p q : K) : Leaf K :=
  match l.update (l.correction α β p q) with
  | .ok l' => l'
  | .error _ => l

/-- The direction in reference coordinates that axis `k` has at `ξ`: the axis itself, or the direction
that the element maps to axis `k` of space. -/
def axisAt (l : Leaf K) (transform : Transform) (ξ : Vec K) (k : ℕ) : Option (ℕ → K) :=
  match transform with
  | .referenceElement => some (delta k)
  | .gridElement => do
    let geometry ← l.geometry
    let jacobian ← (geometry.jacobianTransposed ξ).toOption
    return (← jacobian.inverse?).entry k

def siteAlong (l : Leaf K) (site : Site K) (k : ℕ) (t : K) : Site K :=
  match l.shapes.position site.point with
  | .error _ => site
  | .ok ξ =>
    match l.axisAt site.transform ξ k with
    | none => { site with point := .position ξ }
    | some w =>
      { site with point := .position (.ofFn ξ.size fun j => ξ.entry j + t * w j) }

def perturbed (l : Leaf K) (k : ℕ) (α β : Variable) (p q t : K) : Leaf K :=
  let m := l.moved α β p q
  { m with
    primitives := { m.primitives with
      value := fun data site => m.primitives.value data (l.siteAlong site k t) } }

end Leaf

/-- The field with the coefficients of all leaves corrected, and seen from a site moved by `t` along
axis `k`. -/
def ElementField.perturbed (f : ElementField K) (k : ℕ) (α β : Variable) (p q t : K) :
    ElementField K :=
  { f with leaves := f.leaves.map (·.perturbed k α β p q t) }

end Perturbed

noncomputable def columnEntry (x : Outcome (Mat ℝ)) (i : ℕ) : ℝ :=
  match x with
  | .ok m => m.entry i 0
  | .error _ => 0

/-- The table holds the partial derivatives of a column of `V` components, which depends on the
position along axis `k` and on the coordinates `α` and `β`. -/
structure Partials.Of (T : Partials ℝ) (V : ℕ)
    (Φ : ℕ → Variable → Variable → ℝ → ℝ → ℝ → Outcome (Mat ℝ)) : Prop where
  answered : ∀ k α β, ∀ᶠ p in 𝓝 0, ∀ᶠ q in 𝓝 0, ∀ᶠ t in 𝓝 0,
    ∃ m, Φ k α β p q t = .ok m ∧ m.rows = V ∧ m.cols = 1
  hasPartials : ∀ k α β, ∀ i < V,
    HasPartials (fun p q t => columnEntry (Φ k α β p q t) i) (T.jet k α β i)

noncomputable def Leaf.nearby (l : Leaf ℝ) (site : Site ℝ) (k : ℕ) (α β : Variable) (p q t : ℝ) :
    Outcome (Mat ℝ) := do
  return .column (← (l.perturbed k α β p q t).evaluate site)

noncomputable def ElementField.nearby (f : ElementField ℝ) (site : Site ℝ) (k : ℕ) (α β : Variable)
    (p q t : ℝ) : Outcome (Mat ℝ) := do
  return .column (← (f.perturbed k α β p q t).evaluate site)

/-- The answers of the leaf at a site are the partial derivatives of its value, in the documented
shapes, and those beyond the order that it reports are zero. -/
structure Leaf.ExactAt (l : Leaf ℝ) (site : Site ℝ) : Prop where
  shapes : l.KeepsShapes
  exact : ∃ T : Partials ℝ, T.Of l.valueSize (l.nearby site) ∧
    T.Obeys l.valueSize (fun block => if l.block = block then l.order else .nonlinear) ∧
    ∀ (r : Request ℝ) D, r.site = site → l.Accepts r → l.answer r = .ok D →
      T.ReadBy l.valueSize l.gridDim (fun _ => l.correctionSize) r D

namespace Partials.Of

variable {T A B : Partials ℝ} {V : ℕ}
  {Φ Ψ : ℕ → Variable → Variable → ℝ → ℝ → ℝ → Outcome (Mat ℝ)}

/-- It is enough that the columns are answered nearby, with components that have the partial
derivatives of the table. -/
theorem of_components {F : ℕ → Variable → Variable → ℕ → ℝ → ℝ → ℝ → ℝ}
    (hF : ∀ k α β, ∀ i < V, HasPartials (F k α β i) (T.jet k α β i))
    (h : ∀ k α β, ∀ᶠ p in 𝓝 0, ∀ᶠ q in 𝓝 0, ∀ᶠ t in 𝓝 0, ∃ m, Φ k α β p q t = .ok m ∧
      (m.rows = V ∧ m.cols = 1) ∧ ∀ i < V, m.entry i 0 = F k α β i p q t) : T.Of V Φ := by
  refine ⟨fun k α β => ?_, ?_⟩
  · filter_upwards [h k α β] with p hp
    filter_upwards [hp] with q hq
    exact hq.mono fun t ht => ht.imp fun m hm => ⟨hm.1, hm.2.1⟩
  · intro k α β i hi
    refine (hF k α β i hi).congr ?_
    filter_upwards [h k α β] with p hp
    filter_upwards [hp] with q hq
    filter_upwards [hq] with t ht
    obtain ⟨m, hm, -, he⟩ := ht
    rw [hm]
    exact he i hi

theorem const (c : ℝ) : (Partials.const c).Of 1 fun _ _ _ _ _ _ => .ok (.scalar c) := by
  have hjet (k : ℕ) (α β : Variable) (i : ℕ) :
      HasPartials (fun _ _ _ => c) ((Partials.const c).jet k α β i) := by
    rw [jet_const]
    exact HasPartials.const c
  refine of_components (fun k α β i _ => hjet k α β i) fun k α β => ?_
  refine Eventually.of_forall fun p => Eventually.of_forall fun q => Eventually.of_forall fun t => ?_
  refine ⟨.scalar c, rfl, ⟨rfl, rfl⟩, fun i hi => ?_⟩
  rw [Nat.lt_one_iff.1 hi, Mat.entry_scalar]

theorem scale (h : T.Of V Φ) (s : ℝ) :
    (T.scale s).Of V fun k α β p q t => do return (← Φ k α β p q t).scale s := by
  have hjet (k : ℕ) (α β : Variable) (i : ℕ) (hi : i < V) := (h.hasPartials k α β i hi).scale s
  simp only [← jet_scale] at hjet
  refine of_components hjet fun k α β => ?_
  filter_upwards [h.answered k α β] with p hp
  filter_upwards [hp] with q hq
  filter_upwards [hq] with t ht
  obtain ⟨m, hm, hs⟩ := ht
  rw [hm]
  exact ⟨m.scale s, rfl, hs, fun i _ => Mat.entry_scale m s i 0⟩

/-- Two columns that are answered nearby are answered together. -/
theorem answered_both (hA : A.Of V Φ) (hB : B.Of V Ψ) (k : ℕ) (α β : Variable) :
    ∀ᶠ p in 𝓝 0, ∀ᶠ q in 𝓝 0, ∀ᶠ t in 𝓝 0,
      (∃ m, Φ k α β p q t = .ok m ∧ m.rows = V ∧ m.cols = 1) ∧
        ∃ n, Ψ k α β p q t = .ok n ∧ n.rows = V ∧ n.cols = 1 := by
  filter_upwards [hA.answered k α β, hB.answered k α β] with p hp hp'
  filter_upwards [hp, hp'] with q hq hq'
  exact hq.and hq'

theorem add (hA : A.Of V Φ) (hB : B.Of V Ψ) :
    (A.add B).Of V (fun k α β p q t => do
      let x ← Φ k α β p q t
      x.add (← Ψ k α β p q t)) := by
  have hjet (k : ℕ) (α β : Variable) (i : ℕ) (hi : i < V) :=
    (hA.hasPartials k α β i hi).add (hB.hasPartials k α β i hi)
  simp only [← jet_add] at hjet
  refine of_components hjet fun k α β => ?_
  filter_upwards [hA.answered_both hB k α β] with p hp
  filter_upwards [hp] with q hq
  filter_upwards [hq] with t ht
  obtain ⟨⟨m, hm, hmr, hmc⟩, n, hn, hnr, hnc⟩ := ht
  obtain ⟨s, hs⟩ := Mat.exists_add (hmr.trans hnr.symm) (hmc.trans hnc.symm)
  obtain ⟨-, hss, he⟩ := Mat.add_eq_ok hs
  rw [hm, hn]
  exact ⟨s, lift_eq_ok_iff.2 hs, ⟨hss.1.trans hmr, hss.2.trans hmc⟩, fun i _ => he i 0⟩

theorem inner (hA : A.Of V Φ) (hB : B.Of V Ψ) :
    (Partials.inner V A B).Of 1 fun k α β p q t => do
      let x ← Φ k α β p q t
      let y ← Ψ k α β p q t
      return .scalar (← x.dot y) := by
  have hjet (k : ℕ) (α β : Variable) (i : ℕ) : HasPartials
      (fun p q t => ∑ d ∈ Finset.range V,
        columnEntry (Φ k α β p q t) d * columnEntry (Ψ k α β p q t) d)
      ((Partials.inner V A B).jet k α β i) := by
    rw [jet_inner]
    exact HasPartials.sum fun d hd => (hA.hasPartials k α β d hd).mul (hB.hasPartials k α β d hd)
  refine of_components (fun k α β i _ => hjet k α β i) fun k α β => ?_
  filter_upwards [hA.answered_both hB k α β] with p hp
  filter_upwards [hp] with q hq
  filter_upwards [hq] with t ht
  obtain ⟨⟨m, hm, hmr, hmc⟩, n, hn, hnr, hnc⟩ := ht
  obtain ⟨x, hx⟩ := Mat.exists_dot (hmr.trans hnr.symm) (hmc.trans hnc.symm)
  rw [hm, hn]
  refine ⟨.scalar x, ?_, ⟨rfl, rfl⟩, fun i hi => ?_⟩
  · show (do return .scalar (← liftM (m.dot n)) : Outcome (Mat ℝ)) = _
    exact bind_eq_ok_iff.2 ⟨x, lift_eq_ok_iff.2 hx, rfl⟩
  · rw [Nat.lt_one_iff.1 hi, Mat.entry_scalar]
    exact Product.dot_column ⟨hmr, hmc⟩ hx

theorem map (h : T.Of 1 Φ) (g : ScalarMap) (hpos : 0 < T.value 0) :
    (Partials.map (g.apply (T.value 0)) (g.derivatives (T.value 0)) T).Of 1 fun k α β p q t => do
      return .scalar (g.apply (← (← Φ k α β p q t).entryAt 0 0)) := by
  have hjet (k : ℕ) (α β : Variable) (i : ℕ) : HasPartials
      (fun p q t => g.apply (columnEntry (Φ k α β p q t) 0))
      ((Partials.map (g.apply (T.value 0)) (g.derivatives (T.value 0)) T).jet k α β i) := by
    rw [jet_map]
    exact (h.hasPartials k α β 0 Nat.zero_lt_one).map g hpos
  refine of_components (fun k α β i _ => hjet k α β i) fun k α β => ?_
  filter_upwards [h.answered k α β] with p hp
  filter_upwards [hp] with q hq
  filter_upwards [hq] with t ht
  obtain ⟨m, hm, hmr, hmc⟩ := ht
  have hin : 0 < m.rows ∧ 0 < m.cols := by omega
  rw [hm]
  refine ⟨.scalar (g.apply (m.entry 0 0)), ?_, ⟨rfl, rfl⟩, fun i hi => ?_⟩
  · show (do return .scalar (g.apply (← liftM (m.entryAt 0 0))) : Outcome (Mat ℝ)) = _
    refine bind_eq_ok_iff.2 ⟨m.entry 0 0, lift_eq_ok_iff.2 ?_, rfl⟩
    exact Checked.require_eq_ok_iff.2 ⟨hin, rfl⟩
  · rw [Nat.lt_one_iff.1 hi, Mat.entry_scalar]
    rfl

/-- A column is the column of its components. -/
theorem column (h : T.Of V Φ) :
    T.Of V fun k α β p q t => do return .column (← (← Φ k α β p q t).singleColumn) := by
  refine of_components h.hasPartials fun k α β => ?_
  filter_upwards [h.answered k α β] with p hp
  filter_upwards [hp] with q hq
  filter_upwards [hq] with t ht
  obtain ⟨m, hm, hmr, hmc⟩ := ht
  have hsize : m.flatten.size = V := by rw [Mat.flatten, m.size_entries, hmr, hmc, Nat.mul_one]
  refine ⟨.column m.flatten, ?_, ⟨hsize, rfl⟩, fun i _ => ?_⟩
  · rw [hm]
    show (do return .column (← liftM m.singleColumn) : Outcome (Mat ℝ)) = _
    exact bind_eq_ok_iff.2 ⟨_, lift_eq_ok_iff.2 (Checked.require_eq_ok_iff.2 ⟨hmc, rfl⟩), rfl⟩
  · rw [hm, Mat.entry_column, Mat.entry_flatten_column hmc]
    rfl

end Partials.Of

namespace Leaf

variable {l : Leaf ℝ} {site : Site ℝ} {T : Partials ℝ}

theorem correction_of_foreign {α β : Variable} (h : α.block ≠ l.block) (p q : ℝ) :
    l.correction α β p q = l.correction α β 0 q := by
  simp only [correction, h, false_and, if_false]

theorem correction_comm (l : Leaf ℝ) (α β : Variable) (p q : ℝ) :
    l.correction α β p q = l.correction β α q p := by
  simp only [correction, add_comm]

/-- A leaf does not vary with the coefficients of another block. -/
theorem nearby_of_foreign {α : Variable} (h : α.block ≠ l.block) (k : ℕ) (β : Variable)
    (p q t : ℝ) : l.nearby site k α β p q t = l.nearby site k α β 0 q t ∧
      l.nearby site k β α q p t = l.nearby site k β α q 0 t := by
  have hc (s : ℝ) : l.correction β α q s = l.correction α β s q := l.correction_comm β α q s
  have hfst := correction_of_foreign (β := β) h p q
  refine ⟨?_, ?_⟩
  · simp only [nearby, perturbed, moved, hfst]
  · simp only [nearby, perturbed, moved, hc, hfst]

/-- The table of an exact leaf obeys its order, and is constant in the other blocks. -/
theorem obeys_of_exact (hT : T.Of l.valueSize (l.nearby site))
    (hown : T.Obeys l.valueSize fun block => if l.block = block then l.order else .nonlinear) :
    T.Obeys l.valueSize fun block => if l.block = block then l.order else .constant := by
  have hforeign (α : Variable) (hα : α.block ≠ l.block) (i : ℕ) (hi : i < l.valueSize) :
      T.varied α i = 0 ∧ (∀ k, T.mixed k α i = 0) ∧ ∀ β, (T.twice α β i = 0 ∧ T.twice β α i = 0) ∧
        ∀ k, T.thrice k α β i = 0 ∧ T.thrice k β α i = 0 := by
    have hfst (k : ℕ) (β : Variable) := (hT.hasPartials k α β i hi).eq_zero_of_fst fun p q t =>
      congrArg (columnEntry · i) (nearby_of_foreign hα k β p q t).1
    have hsnd (k : ℕ) (β : Variable) := (hT.hasPartials k β α i hi).eq_zero_of_snd fun q p t =>
      congrArg (columnEntry · i) (nearby_of_foreign hα k β p q t).2
    exact ⟨(hfst 0 α).1, fun k => (hfst k α).2.1, fun β =>
      ⟨⟨(hfst 0 β).2.2.1, (hsnd 0 β).2.2.1⟩, fun k => ⟨(hfst k β).2.2.2, (hsnd k β).2.2.2⟩⟩⟩
  refine ⟨?_, ?_⟩
  · intro α hα i hi
    by_cases hb : l.block = α.block
    · exact hown.constant α (by rwa [if_pos hb] at hα ⊢) i hi
    · exact hforeign α (Ne.symm hb) i hi
  · intro α β hαβ hl i hi
    by_cases hb : l.block = α.block
    · exact hown.linear α β hαβ (by rwa [if_pos hb] at hl ⊢) i hi
    · have hz := (hforeign α (Ne.symm hb) i hi).2.2 β
      exact ⟨hz.1.1, fun k => (hz.2 k).1⟩

theorem ExactAt.reads (h : l.ExactAt site) :
    ∃ T : Partials ℝ, T.Of l.valueSize (l.nearby site) ∧ l.Reads site T := by
  obtain ⟨T, hT, hown, hanswer⟩ := h.exact
  exact ⟨T, hT, obeys_of_exact hT hown, hanswer⟩

structure ShapesAt (l : Leaf ℝ) (site : Site ℝ) (φ : ℕ → ℝ) (g : ℕ → ℕ → ℝ) : Prop where
  values : ∀ v, l.valuesAt site = .ok v → ∀ j, v.entry j = φ j
  gradients : ∀ m, l.gradientsIn site = .ok m → ∀ k j, m.entry k j = g k j
  along : ∀ k, ∃ ψ : ℝ → ℕ → ℝ,
    (∀ᶠ t in 𝓝 0, ∃ v, l.valuesAt (l.siteAlong site k t) = .ok v ∧ ∀ j, v.entry j = ψ t j) ∧
      ∀ j, ψ 0 j = φ j ∧ HasDerivAt (fun t => ψ t j) (g k j) 0

theorem entry_correction (l : Leaf ℝ) (α β : Variable) (p q : ℝ) {j i : ℕ}
    (hj : j < l.numCoefficients) (hi : i < l.correctionSize) :
    (l.correction α β p q).entry (j * l.correctionSize + i) =
      p * l.share α j i + q * l.share β j i := by
  have hpos : 0 < l.correctionSize := by omega
  have hlt : j * l.correctionSize + i < l.numCoefficients * l.correctionSize :=
    calc j * l.correctionSize + i < j * l.correctionSize + l.correctionSize := by omega
      _ = (j + 1) * l.correctionSize := (Nat.succ_mul j _).symm
      _ ≤ l.numCoefficients * l.correctionSize := Nat.mul_le_mul_right _ hj
  have hdiv : (j * l.correctionSize + i) / l.correctionSize = j := by
    rw [Nat.mul_comm, Nat.mul_add_div hpos, Nat.div_eq_of_lt hi, Nat.add_zero]
  have hmod : (j * l.correctionSize + i) % l.correctionSize = i := by
    rw [Nat.mul_comm, Nat.mul_add_mod, Nat.mod_eq_of_lt hi]
  rw [correction, Vec.entry_ofFn _ hlt]
  simp only [hdiv, hmod, LeafData.share, mul_ite, mul_one, mul_zero]

/-- The correction has the length that the leaf takes, so the coefficients are moved. -/
theorem update_correction (l : Leaf ℝ) (α β : Variable) (p q : ℝ) :
    l.update (l.correction α β p q) = .ok (l.moved α β p q) := by
  obtain ⟨c, hc⟩ := Coefficients.exists_update (c := l.coefficients)
    (show (l.correction α β p q).size = _ from Vec.size_ofFn _ _)
  have hupdate : l.update (l.correction α β p q) = .ok (l.withCoefficients c) :=
    bind_eq_ok_iff.2 ⟨c, hc, rfl⟩
  rw [moved, hupdate]

/-- Moving the coefficients of a linear leaf adds the corrections to them. -/
theorem IsLinear.moved_eq (h : l.IsLinear) (α β : Variable) (p q : ℝ) :
    ∃ c : Coefficients ℝ, l.moved α β p q = l.withCoefficients c ∧
      (c.valueSize = l.valueSize ∧ c.size = l.numCoefficients) ∧
      ∀ j i, j < l.numCoefficients → i < l.valueSize →
        c.entry i j = l.coefficients.entry i j + (p * l.share α j i + q * l.share β j i) := by
  have hupdate := l.update_correction α β p q
  have hkind := sameKind_update hupdate
  obtain ⟨c, hc, hmoved⟩ := bind_eq_ok_iff.1 hupdate
  rw [pure_eq_ok_iff] at hmoved
  rw [← hmoved] at hkind ⊢
  refine ⟨c, rfl, ⟨hkind.valueSize, hkind.size⟩, ?_⟩
  intro j i hj hi
  have hcs : i < l.correctionSize := by
    have hcs : l.correctionSize = l.valueSize :=
      Manifold.correctionSize_of_isEuclidean h.euclidean
    omega
  rw [Coefficients.entry_update h.euclidean hc hj hi]
  exact congrArg _ (l.entry_correction α β p q hj hcs)

/-- A linear leaf is exact where the gradients of its shape functions are. -/
theorem IsLinear.exactAt (h : l.IsLinear) {φ : ℕ → ℝ} {g : ℕ → ℕ → ℝ}
    (hs : l.ShapesAt site φ g) : l.ExactAt site := by
  refine ⟨h.keepsShapes, l.interpolationTable φ g, ?_, ?_, ?_⟩
  · -- Each term is a shape function, which moves with the position, times a coefficient, which moves
    -- with the corrections.
    choose ψ hψ hderiv using hs.along
    have hsum (k : ℕ) (α β : Variable) (i : ℕ) :
        (l.interpolationTable φ g).jet k α β i = Jet.sum l.numCoefficients fun j =>
          Jet.mul { Jet.const (φ j) with x := g k j }
            { Jet.const (l.coefficients.entry i j) with p := l.share α j i, q := l.share β j i } := by
      simp [Partials.jet, LeafData.interpolationTable, Jet.sum, Jet.mul, Jet.const]
    have hpartials (k : ℕ) (α β : Variable) (i : ℕ) : HasPartials
        (fun p q t => ∑ j ∈ Finset.range l.numCoefficients,
          ψ k t j * (l.coefficients.entry i j + (p * l.share α j i + q * l.share β j i)))
        ((l.interpolationTable φ g).jet k α β i) := by
      rw [hsum]
      refine HasPartials.sum fun j _ => ?_
      have hspace := HasPartials.of_position (hderiv k j).2
      rw [(hderiv k j).1] at hspace
      exact hspace.mul (HasPartials.of_variables _ _ _)
    refine Partials.Of.of_components (fun k α β i _ => hpartials k α β i) fun k α β => ?_
    refine Eventually.of_forall fun p => Eventually.of_forall fun q => (hψ k).mono fun t ht => ?_
    obtain ⟨v, hv, hve⟩ := ht
    obtain ⟨c, hmoved, ⟨hcv, hcn⟩, hce⟩ := h.moved_eq α β p q
    have hnearby : l.nearby site k α β p q t = .ok (.column (c.combine v.size v.entry)) := by
      show (do return .column (← (l.moved α β p q).primitives.value (l.moved α β p q).toLeafData
        (l.siteAlong site k t)) : Outcome (Mat ℝ)) = _
      rw [hmoved]
      show (do return .column (← l.primitives.value (l.withCoefficients c).toLeafData
        (l.siteAlong site k t)) : Outcome (Mat ℝ)) = _
      rw [h.primitives]
      exact bind_eq_ok_iff.2 ⟨_, bind_eq_ok_iff.2 ⟨v, hv, rfl⟩, rfl⟩
    refine ⟨_, hnearby, ⟨(Vec.size_ofFn _ _).trans hcv, rfl⟩, fun i hi => ?_⟩
    rw [Mat.entry_column, Coefficients.entry_combine (fun j hj => Vec.entry_of_size_le hj)
      (hcv.symm ▸ hi), hcn]
    refine Finset.sum_congr rfl fun j hj => ?_
    rw [hve, hce j i (Finset.mem_range.mp hj) hi]
  · rw [h.order]
    refine ⟨fun α hα => ?_, fun α β _ _ i _ => ⟨rfl, fun _ => rfl⟩⟩
    split at hα <;> cases hα
  · exact (h.reads hs.values hs.gradients).answer

theorem shapesAt_onSegment (block : BlockId) (x y ξ : ℝ) :
    (onSegment block x y).ShapesAt { point := .position #[ξ], transform := .referenceElement }
      (segmentValue ξ) fun k j => delta k 0 * segmentSlope j := by
  refine ⟨?_, ?_, fun k => ⟨fun t => segmentValue (ξ + t * delta k 0), ?_, fun j => ⟨?_, ?_⟩⟩⟩
  · intro v hv
    exact entry_shapeValues_segment (lift_eq_ok_iff.1 hv)
  · intro m hm
    exact entry_shapeGradients_segment (lift_eq_ok_iff.1 hm)
  · refine Eventually.of_forall fun t => ?_
    exact ⟨_, rfl, entry_shapeValues_segment rfl⟩
  · simp only [zero_mul, add_zero]
  · have hline : HasDerivAt (fun t : ℝ => ξ + t * delta k 0) (delta k 0) 0 :=
      (((hasDerivAt_id (0 : ℝ)).mul_const (delta k 0)).const_add ξ).congr_deriv (one_mul _)
    match j with
    | 0 =>
      refine ((hline.const_sub 1).div_const 2).congr_deriv ?_
      simp only [segmentSlope]
      ring
    | 1 =>
      refine ((hline.const_add 1).div_const 2).congr_deriv ?_
      simp only [segmentSlope]
      ring
    | j + 2 => exact (hasDerivAt_const 0 0).congr_deriv (mul_zero _).symm
end Leaf

namespace ElementField

variable {f : ElementField ℝ} {site : Site ℝ} {T : ℕ → Partials ℝ}

/-- The table of an expression without strains holds the partial derivatives of its value. -/
theorem operand_of (hT : ∀ slot signature l, f.HostsLeaf slot signature l →
      (T slot).Of l.valueSize (l.nearby site)) {e : Expr ℝ} (he : f.Hosts e)
    (hfree : e.StrainFree)
    (hpos : ∀ g a, (Expr.unary (.map g) a).IsPart e → 0 < (a.partials T).value 0) :
    (e.partials T).Of e.valueSize fun k α β p q t =>
      ((f.perturbed k α β p q t).operand e).value site := by
  induction e with
  | leaf slot signature =>
    obtain ⟨l, hl⟩ := he
    obtain rfl := hl.signature_eq
    have hvalue (k : ℕ) (α β : Variable) (p q t : ℝ) :
        (f.perturbed k α β p q t).leafValue slot site = l.nearby site k α β p q t := by
      have hget : (f.perturbed k α β p q t).leaves[slot]? = some (l.perturbed k α β p q t) := by
        simp [perturbed, hl.get]
      rw [leafValue_eq hget]
      rfl
    have hΦ : (fun k α β p q t => (f.perturbed k α β p q t).leafValue slot site) =
        l.nearby site := by
      funext k α β p q t
      exact hvalue k α β p q t
    show (T slot).Of l.valueSize fun k α β p q t => (f.perturbed k α β p q t).leafValue slot site
    rw [hΦ]
    exact hT slot _ l hl
  | constant x => exact Partials.Of.const x
  | unary op a ih =>
    have hpos' : ∀ g b, (Expr.unary (.map g) b).IsPart a → 0 < (b.partials T).value 0 :=
      fun g b hb => hpos g b (hb.unary op)
    cases op with
    | negate => exact (ih he hfree hpos').scale (-1)
    | scale factor => exact (ih he hfree hpos').scale factor
    | map g =>
      have ha := ih he.1 hfree hpos'
      rw [he.2] at ha
      exact ha.map g (hpos g a (.refl _))
    | strain => exact hfree.elim
  | binary op a b iha ihb =>
    -- The arguments of roots and logarithms below an operand are below the node as well.
    have hA := iha he.1.1 hfree.1 fun g c hc => hpos g c (hc.left op b)
    have hB := ihb he.1.2 hfree.2 fun g c hc => hpos g c (hc.right op a)
    rw [← he.2] at hB
    cases op with
    | sum => exact hA.add hB
    | dot => exact hA.inner hB

/-- Evaluation is exact. For a built field without strains whose leaves are exact at a site, and where
the operands of all square roots and logarithms are positive, there is a table of the partial
derivatives of the value, and every request that is answered at the site is answered with its
entries. -/
theorem evaluateRequest_exact (hf : f.Built) (hfree : f.expr.StrainFree)
    (hleaves : ∀ l ∈ f.reachableLeaves, l.ExactAt site)
    (hpos : ∀ g a, (Expr.unary (.map g) a).IsPart f.expr →
      ∃ m, (f.operand a).value site = .ok m ∧ 0 < m.entry 0 0) :
    ∃ T : Partials ℝ, T.Of f.valueSize (f.nearby site) ∧
      ∀ (r : Request ℝ) D, r.site = site → f.evaluateRequest r = .ok D →
        T.ReadBy f.valueSize f.gridDim f.tangentDim r D := by
  have hhosts := hf.hosts
  have hsize : f.expr.valueSize = f.valueSize := f.top.valueSize_eq.symm
  have hslot (slot : ℕ) : ∃ T : Partials ℝ, ∀ signature l, f.HostsLeaf slot signature l →
      T.Of l.valueSize (l.nearby site) ∧ l.Reads site T := by
    by_cases h : ∃ signature l, f.HostsLeaf slot signature l
    · obtain ⟨signature, l, hl⟩ := h
      obtain ⟨T, hT⟩ := (hleaves l hl.mem).reads
      refine ⟨T, fun signature' l' hl' => ?_⟩
      obtain rfl := Option.some.inj (hl.get.symm.trans hl'.get)
      exact hT
    · exact ⟨.const 0, fun signature l hl => absurd ⟨signature, l, hl⟩ h⟩
  choose T hT using hslot
  have hreads (e : Expr ℝ) : f.LeavesRead site T e :=
    fun slot signature l _ hl => (hT slot signature l hl).2
  have hshape : ∀ l ∈ f.reachableLeaves, l.KeepsShapes := fun l hl => (hleaves l hl).shapes
  -- The value of an operand is that of its table, so the table is positive where the operand is.
  have hpos' : ∀ g a, (Expr.unary (.map g) a).IsPart f.expr → 0 < (a.partials T).value 0 := by
    intro g a ha
    obtain ⟨m, hm, hlt⟩ := hpos g a ha
    have hpart := hhosts.part ha
    have hadmits : f.Admits .value :=
      ⟨fun _ hk => (nomatch hk), fun _ hc => absurd hc List.not_mem_nil⟩
    have hmap : (Expr.unary (.map g) a).StrainFree := hfree.part ha
    have hread := operand_reads hshape (hreads _) hpart.1 hmap (r := ⟨site, .value, none⟩) rfl hadmits
    rw [hpart.2] at hread
    rw [← hread.value m hm 0 Nat.zero_lt_one]
    exact hlt
  refine ⟨f.expr.partials T, ?_, ?_⟩
  · have hof := operand_of (fun slot signature l hl => (hT slot signature l hl).1) hhosts hfree hpos'
    rw [hsize] at hof
    have hΦ : f.nearby site = fun k α β p q t => do
        return .column (← (← ((f.perturbed k α β p q t).operand f.expr).value site).singleColumn) := by
      funext k α β p q t
      exact bind_assoc _ _ _
    rw [hΦ]
    exact hof.column
  · intro r D hsite h
    obtain ⟨_, hvalid, h⟩ := bind_eq_ok_iff.1 h
    obtain ⟨hr, hfit⟩ := validate_eq_ok_iff.1 hvalid
    have hread := operand_reads hshape (hreads _) hhosts hfree hsite hr
    rw [hsize] at hread
    exact hread.derivative r D rfl (Directions.DrawnFrom.refl _) hfit h

/-- The length of a number on a segment, in the middle. -/
theorem evaluateRequest_exact_length :
    let f : ElementField ℝ := length 1 2
    let site : Site ℝ := { point := .position #[0], transform := .referenceElement }
    (f.Built ∧ f.expr.StrainFree ∧ ∀ l ∈ f.reachableLeaves, l.ExactAt site) ∧
      ∃ T : Partials ℝ, T.Of f.valueSize (f.nearby site) ∧
        ∀ (r : Request ℝ) D, r.site = site → f.evaluateRequest r = .ok D →
          T.ReadBy f.valueSize f.gridDim f.tangentDim r D := by
  intro f site
  have hleaves : ∀ l ∈ f.reachableLeaves, l.ExactAt site := by
    intro l hl
    have hmem : l ∈ [Leaf.onSegment ⟨0⟩ 1 2] := hl
    obtain rfl := List.mem_singleton.1 hmem
    exact (Leaf.isLinear_onSegment ⟨0⟩ 1 2).exactAt (Leaf.shapesAt_onSegment ⟨0⟩ 1 2 0)
  have hfree : f.expr.StrainFree := ⟨trivial, trivial⟩
  have hpos : ∀ g a, (Expr.unary (.map g) a).IsPart f.expr →
      ∃ m, (f.operand a).value site = .ok m ∧ 0 < m.entry 0 0 := by
    intro g a ha
    have hsquare : a = (square (1 : ℝ) 2).expr := by
      cases ha with
      | refl => rfl
      | unary _ h =>
        cases h with
        | left _ _ h => nomatch h
        | right _ _ h => nomatch h
    subst hsquare
    let l : Leaf ℝ := .onSegment ⟨0⟩ 1 2
    obtain ⟨v, hv⟩ : ∃ v, l.evaluate site = .ok v := ⟨_, rfl⟩
    have hsize : v.size = 1 := (Leaf.isLinear_onSegment ⟨0⟩ 1 2).keepsShapes.value site v hv
    have hleaf : (f.operand (.leaf 0 l.signature)).value site = .ok (.column v) :=
      bind_eq_ok_iff.2 ⟨l, rfl, bind_eq_ok_iff.2 ⟨v, hv, rfl⟩⟩
    obtain ⟨x, hx⟩ := Mat.exists_dot (a := .column v) (b := .column v) rfl rfl
    have hvalue : (f.operand (square (1 : ℝ) 2).expr).value site = .ok (.scalar x) :=
      bind_eq_ok_iff.2 ⟨_, hleaf, bind_eq_ok_iff.2 ⟨_, hleaf,
        bind_eq_ok_iff.2 ⟨x, lift_eq_ok_iff.2 hx, rfl⟩⟩⟩
    -- In the middle of the segment stands the mean of its ends.
    have hmean : v.entry 0 = 3 / 2 := by
      rw [Interpolation.value_entry (g := fun _ _ => 0)
        (Leaf.shapesAt_onSegment ⟨0⟩ 1 2 0).values hv Nat.zero_lt_one]
      show ∑ j ∈ Finset.range 2, segmentValue 0 j * l.coefficients.entry 0 j = 3 / 2
      have h0 : l.coefficients.entry 0 0 = 1 := rfl
      have h1 : l.coefficients.entry 0 1 = 2 := rfl
      rw [Finset.sum_range_succ, Finset.sum_range_one, h0, h1]
      norm_num [segmentValue]
    refine ⟨.scalar x, hvalue, ?_⟩
    rw [Mat.entry_scalar, Product.dot_column ⟨hsize, rfl⟩ hx, Finset.sum_range_one,
      Mat.entry_column, hmean]
    norm_num
  exact ⟨⟨built_length 1 2, hfree, hleaves⟩,
    evaluateRequest_exact (built_length 1 2) hfree hleaves hpos⟩

end ElementField

end ElementFields
