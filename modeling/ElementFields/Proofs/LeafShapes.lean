import ElementFields.Proofs.FieldForm
import ElementFields.Leaf.Interpolated
import ElementFields.Leaf.Normalized

namespace ElementFields
open Scalar

variable {K : Type}

namespace CachedShapes

structure Sound (s : CachedShapes K) : Prop where
  values : ∀ v ∈ s.values, v.size = s.numNodes
  gradients : ∀ g ∈ s.gradients, g.rows = s.dim ∧ g.cols = s.numNodes

theorem sound_unbound (element : Element) : (unbound element : CachedShapes K).Sound :=
  ⟨fun _ h => absurd h List.not_mem_nil, fun _ h => absurd h List.not_mem_nil⟩

end CachedShapes

section Shapes

variable [Scalar K]

theorem Element.length_nodes (e : Element) : (e.nodes : List (Vec K)).length = e.numNodes := by
  rw [nodes, List.length_map, length_corners]

theorem Element.size_shapeValues {e : Element} {ξ v : Vec K} (h : e.shapeValues ξ = .ok v) :
    v.size = e.numNodes := by
  rw [shapeValues] at h
  split at h
  · rename_i hs
    obtain ⟨-, rfl⟩ := Checked.require_eq_ok_iff.1 h
    rw [Vec.size_ofFn]
    cases e <;> first | rfl | nomatch hs
  · obtain ⟨-, rfl⟩ := Checked.require_eq_ok_iff.1 h
    rw [Vec.size_ofFn, length_nodes]

theorem Element.shape_shapeGradients {e : Element} {ξ : Vec K} {g : Mat K}
    (h : e.shapeGradients ξ = .ok g) : g.rows = e.dim ∧ g.cols = e.numNodes := by
  rw [shapeGradients] at h
  split at h
  · rename_i hs
    cases h
    refine ⟨rfl, ?_⟩
    show e.dim + 1 = e.numNodes
    cases e <;> first | rfl | nomatch hs
  · obtain ⟨-, rfl⟩ := Checked.require_eq_ok_iff.1 h
    exact ⟨rfl, length_nodes e⟩

/-- An inverse has as many rows and columns as the matrix has rows. -/
theorem Mat.shape_inverse? {m inverse : Mat K} (h : m.inverse? = some inverse) :
    inverse.rows = m.rows ∧ inverse.cols = m.rows := by
  simp only [inverse?] at h
  split at h
  · nomatch h
  · cases h
    exact ⟨rfl, rfl⟩

namespace CachedShapes

theorem lookUp_eq_ok {α : Type} {l : List α} {index : ℕ} {a : α} (h : lookUp l index = .ok a) :
    a ∈ l := by
  rw [lookUp] at h
  split at h
  · rename_i b hb
    cases h
    exact List.mem_of_getElem? hb
  · nomatch h

theorem sound_cachedValues {element : Element} {rule : QuadratureRule K} {orders : List ℕ}
    {values : List (Vec K)} (h : cachedValues element rule orders = .ok values) :
    ∀ v ∈ values, v.size = element.numNodes := by
  rw [cachedValues] at h
  split at h
  · obtain ⟨hl, hr⟩ := mapM_eq_ok h
    refine forall_mem_of_getElem? hl fun i hi => ?_
    obtain ⟨v, hv, he⟩ := hr i _ (List.getElem?_eq_getElem hi)
    exact ⟨v, hv, Element.size_shapeValues he⟩
  · cases h
    exact fun _ h => absurd h List.not_mem_nil

theorem sound_cachedGradients {element : Element} {rule : QuadratureRule K} {orders : List ℕ}
    {gradients : List (Mat K)} (h : cachedGradients element rule orders = .ok gradients) :
    ∀ g ∈ gradients, g.rows = element.dim ∧ g.cols = element.numNodes := by
  rw [cachedGradients] at h
  split at h
  · obtain ⟨hl, hr⟩ := mapM_eq_ok h
    refine forall_mem_of_getElem? hl fun i hi => ?_
    obtain ⟨g, hg, he⟩ := hr i _ (List.getElem?_eq_getElem hi)
    exact ⟨g, hg, Element.shape_shapeGradients he⟩
  · cases h
    exact fun _ h => absurd h List.not_mem_nil

/-- Binding keeps the cache sound, also where it stops halfway. -/
theorem Sound.bind {s : CachedShapes K} (h : s.Sound) (rule : QuadratureRule K)
    (orders : List ℕ) : (s.bind rule orders).1.Sound := by
  unfold CachedShapes.bind
  split
  · exact h
  · split
    · exact h
    · split
      · exact h
      · rename_i values hv
        split
        · exact ⟨sound_cachedValues hv, h.gradients⟩
        · rename_i gradients hg
          exact ⟨sound_cachedValues hv, sound_cachedGradients hg⟩

theorem Sound.size_valuesAt {s : CachedShapes K} (h : s.Sound) {p : EvaluationPoint K} {φ : Vec K}
    (hφ : s.valuesAt p = .ok φ) : φ.size = s.numNodes := by
  cases p with
  | integrationPoint index =>
    obtain ⟨-, -, hφ⟩ := bind_eq_ok_iff.1 hφ
    exact h.values φ (lookUp_eq_ok hφ)
  | position ξ =>
    obtain ⟨ξ', -, hφ⟩ := bind_eq_ok_iff.1 hφ
    exact Element.size_shapeValues (lift_eq_ok_iff.1 hφ)

theorem Sound.shape_gradientsAt {s : CachedShapes K} (h : s.Sound) {p : EvaluationPoint K}
    {g : Mat K} (hg : s.gradientsAt p = .ok g) : g.rows = s.dim ∧ g.cols = s.numNodes := by
  cases p with
  | integrationPoint index =>
    obtain ⟨-, -, hg⟩ := bind_eq_ok_iff.1 hg
    exact h.gradients g (lookUp_eq_ok hg)
  | position ξ =>
    obtain ⟨ξ', -, hg⟩ := bind_eq_ok_iff.1 hg
    exact Element.shape_shapeGradients (lift_eq_ok_iff.1 hg)

theorem Sound.shape_gradientsIn {s : CachedShapes K} (h : s.Sound) {geometry : Option (Geometry K)}
    {site : Site K} {g : Mat K} (hg : s.gradientsIn geometry site = .ok g) :
    g.rows = s.dim ∧ g.cols = s.numNodes := by
  obtain ⟨m, hm, hg⟩ := bind_eq_ok_iff.1 hg
  have hms := h.shape_gradientsAt hm
  split at hg
  · rw [pure_eq_ok_iff] at hg
    exact hg ▸ hms
  · obtain ⟨geometry, -, hg⟩ := bind_eq_ok_iff.1 hg
    obtain ⟨ξ, -, hg⟩ := bind_eq_ok_iff.1 hg
    obtain ⟨jacobian, -, hg⟩ := bind_eq_ok_iff.1 hg
    split at hg
    · obtain ⟨inverse, hi, hg⟩ := bind_eq_ok_iff.1 hg
      have his := Mat.shape_inverse? (ofOption_eq_ok_iff.1 hi)
      obtain ⟨hs, rfl⟩ := Checked.require_eq_ok_iff.1 (lift_eq_ok_iff.1 hg)
      exact ⟨his.1.trans (his.2.symm.trans (hs.trans hms.1)), hms.2⟩
    · nomatch hg

end CachedShapes

end Shapes

section Manifold

variable [Scalar K] {M : Manifold}

theorem Manifold.Point.shape_frame (x : M.Point K) :
    x.frame.rows = M.valueSize ∧ x.frame.cols = M.correctionSize := by
  cases M with
  | euclidean dim => exact ⟨rfl, rfl⟩
  | sphere dim => exact ⟨x.size_coords, congrArg (· - 1) x.size_coords⟩

theorem Manifold.Point.shape_weingarten {x : M.Point K} {u : Vec K} {m : Mat K}
    (h : x.weingarten u = .ok m) : m.rows = M.correctionSize ∧ m.cols = M.correctionSize := by
  rw [weingarten, curvature] at h
  split at h
  · cases h
    exact ⟨rfl, rfl⟩
  · obtain ⟨s, -, h⟩ := bind_eq_ok_iff.1 h
    rw [pure_eq_ok_iff] at h
    subst h
    exact ⟨rfl, rfl⟩

namespace Coefficients

variable {c : Coefficients K} {i : ℕ} {m : Mat K}

theorem shape_frame (h : c.frame i = .ok m) :
    m.rows = c.valueSize ∧ m.cols = c.correctionSize := by
  obtain ⟨x, -, h⟩ := bind_eq_ok_iff.1 h
  rw [pure_eq_ok_iff] at h
  exact h ▸ x.shape_frame

theorem shape_weingarten {u : Vec K} (h : c.weingarten i u = .ok m) :
    m.rows = c.correctionSize ∧ m.cols = c.correctionSize := by
  obtain ⟨x, -, h⟩ := bind_eq_ok_iff.1 h
  exact x.shape_weingarten h

end Coefficients

end Manifold

structure Primitives.KeepShapes (p : Primitives K) (l : LeafData K) : Prop where
  value : ∀ {site v}, p.value l site = .ok v → v.size = l.valueSize
  axis : ∀ {site k v}, p.axis l site k = .ok v → v.size = l.valueSize
  gradient : ∀ {site m}, p.gradient l site = .ok m → m.rows = l.valueSize ∧ m.cols = l.gridDim
  coefficient : ∀ {site i m}, p.coefficient l site i = .ok m →
    m.rows = l.valueSize ∧ m.cols = l.correctionSize
  coefficientAxis : ∀ {site i k m}, p.coefficientAxis l site i k = .ok m →
    m.rows = l.valueSize ∧ m.cols = l.correctionSize
  coefficientGradient : ∀ {site i ms}, p.coefficientGradient l site i = .ok ms →
    ms.length = l.gridDim ∧ ∀ m ∈ ms, m.rows = l.valueSize ∧ m.cols = l.correctionSize
  second : ∀ {site i j along m}, p.second l site i j along = .ok m →
    m.rows = l.correctionSize ∧ m.cols = l.correctionSize
  thirdAxis : ∀ {site i j k along m}, p.thirdAxis l site i j k along = .ok m →
    m.rows = l.correctionSize ∧ m.cols = l.correctionSize
  thirdGradient : ∀ {site i j along m}, p.thirdGradient l site i j along = .ok m →
    m.rows = l.correctionSize ∧ m.cols = l.correctionSize

theorem Leaf.keepsShapes_of_primitives [Scalar K] {l : Leaf K}
    (h : l.primitives.KeepShapes l.toLeafData) : l.KeepsShapes := by
  refine ⟨fun site v => h.value, ?_⟩
  intro r D _ hD
  have hcolumn {v : Vec K} (hv : v.size = l.valueSize) :
      (Mat.column v).rows = l.valueSize ∧ (Mat.column v).cols = 1 := ⟨hv, rfl⟩
  obtain ⟨site, ⟨s, c⟩, along⟩ := r
  rcases s with _ | k | _ <;> rcases c with _ | c | ⟨c₁, c₂⟩ <;>
    obtain ⟨m, hm, hD⟩ := bind_eq_ok_iff.1 hD
  case none.none =>
    rw [pure_eq_ok_iff] at hD
    exact hD ▸ hcolumn (h.value hm)
  case none.single =>
    rw [pure_eq_ok_iff] at hD
    exact hD ▸ h.coefficient hm
  case none.two =>
    obtain ⟨n, hn, hD⟩ := bind_eq_ok_iff.1 hD
    rw [pure_eq_ok_iff] at hD
    exact hD ▸ h.second hn
  case some.single.none =>
    rw [pure_eq_ok_iff] at hD
    exact hD ▸ hcolumn (h.axis hm)
  case some.single.single =>
    rw [pure_eq_ok_iff] at hD
    exact hD ▸ h.coefficientAxis hm
  case some.single.two =>
    obtain ⟨n, hn, hD⟩ := bind_eq_ok_iff.1 hD
    rw [pure_eq_ok_iff] at hD
    exact hD ▸ h.thirdAxis hn
  case some.all.none =>
    rw [pure_eq_ok_iff] at hD
    exact hD ▸ h.gradient hm
  case some.all.single =>
    rw [pure_eq_ok_iff] at hD
    exact hD ▸ h.coefficientGradient hm
  case some.all.two =>
    obtain ⟨n, hn, hD⟩ := bind_eq_ok_iff.1 hD
    rw [pure_eq_ok_iff] at hD
    exact hD ▸ h.thirdGradient hn

/-- One matrix is made for each of the axes. -/
theorem shape_mapM_range {n rows cols : ℕ} {f : ℕ → Outcome (Mat K)} {ms : List (Mat K)}
    (hf : ∀ k m, f k = .ok m → m.rows = rows ∧ m.cols = cols)
    (h : (List.range n).mapM f = .ok ms) :
    ms.length = n ∧ ∀ m ∈ ms, m.rows = rows ∧ m.cols = cols := by
  obtain ⟨hl, hr⟩ := mapM_eq_ok h
  rw [List.length_range] at hl
  refine ⟨hl, forall_mem_of_getElem? hl fun k hk => ?_⟩
  obtain ⟨m, hm, he⟩ := hr k k (by rw [List.getElem?_range hk])
  exact ⟨m, hm, hf k m he⟩

section Kept

variable [ExactScalar K]

/-- Adding matrices up keeps the shape of the first one. -/
theorem shape_foldlM_add {α : Type} {l : List α} {step : Mat K → α → Outcome (Mat K)}
    {start final : Mat K}
    (hstep : ∀ sum a next, step sum a = .ok next → ∃ m, sum.add m = .ok next)
    (h : l.foldlM step start = .ok final) :
    final.rows = start.rows ∧ final.cols = start.cols := by
  refine foldlM_keeps (fun m : Mat K => m.rows = start.rows ∧ m.cols = start.cols) ?_ ⟨rfl, rfl⟩ h
  intro sum a next hs ha
  obtain ⟨m, hm⟩ := hstep sum a next ha
  obtain ⟨-, hn, -⟩ := Mat.add_eq_ok hm
  exact ⟨hn.1.trans hs.1, hn.2.trans hs.2⟩

namespace Interpolation

variable {l : LeafData K}

theorem keepShapes (hl : l.shapes.Sound) : (Primitives.interpolation : Primitives K).KeepShapes l where
  value {site v} h := by
    obtain ⟨φ, -, h⟩ := bind_eq_ok_iff.1 h
    rw [pure_eq_ok_iff] at h
    exact h ▸ Vec.size_ofFn _ _
  axis {site k v} h := by
    obtain ⟨g, -, h⟩ := bind_eq_ok_iff.1 h
    split at h
    · rw [pure_eq_ok_iff] at h
      exact h ▸ Vec.size_ofFn _ _
    · nomatch h
  gradient {site m} h := by
    obtain ⟨g, hg, h⟩ := bind_eq_ok_iff.1 h
    obtain ⟨-, hs, -⟩ := Mat.mul_eq_ok (lift_eq_ok_iff.1 h)
    exact ⟨hs.1, hs.2.trans (hl.shape_gradientsIn hg).1⟩
  coefficient {site i m} h := by
    obtain ⟨φ, -, h⟩ := bind_eq_ok_iff.1 h
    obtain ⟨frame, hf, h⟩ := bind_eq_ok_iff.1 h
    obtain ⟨x, -, h⟩ := bind_eq_ok_iff.1 h
    rw [pure_eq_ok_iff] at h
    subst h
    have hs := Coefficients.shape_frame (lift_eq_ok_iff.1 hf)
    exact hs
  coefficientAxis {site i k m} h := by
    obtain ⟨g, -, h⟩ := bind_eq_ok_iff.1 h
    obtain ⟨frame, hf, h⟩ := bind_eq_ok_iff.1 h
    obtain ⟨x, -, h⟩ := bind_eq_ok_iff.1 h
    rw [pure_eq_ok_iff] at h
    subst h
    have hs := Coefficients.shape_frame (lift_eq_ok_iff.1 hf)
    exact hs
  coefficientGradient {site i ms} h := by
    obtain ⟨g, hg, h⟩ := bind_eq_ok_iff.1 h
    obtain ⟨frame, hf, h⟩ := bind_eq_ok_iff.1 h
    have hrows : g.rows = l.gridDim := (hl.shape_gradientsIn hg).1
    rw [← hrows]
    refine shape_mapM_range ?_ h
    intro k m hm
    obtain ⟨x, -, hm⟩ := bind_eq_ok_iff.1 hm
    rw [pure_eq_ok_iff] at hm
    subst hm
    have hs := Coefficients.shape_frame (lift_eq_ok_iff.1 hf)
    exact hs
  second {site i j along m} h := by
    have h : Interpolation.second l site i j along = .ok m := h
    rw [Interpolation.second] at h
    split at h
    · rw [pure_eq_ok_iff] at h
      exact h ▸ ⟨rfl, rfl⟩
    · obtain ⟨φ, -, h⟩ := bind_eq_ok_iff.1 h
      obtain ⟨curvature, hc, h⟩ := bind_eq_ok_iff.1 h
      obtain ⟨x, -, h⟩ := bind_eq_ok_iff.1 h
      rw [pure_eq_ok_iff] at h
      subst h
      have hs := Coefficients.shape_weingarten (lift_eq_ok_iff.1 hc)
      exact hs
  thirdAxis {site i j k along m} h := by
    have h : Interpolation.thirdAxis l site i j k along = .ok m := h
    rw [Interpolation.thirdAxis] at h
    split at h
    · rw [pure_eq_ok_iff] at h
      exact h ▸ ⟨rfl, rfl⟩
    · obtain ⟨g, -, h⟩ := bind_eq_ok_iff.1 h
      obtain ⟨curvature, hc, h⟩ := bind_eq_ok_iff.1 h
      obtain ⟨x, -, h⟩ := bind_eq_ok_iff.1 h
      rw [pure_eq_ok_iff] at h
      subst h
      have hs := Coefficients.shape_weingarten (lift_eq_ok_iff.1 hc)
      exact hs
  thirdGradient {site i j along m} h := by
    have h : Interpolation.thirdGradient l site i j along = .ok m := h
    rw [Interpolation.thirdGradient] at h
    split at h
    · rw [pure_eq_ok_iff] at h
      exact h ▸ ⟨rfl, rfl⟩
    · obtain ⟨g, -, h⟩ := bind_eq_ok_iff.1 h
      refine shape_foldlM_add ?_ h
      intro sum k next hnext
      obtain ⟨curvature, -, hnext⟩ := bind_eq_ok_iff.1 hnext
      obtain ⟨x, -, hnext⟩ := bind_eq_ok_iff.1 hnext
      exact ⟨_, lift_eq_ok_iff.1 hnext⟩

end Interpolation

namespace Normalization

variable {l : LeafData K}

theorem interpolate_eq_ok {site : Site K} {φ p : Vec K} (h : interpolate l site = .ok (φ, p)) :
    l.valuesAt site = .ok φ ∧ p.size = l.valueSize := by
  obtain ⟨φ', hφ, h⟩ := bind_eq_ok_iff.1 h
  obtain ⟨p', hp, h⟩ := bind_eq_ok_iff.1 h
  rw [pure_eq_ok_iff] at h
  cases h
  obtain ⟨-, rfl⟩ := Checked.require_eq_ok_iff.1 (lift_eq_ok_iff.1 hp)
  exact ⟨hφ, Vec.size_ofFn _ _⟩

theorem interpolant_eq_ok (hl : l.shapes.Sound) {site : Site K} {f : Interpolant K}
    (h : interpolant l site = .ok f) :
    f.p.size = l.valueSize ∧ f.gradients.rows = l.gridDim ∧ f.slopes.cols = l.gridDim := by
  obtain ⟨⟨φ, p⟩, hp, h⟩ := bind_eq_ok_iff.1 h
  obtain ⟨g, hg, h⟩ := bind_eq_ok_iff.1 h
  obtain ⟨slopes, hs, h⟩ := bind_eq_ok_iff.1 h
  rw [pure_eq_ok_iff] at h
  subst h
  have hrows : g.rows = l.gridDim := (hl.shape_gradientsIn hg).1
  obtain ⟨-, hss, -⟩ := Mat.mul_eq_ok (lift_eq_ok_iff.1 hs)
  exact ⟨(interpolate_eq_ok hp).2, hrows, hss.2.trans hrows⟩

theorem shape_second {p u : Vec K} {m : Mat K} (h : normalizationSecond p u = .ok m) :
    m.rows = p.size ∧ m.cols = p.size := by
  obtain ⟨-, rfl⟩ := Checked.require_eq_ok_iff.1 h
  exact ⟨rfl, rfl⟩

theorem shape_betweenFrames {bᵢ m bⱼ n : Mat K} (h : betweenFrames bᵢ m bⱼ = .ok n) :
    n.rows = bᵢ.cols ∧ n.cols = bⱼ.cols := by
  obtain ⟨turned, ht, h⟩ := bind_eq_ok_iff.1 h
  obtain ⟨-, hts, -⟩ := Mat.mul_eq_ok ht
  obtain ⟨-, hs, -⟩ := Mat.transposeMul_eq_ok h
  exact ⟨hs.1, hs.2.trans hts.2⟩

theorem shape_mixed {f : Interpolant K} (hp : f.p.size = l.valueSize) {i k : ℕ} {m : Mat K}
    (h : mixed l f i k = .ok m) : m.rows = l.valueSize ∧ m.cols = l.correctionSize := by
  obtain ⟨pₖ, -, h⟩ := bind_eq_ok_iff.1 h
  obtain ⟨frame, hf, h⟩ := bind_eq_ok_iff.1 h
  obtain ⟨second, hs, h⟩ := bind_eq_ok_iff.1 h
  obtain ⟨moved, hm, h⟩ := bind_eq_ok_iff.1 h
  obtain ⟨φ, -, h⟩ := bind_eq_ok_iff.1 h
  obtain ⟨turned, -, h⟩ := bind_eq_ok_iff.1 h
  obtain ⟨g, -, h⟩ := bind_eq_ok_iff.1 h
  obtain ⟨-, hms, -⟩ := Mat.mul_eq_ok hm
  obtain ⟨-, has, -⟩ := Mat.add_eq_ok h
  have hfs := Coefficients.shape_frame hf
  exact ⟨has.1.trans (hms.1.trans ((shape_second hs).1.trans hp)),
    has.2.trans (hms.2.trans hfs.2)⟩

theorem shape_third {f : Interpolant K} {i j k : ℕ} {along : Vec K} {m : Mat K}
    (h : third l f i j k along = .ok m) :
    m.rows = l.correctionSize ∧ m.cols = l.correctionSize := by
  obtain ⟨pₖ, -, h⟩ := bind_eq_ok_iff.1 h
  obtain ⟨bᵢ, hi, h⟩ := bind_eq_ok_iff.1 h
  obtain ⟨bⱼ, hj, h⟩ := bind_eq_ok_iff.1 h
  obtain ⟨φᵢ, -, h⟩ := bind_eq_ok_iff.1 h
  obtain ⟨φⱼ, -, h⟩ := bind_eq_ok_iff.1 h
  obtain ⟨gᵢ, -, h⟩ := bind_eq_ok_iff.1 h
  obtain ⟨gⱼ, -, h⟩ := bind_eq_ok_iff.1 h
  obtain ⟨second, -, h⟩ := bind_eq_ok_iff.1 h
  obtain ⟨lower, hlower, h⟩ := bind_eq_ok_iff.1 h
  obtain ⟨third, -, h⟩ := bind_eq_ok_iff.1 h
  obtain ⟨upper, -, h⟩ := bind_eq_ok_iff.1 h
  obtain ⟨sum, hsum, h⟩ := bind_eq_ok_iff.1 h
  have hbi := Coefficients.shape_frame hi
  have hbj := Coefficients.shape_frame hj
  have hls := shape_betweenFrames hlower
  obtain ⟨-, hss, -⟩ := Mat.add_eq_ok hsum
  have hs : sum.rows = l.correctionSize ∧ sum.cols = l.correctionSize :=
    ⟨hss.1.trans (hls.1.trans hbi.2), hss.2.trans (hls.2.trans hbj.2)⟩
  split at h
  · obtain ⟨curvature, -, h⟩ := bind_eq_ok_iff.1 h
    obtain ⟨-, hms, -⟩ := Mat.add_eq_ok h
    exact ⟨hms.1.trans hs.1, hms.2.trans hs.2⟩
  · rw [pure_eq_ok_iff] at h
    exact h ▸ hs

theorem keepShapes (hl : l.shapes.Sound) :
    (Primitives.normalization : Primitives K).KeepShapes l where
  value {site v} h := by
    obtain ⟨⟨φ, p⟩, hp, h⟩ := bind_eq_ok_iff.1 h
    rw [pure_eq_ok_iff] at h
    subst h
    exact (Vec.size_ofFn _ _).trans (interpolate_eq_ok hp).2
  axis {site k v} h := by
    obtain ⟨f, hf, h⟩ := bind_eq_ok_iff.1 h
    obtain ⟨pₖ, -, h⟩ := bind_eq_ok_iff.1 h
    obtain ⟨-, rfl⟩ := Checked.require_eq_ok_iff.1 (lift_eq_ok_iff.1 h)
    exact (Vec.size_ofFn _ _).trans (interpolant_eq_ok hl hf).1
  gradient {site m} h := by
    obtain ⟨f, hf, h⟩ := bind_eq_ok_iff.1 h
    obtain ⟨-, hs, -⟩ := Mat.mul_eq_ok (lift_eq_ok_iff.1 h)
    obtain ⟨hp, -, hcols⟩ := interpolant_eq_ok hl hf
    exact ⟨hs.1.trans hp, hs.2.trans hcols⟩
  coefficient {site i m} h := by
    obtain ⟨⟨φ, p⟩, hp, h⟩ := bind_eq_ok_iff.1 h
    obtain ⟨frame, hf, h⟩ := bind_eq_ok_iff.1 h
    obtain ⟨turned, ht, h⟩ := bind_eq_ok_iff.1 h
    obtain ⟨x, -, h⟩ := bind_eq_ok_iff.1 h
    rw [pure_eq_ok_iff] at h
    subst h
    obtain ⟨-, hs, -⟩ := Mat.mul_eq_ok (lift_eq_ok_iff.1 ht)
    have hfs := Coefficients.shape_frame (lift_eq_ok_iff.1 hf)
    exact ⟨hs.1.trans (interpolate_eq_ok hp).2, hs.2.trans hfs.2⟩
  coefficientAxis {site i k m} h := by
    obtain ⟨f, hf, h⟩ := bind_eq_ok_iff.1 h
    exact shape_mixed (interpolant_eq_ok hl hf).1 (lift_eq_ok_iff.1 h)
  coefficientGradient {site i ms} h := by
    obtain ⟨f, hf, h⟩ := bind_eq_ok_iff.1 h
    obtain ⟨frame, -, h⟩ := bind_eq_ok_iff.1 h
    obtain ⟨hp, hrows, -⟩ := interpolant_eq_ok hl hf
    rw [← hrows]
    exact shape_mapM_range (fun k m hm => shape_mixed hp (lift_eq_ok_iff.1 hm)) h
  second {site i j along m} h := by
    obtain ⟨⟨φ, p⟩, hp, h⟩ := bind_eq_ok_iff.1 h
    obtain ⟨u, -, h⟩ := bind_eq_ok_iff.1 h
    obtain ⟨bᵢ, hi, h⟩ := bind_eq_ok_iff.1 h
    obtain ⟨bⱼ, hj, h⟩ := bind_eq_ok_iff.1 h
    obtain ⟨φᵢ, -, h⟩ := bind_eq_ok_iff.1 h
    obtain ⟨φⱼ, -, h⟩ := bind_eq_ok_iff.1 h
    obtain ⟨second, -, h⟩ := bind_eq_ok_iff.1 h
    obtain ⟨between, hb, h⟩ := bind_eq_ok_iff.1 h
    have hbi := Coefficients.shape_frame (lift_eq_ok_iff.1 hi)
    have hbj := Coefficients.shape_frame (lift_eq_ok_iff.1 hj)
    have hs := shape_betweenFrames (lift_eq_ok_iff.1 hb)
    split at h
    · obtain ⟨projected, -, h⟩ := bind_eq_ok_iff.1 h
      obtain ⟨curvature, -, h⟩ := bind_eq_ok_iff.1 h
      obtain ⟨-, hms, -⟩ := Mat.add_eq_ok (lift_eq_ok_iff.1 h)
      exact ⟨hms.1.trans (hs.1.trans hbi.2), hms.2.trans (hs.2.trans hbj.2)⟩
    · rw [pure_eq_ok_iff] at h
      subst h
      exact ⟨hs.1.trans hbi.2, hs.2.trans hbj.2⟩
  thirdAxis {site i j k along m} h := by
    obtain ⟨f, -, h⟩ := bind_eq_ok_iff.1 h
    obtain ⟨u, -, h⟩ := bind_eq_ok_iff.1 h
    exact shape_third (lift_eq_ok_iff.1 h)
  thirdGradient {site i j along m} h := by
    obtain ⟨f, -, h⟩ := bind_eq_ok_iff.1 h
    have hs := shape_foldlM_add ?_ h
    · exact hs
    · intro sum k next hnext
      obtain ⟨u, -, hnext⟩ := bind_eq_ok_iff.1 hnext
      obtain ⟨third, -, hnext⟩ := bind_eq_ok_iff.1 hnext
      exact ⟨_, lift_eq_ok_iff.1 hnext⟩

end Normalization

end Kept

namespace Leaf

section Made

variable [Scalar K]

/-- The leaves that the library makes, with a geometry attached or not, and what binding and
corrections turn them into. -/
inductive Standard : Leaf K → Prop
  | interpolated {element : Element} {coefficients : Coefficients K} {block : BlockId} {l : Leaf K}
    (h : Leaf.interpolated element coefficients block = .ok l) : Standard l
  | normalized {element : Element} {coefficients : Coefficients K} {block : BlockId} {l : Leaf K}
    (h : Leaf.normalized element coefficients block = .ok l) : Standard l
  | withGeometry {l : Leaf K} (h : Standard l) (geometry : Geometry K) :
    Standard (l.withGeometry geometry)
  | bind {l : Leaf K} (h : Standard l) (rule : QuadratureRule K) (orders : List ℕ) :
    Standard (l.bind rule orders).1
  | update {l l' : Leaf K} {d : Vec K} (h : Standard l) (hd : l.update d = .ok l') : Standard l'
  | embed {l l' : Leaf K} {d : Vec K} (h : Standard l) (hd : l.addInEmbedding d = .ok l') :
    Standard l'

structure Kind (l : Leaf K) : Prop where
  sound : l.shapes.Sound
  primitives : (l.primitives = .interpolation ∧
      l.order = if l.coefficients.manifold.isEuclidean then .linear else .nonlinear) ∨
    l.primitives = .normalization ∧ l.order = .nonlinear

theorem Kind.of_sameKind {l l' : Leaf K} (h : l.Kind) (hk : l.SameKind l')
    (hs : l'.shapes.Sound) : l'.Kind := by
  refine ⟨hs, ?_⟩
  rw [hk.primitives, hk.order, hk.manifold]
  exact h.primitives

theorem shapes_update {l l' : Leaf K} {d : Vec K} (h : l.update d = .ok l') :
    l'.shapes = l.shapes := by
  obtain ⟨c, -, h⟩ := bind_eq_ok_iff.1 h
  rw [pure_eq_ok_iff] at h
  exact h ▸ rfl

theorem shapes_addInEmbedding {l l' : Leaf K} {d : Vec K} (h : l.addInEmbedding d = .ok l') :
    l'.shapes = l.shapes := by
  obtain ⟨c, -, h⟩ := bind_eq_ok_iff.1 h
  rw [pure_eq_ok_iff] at h
  exact h ▸ rfl

theorem Standard.kind {l : Leaf K} (h : l.Standard) : l.Kind := by
  induction h with
  | interpolated h =>
    obtain ⟨-, rfl⟩ := Checked.require_eq_ok_iff.1 h
    exact ⟨CachedShapes.sound_unbound _, Or.inl ⟨rfl, rfl⟩⟩
  | normalized h =>
    obtain ⟨-, rfl⟩ := Checked.require_eq_ok_iff.1 h
    exact ⟨CachedShapes.sound_unbound _, Or.inr ⟨rfl, rfl⟩⟩
  | withGeometry _ geometry ih => exact ⟨ih.sound, ih.primitives⟩
  | bind _ rule orders ih =>
    exact ih.of_sameKind (sameKind_bind _ rule orders) (ih.sound.bind rule orders)
  | update _ hd ih => exact ih.of_sameKind (sameKind_update hd) (shapes_update hd ▸ ih.sound)
  | embed _ hd ih =>
    exact ih.of_sameKind (sameKind_addInEmbedding hd) (shapes_addInEmbedding hd ▸ ih.sound)

/-- A leaf that is linear in its coefficients: an interpolation in Euclidean space. -/
structure IsLinear (l : Leaf K) : Prop where
  sound : l.shapes.Sound
  primitives : l.primitives = .interpolation
  euclidean : l.coefficients.manifold.isEuclidean = true
  order : l.order = .linear

def onSegment (block : BlockId) (x y : K) : Leaf K where
  block := block
  shapes := .unbound .segment
  coefficients := { manifold := .euclidean 1, points := [⟨#[x], rfl⟩, ⟨#[y], rfl⟩] }
  order := .linear
  primitives := .interpolation

theorem standard_onSegment (block : BlockId) (x y : K) : (onSegment block x y).Standard := by
  have h : Leaf.interpolated .segment (onSegment block x y).coefficients block =
      .ok (onSegment block x y) := rfl
  exact .interpolated h

theorem isLinear_onSegment (block : BlockId) (x y : K) : (onSegment block x y).IsLinear :=
  ⟨CachedShapes.sound_unbound _, rfl, rfl, rfl⟩

def onEdge (block : BlockId) (x y : K) : Leaf K :=
  (onSegment block x y).withGeometry
    { element := .segment, vertices := .ofFn 1 2 fun _ j => if j = 0 then -1 else 1 }

theorem standard_onEdge (block : BlockId) (x y : K) : (onEdge block x y).Standard :=
  (standard_onSegment block x y).withGeometry _

end Made

variable [ExactScalar K] {l : Leaf K}

/-- The leaves of the library answer in the documented shapes. -/
theorem Kind.keepsShapes (h : l.Kind) : l.KeepsShapes := by
  apply keepsShapes_of_primitives
  rcases h.primitives with ⟨hp, -⟩ | ⟨hp, -⟩
  · rw [hp]
    exact Interpolation.keepShapes h.sound
  · rw [hp]
    exact Normalization.keepShapes h.sound

theorem IsLinear.keepsShapes (h : l.IsLinear) : l.KeepsShapes := by
  apply keepsShapes_of_primitives
  rw [h.primitives]
  exact Interpolation.keepShapes h.sound

/-- The order that a leaf of the library reports annihilates a derivative only if the leaf is
linear. -/
theorem Kind.linear_of_annihilated (h : l.Kind) {n : ℕ} (hn : l.order.annihilatedBy n = true) :
    2 ≤ n ∧ l.IsLinear := by
  rcases h.primitives with ⟨hp, ho⟩ | ⟨-, ho⟩
  · rw [ho] at hn
    split at hn
    · rename_i he
      obtain ⟨d, hd, hlt⟩ := PolynomialOrder.annihilatedBy_iff.1 hn
      cases hd
      exact ⟨hlt, h.sound, hp, he, ho.trans (if_pos he)⟩
    · nomatch hn
  · rw [ho] at hn
    nomatch hn

/-- A leaf of the library is linear if it reports linear order. -/
theorem Standard.isLinear (h : l.Standard) (ho : l.order = .linear) : l.IsLinear := by
  have hann : l.order.annihilatedBy 2 = true := ho ▸ rfl
  exact (h.kind.linear_of_annihilated hann).2

/-- Above the order that a leaf of the library reports, its derivatives are zero. -/
theorem Kind.vanishesAboveOrder (h : l.Kind) : l.VanishesAboveOrder := by
  intro r D _ hann hD
  obtain ⟨htwo, hlinear⟩ := h.linear_of_annihilated hann
  have hzero {m : Mat K} (hm : m = Interpolation.noCurvature l.toLeafData) (k i j : ℕ) :
      (Derivative.matrix m).entry k i j = 0 := by
    rw [hm]
    exact Form.entry_zero (.matrix l.correctionSize l.correctionSize) k i j
  have hflat (i j : ℕ) : Interpolation.Flat l.toLeafData i j :=
    Or.inr hlinear.euclidean
  -- Only linear leaves are annihilated at all, and they by two coefficients.
  obtain ⟨site, ⟨s, c⟩, along⟩ := r
  rcases c with _ | c | ⟨c₁, c₂⟩
  case none => exact absurd (show 2 ≤ 0 from htwo) (by decide)
  case single => exact absurd (show 2 ≤ 1 from htwo) (by decide)
  case two =>
    rw [answer, hlinear.primitives] at hD
    rcases s with _ | k | _ <;> obtain ⟨W, -, hD⟩ := bind_eq_ok_iff.1 hD <;>
      obtain ⟨m, hm, hD⟩ := bind_eq_ok_iff.1 hD <;> rw [pure_eq_ok_iff] at hD <;> subst hD <;>
      exact hzero (pure_eq_ok_iff.1 ((if_pos (hflat _ _)).symm.trans hm)).symm

end Leaf

namespace ElementField

variable [Scalar K]

def square (x y : K) : ElementField K where
  leaves := #[.onSegment ⟨0⟩ x y]
  nodes := #[.leaf 0, .binary .dot 0 0]
  root := 1
  top :=
    let u : Entry K := .leaf 0 (Leaf.onSegment ⟨0⟩ x y).signature
    .binary .dot 0 0 u u
  slots := [0]
  blocks := [{ block := ⟨0⟩, correctionSize := 1, numCoefficients := 2 }]

theorem built_square (x y : K) : (square x y).Built :=
  .build (Builder.reachable_after [.leaf (.onSegment ⟨0⟩ x y), .normSquared 0])
    (build_eq_of_sorted rfl ⟨rfl, rfl⟩ rfl (List.pairwise_singleton _ _) rfl
      (List.pairwise_singleton _ _))

def length (x y : K) : ElementField K :=
  { square x y with
    nodes := #[.leaf 0, .binary .dot 0 0, .unary (.map .sqrt) 1]
    root := 2
    top := .unary (.map .sqrt) 1 (square x y).top }

theorem built_length (x y : K) : (length x y).Built :=
  .build (Builder.reachable_after [.leaf (.onSegment ⟨0⟩ x y), .normSquared 0, .map .sqrt 1])
    (build_eq_of_sorted rfl ⟨rfl, rfl⟩ rfl (List.pairwise_singleton _ _) rfl
      (List.pairwise_singleton _ _))

theorem standard_of_mem_square {x y : K} {l : Leaf K} (h : l ∈ (square x y).reachableLeaves) :
    l.Standard := by
  have hmem : l ∈ [Leaf.onSegment ⟨0⟩ x y] := h
  exact List.mem_singleton.1 hmem ▸ Leaf.standard_onSegment ⟨0⟩ x y

end ElementField

end ElementFields
