import ElementFields.Proofs.FieldSideBySide
import ElementFields.Proofs.Inverses
import ElementFields.Proofs.NormalizedLeaf
import ElementFields.Proofs.RealScalar
import ElementFields.Proofs.Routing
import Mathlib.Tactic.IntervalCases

/-! Spatial derivatives in the frame of the reference element and in that of the grid element. The
inverse of the Jacobian enters a field only through the gradients of the shape functions, where the
Jacobian undoes it. -/
namespace ElementFields
open Scalar
open scoped BigOperators

variable {K : Type} [ExactScalar K]

/-- The gradients in the frame of the grid element exist where those on the reference element do, and
the Jacobian combines the latter from them. -/
theorem CachedShapes.Sound.exists_gradientsIn {s : CachedShapes K} (hs : s.Sound) {g : Geometry K}
    {p : EvaluationPoint K} {ξ : Vec K} {Jt m : Mat K} (hξ : s.position p = .ok ξ)
    (hJt : g.jacobianTransposed ξ = .ok Jt) (hinv : Jt.Invertible) (hrows : Jt.rows = s.dim)
    (hm : s.gradientsAt p = .ok m) :
    ∃ m', s.gradientsIn (some g) ⟨p, .gridElement⟩ = .ok m' ∧
      (m'.rows = s.dim ∧ m'.cols = m.cols) ∧
      ∀ k < s.dim, ∀ j, Combines s.dim (Jt.entry k) (m.entry k j) fun i => m'.entry i j := by
  obtain ⟨N, hN, hNrows, hNcols, hcancel⟩ := hinv.exists_inverse?
  have hmrows := (hs.shape_gradientsAt hm).1
  rw [hrows] at hNrows hNcols hcancel
  obtain ⟨m', hm'⟩ := Mat.exists_mul (a := N) (b := m) (hNcols.trans hmrows.symm)
  obtain ⟨-, hshape, hentry⟩ := Mat.mul_eq_ok hm'
  refine ⟨m', ?_, ⟨hshape.1.trans hNrows, hshape.2⟩, fun k hk j => ?_⟩
  · have hinverse : (if Jt.rows = Jt.cols then do
        let inverse ← Outcome.ofOption .singularJacobian Jt.inverse?
        inverse.mul m
      else .refuse (.nonSquareJacobian Jt.rows Jt.cols) : Outcome (Mat K)) = .ok m' := by
      rw [if_pos hinv.1, hN]
      exact lift_eq_ok_iff.2 hm'
    exact bind_eq_ok_iff.2 ⟨m, hm, bind_eq_ok_iff.2 ⟨g, rfl, bind_eq_ok_iff.2 ⟨ξ, hξ,
      bind_eq_ok_iff.2 ⟨Jt, lift_eq_ok_iff.2 hJt, hinverse⟩⟩⟩⟩
  · -- The Jacobian times its inverse leaves the gradients as they are.
    rw [Combines]
    symm
    calc ∑ i ∈ Finset.range s.dim, Jt.entry k i * m'.entry i j
        = ∑ i ∈ Finset.range s.dim, ∑ q ∈ Finset.range s.dim,
            Jt.entry k i * N.entry i q * m.entry q j := by
          refine Finset.sum_congr rfl fun i _ => ?_
          rw [hentry, hNcols, Finset.mul_sum]
          exact Finset.sum_congr rfl fun q _ => (mul_assoc _ _ _).symm
      _ = ∑ q ∈ Finset.range s.dim, delta k q * m.entry q j := by
          rw [Finset.sum_comm]
          refine Finset.sum_congr rfl fun q hq => ?_
          rw [← Finset.sum_mul, hcancel k hk q (Finset.mem_range.mp hq)]
      _ = m.entry k j := sum_delta_mul hk fun q => m.entry q j

theorem CachedShapes.gradientsIn_reference (s : CachedShapes K) (geometry : Option (Geometry K))
    (p : EvaluationPoint K) :
    s.gradientsIn geometry ⟨p, .referenceElement⟩ = s.gradientsAt p := bind_pure _

/-- The two frames at a point, where only the axes of the element stand against each other. Nothing is
said of numbers, so the comparison is one of success. -/
def Comparison.frames (p : EvaluationPoint K) (G : ℕ) : Comparison K where
  left := { point := p, transform := .referenceElement }
  right := { point := p, transform := .gridElement }
  axis k m := k < G ↔ m < G
  axis_self _ := Iff.rfl
  number _ _ := True
  respected := Scalar.respected_true
  failure _ _ := True
  failure_self _ := trivial
  lenient := False

namespace LeafData

variable {l : LeafData K} {p : EvaluationPoint K} {Jt : Mat K}

structure MappedAt (l : LeafData K) (p : EvaluationPoint K) (Jt : Mat K) : Prop where
  jacobian : ∃ g ξ, l.geometry = some g ∧ l.shapes.position p = .ok ξ ∧
    g.jacobianTransposed ξ = .ok Jt
  invertible : Jt.Invertible
  rows : Jt.rows = l.gridDim

theorem MappedAt.exists_gradientsIn (h : l.MappedAt p Jt) (hs : l.shapes.Sound) {m : Mat K}
    (hm : l.shapes.gradientsAt p = .ok m) :
    ∃ m', l.gradientsIn ⟨p, .gridElement⟩ = .ok m' ∧ (m'.rows = l.gridDim ∧ m'.cols = m.cols) ∧
      ∀ k < l.gridDim, ∀ j, Combines l.gridDim (Jt.entry k) (m.entry k j) fun i => m'.entry i j := by
  obtain ⟨g, ξ, hg, hξ, hJt⟩ := h.jacobian
  obtain ⟨m', hm', hall⟩ := hs.exists_gradientsIn hξ hJt h.invertible h.rows hm
  refine ⟨m', ?_, hall⟩
  rw [gradientsIn, hg]
  exact hm'

/-- The gradients turn by the Jacobian. -/
theorem MappedAt.combines (h : l.MappedAt p Jt) (hs : l.shapes.Sound) :
    ∀ k < l.gridDim, ∀ j, Combines l.gridDim (Jt.entry k)
      (l.gradientEntry ⟨p, .referenceElement⟩ k j)
      fun i => l.gradientEntry ⟨p, .gridElement⟩ i j := by
  intro k hk j
  cases hm : l.shapes.gradientsAt p with
  | error e =>
    have hleft : l.gradientsIn ⟨p, .referenceElement⟩ = .error e := by
      rw [gradientsIn, CachedShapes.gradientsIn_reference, hm]
    have hright : l.gradientsIn ⟨p, .gridElement⟩ = .error e := by
      rw [gradientsIn, CachedShapes.gradientsIn, hm]
      rfl
    simp only [gradientEntry, hleft, hright]
    exact .zero
  | ok m =>
    obtain ⟨m', hm', -, hall⟩ := h.exists_gradientsIn hs hm
    have hleft : l.gradientsIn ⟨p, .referenceElement⟩ = .ok m := by
      rw [gradientsIn, CachedShapes.gradientsIn_reference, hm]
    simp only [gradientEntry, hleft, hm']
    exact hall k hk j

/-- The shape functions exist in both frames or in none. -/
theorem MappedAt.alike (h : l.MappedAt p Jt) (hs : l.shapes.Sound) :
    l.Alike (.frames p l.gridDim) := by
  refine ⟨Paired.refl (fun v => .refl Scalar.respected_true v) _, ?_⟩
  show Paired _ _ (l.gradientsIn ⟨p, .referenceElement⟩) (l.gradientsIn ⟨p, .gridElement⟩)
  rw [gradientsIn, CachedShapes.gradientsIn_reference]
  cases hm : l.shapes.gradientsAt p with
  | error e =>
    rw [gradientsIn, CachedShapes.gradientsIn, hm]
    exact Paired.refused trivial
  | ok m =>
    obtain ⟨m', hm', ⟨hrows, hcols⟩, -⟩ := h.exists_gradientsIn hs hm
    have hmrows : m.rows = l.gridDim := (hs.shape_gradientsAt hm).1
    rw [hm']
    refine ⟨hcols.symm, fun k k' hk => ?_, fun _ _ _ _ => trivial⟩
    rw [hrows, hmrows]
    exact hk

end LeafData

/-- Outside of their form there is nothing to compare. -/
theorem Derivative.combines_of_hasForm {F : Form} {n : ℕ} {w : ℕ → K} {D : Derivative K}
    {D' : ℕ → Derivative K} (hD : D.HasForm F) (hD' : ∀ m < n, (D' m).HasForm F)
    (h : ∀ i < F.rows, ∀ j < F.cols,
      Combines n w (D.entry 0 i j) fun m => (D' m).entry 0 i j) (i j : ℕ) :
    Combines n w (D.entry 0 i j) fun m => (D' m).entry 0 i j := by
  by_cases hin : i < F.rows ∧ j < F.cols
  · exact h i hin.1 j hin.2
  · rw [hD.entry_eq_zero fun hij => hin hij.2]
    exact Combines.zero.congr fun m hm => (hD' m hm).entry_eq_zero fun hij => hin hij.2

omit [ExactScalar K] in
/-- Along one axis an answer is a single matrix, of a shape that does not depend on the axis. -/
theorem Derivative.exists_matrix_single (V G : ℕ) (C : BlockId → ℕ) (c : CoefficientPart) :
    ∃ shape : ℕ × ℕ, ∀ m (D : Derivative K),
      D.HasForm (Directions.form V G C ⟨some (.single m), c⟩) →
        ∃ M, D = .matrix M ∧ M.shape = shape := by
  obtain ⟨rows, cols, hform⟩ : ∃ rows cols, ∀ m,
      Directions.form V G C ⟨some (.single m), c⟩ = .matrix rows cols := by
    cases c <;> exact ⟨_, _, fun _ => rfl⟩
  refine ⟨(rows, cols), fun m D hD => ?_⟩
  rw [hform] at hD
  obtain ⟨M, hM, hrows, hcols⟩ := hD.exists_matrix
  exact ⟨M, hM, Prod.ext hrows hcols⟩

namespace Partials.TurnsTo

variable {T T' : Partials K} {V G : ℕ} {C : BlockId → ℕ} {J : ℕ → ℕ → K} {site site' : Site K}
  (hT : T.TurnsTo G J T')
include hT

/-- An answer along one axis combines those along the axes of the other frame, entry by entry. -/
theorem combines_single {c : CoefficientPart} {along : Option (Mat K)} {k : ℕ} (hk : k < G)
    (hfit : Request.Fits V G ⟨site, ⟨some (.single k), c⟩, along⟩) {D : Derivative K}
    {D' : ℕ → Derivative K} (h : T.ReadBy V G C ⟨site, ⟨some (.single k), c⟩, along⟩ D)
    (h' : ∀ m < G, T'.ReadBy V G C ⟨site', ⟨some (.single m), c⟩, along⟩ (D' m)) (i j : ℕ) :
    Combines G (J k) (D.entry 0 i j) fun m => (D' m).entry 0 i j := by
  obtain ⟨hform, hread⟩ := h
  have hform' := fun m hm => (h' m hm).1
  have hread' := fun m hm => (h' m hm).2
  cases c with
  | none =>
    refine Derivative.combines_of_hasForm hform hform' (fun i hi j hj => ?_) i j
    obtain rfl := Nat.lt_one_iff.1 hj
    rw [hread i hi 0 Nat.zero_lt_one]
    exact (hT.slope k hk i).congr fun m hm => hread' m hm i hi 0 Nat.zero_lt_one
  | single c =>
    refine Derivative.combines_of_hasForm hform hform' (fun i hi a ha => ?_) i j
    rw [hread 0 Nat.zero_lt_one i hi a ha]
    exact (hT.mixed k hk ⟨c, a⟩ i).congr fun m hm => hread' m hm 0 Nat.zero_lt_one i hi a ha
  | two c₁ c₂ =>
    refine Derivative.combines_of_hasForm hform hform' (fun a ha b hb => ?_) i j
    obtain ⟨W, hW, -⟩ := hfit c₁ c₂ rfl
    have hall : Combines G (J k)
        (∑ i ∈ Finset.range V, W.entry i 0 * T.thrice k ⟨c₁, a⟩ ⟨c₂, b⟩ i)
        fun m => ∑ i ∈ Finset.range V, W.entry i 0 * T'.thrice m ⟨c₁, a⟩ ⟨c₂, b⟩ i :=
      .sum fun i _ => (hT.thrice k hk ⟨c₁, a⟩ ⟨c₂, b⟩ i).mul_left (W.entry i 0)
    rw [(hread W hW a ha b hb).trans (Finset.sum_range_one _)]
    exact hall.congr fun m hm => (hread' m hm W hW a ha b hb).trans (Finset.sum_range_one _)

/-- The derivatives along all axes are those of the other frame times the Jacobian. -/
theorem mul_all {along : Option (Mat K)} {D D' : Derivative K}
    (h : T.ReadBy V G C ⟨site, ⟨some .all, .none⟩, along⟩ D)
    (h' : T'.ReadBy V G C ⟨site', ⟨some .all, .none⟩, along⟩ D') {N : Mat K} (hrows : N.rows = G)
    (hcols : N.cols = G) (hN : ∀ m k, N.entry m k = J k m) :
    ∃ M M', D = .matrix M ∧ D' = .matrix M' ∧ M'.mul N = .ok M := by
  obtain ⟨M, rfl, hMrows, hMcols⟩ := h.1.exists_matrix
  obtain ⟨M', rfl, hMrows', hMcols'⟩ := h'.1.exists_matrix
  have hMcols : M.cols = G := hMcols
  have hMcols' : M'.cols = G := hMcols'
  have hread : ∀ i < V, ∀ k < G, M.entry i k = T.slope k i := h.2
  have hread' : ∀ i < V, ∀ k < G, M'.entry i k = T'.slope k i := h'.2
  refine ⟨M, M', rfl, rfl, Mat.mul_eq_of_entry (hMcols'.trans hrows.symm)
    ⟨hMrows.trans hMrows'.symm, hMcols.trans hcols.symm⟩ fun i hi k hk => ?_⟩
  have hi : i < V := hMrows' ▸ hi
  have hk : k < G := hcols ▸ hk
  rw [hread i hi k hk, hT.slope k hk i, hMcols']
  refine Finset.sum_congr rfl fun m hm => ?_
  rw [hN, hread' i hi m (Finset.mem_range.mp hm), mul_comm]

/-- A derivative with respect to two coefficients along all axes is the one of the other frame,
contracted with what the Jacobian makes of the matrix. -/
theorem eq_of_all {c₁ c₂ : Coefficient} {W W' N : Mat K} {D D' : Derivative K}
    (h : T.ReadBy V G C ⟨site, ⟨some .all, .two c₁ c₂⟩, some W⟩ D)
    (h' : T'.ReadBy V G C ⟨site', ⟨some .all, .two c₁ c₂⟩, some W'⟩ D')
    (hN : ∀ k m, N.entry k m = J k m) (hcols : W.cols = G) (hW : W.mul N = .ok W') : D = D' := by
  obtain ⟨-, -, hentry⟩ := Mat.mul_eq_ok hW
  refine Derivative.ext_of_hasForm h.1 h'.1
    (Derivative.entry_congr h.1 h'.1 fun z a b hz ha hb => ?_)
  obtain rfl : z = 0 := Nat.lt_one_iff.1 hz
  have hread := h.2 W rfl a ha b hb
  have hread' := h'.2 W' rfl a ha b hb
  rw [hread, hread']
  -- Both are sums over two axes; the first one has the axis of its own frame outside.
  calc ∑ k ∈ Finset.range G, ∑ i ∈ Finset.range V, W.entry i k * T.thrice k ⟨c₁, a⟩ ⟨c₂, b⟩ i
      = ∑ k ∈ Finset.range G, ∑ m ∈ Finset.range G, ∑ i ∈ Finset.range V,
          W.entry i k * J k m * T'.thrice m ⟨c₁, a⟩ ⟨c₂, b⟩ i := by
        refine Finset.sum_congr rfl fun k hk => ?_
        rw [Finset.sum_comm]
        refine Finset.sum_congr rfl fun i _ => ?_
        rw [hT.thrice k (Finset.mem_range.mp hk), Finset.mul_sum]
        exact Finset.sum_congr rfl fun m _ => (mul_assoc _ _ _).symm
    _ = ∑ m ∈ Finset.range G, ∑ i ∈ Finset.range V,
          W'.entry i m * T'.thrice m ⟨c₁, a⟩ ⟨c₂, b⟩ i := by
        rw [Finset.sum_comm]
        refine Finset.sum_congr rfl fun m _ => ?_
        rw [Finset.sum_comm]
        refine Finset.sum_congr rfl fun i _ => ?_
        rw [hentry, hcols, Finset.sum_mul]
        exact Finset.sum_congr rfl fun k _ => by rw [hN]

end Partials.TurnsTo

namespace ElementField

variable {f : ElementField K} {g : Geometry K} {p : EvaluationPoint K} {Jt : Mat K}

/-- All leaves of the field carry the same geometry, of the dimension of the element, and where they
place the point its transposed Jacobian is `Jt`, which has an inverse. -/
structure MappedAt (f : ElementField K) (g : Geometry K) (p : EvaluationPoint K) (Jt : Mat K) :
    Prop where
  geometry : ∀ l ∈ f.reachableLeaves, l.geometry = some g
  referenceDim : g.referenceDim = f.gridDim
  jacobian : ∀ l ∈ f.reachableLeaves, ∃ ξ, l.shapes.position p = .ok ξ ∧
    g.jacobianTransposed ξ = .ok Jt
  rows : Jt.rows = g.referenceDim
  invertible : Jt.Invertible

theorem MappedAt.rows_eq (h : f.MappedAt g p Jt) : Jt.rows = f.gridDim :=
  h.rows.trans h.referenceDim

theorem MappedAt.cols_eq (h : f.MappedAt g p Jt) : Jt.cols = f.gridDim :=
  h.invertible.1.symm.trans h.rows_eq

theorem MappedAt.leaf (h : f.MappedAt g p Jt) {slot : ℕ} {signature : LeafSignature} {l : Leaf K}
    (hl : f.HostsLeaf slot signature l) : l.toLeafData.MappedAt p Jt := by
  obtain ⟨ξ, hξ, hJt⟩ := h.jacobian l hl.mem
  exact ⟨⟨g, ξ, h.geometry l hl.mem, hξ, hJt⟩, h.invertible, h.rows_eq.trans hl.gridDim.symm⟩

/-- The field answers in both frames or in none. -/
theorem operand_alike_frames (hf : f.Built) (hfree : f.expr.StrainFree)
    (hleaf : ∀ l ∈ f.reachableLeaves, l.Standard) (h : f.MappedAt g p Jt) :
    (f.operand f.expr).Alike (.frames p f.gridDim) (f.operand f.expr) := by
  refine operand_alike ⟨fun _ _ _ => trivial, fun _ _ _ _ => trivial⟩ ?_ ?_
  · intro slot hs l hget
    obtain ⟨signature, l', hl⟩ := hf.hosts.exists_leaf hs
    obtain rfl := Option.some.inj (hget.symm.trans hl.get)
    have hstandard := hleaf l hl.mem
    have halike := (h.leaf hl).alike hstandard.kind.sound
    rw [hl.gridDim] at halike
    exact hstandard.ofLibrary.alike halike
  · exact fun a ha => (hfree.part ha).elim

/-- The leaves answer from tables that turn by the Jacobian. -/
theorem exists_turning (hleaf : ∀ l ∈ f.reachableLeaves, l.Standard) (h : f.MappedAt g p Jt) :
    ∃ T T' : ℕ → Partials K,
      (∀ e : Expr K, f.LeavesRead ⟨p, .referenceElement⟩ T e ∧
        f.LeavesRead ⟨p, .gridElement⟩ T' e) ∧
      ∀ slot, (T slot).TurnsTo f.gridDim Jt.entry (T' slot) := by
  have hslot (slot : ℕ) : ∃ T T' : Partials K,
      (∀ signature l, f.HostsLeaf slot signature l →
        l.Reads ⟨p, .referenceElement⟩ T ∧ l.Reads ⟨p, .gridElement⟩ T') ∧
      T.TurnsTo f.gridDim Jt.entry T' := by
    -- At a slot without a leaf any tables will do.
    by_cases hhosts : ∃ signature l, f.HostsLeaf slot signature l
    · obtain ⟨signature, l, hl⟩ := hhosts
      have hkind := (hleaf l hl.mem).kind
      have hJ := (h.leaf hl).combines hkind.sound
      rw [show l.toLeafData.gridDim = f.gridDim from hl.gridDim] at hJ
      have hvalues : l.valuesAt ⟨p, .gridElement⟩ = l.valuesAt ⟨p, .referenceElement⟩ := rfl
      obtain ⟨T, T', hT, hT', hturns⟩ := hkind.exists_turning
        (fun v hv => LeafData.entry_valuesAt hv) (fun m hm => LeafData.entry_gradientsIn hm)
        (fun v hv => LeafData.entry_valuesAt (hvalues ▸ hv))
        (fun m hm => LeafData.entry_gradientsIn hm) hJ
      refine ⟨T, T', fun signature' l' hl' => ?_, hturns⟩
      obtain rfl := Option.some.inj (hl.get.symm.trans hl'.get)
      exact ⟨hT, hT'⟩
    · exact ⟨.const 0, .const 0, fun signature l hl => absurd ⟨signature, l, hl⟩ hhosts,
        Partials.turnsTo_const 0⟩
  choose T T' hT hturns using hslot
  exact ⟨T, T', fun e => ⟨fun slot signature l _ hl => (hT slot signature l hl).1,
    fun slot signature l _ hl => (hT slot signature l hl).2⟩, hturns⟩

end ElementField

namespace Geometry

/-- The triangle with the corners (-1, -1), (1, -1) and (1, 1). -/
def sheared : Geometry K where
  element := .triangle
  vertices := .ofFn 2 3 fun i j => if j ≤ i then -1 else 1

/-- The transposed Jacobian of the sheared triangle, which is not symmetric. -/
def shear : Mat K := .ofFn 2 2 fun k m => if m ≤ k then 1 else 0

theorem jacobianTransposed_sheared (ξ : Vec K) :
    (sheared : Geometry K).jacobianTransposed ξ = .ok shear := by
  have h : (simplexGradients 2 : Mat K).mul (sheared : Geometry K).vertices.transpose =
      .ok shear := by
    refine Mat.mul_eq_of_entry rfl ⟨rfl, rfl⟩ fun k hk m hm => ?_
    have hk : k < 2 := hk
    have hm : m < 2 := hm
    show _ = ∑ j ∈ Finset.range 3, _
    simp only [Finset.sum_range_succ, Finset.sum_range_zero, Mat.entry_transpose,
      simplexGradients, sheared, shear, Mat.entry_ofFn_eq_ite]
    interval_cases k <;> interval_cases m <;> norm_num
  exact h

theorem invertible_shear : (shear : Mat K).Invertible := by
  refine ⟨rfl, .ofFn 2 2 fun k m => if k = m then 1 else if m < k then -1 else 0, ?_⟩
  refine Mat.mul_eq_of_entry rfl ⟨rfl, rfl⟩ fun k hk m hm => ?_
  have hk : k < 2 := hk
  have hm : m < 2 := hm
  refine (Mat.entry_identity hk hm).trans ?_
  show _ = ∑ j ∈ Finset.range 2, _
  simp only [Finset.sum_range_succ, Finset.sum_range_zero, shear, Mat.entry_ofFn_eq_ite, delta]
  interval_cases k <;> interval_cases m <;> norm_num

end Geometry

namespace Leaf

def onSheared (M : Manifold) (hM : 2 = M.valueSize) (order : PolynomialOrder)
    (primitives : Primitives K) (block : BlockId) : Leaf K where
  block := block
  shapes := .unbound .triangle
  coefficients := { manifold := M, points := [⟨#[1, 0], hM⟩, ⟨#[0, 1], hM⟩, ⟨#[0, 1], hM⟩] }
  geometry := some .sheared
  order := order
  primitives := primitives

def placed (block : BlockId) : Leaf K := onSheared (.euclidean 2) rfl .linear .interpolation block

def directed (block : BlockId) : Leaf K :=
  onSheared (.sphere 2) rfl .nonlinear .normalization block

theorem standard_placed (block : BlockId) : (placed block : Leaf K).Standard := by
  have h : Leaf.interpolated .triangle (placed block : Leaf K).coefficients block =
      .ok { (placed block : Leaf K) with geometry := none } := rfl
  exact (Standard.interpolated h).withGeometry .sheared

theorem standard_directed (block : BlockId) : (directed block : Leaf K).Standard := by
  have h : Leaf.normalized .triangle (directed block : Leaf K).coefficients block =
      .ok { (directed block : Leaf K) with geometry := none } := rfl
  exact (Standard.normalized h).withGeometry .sheared

end Leaf

namespace ElementField

def projected : ElementField K where
  leaves := #[.placed ⟨0⟩, .directed ⟨1⟩]
  nodes := #[.leaf 0, .leaf 1, .binary .dot 0 1]
  root := 2
  top :=
    .binary .dot 0 1 (.leaf 0 (Leaf.placed ⟨0⟩ : Leaf K).signature)
      (.leaf 1 (Leaf.directed ⟨1⟩ : Leaf K).signature)
  slots := [0, 1]
  blocks := [{ block := ⟨0⟩, correctionSize := 2, numCoefficients := 3 },
    { block := ⟨1⟩, correctionSize := 1, numCoefficients := 3 }]

theorem built_projected : (projected : ElementField K).Built := by
  let leaves : Array (Leaf K) := #[.placed ⟨0⟩, .directed ⟨1⟩]
  let u : Entry K := .leaf 0 (Leaf.placed ⟨0⟩ : Leaf K).signature
  let d : Entry K := .leaf 1 (Leaf.directed ⟨1⟩ : Leaf K).signature
  have hdot : Builder.Reachable { leaves, entries := #[u, d, .binary .dot 0 1 u d] } :=
    (Builder.reachable_pair (.placed ⟨0⟩) (.directed ⟨1⟩)).step (.dot 0 1)
  exact .build hdot (build_eq_of_sorted rfl ⟨rfl, rfl⟩ rfl
    (List.pairwise_pair.2 (Nat.zero_le 1)) rfl (List.pairwise_pair.2 (Nat.zero_le 1)))

theorem forall_mem_projected : ∀ l ∈ (projected : ElementField K).reachableLeaves,
    l.Standard ∧ l.geometry = some .sheared ∧ l.shapes = .unbound .triangle := by
  intro l h
  have hmem : l ∈ [Leaf.placed ⟨0⟩, .directed ⟨1⟩] := h
  rcases List.mem_cons.1 hmem with rfl | hmem
  · exact ⟨Leaf.standard_placed ⟨0⟩, rfl, rfl⟩
  · obtain rfl := List.mem_singleton.1 hmem
    exact ⟨Leaf.standard_directed ⟨1⟩, rfl, rfl⟩

theorem mappedAt_projected :
    (projected : ElementField K).MappedAt .sheared (.position #[0, 0]) Geometry.shear where
  geometry l hl := (forall_mem_projected l hl).2.1
  referenceDim := rfl
  jacobian l hl := by
    refine ⟨#[0, 0], ?_, Geometry.jacobianTransposed_sheared #[0, 0]⟩
    rw [(forall_mem_projected l hl).2.2]
    rfl
  rows := rfl
  invertible := Geometry.invertible_shear

end ElementField

namespace ElementField

variable {f : ElementField K} {g : Geometry K} {p : EvaluationPoint K} {Jt : Mat K}

section Requests

variable {A : Comparison K} {r r' : Request K}

/-- What requests of one kind are contracted with has the same shape. -/
theorem fits_iff_of_like (h : r.Like A r') (V G : ℕ) : r.Fits V G ↔ r'.Fits V G := by
  obtain ⟨site, ⟨s, c⟩, along⟩ := r
  obtain ⟨site', ⟨s', c'⟩, along'⟩ := r'
  obtain rfl : c' = c := h.directed.coefficients
  have hall : s = some .all ↔ s' = some .all := by
    cases h.directed.spatial with
    | none => exact Iff.rfl
    | some hs =>
      cases hs with
      | single _ => exact iff_of_false (fun h => nomatch h) fun h => nomatch h
      | all => exact Iff.rfl
  refine forall₂_congr fun c₁ c₂ => imp_congr_right fun _ => ?_
  simp only [hall]
  cases h.along with
  | none => exact Iff.rfl
  | some hW =>
    simp only [Option.some.injEq, exists_eq_left', hW.rows, hW.cols]

/-- Which axes exist does not depend on the frame. -/
theorem admits_iff_of_directed {d d' : Directions}
    (h : (Comparison.frames p f.gridDim).Directed d d') : f.Admits d ↔ f.Admits d' := by
  obtain ⟨s, c⟩ := d
  obtain ⟨s', c'⟩ := d'
  obtain rfl : c' = c := h.coefficients
  refine and_congr_left fun _ => ?_
  cases h.spatial with
  | none => exact Iff.rfl
  | some hs =>
    cases hs with
    | all => exact Iff.rfl
    | single hk =>
      constructor
      · rintro hd k ⟨⟩
        exact hk.1 (hd _ rfl)
      · rintro hd k ⟨⟩
        exact hk.2 (hd _ rfl)

end Requests

theorem along_refl (along : Option (Mat K)) :
    Option.Rel (Mat.Like fun _ _ => True) along along := by
  cases along with
  | none => exact .none
  | some W => exact .some (.refl Scalar.respected_true W)

section Covariance

variable (hf : f.Built) (hfree : f.expr.StrainFree) (hleaf : ∀ l ∈ f.reachableLeaves, l.Standard)
  (h : f.MappedAt g p Jt)
include hf hfree hleaf

include h in
/-- A request is answered in both frames or in none. -/
theorem answers_iff_of_like {r r' : Request K} (hr : r.Like (.frames p f.gridDim) r') :
    (∃ D, f.evaluateRequest r = .ok D) ↔ ∃ D, f.evaluateRequest r' = .ok D := by
  have hderivative := (operand_alike_frames hf hfree hleaf h).derivative r r' hr
  simp only [evaluateRequest_eq_ok_iff, exists_and_left, admits_iff_of_directed hr.directed,
    fits_iff_of_like hr, hderivative.exists_ok_iff fun h => h]

/-- An answer is read off the table of the expression. -/
theorem readBy_of_evaluateRequest {r : Request K} {T : ℕ → Partials K}
    (hT : f.LeavesRead r.site T f.expr) {D : Derivative K} (hD : f.evaluateRequest r = .ok D) :
    (f.expr.partials T).ReadBy f.valueSize f.gridDim f.tangentDim r D :=
  Expr.table_eq_partials hfree ▸
    readBy_table hf (fun l hl => (hleaf l hl).kind.keepsShapes) hT hD

include h

/-- The field answers from two tables, one for each frame, and the one turns into the other. -/
theorem exists_tables : ∃ T T' : Partials K, T.TurnsTo f.gridDim Jt.entry T' ∧
    (∀ d along D, f.evaluateRequest ⟨⟨p, .referenceElement⟩, d, along⟩ = .ok D →
      T.ReadBy f.valueSize f.gridDim f.tangentDim ⟨⟨p, .referenceElement⟩, d, along⟩ D) ∧
    ∀ d along D, f.evaluateRequest ⟨⟨p, .gridElement⟩, d, along⟩ = .ok D →
      T'.ReadBy f.valueSize f.gridDim f.tangentDim ⟨⟨p, .gridElement⟩, d, along⟩ D := by
  obtain ⟨T, T', hT, hturns⟩ := exists_turning hleaf h
  refine ⟨f.expr.partials T, f.expr.partials T',
    Expr.turnsTo_partials (fun slot _ => hturns slot) hfree, fun d along D hD => ?_,
    fun d along D hD => ?_⟩
  · exact readBy_of_evaluateRequest hf hfree hleaf (hT f.expr).1 hD
  · exact readBy_of_evaluateRequest hf hfree hleaf (hT f.expr).2 hD

/-- If one of two requests that stand against each other is refused, so is the other. -/
theorem refused_of_like {r r' : Request K} (hr : r.Like (.frames p f.gridDim) r') {e : Failure}
    (he : f.evaluateRequest r = .error e) : ∃ e', f.evaluateRequest r' = .error e' := by
  cases hD : f.evaluateRequest r' with
  | error e' => exact ⟨e', rfl⟩
  | ok D =>
    obtain ⟨D', hD'⟩ := (answers_iff_of_like hf hfree hleaf h hr).2 ⟨D, hD⟩
    nomatch he.symm.trans hD'

/-- What the field answers on the reference element and on the grid element is read off two tables of
which one turns into the other, or both requests are refused. -/
theorem answers_turn {d d' : Directions} {along along' : Option (Mat K)}
    (hr : Request.Like (.frames p f.gridDim) ⟨⟨p, .referenceElement⟩, d, along⟩
      ⟨⟨p, .gridElement⟩, d', along'⟩) :
    (∃ D D', f.evaluateRequest ⟨⟨p, .referenceElement⟩, d, along⟩ = .ok D ∧
      f.evaluateRequest ⟨⟨p, .gridElement⟩, d', along'⟩ = .ok D' ∧
      ∃ T T' : Partials K, T.TurnsTo f.gridDim Jt.entry T' ∧
        T.ReadBy f.valueSize f.gridDim f.tangentDim ⟨⟨p, .referenceElement⟩, d, along⟩ D ∧
        T'.ReadBy f.valueSize f.gridDim f.tangentDim ⟨⟨p, .gridElement⟩, d', along'⟩ D') ∨
    (∃ e, f.evaluateRequest ⟨⟨p, .referenceElement⟩, d, along⟩ = .error e) ∧
      ∃ e, f.evaluateRequest ⟨⟨p, .gridElement⟩, d', along'⟩ = .error e := by
  cases hreference : f.evaluateRequest ⟨⟨p, .referenceElement⟩, d, along⟩ with
  | error e => exact .inr ⟨⟨e, rfl⟩, refused_of_like hf hfree hleaf h hr hreference⟩
  | ok D =>
    obtain ⟨D', hD'⟩ := (answers_iff_of_like hf hfree hleaf h hr).1 ⟨D, hreference⟩
    obtain ⟨T, T', hturns, hT, hT'⟩ := exists_tables hf hfree hleaf h
    exact .inl ⟨D, D', rfl, hD', T, T', hturns, hT d along D hreference, hT' d' along' D' hD'⟩

/-- An answer along an axis of the reference element combines those along the axes of the grid
element. -/
theorem axis_covariance {k : ℕ} (hk : k < f.gridDim) (c : CoefficientPart)
    (along : Option (Mat K)) :
    let answer (t : Transform) (m : ℕ) := f.evaluateRequest ⟨⟨p, t⟩, ⟨some (.single m), c⟩, along⟩
    (∃ (M : Mat K) (M' : ℕ → Mat K), answer .referenceElement k = .ok (.matrix M) ∧
      (∀ m < f.gridDim, answer .gridElement m = .ok (.matrix (M' m)) ∧ (M' m).shape = M.shape) ∧
      ∀ i j, M.entry i j = ∑ m ∈ Finset.range f.gridDim, Jt.entry k m * (M' m).entry i j) ∨
    (∃ e, answer .referenceElement k = .error e) ∧
      ∀ m < f.gridDim, ∃ e, answer .gridElement m = .error e := by
  intro answer
  have hlike (m : ℕ) (hm : m < f.gridDim) :
      Request.Like (.frames p f.gridDim) ⟨⟨p, .referenceElement⟩, ⟨some (.single k), c⟩, along⟩
        ⟨⟨p, .gridElement⟩, ⟨some (.single m), c⟩, along⟩ :=
    ⟨rfl, rfl, ⟨.some (.single (iff_of_true hk hm)), rfl⟩, along_refl along⟩
  cases hreference : answer .referenceElement k with
  | error e =>
    exact .inr ⟨⟨e, rfl⟩, fun m hm => refused_of_like hf hfree hleaf h (hlike m hm) hreference⟩
  | ok D =>
    have : Nonempty (Derivative K) := ⟨D⟩
    have hgrid (m : ℕ) (hm : m < f.gridDim) :=
      (answers_iff_of_like hf hfree hleaf h (hlike m hm)).1 ⟨D, hreference⟩
    choose! D' hD' using hgrid
    -- One pair of tables serves the answers along all axes.
    obtain ⟨T, T', hturns, hT, hT'⟩ := exists_tables hf hfree hleaf h
    have hread := hT _ _ D hreference
    have hread' := fun m hm => hT' _ _ (D' m) (hD' m hm)
    have hfits := (evaluateRequest_eq_ok_iff.1 hreference).1.2
    have hentry := hturns.combines_single hk hfits hread hread'
    obtain ⟨shape, hmatrix⟩ :=
      Derivative.exists_matrix_single (K := K) f.valueSize f.gridDim f.tangentDim c
    obtain ⟨M, rfl, hM⟩ := hmatrix k D hread.1
    have : Nonempty (Mat K) := ⟨M⟩
    have hmatrices (m : ℕ) (hm : m < f.gridDim) := hmatrix m (D' m) (hread' m hm).1
    choose! M' hM' using hmatrices
    refine .inl ⟨M, M', rfl, fun m hm => ?_, fun i j => ?_⟩
    · obtain ⟨hD, hshape⟩ := hM' m hm
      exact ⟨hD ▸ hD' m hm, hshape.trans hM.symm⟩
    · refine (hentry i j).congr fun m hm => ?_
      rw [(hM' m hm).1, Derivative.entry_matrix]

/-- The gradient on the reference element is the one on the grid element times the Jacobian. -/
theorem gradient_covariance (along : Option (Mat K)) :
    let answer (t : Transform) := f.evaluateRequest ⟨⟨p, t⟩, ⟨some .all, .none⟩, along⟩
    (∃ M M' : Mat K, answer .referenceElement = .ok (.matrix M) ∧
      answer .gridElement = .ok (.matrix M') ∧ M'.mul Jt.transpose = .ok M) ∨
    (∃ e, answer .referenceElement = .error e) ∧ ∃ e, answer .gridElement = .error e := by
  intro answer
  have hlike : Request.Like (.frames p f.gridDim)
      ⟨⟨p, .referenceElement⟩, ⟨some .all, .none⟩, along⟩
      ⟨⟨p, .gridElement⟩, ⟨some .all, .none⟩, along⟩ :=
    ⟨rfl, rfl, ⟨.some .all, rfl⟩, along_refl along⟩
  obtain ⟨D, D', hD, hD', T, T', hturns, hT, hT'⟩ | hrefused :=
    answers_turn hf hfree hleaf h hlike
  · obtain ⟨M, M', rfl, rfl, hmul⟩ := hturns.mul_all hT hT' h.cols_eq h.rows_eq
      fun m k => Mat.entry_transpose Jt m k
    exact .inl ⟨M, M', hD, hD', hmul⟩
  · exact .inr hrefused

/-- A second derivative in the coefficients, along all axes, is the same in both frames if what it is
contracted with is turned by the Jacobian. -/
theorem contracted_covariance (c₁ c₂ : Coefficient) {W W' : Mat K} (hW : W.mul Jt = .ok W') :
    let answer (t : Transform) (along : Mat K) :=
      f.evaluateRequest ⟨⟨p, t⟩, ⟨some .all, .two c₁ c₂⟩, some along⟩
    (∃ M : Mat K, answer .referenceElement W = .ok (.matrix M) ∧
      answer .gridElement W' = .ok (.matrix M)) ∨
    (∃ e, answer .referenceElement W = .error e) ∧ ∃ e, answer .gridElement W' = .error e := by
  intro answer
  obtain ⟨hcols, hshape, -⟩ := Mat.mul_eq_ok hW
  have hcols : W.cols = f.gridDim := hcols.trans h.rows_eq
  have hcols' : W'.cols = f.gridDim := hshape.2.trans h.cols_eq
  have hlike : Request.Like (.frames p f.gridDim)
      ⟨⟨p, .referenceElement⟩, ⟨some .all, .two c₁ c₂⟩, some W⟩
      ⟨⟨p, .gridElement⟩, ⟨some .all, .two c₁ c₂⟩, some W'⟩ :=
    ⟨rfl, rfl, ⟨.some .all, rfl⟩, .some ⟨hshape.1.symm, hcols.trans hcols'.symm, fun _ _ => trivial⟩⟩
  obtain ⟨D, D', hD, hD', T, T', hturns, hT, hT'⟩ | hrefused :=
    answers_turn hf hfree hleaf h hlike
  · obtain rfl := hturns.eq_of_all hT hT' (fun _ _ => rfl) hcols hW
    obtain ⟨M, rfl, -⟩ := hT.1.exists_matrix
    exact .inl ⟨M, hD, hD'⟩
  · exact .inr hrefused

end Covariance

/-- Covariance of all derivatives in space. Let `J` be the Jacobian of the geometry at the point, with
the derivatives of the world coordinates along reference coordinate `k` in column `k`. Then what a field
without strains answers along axis `k` of the reference element combines, with the weights in that
column, what it answers along the axes of the grid element; its gradient on the reference element is
the one on the grid element times `J`; and a derivative along all axes with respect to two
coefficients, contracted with `W`, is the one on the grid element contracted with `W Jᵀ`. Where one of
the two is refused, so is the other. -/
theorem transform_covariance (hf : f.Built) (hfree : f.expr.StrainFree)
    (hleaf : ∀ l ∈ f.reachableLeaves, l.Standard) (h : f.MappedAt g p Jt) :
    let J := Jt.transpose
    let G := f.gridDim
    let answer (t : Transform) (s : SpatialDirection) (c : CoefficientPart)
      (along : Option (Mat K)) := f.evaluateRequest ⟨⟨p, t⟩, ⟨some s, c⟩, along⟩
    (∀ k < G, ∀ c along,
      (∃ (M : Mat K) (M' : ℕ → Mat K), answer .referenceElement (.single k) c along = .ok (.matrix M) ∧
        (∀ m < G, answer .gridElement (.single m) c along = .ok (.matrix (M' m)) ∧
          (M' m).shape = M.shape) ∧
        ∀ i j, M.entry i j = ∑ m ∈ Finset.range G, J.entry m k * (M' m).entry i j) ∨
      (∃ e, answer .referenceElement (.single k) c along = .error e) ∧
        ∀ m < G, ∃ e, answer .gridElement (.single m) c along = .error e) ∧
    (∀ along,
      (∃ M M' : Mat K, answer .referenceElement .all .none along = .ok (.matrix M) ∧
        answer .gridElement .all .none along = .ok (.matrix M') ∧ M'.mul J = .ok M) ∨
      (∃ e, answer .referenceElement .all .none along = .error e) ∧
        ∃ e, answer .gridElement .all .none along = .error e) ∧
    ∀ c₁ c₂ W W', W.mul J.transpose = .ok W' →
      (∃ M : Mat K, answer .referenceElement .all (.two c₁ c₂) (some W) = .ok (.matrix M) ∧
        answer .gridElement .all (.two c₁ c₂) (some W') = .ok (.matrix M)) ∨
      (∃ e, answer .referenceElement .all (.two c₁ c₂) (some W) = .error e) ∧
        ∃ e, answer .gridElement .all (.two c₁ c₂) (some W') = .error e := by
  intro J G answer
  have hJ : J.transpose = Jt := by
    refine Mat.ext_entry rfl rfl fun i j _ _ => ?_
    rw [Mat.entry_transpose, Mat.entry_transpose]
  refine ⟨fun k hk c along => ?_, gradient_covariance hf hfree hleaf h, fun c₁ c₂ W W' hW => ?_⟩
  · simp only [J, Mat.entry_transpose]
    exact axis_covariance hf hfree hleaf h hk c along
  · rw [hJ] at hW
    exact contracted_covariance hf hfree hleaf h c₁ c₂ hW

/-- The projected displacement on the sheared triangle: its gradient, and the derivative with respect
to a coefficient of the displacement and one of the director. -/
theorem transform_covariance_projected :
    let f : ElementField ℝ := projected
    let p : EvaluationPoint ℝ := .position #[0, 0]
    let J : Mat ℝ := Geometry.shear.transpose
    let c : CoefficientPart := .two ⟨⟨0⟩, 1⟩ ⟨⟨1⟩, 2⟩
    let W : Mat ℝ := .ofFn 1 2 fun _ k => if k = 0 then 1 else 2
    let answer (t : Transform) (c : CoefficientPart) (along : Option (Mat ℝ)) :=
      f.evaluateRequest ⟨⟨p, t⟩, ⟨some .all, c⟩, along⟩
    (f.Built ∧ f.expr.StrainFree ∧ (∀ l ∈ f.reachableLeaves, l.Standard) ∧
      f.MappedAt .sheared p Geometry.shear) ∧
    (∃ M M' : Mat ℝ, answer .referenceElement .none none = .ok (.matrix M) ∧
      answer .gridElement .none none = .ok (.matrix M') ∧ M'.mul J = .ok M) ∧
    ∃ W' M : Mat ℝ, W.mul J.transpose = .ok W' ∧
      answer .referenceElement c (some W) = .ok (.matrix M) ∧
      answer .gridElement c (some W') = .ok (.matrix M) := by
  intro f p J c W answer
  have hf : f.Built := built_projected
  have hfree : f.expr.StrainFree := ⟨trivial, trivial⟩
  have hleaf : ∀ l ∈ f.reachableLeaves, l.Standard := fun l hl => (forall_mem_projected l hl).1
  have hmapped : f.MappedAt .sheared p Geometry.shear := mappedAt_projected
  obtain ⟨W', hW⟩ := Mat.exists_mul (a := W) (b := J.transpose) rfl
  obtain ⟨-, hgradient, hcontracted⟩ := transform_covariance hf hfree hleaf hmapped
  refine ⟨⟨hf, hfree, hleaf, hmapped⟩, ?_, W', ?_⟩
  · obtain hM | ⟨⟨e, he⟩, -⟩ := hgradient none
    · exact hM
    · obtain ⟨D, hD⟩ : ∃ D, answer .referenceElement .none none = .ok D := ⟨_, rfl⟩
      nomatch he.symm.trans hD
  · obtain ⟨M, hM⟩ | ⟨⟨e, he⟩, -⟩ := hcontracted ⟨⟨0⟩, 1⟩ ⟨⟨1⟩, 2⟩ W W' hW
    · exact ⟨M, hW, hM⟩
    · obtain ⟨D, hD⟩ : ∃ D, answer .referenceElement c (some W) = .ok D := ⟨_, rfl⟩
      nomatch he.symm.trans hD

end ElementField

end ElementFields
