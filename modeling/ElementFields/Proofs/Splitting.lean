import ElementFields.Proofs.EuclideanLeaf
import ElementFields.Proofs.Renaming
import ElementFields.Proofs.Substitution

namespace ElementFields
open Scalar
open scoped BigOperators

variable {K : Type}

section Leaves

variable [ExactScalar K]

/-- The frame of a Euclidean coefficient does not depend on where it lies. -/
theorem Coefficients.frame_of_isEuclidean {c : Coefficients K}
    (he : c.manifold.isEuclidean = true) (i : ℕ) :
    c.frame i = if i < c.size then .ok (.identity c.valueSize) else .error .misfit := by
  obtain ⟨M, points⟩ := c
  cases M with
  | sphere dim => nomatch he
  | euclidean dim =>
    by_cases hi : i < points.length
    · have hget : points[i]? = some points[i] := List.getElem?_eq_getElem hi
      simp only [frame, point, hget, size, hi]
      rfl
    · have hget : points[i]? = none := List.getElem?_eq_none (Nat.le_of_not_lt hi)
      simp only [frame, point, hget, size, hi]
      rfl

namespace Leaf

/-- Another linear leaf with the same shape functions, the same geometry and as many coefficients in
the same space. -/
structure Parallel (l l' : Leaf K) : Prop where
  isLinear : l'.IsLinear
  shapes : l'.shapes = l.shapes
  geometry : l'.geometry = l.geometry
  manifold : l'.coefficients.manifold = l.coefficients.manifold
  size : l'.coefficients.size = l.coefficients.size

namespace Parallel

variable {l l' : Leaf K} (h : l.Parallel l')
include h

theorem valueSize : l'.valueSize = l.valueSize := congrArg Manifold.valueSize h.manifold

theorem correctionSize : l'.correctionSize = l.correctionSize :=
  congrArg Manifold.correctionSize h.manifold

theorem gridDim : l'.gridDim = l.gridDim := congrArg CachedShapes.dim h.shapes

theorem numCoefficients : l'.numCoefficients = l.numCoefficients := h.size

theorem valuesAt (site : Site K) : l'.valuesAt site = l.valuesAt site := by
  rw [LeafData.valuesAt, LeafData.valuesAt, h.shapes]

theorem gradientsIn (site : Site K) : l'.gradientsIn site = l.gradientsIn site := by
  rw [LeafData.gradientsIn, LeafData.gradientsIn, h.shapes, h.geometry]

theorem frame (hl : l.IsLinear) (i : ℕ) : l'.coefficients.frame i = l.coefficients.frame i := by
  rw [Coefficients.frame_of_isEuclidean h.isLinear.euclidean,
    Coefficients.frame_of_isEuclidean hl.euclidean, h.size, Coefficients.valueSize, h.manifold]
  rfl

/-- The derivatives with respect to a coefficient are the same, as they do not depend on where the
coefficients lie. -/
theorem answer_single (hl : l.IsLinear) {r : Request K} {c : Coefficient}
    (hc : r.directions.coefficients = .single c) (σ : BlockId → BlockId) :
    l'.answer r = l.answer (r.renamed σ) := by
  obtain ⟨site, ⟨s, c'⟩, along⟩ := r
  obtain rfl : c' = .single c := hc
  have hcoefficient : Interpolation.coefficient l'.toLeafData site c.index =
      Interpolation.coefficient l.toLeafData site c.index := by
    simp only [Interpolation.coefficient, h.valuesAt, h.frame hl]
  have haxis (k : ℕ) : Interpolation.coefficientAxis l'.toLeafData site c.index k =
      Interpolation.coefficientAxis l.toLeafData site c.index k := by
    simp only [Interpolation.coefficientAxis, h.gradientsIn, h.frame hl]
  have hgradient : Interpolation.coefficientGradient l'.toLeafData site c.index =
      Interpolation.coefficientGradient l.toLeafData site c.index := by
    simp only [Interpolation.coefficientGradient, h.gradientsIn, h.frame hl]
  rcases s with _ | k | _ <;> rw [answer, answer, h.isLinear.primitives, hl.primitives]
  case none =>
    exact congrArg (fun x => (do return .matrix (← x) : Outcome (Derivative K))) hcoefficient
  case some.single =>
    exact congrArg (fun x => (do return .matrix (← x) : Outcome (Derivative K))) (haxis k)
  case some.all =>
    exact congrArg (fun x => (do return .perDirection (← x) : Outcome (Derivative K))) hgradient

end Parallel

/-- The leaf `l` is the sum of the leaves `l₁` and `l₂`: their coefficients add up to its own, and one
of them keeps its block. -/
structure SplitsInto (l l₁ l₂ : Leaf K) : Prop where
  isLinear : l.IsLinear
  left : l.Parallel l₁
  right : l.Parallel l₂
  sum : ∀ k i, l.coefficients.entry k i = l₁.coefficients.entry k i + l₂.coefficients.entry k i
  keeps : l.block = l₁.block ∨ l.block = l₂.block
  apart : l₁.block ≠ l₂.block

/-- The blocks of two summands are taken for the one of the leaf that they come from. -/
def merging (l l₁ l₂ : Leaf K) (block : BlockId) : BlockId :=
  if block = l₁.block ∨ block = l₂.block then l.block else block

namespace SplitsInto

variable {l l₁ l₂ : Leaf K} (h : l.SplitsInto l₁ l₂) {site : Site K}
include h

/-- The sum of the combinations of both summands with the same weights. -/
theorem add_combine (n : ℕ) (w : ℕ → K) :
    (Mat.column (l₁.coefficients.combine n w)).add (.column (l₂.coefficients.combine n w)) =
      .ok (.column (l.coefficients.combine n w)) := by
  have hentry {m : Leaf K} (hsize : m.coefficients.size = l.coefficients.size) {k : ℕ}
      (hk : k < m.coefficients.valueSize) : (m.coefficients.combine n w).entry k =
        ∑ i ∈ Finset.range (min n l.coefficients.size), w i * m.coefficients.entry k i := by
    rw [Coefficients.combine, Vec.entry_ofFn _ hk, sumTo_eq_sum, hsize]
  have hrows (m : Leaf K) : (Mat.column (m.coefficients.combine n w)).rows = m.valueSize :=
    Vec.size_ofFn _ _
  have hleft := (hrows l₁).trans h.left.valueSize
  have hright := (hrows l₂).trans h.right.valueSize
  refine Mat.add_eq_of_entry ⟨hright.trans hleft.symm, rfl⟩ ⟨(hrows l).trans hleft.symm, rfl⟩ ?_
  intro k hk j hj
  rw [hleft] at hk
  obtain rfl := Nat.lt_one_iff.1 hj
  rw [Mat.entry_column, Mat.entry_column, Mat.entry_column, hentry rfl hk,
    hentry h.left.size (hk.trans_eq h.left.valueSize.symm),
    hentry h.right.size (hk.trans_eq h.right.valueSize.symm), ← Finset.sum_add_distrib]
  refine Finset.sum_congr rfl fun i _ => ?_
  rw [h.sum, mul_add]

/-- The gradients of the summands for the same gradients of the shape functions: either they add up to
the gradient of the leaf, or the first of them fails as that does. -/
theorem mul_matrix_cases (g : Mat K) :
    (∃ x y m, l₁.coefficients.matrix.mul g = .ok x ∧ l₂.coefficients.matrix.mul g = .ok y ∧
      l.coefficients.matrix.mul g = .ok m ∧ x.add y = .ok m) ∨
    ∃ v, l₁.coefficients.matrix.mul g = .error v ∧ l.coefficients.matrix.mul g = .error v := by
  have hcols {m : Leaf K} (hm : l.Parallel m) :
      m.coefficients.matrix.cols = l.coefficients.matrix.cols := hm.size
  by_cases hg : l.coefficients.matrix.cols = g.rows
  · left
    obtain ⟨x, hx⟩ := Mat.exists_mul ((hcols h.left).trans hg)
    obtain ⟨y, hy⟩ := Mat.exists_mul ((hcols h.right).trans hg)
    obtain ⟨m, hm⟩ := Mat.exists_mul hg
    obtain ⟨-, hxs, hxe⟩ := Mat.mul_eq_ok hx
    obtain ⟨-, hys, hye⟩ := Mat.mul_eq_ok hy
    obtain ⟨-, hms, hme⟩ := Mat.mul_eq_ok hm
    have hadd : x.add y = .ok m := by
      have hrows {n : Leaf K} (hn : l.Parallel n) :
          n.coefficients.matrix.rows = l.coefficients.matrix.rows := hn.valueSize
      have hxrows := hxs.1.trans (hrows h.left)
      refine Mat.add_eq_of_entry ⟨(hys.1.trans (hrows h.right)).trans hxrows.symm,
        hys.2.trans hxs.2.symm⟩ ⟨hms.1.trans hxrows.symm, hms.2.trans hxs.2.symm⟩ ?_
      intro i hi j _
      rw [hme, hxe, hye, hcols h.left, hcols h.right, ← Finset.sum_add_distrib]
      refine Finset.sum_congr rfl fun k hk => ?_
      have hk : k < l.coefficients.size := Finset.mem_range.mp hk
      have hi : i < l.valueSize := hi.trans_eq hxrows
      have hentry : l.coefficients.matrix.entry i k = l.coefficients.entry i k :=
        Mat.entry_ofFn _ hi hk
      have hentry₁ : l₁.coefficients.matrix.entry i k = l₁.coefficients.entry i k :=
        Mat.entry_ofFn _ (hi.trans_eq h.left.valueSize.symm) (hk.trans_eq h.left.size.symm)
      have hentry₂ : l₂.coefficients.matrix.entry i k = l₂.coefficients.entry i k :=
        Mat.entry_ofFn _ (hi.trans_eq h.right.valueSize.symm) (hk.trans_eq h.right.size.symm)
      rw [hentry, hentry₁, hentry₂, h.sum, add_mul]
    exact ⟨x, y, m, hx, hy, hm, hadd⟩
  · exact Or.inr ⟨.misfit, if_neg fun heq => hg ((hcols h.left).symm.trans heq), if_neg hg⟩

/-- The values of the summands add up to the value of the leaf, and they are refused where it is. -/
theorem add_value (site : Site K) :
    (do let x ← (do return Mat.column (← l₁.primitives.value l₁.toLeafData site) : Outcome (Mat K))
        x.add (← (do return Mat.column (← l₂.primitives.value l₂.toLeafData site))) :
          Outcome (Mat K)) =
      do return Mat.column (← l.primitives.value l.toLeafData site) := by
  rw [h.isLinear.primitives, h.left.isLinear.primitives, h.right.isLinear.primitives]
  simp only [Primitives.interpolation, Interpolation.value, h.left.valuesAt, h.right.valuesAt]
  cases l.valuesAt site with
  | error e => rfl
  | ok φ => exact lift_eq_ok_iff.2 (h.add_combine φ.size φ.entry)

/-- The derivatives of the summands in space add up to those of the leaf. -/
theorem add_answer {r : Request K} (hc : r.directions.coefficients = .none) :
    (do let x ← l₁.answer r
        x.add (← l₂.answer r) : Outcome (Derivative K)) = l.answer r := by
  have hmatrix {x y z : Mat K} (hadd : x.add y = .ok z) :
      (Derivative.matrix x).add (.matrix y) = .ok (.matrix z) := bind_eq_ok_iff.2 ⟨z, hadd, rfl⟩
  obtain ⟨site, ⟨s, c⟩, along⟩ := r
  obtain rfl : c = .none := hc
  rcases s with _ | k | _ <;> simp only [answer, h.isLinear.primitives,
    h.left.isLinear.primitives, h.right.isLinear.primitives, Primitives.interpolation]
  case none =>
    simp only [Interpolation.value, h.left.valuesAt, h.right.valuesAt]
    cases l.valuesAt site with
    | error e => rfl
    | ok φ => exact lift_eq_ok_iff.2 (hmatrix (h.add_combine φ.size φ.entry))
  case some.single =>
    simp only [Interpolation.axis, h.left.gradientsIn, h.right.gradientsIn]
    cases l.gradientsIn site with
    | error e => rfl
    | ok g =>
      by_cases hk : k < g.rows
      · simp only [Bind.bind, Except.bind, if_pos hk]
        exact lift_eq_ok_iff.2 (hmatrix (h.add_combine g.cols (g.entry k)))
      · simp only [Bind.bind, Except.bind, if_neg hk]
  case some.all =>
    simp only [Interpolation.gradient, h.left.gradientsIn, h.right.gradientsIn]
    cases l.gradientsIn site with
    | error e => rfl
    | ok g =>
      rcases h.mul_matrix_cases g.transpose with ⟨x, y, m, hx, hy, hm, hadd⟩ | ⟨v, hx, hm⟩
      · simp only [Bind.bind, Except.bind, hx, hy, hm]
        exact lift_eq_ok_iff.2 (hmatrix hadd)
      · simp only [Bind.bind, Except.bind, hx, hm]
        rfl

end SplitsInto

end Leaf

end Leaves

namespace Leaf

variable {l l₁ l₂ : Leaf K} {block : BlockId}

theorem merging_of_ne (h : block ≠ l₁.block ∧ block ≠ l₂.block) : l.merging l₁ l₂ block = block :=
  if_neg fun heq => heq.elim h.1 h.2

theorem merging_left : l.merging l₁ l₂ l₁.block = l.block := if_pos (Or.inl rfl)

theorem merging_right : l.merging l₁ l₂ l₂.block = l.block := if_pos (Or.inr rfl)

/-- Only the blocks of the summands are taken for the one of the leaf. -/
theorem SplitsInto.merging_eq_iff [ExactScalar K] (h : l.SplitsInto l₁ l₂) :
    l.merging l₁ l₂ block = l.block ↔ block = l₁.block ∨ block = l₂.block := by
  constructor
  · intro heq
    by_contra hne
    obtain ⟨h₁, h₂⟩ := not_or.1 hne
    rw [merging_of_ne ⟨h₁, h₂⟩] at heq
    exact h.keeps.elim (fun hk => h₁ (heq.trans hk)) fun hk => h₂ (heq.trans hk)
  · exact fun heq => if_pos heq

/-- Another block is not taken for a block that occurs apart from the summands. -/
theorem SplitsInto.eq_merging_iff [ExactScalar K] (h : l.SplitsInto l₁ l₂) {other : BlockId}
    (hother : other ≠ l₁.block ∧ other ≠ l₂.block) :
    other = l.merging l₁ l₂ block ↔ other = block := by
  by_cases hblock : block = l₁.block ∨ block = l₂.block
  · rw [merging, if_pos hblock]
    refine iff_of_false (fun heq => ?_) fun heq => ?_
    · exact h.keeps.elim (fun hk => hother.1 (heq.trans hk)) fun hk => hother.2 (heq.trans hk)
    · exact hblock.elim (fun hk => hother.1 (heq.trans hk)) fun hk => hother.2 (heq.trans hk)
  · rw [merging, if_neg hblock]

end Leaf

/-- A sum is linear where one of its operands is. -/
theorem PolynomialOrder.max_linear_or (p q : Prop) [Decidable p] [Decidable q] :
    max (if p then linear else constant) (if q then linear else constant) =
      if p ∨ q then linear else constant := by
  by_cases hp : p <;> by_cases hq : q <;> simp only [hp, hq] <;> rfl

/-- What stands for a leaf when `l` is split into `l₁` and `l₂`: the sum of the two for `l` itself, and
for another leaf, which owns none of their blocks, the same leaf. -/
inductive Leaf.SplitAt (leaves leaves' : Array (Leaf K)) (l l₁ l₂ : Leaf K) :
    ℕ → LeafSignature → Expr K → Prop where
  | kept {slot slot' : ℕ} {m : Leaf K} (hm : leaves[slot]? = some m) (hm' : leaves'[slot']? = some m)
      (hblock : m.block ≠ l₁.block ∧ m.block ≠ l₂.block) :
      SplitAt leaves leaves' l l₁ l₂ slot m.signature (.leaf slot' m.signature)
  | split {slot slot₁ slot₂ : ℕ} (hl : leaves[slot]? = some l) (h₁ : leaves'[slot₁]? = some l₁)
      (h₂ : leaves'[slot₂]? = some l₂) : SplitAt leaves leaves' l l₁ l₂ slot l.signature
        (.binary .sum (.leaf slot₁ l₁.signature) (.leaf slot₂ l₂.signature))

def Expr.Splits (leaves leaves' : Array (Leaf K)) (l l₁ l₂ : Leaf K) : Expr K → Expr K → Prop :=
  Expr.Substitutes (Leaf.SplitAt leaves leaves' l l₁ l₂)

namespace Expr.Splits

variable [ExactScalar K] {leaves leaves' : Array (Leaf K)} {l l₁ l₂ : Leaf K} {e e' : Expr K}
  (h : e.Splits leaves leaves' l l₁ l₂ e') (hl : l.SplitsInto l₁ l₂)
include h hl

theorem gridDim_eq : e'.gridDim = e.gridDim := by
  apply Expr.Substitutes.gridDim_eq h
  rintro slot signature _ (⟨-, -, -⟩ | ⟨-, -, -⟩)
  · rfl
  · exact congrArg some hl.left.gridDim

theorem valueSize_eq : e'.valueSize = e.valueSize := by
  apply Expr.Substitutes.valueSize_eq h
  rintro slot signature _ (⟨-, -, -⟩ | ⟨-, -, -⟩)
  · exact ⟨rfl, rfl⟩
  · exact ⟨congrArg some hl.left.gridDim, hl.left.valueSize⟩

/-- The order in a block is the one in the block that it is taken for. -/
theorem orderIn_eq (block : BlockId) : e'.orderIn block = e.orderIn (l.merging l₁ l₂ block) := by
  apply Expr.Substitutes.orderIn_eq h
  rintro slot signature _ (⟨-, -, hblock⟩ | ⟨-, -, -⟩)
  · show (if _ then _ else _) = if _ then _ else _
    exact if_congr (hl.eq_merging_iff hblock).symm rfl rfl
  · -- A summand is linear in its own block, so the sum is linear in both of them.
    have hkept : (Expr.leaf slot l.signature : Expr K).orderIn (l.merging l₁ l₂ block) =
        if block = l₁.block ∨ block = l₂.block then .linear else .constant :=
      if_congr (eq_comm.trans hl.merging_eq_iff) hl.isLinear.order rfl
    have hsummand {m : Leaf K} (hm : m.IsLinear) : (if m.block = block then m.order else .constant) =
        if block = m.block then .linear else .constant := if_congr eq_comm hm.order rfl
    rw [hkept]
    show max (if l₁.block = block then l₁.order else .constant)
      (if l₂.block = block then l₂.order else .constant) = _
    rw [hsummand hl.left.isLinear, hsummand hl.right.isLinear, PolynomialOrder.max_linear_or]

end Expr.Splits

namespace ElementField

theorem placements_binary [Scalar K] (f : ElementField K) (op : BinaryOp) (a b : Expr K) :
    f.placements (.binary op a b) = f.placements a ++ f.placements b := by
  simp only [placements, placementsOf, Expr.slots, leavesIn, List.filterMap_append, List.map_append]

theorem placements_leaf [Scalar K] {f : ElementField K} {slot : ℕ} {l : Leaf K}
    (hl : f.leaves[slot]? = some l) (signature : LeafSignature) :
    f.placements (.leaf slot signature) = [(l.geometry, l.shapes)] := by
  simp only [placements, placementsOf, Expr.slots, leavesIn, List.filterMap_cons, hl,
    List.filterMap_nil, List.map_cons, List.map_nil]

variable [ExactScalar K] {f f' : ElementField K} {l l₁ l₂ : Leaf K} {e e' : Expr K}

/-- The summands have the geometry and the shape functions of the leaf, so the reference tangents of
displacements stay as they are. -/
theorem referenceTangents_of_splits (h : e.Splits f.leaves f'.leaves l l₁ l₂ e')
    (hl : l.SplitsInto l₁ l₂) (hG : f'.gridDim = f.gridDim) :
    f'.referenceTangents e' = f.referenceTangents e := by
  have hplacements : (f'.placements e').head? = (f.placements e).head? ∧
      ∀ p, p ∈ f'.placements e' ↔ p ∈ f.placements e := by
    induction h with
    | leaf h =>
      cases h with
      | kept hm hm' _ =>
        rw [placements_leaf hm, placements_leaf hm']
        exact ⟨rfl, fun p => Iff.rfl⟩
      | split hget h₁ h₂ =>
        rw [placements_leaf hget, placements_binary, placements_leaf h₁, placements_leaf h₂,
          hl.left.geometry, hl.left.shapes, hl.right.geometry, hl.right.shapes]
        exact ⟨rfl, fun p => by simp⟩
    | constant x => exact ⟨rfl, fun p => Iff.rfl⟩
    | unary op _ ih => exact ih
    | binary op _ _ iha ihb =>
      simp only [placements_binary, List.head?_append, iha.1, ihb.1, List.mem_append, iha.2, ihb.2]
      exact ⟨trivial, fun p => trivial⟩
  exact referenceTangents_of_placements hG hplacements.1 hplacements.2

/-- Both fields are built, and the second one is the first with the leaf `l` split into `l₁` and `l₂`
wherever it occurs. The other leaves own neither the block of `l` nor those of the summands; of them it
is only asked that they answer in the documented shapes. -/
structure Splits (f f' : ElementField K) (l l₁ l₂ : Leaf K) : Prop where
  built : f.Built
  built' : f'.Built
  leaf : l.SplitsInto l₁ l₂
  expr : f.expr.Splits f.leaves f'.leaves l l₁ l₂ f'.expr
  keepsShapes : ∀ m ∈ f.reachableLeaves, m.KeepsShapes

namespace Splits

variable (h : f.Splits f' l l₁ l₂)
include h

theorem gridDim_eq : f'.gridDim = f.gridDim := by
  rw [ElementField.gridDim_eq, ElementField.gridDim_eq, h.expr.gridDim_eq h.leaf]

theorem valueSize_eq : f'.valueSize = f.valueSize := by
  rw [ElementField.valueSize_eq, ElementField.valueSize_eq, h.expr.valueSize_eq h.leaf]

/-- Every leaf of the second field is one of the first or a summand. -/
theorem exists_origin {m' : Leaf K} (hm' : m' ∈ f'.reachableLeaves) : ∃ m ∈ f.reachableLeaves,
    m = m' ∧ (m.block ≠ l₁.block ∧ m.block ≠ l₂.block) ∨ m = l ∧ (m' = l₁ ∨ m' = l₂) := by
  rw [h.built'.mem_reachableLeaves_iff] at hm'
  simp only [h.built.mem_reachableLeaves_iff]
  apply Expr.Substitutes.exists_of_mem h.expr _ hm'
  rintro slot - _ _ (⟨hm, hm', hblock⟩ | ⟨hl, h₁, h₂⟩) m' hmem
  · obtain rfl : m' = _ := by simpa [leavesIn, Expr.slots, hm'] using hmem
    exact ⟨_, by simp [leavesIn, hm], Or.inl ⟨rfl, hblock⟩⟩
  · have hsummand : m' = l₁ ∨ m' = l₂ := by simpa [leavesIn, Expr.slots, h₁, h₂] using hmem
    exact ⟨l, by simp [leavesIn, hl], Or.inr ⟨rfl, hsummand⟩⟩

/-- Every leaf of the first field is one of the second, or both summands are. -/
theorem kept_or_split {m : Leaf K} (hm : m ∈ f.reachableLeaves) :
    m ∈ f'.reachableLeaves ∧ (m.block ≠ l₁.block ∧ m.block ≠ l₂.block) ∨
      m = l ∧ l₁ ∈ f'.reachableLeaves ∧ l₂ ∈ f'.reachableLeaves := by
  rw [h.built.mem_reachableLeaves_iff] at hm
  simp only [h.built'.mem_reachableLeaves_iff]
  have hreplaced {n : Leaf K} (hn : n = l₁ ∨ n = l₂) : ∃ m' ∈ leavesIn f'.leaves f'.expr.slots,
      m' = m ∧ (m.block ≠ l₁.block ∧ m.block ≠ l₂.block) ∨ m = l ∧ m' = n := by
    apply Expr.Substitutes.exists_replacement h.expr _ hm
    rintro slot _ _ (⟨hm, hm', hblock⟩ | ⟨hl, h₁, h₂⟩) m hmem
    · obtain rfl : m = _ := by simpa [leavesIn, hm] using hmem
      exact ⟨m, by simp [leavesIn, Expr.slots, hm'], Or.inl ⟨rfl, hblock⟩⟩
    · obtain rfl : m = _ := by simpa [leavesIn, hl] using hmem
      exact ⟨n, by simpa [leavesIn, Expr.slots, h₁, h₂] using hn, Or.inr ⟨rfl, rfl⟩⟩
  -- Either summand is looked for in turn; a leaf that is kept turns up at once.
  obtain ⟨_, hmem₁, ⟨rfl, hblock⟩ | ⟨hm, rfl⟩⟩ := hreplaced (Or.inl rfl)
  · exact Or.inl ⟨hmem₁, hblock⟩
  obtain ⟨_, hmem₂, ⟨rfl, hblock⟩ | ⟨-, rfl⟩⟩ := hreplaced (Or.inr rfl)
  · exact Or.inl ⟨hmem₂, hblock⟩
  · exact Or.inr ⟨hm, hmem₁, hmem₂⟩

theorem keepsShapes' : ∀ m' ∈ f'.reachableLeaves, m'.KeepsShapes := by
  intro m' hm'
  obtain ⟨m, hm, ⟨rfl, -⟩ | ⟨-, rfl | rfl⟩⟩ := h.exists_origin hm'
  · exact h.keepsShapes m hm
  · exact h.leaf.left.isLinear.keepsShapes
  · exact h.leaf.right.isLinear.keepsShapes

/-- An owner of a block in the second field comes from one of the block that it is taken for, with
corrections of the same size. -/
theorem exists_owner {block : BlockId} {m' : Leaf K} (hm' : m' ∈ f'.owners block) :
    ∃ m ∈ f.owners (l.merging l₁ l₂ block), m.correctionSize = m'.correctionSize := by
  obtain ⟨hmem, hblock⟩ := List.mem_filter.1 hm'
  obtain rfl := of_decide_eq_true hblock
  simp only [owners, List.mem_filter, decide_eq_true_eq]
  obtain ⟨m, hm, ⟨rfl, hne⟩ | ⟨rfl, rfl | rfl⟩⟩ := h.exists_origin hmem
  · exact ⟨m, ⟨hm, (Leaf.merging_of_ne hne).symm⟩, rfl⟩
  · exact ⟨m, ⟨hm, Leaf.merging_left.symm⟩, h.leaf.left.correctionSize.symm⟩
  · exact ⟨m, ⟨hm, Leaf.merging_right.symm⟩, h.leaf.right.correctionSize.symm⟩

/-- An owner of the block that a block is taken for has as many coefficients as one of the block itself.
-/
theorem exists_owner' {block : BlockId} {m : Leaf K} (hm : m ∈ f.owners (l.merging l₁ l₂ block))
    (hne : f'.owners block ≠ []) : ∃ m' ∈ f'.owners block, m'.numCoefficients = m.numCoefficients := by
  obtain ⟨hmem, hblock⟩ := List.mem_filter.1 hm
  have hblock : m.block = l.merging l₁ l₂ block := of_decide_eq_true hblock
  simp only [owners, List.mem_filter, decide_eq_true_eq]
  rcases h.kept_or_split hmem with ⟨hmem', hother⟩ | ⟨rfl, hmem₁, hmem₂⟩
  · exact ⟨m, ⟨hmem', (h.leaf.eq_merging_iff hother).1 hblock⟩, rfl⟩
  · rcases h.leaf.merging_eq_iff.1 hblock.symm with rfl | rfl
    · exact ⟨l₁, ⟨hmem₁, rfl⟩, h.leaf.left.numCoefficients⟩
    · exact ⟨l₂, ⟨hmem₂, rfl⟩, h.leaf.right.numCoefficients⟩

/-- Directions of the second field are directions of the first one, in the blocks that theirs are taken
for. -/
theorem admits {d : Directions} (hd : f'.Admits d) : f.Admits (d.renamed (l.merging l₁ l₂)) := by
  rw [h.built'.admits_iff] at hd
  rw [h.built.admits_iff]
  refine ⟨fun k hk => h.gridDim_eq ▸ hd.1 k hk, fun c hc => ?_⟩
  rw [Directions.coefficientList_renamed] at hc
  obtain ⟨c', hc', rfl⟩ := List.mem_map.1 hc
  obtain ⟨hne, hall⟩ := hd.2 c' hc'
  obtain ⟨m', hm'⟩ := List.exists_mem_of_ne_nil _ hne
  obtain ⟨m, hm, -⟩ := h.exists_owner hm'
  refine ⟨List.ne_nil_of_mem hm, fun n hn => ?_⟩
  obtain ⟨n', hn', hnum⟩ := h.exists_owner' hn hne
  exact hnum ▸ hall n' hn'

/-- Blocks have corrections of the size in the block that they are taken for. -/
theorem tangentDim_eq {d : Directions} (hd : f'.Admits d) {c : Coefficient}
    (hc : c ∈ d.coefficientList) :
    f'.tangentDim c.block = f.tangentDim (l.merging l₁ l₂ c.block) := by
  obtain ⟨hne, -⟩ := (h.built'.admits_iff.1 hd).2 c hc
  obtain ⟨m', hm'⟩ := List.exists_mem_of_ne_nil _ hne
  obtain ⟨m, hm, hsize⟩ := h.exists_owner hm'
  obtain ⟨hmem, hblock⟩ := List.mem_filter.1 hm
  obtain ⟨hmem', hblock'⟩ := List.mem_filter.1 hm'
  rw [← of_decide_eq_true hblock, ← of_decide_eq_true hblock', h.built.tangentDim_eq hmem,
    h.built'.tangentDim_eq hmem', hsize]

/-- A zero tensor has the same form in both fields. -/
theorem form_eq {d : Directions} (hd : f'.Admits d) (V : ℕ) :
    (d.renamed (l.merging l₁ l₂)).form V f.gridDim f.tangentDim =
      d.form V f'.gridDim f'.tangentDim := by
  rw [Directions.form_renamed, h.gridDim_eq]
  exact Directions.form_congr fun c hc => (h.tangentDim_eq hd hc).symm

end Splits

end ElementField

end ElementFields
