import ElementFields.Proofs.Binding
import ElementFields.Proofs.PartitionOfUnity
import ElementFields.Proofs.RealScalar

namespace ElementFields
open Scalar
open scoped BigOperators

variable {K : Type} [ExactScalar K] {ξ : Vec K}

theorem productTo_eq (start : K) (l : List ℕ) (f : ℕ → K) :
    productTo start l f = start * (l.map f).prod := by
  induction l generalizing start with
  | nil => exact (mul_one start).symm
  | cons i rest ih =>
    rw [List.map_cons, List.prod_cons, ← mul_assoc, ← ih]
    rfl

theorem tensorValue_eq (dim : ℕ) (node ξ : Vec K) :
    tensorValue dim node ξ = ∏ i ∈ Finset.range dim, hat (node.entry i) (ξ.entry i) := by
  have hset : (List.range dim).toFinset = Finset.range dim := by
    ext i
    simp
  rw [tensorValue, productTo_eq, one_mul, ← List.prod_toFinset _ List.nodup_range, hset]

theorem tensorSlope_eq (dim : ℕ) (node ξ : Vec K) (d : ℕ) :
    tensorSlope dim node ξ d =
      node.entry d / 2 * ∏ i ∈ (Finset.range dim).erase d, hat (node.entry i) (ξ.entry i) := by
  have hset : ((List.range dim).filter (· ≠ d)).toFinset = (Finset.range dim).erase d := by
    ext i
    simp [and_comm]
  rw [tensorSlope, productTo_eq, ← List.prod_toFinset _ (List.nodup_range.filter _), hset,
    Nat.cast_ofNat]

def Vec.step (ξ : Vec K) (d : ℕ) (t : K) : Vec K :=
  .ofFn ξ.size fun i => if i = d then ξ.entry i + t else ξ.entry i

variable {d : ℕ} {t : K}

@[simp] theorem Vec.size_step (ξ : Vec K) (d : ℕ) (t : K) : (ξ.step d t).size = ξ.size :=
  Vec.size_ofFn _ _

theorem Vec.entry_step (hd : d < ξ.size) : (ξ.step d t).entry d = ξ.entry d + t := by
  rw [step, Vec.entry_ofFn _ hd, if_pos rfl]

theorem Vec.entry_step_of_ne {i : ℕ} (hi : i ≠ d) : (ξ.step d t).entry i = ξ.entry i := by
  by_cases hlt : i < ξ.size
  · rw [step, Vec.entry_ofFn _ hlt, if_neg hi]
  · rw [Vec.entry_of_size_le (by rw [size_step]; omega), Vec.entry_of_size_le (by omega)]

/-- Values and gradients at the points of `dim` coordinates belong together: both exist, and a step along
an axis adds to the values the step times the row of the gradients for that axis. -/
def AffineAlongAxes (dim : ℕ) (values : Vec K → Checked (Vec K))
    (gradients : Vec K → Checked (Mat K)) : Prop :=
  ∀ ξ : Vec K, ξ.size = dim → ∀ d < dim, ∀ t : K, ∃ v G v', values ξ = .ok v ∧
    gradients ξ = .ok G ∧ values (ξ.step d t) = .ok v' ∧ v'.size = v.size ∧
    ∀ i < v.size, v'.entry i = v.entry i + t * G.entry d i

theorem hat_add (α x t : K) : hat α (x + t) = hat α x + t * (α / 2) := by
  simp only [hat, Nat.cast_ofNat]
  ring

/-- Of the lines of a node only the one along the axis changes. -/
theorem tensorValue_step {dim : ℕ} (node : Vec K) (hξ : ξ.size = dim) (hd : d < dim) (t : K) :
    tensorValue dim node (ξ.step d t) = tensorValue dim node ξ + t * tensorSlope dim node ξ d := by
  have hmem : d ∈ Finset.range dim := Finset.mem_range.2 hd
  have hothers : ∀ i ∈ (Finset.range dim).erase d,
      hat (node.entry i) ((ξ.step d t).entry i) = hat (node.entry i) (ξ.entry i) :=
    fun i hi => by rw [Vec.entry_step_of_ne (Finset.ne_of_mem_erase hi)]
  rw [tensorValue_eq, tensorValue_eq, tensorSlope_eq, ← Finset.mul_prod_erase _ _ hmem,
    ← Finset.mul_prod_erase _ _ hmem, Finset.prod_congr rfl hothers,
    Vec.entry_step (hξ.symm ▸ hd), hat_add]
  ring

theorem affine_tensorValues (dim : ℕ) (nodes : List (Vec K)) :
    AffineAlongAxes dim (tensorValues dim nodes) (tensorGradients dim nodes) := by
  intro ξ hξ d hd t
  refine ⟨_, _, _, require_eq_ok.2 ⟨hξ, rfl⟩, require_eq_ok.2 ⟨hξ, rfl⟩,
    require_eq_ok.2 ⟨(ξ.size_step d t).trans hξ, rfl⟩, ?_, fun i hi => ?_⟩
  · rw [Vec.size_ofFn, Vec.size_ofFn]
  · rw [Vec.size_ofFn] at hi
    rw [Vec.entry_ofFn _ hi, Vec.entry_ofFn _ hi, Mat.entry_ofFn _ hd hi]
    exact tensorValue_step _ hξ hd t

theorem axisValue_step {k : ℕ} (hd : d < ξ.size) (t : K) :
    axisValue (ξ.step d t) k = axisValue ξ k + if k = d then t * (1 / 2) else 0 := by
  simp only [axisValue, Nat.cast_ofNat]
  split
  · rename_i hk
    rw [hk, Vec.entry_step hd]
    ring
  · rename_i hk
    rw [Vec.entry_step_of_ne hk, add_zero]

/-- The function of the axis grows, and the first function loses as much. -/
theorem affine_simplexValues (dim : ℕ) :
    AffineAlongAxes dim (simplexValues dim) fun _ => .ok (simplexGradients dim : Mat K) := by
  intro ξ hξ d hd t
  refine ⟨_, _, _, require_eq_ok.2 ⟨hξ, rfl⟩, rfl,
    require_eq_ok.2 ⟨(ξ.size_step d t).trans hξ, rfl⟩, ?_, fun i hi => ?_⟩
  · rw [Vec.size_ofFn, Vec.size_ofFn]
  · rw [Vec.size_ofFn] at hi
    rw [Vec.entry_ofFn _ hi, Vec.entry_ofFn _ hi, simplexGradients, Mat.entry_ofFn _ hd hi]
    have haxis (k : ℕ) := axisValue_step (k := k) (hξ.symm ▸ hd) t
    cases i with
    | zero =>
      -- Of the sum that is taken from one, the term of axis `d` changes and no other.
      simp only [sumTo_eq_sum, haxis, Finset.sum_add_distrib, Nat.cast_ofNat]
      rw [Finset.sum_ite_eq' (Finset.range dim) d, if_pos (Finset.mem_range.2 hd)]
      ring
    | succ k => simp only [haxis, mul_ite, mul_zero, Nat.cast_ofNat]

theorem Element.affine_shapeValues (e : Element) :
    AffineAlongAxes e.dim e.shapeValues (e.shapeGradients : Vec K → Checked (Mat K)) := by
  unfold shapeValues shapeGradients
  cases he : e.isSimplex
  · exact affine_tensorValues e.dim e.nodes
  · exact affine_simplexValues e.dim

/-- The place of a point moves by the row of the transposed Jacobian. -/
theorem Geometry.Suits.affine_position {g : Geometry K} {dim : ℕ} (hg : g.Suits dim) :
    AffineAlongAxes dim g.position g.jacobianTransposed := by
  intro ξ hξ d hd t
  have hdim := hg.dim
  obtain ⟨φ, G, φ', hφ, hG, hφ', hsize, hentry⟩ :=
    g.element.affine_shapeValues ξ (hξ.trans hdim.symm) d (hdim.symm ▸ hd) t
  have hφsize : φ.size = g.vertices.cols := (Element.size_shapeValues hφ).trans hg.vertices.symm
  have hGcols : G.cols = g.vertices.cols := (Element.shape_shapeGradients hG).2.trans hg.vertices.symm
  obtain ⟨v, hv, -⟩ := Mat.yields_mulVec (a := g.vertices) ⟨rfl, rfl⟩ hφsize
  obtain ⟨v', hv', -⟩ := Mat.yields_mulVec (a := g.vertices) ⟨rfl, rfl⟩ (hsize.trans hφsize)
  obtain ⟨J, hJ⟩ : ∃ J, G.mul g.vertices.transpose = .ok J := Mat.exists_mul hGcols
  refine ⟨v, J, v', bind_eq_ok_iff.2 ⟨φ, hφ, hv⟩, bind_eq_ok_iff.2 ⟨G, hG, hJ⟩,
    bind_eq_ok_iff.2 ⟨φ', hφ', hv'⟩, ?_⟩
  -- Both sides are sums over the vertices, and vertex `k` has one shape function in both of them.
  obtain ⟨-, hvsize, hventry⟩ := Mat.mulVec_eq_ok hv
  obtain ⟨-, hvsize', hventry'⟩ := Mat.mulVec_eq_ok hv'
  obtain ⟨-, -, hJentry⟩ := Mat.mul_eq_ok hJ
  refine ⟨hvsize'.trans hvsize.symm, fun i _ => ?_⟩
  rw [hventry', hventry, hJentry, hGcols, Finset.mul_sum, ← Finset.sum_add_distrib]
  refine Finset.sum_congr rfl fun k hk => ?_
  rw [hentry k (hφsize ▸ Finset.mem_range.1 hk), Mat.entry_transpose]
  ring

/-- A value times the coordinate of its node is the value times the coordinate of the point, but for a
multiple of the slope that is the same for all nodes. -/
theorem tensorValue_mul_entry {dim : ℕ} (node : Vec K) (hd : d < dim)
    (hnode : node.entry d * node.entry d = 1) :
    tensorValue dim node ξ * node.entry d = ξ.entry d * tensorValue dim node ξ +
      (1 - ξ.entry d * ξ.entry d) * tensorSlope dim node ξ d := by
  have hmem : d ∈ Finset.range dim := Finset.mem_range.2 hd
  rw [tensorValue_eq, tensorSlope_eq, ← Finset.mul_prod_erase _ _ hmem, hat, Nat.cast_ofNat]
  generalize ∏ i ∈ (Finset.range dim).erase d, hat (node.entry i) (ξ.entry i) = others
  linear_combination others / 2 * ξ.entry d * hnode

/-- With coordinates minus one, and plus one at the node of the axis, what is summed is twice the function
of the axis less the sum of all functions. -/
theorem sum_simplexValues_mul {dim : ℕ} {φ : Vec K} (h : simplexValues dim ξ = .ok φ) (hd : d < dim)
    {X : ℕ → K} (hfirst : X 0 = -1) (hothers : ∀ k < dim, X (k + 1) = if k = d then 1 else -1) :
    ∑ i ∈ Finset.range (dim + 1), φ.entry i * X i = ξ.entry d := by
  have hone := sum_simplexValues h
  obtain ⟨-, hφ⟩ := require_eq_ok.1 h
  have haxis : φ.entry (d + 1) = axisValue ξ d := by
    rw [← hφ, Vec.entry_ofFn _ (Nat.succ_lt_succ hd)]
  have hterm : ∀ i ∈ Finset.range (dim + 1),
      φ.entry i * X i = (if i = d + 1 then φ.entry i * 2 else 0) - φ.entry i := by
    intro i hi
    cases i with
    | zero =>
      rw [hfirst, if_neg (Nat.succ_ne_zero d).symm]
      ring
    | succ k =>
      rw [hothers k (Nat.lt_of_succ_lt_succ (Finset.mem_range.1 hi))]
      simp only [Nat.succ_inj]
      split <;> ring
  rw [Finset.sum_congr rfl hterm, Finset.sum_sub_distrib, hone,
    Finset.sum_ite_eq' (Finset.range (dim + 1)) (d + 1),
    if_pos (Finset.mem_range.2 (Nat.succ_lt_succ hd)), haxis, axisValue]
  push_cast
  ring

namespace Element

variable {e : Element}

theorem length_of_mem_corners {signs : List Bool} (h : signs ∈ e.corners) :
    signs.length = e.dim := by
  cases e <;> revert signs <;> decide

theorem entry_mul_self_of_mem_nodes {node : Vec K} (hnode : node ∈ e.nodes) (hd : d < e.dim) :
    node.entry d * node.entry d = 1 := by
  obtain ⟨signs, hsigns, rfl⟩ := List.mem_map.1 hnode
  have hlt : d < signs.length := length_of_mem_corners hsigns ▸ hd
  have hentry : Vec.entry (signs.map fun plus => if plus then 1 else -1).toArray d =
      (if signs[d] then 1 else -1 : K) := by
    simp [Vec.entry, hlt]
  rw [hentry]
  split
  · exact one_mul 1
  · rw [neg_mul_neg, one_mul]

theorem sum_tensorValue_mul (he : e.isSimplex = false) (ξ : Vec K) (hd : d < e.dim) :
    (e.nodes.map fun node => tensorValue e.dim node ξ * node.entry d).sum = ξ.entry d := by
  have hterm : ∀ node ∈ e.nodes, tensorValue e.dim node ξ * node.entry d =
      ξ.entry d * tensorValue e.dim node ξ +
        (1 - ξ.entry d * ξ.entry d) * tensorSlope e.dim node ξ d :=
    fun node hnode => tensorValue_mul_entry node hd (entry_mul_self_of_mem_nodes hnode hd)
  -- The values add up to one and the slopes to zero.
  rw [List.map_congr_left hterm, List.sum_map_add, List.sum_map_mul_left, List.sum_map_mul_left,
    sum_tensorValue he, sum_tensorSlope he ξ hd, mul_zero, add_zero, mul_one]

/-- The first node of a simplex has all coordinates minus one, and every other node has the coordinate of
its axis moved to one. -/
theorem entry_nodes_of_isSimplex (he : e.isSimplex = true) (hd : d < e.dim) :
    ((e.nodes : List (Vec K)).getD 0 #[]).entry d = -1 ∧
      ∀ k < e.dim, ((e.nodes : List (Vec K)).getD (k + 1) #[]).entry d = if k = d then 1 else -1 := by
  cases e with
  | segment | square | cube => nomatch he
  | triangle | tetrahedron =>
    simp only [dim] at hd ⊢
    refine ⟨?_, fun k hk => ?_⟩
    · interval_cases d <;> rfl
    · interval_cases d <;> interval_cases k <;> rfl

/-- Summed with the shape functions, the coordinates of the nodes are those of the point. -/
theorem sum_shapeValues_mul {φ : Vec K} (h : e.shapeValues ξ = .ok φ) (hd : d < e.dim) :
    ∑ i ∈ Finset.range e.numNodes, φ.entry i * (e.nodes.getD i #[]).entry d = ξ.entry d := by
  rw [shapeValues] at h
  split at h
  · rename_i he
    obtain ⟨hfirst, hothers⟩ := entry_nodes_of_isSimplex (K := K) he hd
    rw [numNodes_of_isSimplex he]
    exact sum_simplexValues_mul h hd (X := fun i => (e.nodes.getD i #[]).entry d) hfirst hothers
  · rename_i he
    obtain ⟨-, rfl⟩ := require_eq_ok.1 h
    calc _ = ∑ i ∈ Finset.range e.numNodes,
          tensorValue e.dim (e.nodes.getD i #[]) ξ * (e.nodes.getD i #[]).entry d := by
          refine Finset.sum_congr rfl fun i hi => ?_
          rw [Vec.entry_ofFn _ (length_nodes (K := K) e ▸ Finset.mem_range.mp hi)]
      _ = ξ.entry d := (sum_nodes e fun node => tensorValue e.dim node ξ * node.entry d).trans
          (sum_tensorValue_mul (Bool.eq_false_iff.2 he) ξ hd)

end Element

/-- The values of the shape functions and their gradients belong together. On products of segments in any
dimension, for any list of nodes, and on simplices in any dimension, a step along an axis changes the
values by exactly the step times the row of the gradients for that axis; and so it changes the place of
the point in any element that is made from vertices by the step times the row of the transposed Jacobian.
At every point, inside the element or outside, the shape functions of each of the elements add up to one,
their gradients add up to zero, and the coordinates of the nodes, summed with the shape functions, are
those of the point. -/
theorem shapes_affine (K : Type) [ExactScalar K] :
    ((∀ (dim : ℕ) (nodes : List (Vec K)),
        AffineAlongAxes dim (tensorValues dim nodes) (tensorGradients dim nodes)) ∧
      ∀ dim : ℕ, AffineAlongAxes dim (simplexValues dim) fun _ => .ok (simplexGradients dim : Mat K)) ∧
    (∀ (e : Element) (g : Geometry K),
      (∃ vertices, Geometry.ofVertexMatrix e vertices = .ok g) ∨
        (∃ vertices, Geometry.ofVertices e vertices = .ok g) →
      AffineAlongAxes e.dim g.position g.jacobianTransposed) ∧
    ∀ (e : Element) (ξ : Vec K), ξ.size = e.dim →
      ∃ φ G, e.shapeValues ξ = .ok φ ∧ e.shapeGradients ξ = .ok G ∧
        ∑ i ∈ Finset.range e.numNodes, φ.entry i = 1 ∧
        ∀ d < e.dim, ∑ i ∈ Finset.range e.numNodes, G.entry d i = 0 ∧
          ∑ i ∈ Finset.range e.numNodes, φ.entry i * (e.nodes.getD i #[]).entry d = ξ.entry d := by
  refine ⟨⟨affine_tensorValues, affine_simplexValues⟩, fun e g hg => ?_, fun e ξ hξ => ?_⟩
  · rcases hg with ⟨vertices, hg⟩ | ⟨vertices, hg⟩
    · exact (Geometry.suits_of_ofVertexMatrix hg).affine_position
    · exact (Geometry.suits_of_ofVertices hg).affine_position
  · obtain ⟨φ, hφ, -⟩ := Element.yields_shapeValues hξ
    obtain ⟨G, hG, -⟩ := Element.yields_shapeGradients hξ
    exact ⟨φ, G, hφ, hG, Element.sum_shapeValues hφ, fun d hd =>
      ⟨Element.sum_shapeGradients hG hd, Element.sum_shapeValues_mul hφ hd⟩⟩

/-- A quadrilateral in space, at a point outside of it, and a step along the second axis. -/
theorem shapes_affine_quadrilateral :
    let vertices : Mat ℝ := .ofFn 3 4 fun i j => if i = j then 1 else 0
    let g : Geometry ℝ := { element := .square, vertices }
    let ξ : Vec ℝ := #[2, -3]
    (Geometry.ofVertexMatrix .square vertices = .ok g ∧ ξ.size = 2) ∧
    (∃ v J v', g.position ξ = .ok v ∧ g.jacobianTransposed ξ = .ok J ∧
      g.position (ξ.step 1 5) = .ok v' ∧ v'.size = v.size ∧
      ∀ i < v.size, v'.entry i = v.entry i + 5 * J.entry 1 i) ∧
    ∃ φ : Vec ℝ, Element.square.shapeValues ξ = .ok φ ∧
      ∑ i ∈ Finset.range 4, φ.entry i = 1 ∧
      ∑ i ∈ Finset.range 4, φ.entry i * (Element.square.nodes.getD i #[]).entry 1 = -3 := by
  intro vertices g ξ
  obtain ⟨-, hposition, hshapes⟩ := shapes_affine ℝ
  have hg : Geometry.ofVertexMatrix .square vertices = .ok g := rfl
  obtain ⟨φ, G, hφ, -, hone, hcoordinates⟩ := hshapes .square ξ rfl
  exact ⟨⟨hg, rfl⟩, hposition .square g (.inl ⟨vertices, hg⟩) ξ rfl 1 Nat.one_lt_two 5,
    φ, hφ, hone, (hcoordinates 1 Nat.one_lt_two).2⟩

end ElementFields
