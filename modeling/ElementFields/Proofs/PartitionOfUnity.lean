import ElementFields.Proofs.Entries
import ElementFields.Proofs.LeafShapes
import Mathlib.Tactic.IntervalCases

namespace ElementFields
open Scalar
open scoped BigOperators

variable {K : Type} [ExactScalar K] {ξ : Vec K}

theorem sum_simplexValues {dim : ℕ} {φ : Vec K} (h : simplexValues dim ξ = .ok φ) :
    ∑ i ∈ Finset.range (dim + 1), φ.entry i = 1 := by
  obtain ⟨-, rfl⟩ := require_eq_ok.1 h
  rw [Finset.sum_range_succ', Vec.entry_ofFn _ (Nat.succ_pos dim), sumTo_eq_sum]
  calc _ = ∑ k ∈ Finset.range dim, axisValue ξ k +
        (1 - ∑ k ∈ Finset.range dim, axisValue ξ k) := by
        congr 1
        apply Finset.sum_congr rfl
        intro k hk
        rw [Vec.entry_ofFn _ (Nat.succ_lt_succ (Finset.mem_range.mp hk))]
    _ = 1 := add_sub_cancel _ _

theorem sum_simplexGradients {dim d : ℕ} (hd : d < dim) :
    ∑ i ∈ Finset.range (dim + 1), (simplexGradients dim : Mat K).entry d i = 0 := by
  rw [Finset.sum_range_succ', simplexGradients, Mat.entry_ofFn _ hd (Nat.succ_pos dim)]
  calc _ = ∑ i ∈ Finset.range dim, (if i = d then 1 / ((2 : ℕ) : K) else 0) + -1 / ((2 : ℕ) : K) := by
        congr 1
        apply Finset.sum_congr rfl
        intro i hi
        rw [Mat.entry_ofFn _ hd (Nat.succ_lt_succ (Finset.mem_range.mp hi))]
    _ = (0 : K) := by
        rw [Finset.sum_ite_eq' (Finset.range dim) d, if_pos (Finset.mem_range.mpr hd)]
        ring

namespace Element

variable {e : Element}

theorem sum_nodes (e : Element) (F : Vec K → K) :
    ∑ i ∈ Finset.range e.numNodes, F (e.nodes.getD i #[]) = (e.nodes.map F).sum := by
  have hsum := sum_map_zipIdx #[] (e.nodes : List (Vec K)) (fun p => F p.1) 0
  rw [length_nodes] at hsum
  rw [← hsum, ← Function.comp_def, ← List.map_map, List.zipIdx_map_fst]

theorem sum_tensorValue (he : e.isSimplex = false) (ξ : Vec K) :
    (e.nodes.map fun node => tensorValue e.dim node ξ).sum = 1 := by
  cases e with
  | triangle | tetrahedron => nomatch he
  | segment | square | cube =>
    simp [nodes, corners, tensorValue, productTo, hat, dim, List.range_succ, Vec.entry]
    ring

theorem sum_tensorSlope (he : e.isSimplex = false) (ξ : Vec K) {d : ℕ} (hd : d < e.dim) :
    (e.nodes.map fun node => tensorSlope e.dim node ξ d).sum = 0 := by
  -- The nodes come in pairs that differ in axis `d` alone, and their slopes cancel.
  cases e with
  | triangle | tetrahedron => nomatch he
  | segment =>
    obtain rfl : d = 0 := Nat.lt_one_iff.1 hd
    simp [nodes, corners, tensorSlope, productTo, dim, Vec.entry]
    ring
  | square | cube =>
    simp only [dim] at hd
    interval_cases d
    all_goals
      simp [nodes, corners, tensorSlope, productTo, hat, dim, List.range_succ, Vec.entry]
      ring

theorem numNodes_of_isSimplex (he : e.isSimplex = true) : e.numNodes = e.dim + 1 := by
  cases e with
  | triangle | tetrahedron => rfl
  | segment | square | cube => nomatch he

/-- The shape functions add up to one. -/
theorem sum_shapeValues {φ : Vec K} (h : e.shapeValues ξ = .ok φ) :
    ∑ i ∈ Finset.range e.numNodes, φ.entry i = 1 := by
  rw [shapeValues] at h
  split at h
  · rename_i he
    rw [numNodes_of_isSimplex he]
    exact sum_simplexValues h
  · rename_i he
    obtain ⟨-, rfl⟩ := require_eq_ok.1 h
    calc _ = ∑ i ∈ Finset.range e.numNodes, tensorValue e.dim (e.nodes.getD i #[]) ξ := by
          apply Finset.sum_congr rfl
          intro i hi
          rw [Vec.entry_ofFn _ (length_nodes (K := K) e ▸ Finset.mem_range.mp hi)]
      _ = 1 := (sum_nodes e _).trans (sum_tensorValue (Bool.eq_false_iff.2 he) ξ)

/-- The gradients of the shape functions add up to zero. -/
theorem sum_shapeGradients {m : Mat K} (h : e.shapeGradients ξ = .ok m) {d : ℕ} (hd : d < e.dim) :
    ∑ i ∈ Finset.range e.numNodes, m.entry d i = 0 := by
  rw [shapeGradients] at h
  split at h
  · rename_i he
    obtain rfl := Except.ok.inj h
    rw [numNodes_of_isSimplex he]
    exact sum_simplexGradients hd
  · rename_i he
    obtain ⟨-, rfl⟩ := require_eq_ok.1 h
    calc _ = ∑ i ∈ Finset.range e.numNodes, tensorSlope e.dim (e.nodes.getD i #[]) ξ d := by
          apply Finset.sum_congr rfl
          intro i hi
          rw [Mat.entry_ofFn _ hd (length_nodes (K := K) e ▸ Finset.mem_range.mp hi)]
      _ = 0 := (sum_nodes e _).trans (sum_tensorSlope (Bool.eq_false_iff.2 he) ξ hd)

end Element

end ElementFields
