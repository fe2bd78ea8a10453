import ElementFields.Proofs.Linearity
import ElementFields.Proofs.Meets

namespace ElementFields

variable {K : Type}

def Mat.HasShape (m : Mat K) (rows cols : ℕ) : Prop := m.rows = rows ∧ m.cols = cols

def Mat.AllShaped (ms : List (Mat K)) (count rows cols : ℕ) : Prop :=
  ms.length = count ∧ ∀ m ∈ ms, m.HasShape rows cols

variable [Scalar K]

namespace Vec

theorem yields_dot {u v : Vec K} (h : u.size = v.size) : Yields (u.dot v) fun _ => True :=
  Yields.require h trivial

theorem yields_component {v : Vec K} {i : ℕ} (h : i < v.size) :
    Yields (v.component i) fun _ => True :=
  Yields.require h trivial

end Vec

namespace Mat

variable {a b m : Mat K} {p q n : ℕ}

omit [Scalar K] in
theorem size_flatten (h : m.HasShape p q) : m.flatten.size = p * q := by
  rw [flatten, m.size_entries, h.1, h.2]

theorem HasShape.scale (h : m.HasShape p q) (s : K) : (m.scale s).HasShape p q := h

theorem yields_add (ha : a.HasShape p q) (hb : b.HasShape p q) :
    Yields (a.add b) (·.HasShape p q) := by
  apply Yields.require
  · exact Prod.ext (ha.1.trans hb.1.symm) (ha.2.trans hb.2.symm)
  · exact ha

theorem yields_mul (ha : a.HasShape p n) (hb : b.HasShape n q) :
    Yields (a.mul b) (·.HasShape p q) := by
  apply Yields.require
  · exact ha.2.trans hb.1.symm
  · exact ⟨ha.1, hb.2⟩

theorem yields_transposeMul (ha : a.HasShape n p) (hb : b.HasShape n q) :
    Yields (a.transposeMul b) (·.HasShape p q) := by
  apply Yields.require
  · exact ha.1.trans hb.1.symm
  · exact ⟨ha.2, hb.2⟩

theorem yields_mulVec {v : Vec K} (ha : a.HasShape p n) (hv : v.size = n) :
    Yields (a.mulVec v) fun w => w.size = p := by
  apply Yields.require
  · exact ha.2.trans hv.symm
  · rw [Vec.size_ofFn, ha.1]

theorem yields_dot (ha : a.HasShape p q) (hb : b.HasShape p q) :
    Yields (a.dot b) fun _ => True := by
  apply Yields.require
  · exact Prod.ext (ha.1.trans hb.1.symm) (ha.2.trans hb.2.symm)
  · trivial

theorem yields_columnAt {j : ℕ} (h : m.HasShape p q) (hj : j < q) :
    Yields (m.columnAt j) fun v => v.size = p := by
  apply Yields.require
  · rw [h.2]
    exact hj
  · rw [columnVec, Vec.size_ofFn, h.1]

omit [Scalar K] in
theorem yields_singleColumn (h : m.HasShape p 1) :
    Yields m.singleColumn fun v => v.size = p := by
  apply Yields.require h.2
  rw [size_flatten h, Nat.mul_one]

theorem yields_entryAt {i j : ℕ} (h : m.HasShape p q) (hi : i < p) (hj : j < q) :
    Yields (m.entryAt i j) fun _ => True := by
  apply Yields.require _ trivial
  rw [h.1, h.2]
  exact ⟨hi, hj⟩

theorem yields_number (h : m.HasShape 1 1) : Yields (m.entryAt 0 0) fun _ => True :=
  yields_entryAt h Nat.zero_lt_one Nat.zero_lt_one

theorem shaped_splitColumns (h : m.HasShape p q) : AllShaped m.splitColumns q p 1 := by
  constructor
  · rw [splitColumns, List.length_map, List.length_range, h.2]
  · intro column hc
    obtain ⟨j, -, rfl⟩ := List.mem_map.1 hc
    exact ⟨h.1, rfl⟩

theorem yields_hstack {blocks : List (Mat K)} (h : ∀ block ∈ blocks, block.rows = p) :
    Yields (hstack p blocks) (·.HasShape p (totalCols blocks)) :=
  Yields.require h ⟨rfl, rfl⟩

theorem yields_ofRows {rows : List (Mat K)} (h : ∀ row ∈ rows, row.HasShape 1 q) :
    Yields (ofRows q rows) (·.HasShape rows.length q) :=
  Yields.require (fun row hr => Prod.ext (h row hr).1 (h row hr).2) ⟨rfl, rfl⟩

omit [Scalar K] in
theorem AllShaped.length_zip {as bs : List (Mat K)} {count p' q' : ℕ} (ha : AllShaped as count p q)
    (hb : AllShaped bs count p' q') : (as.zip bs).length = count := by
  rw [List.length_zip, ha.1, hb.1, Nat.min_self]

omit [Scalar K] in
theorem AllShaped.yields_componentAt {ms : List (Mat K)} {count k : ℕ}
    (h : AllShaped ms count p q) (hk : k < count) : Yields (componentAt ms k) (·.HasShape p q) := by
  have hlt : k < ms.length := by rw [h.1]; exact hk
  refine ⟨ms[k], ?_, h.2 _ (List.getElem_mem hlt)⟩
  rw [componentAt_eq_ok_iff, List.getElem?_eq_getElem hlt]

omit [Scalar K] in
/-- Lists of matrices for the same directions are gone through together. -/
theorem AllShaped.of_mem_zip {as bs : List (Mat K)} {count p' q' : ℕ} (ha : AllShaped as count p q)
    (hb : AllShaped bs count p' q') {x : Mat K × Mat K} (hx : x ∈ as.zip bs) :
    x.1.HasShape p q ∧ x.2.HasShape p' q' := by
  obtain ⟨h₁, h₂⟩ := List.of_mem_zip (a := x.1) (b := x.2) hx
  exact ⟨ha.2 _ h₁, hb.2 _ h₂⟩

end Mat

namespace Derivative

variable {D D' : Derivative K} {F : Form} {V G : ℕ} {C : BlockId → ℕ} {d : Directions}
  {s : SpatialDirection} {components : List (Mat K)}

omit [Scalar K] in
/-- The matrices of a derivative for one coefficient and some directions, one for each of them. -/
theorem HasForm.toComponents {c : Coefficient} (hs : d.spatial = some s)
    (hc : d.coefficients = .single c) (h : D.HasForm (d.form V G C)) :
    Mat.AllShaped D.toComponents (s.count G) V (C c.block) := by
  cases s with
  | single axis =>
    rw [Directions.form_axis hs hc] at h
    obtain ⟨m, rfl, hm⟩ := h.exists_matrix
    exact ⟨rfl, fun m' hm' => List.mem_singleton.1 hm' ▸ hm⟩
  | all =>
    rw [Directions.form_all hs hc] at h
    obtain ⟨ms, rfl, hl, hm⟩ := h.exists_perDirection
    exact ⟨hl, hm⟩

theorem yields_add (hD : D.HasForm F) (hD' : D'.HasForm F) : Yields (D.add D') (·.HasForm F) := by
  cases F with
  | matrix rows cols =>
    obtain ⟨m, rfl, hm⟩ := hD.exists_matrix
    obtain ⟨n, rfl, hn⟩ := hD'.exists_matrix
    exact (Mat.yields_add hm hn).bind fun sum hsum => Yields.pure hsum
  | perDirection count rows cols =>
    obtain ⟨ms, rfl, hml, hm⟩ := hD.exists_perDirection
    obtain ⟨ns, rfl, hnl, hn⟩ := hD'.exists_perDirection
    have hsums : Yields ((ms.zip ns).mapM fun p => p.1.add p.2) fun sums =>
        sums.length = (ms.zip ns).length ∧ ∀ sum ∈ sums, sum.HasShape rows cols := by
      refine Yields.mapM fun x hx => ?_
      obtain ⟨h₁, h₂⟩ := Mat.AllShaped.of_mem_zip ⟨hml, hm⟩ ⟨hnl, hn⟩ hx
      exact Mat.yields_add h₁ h₂
    refine hsums.bind fun sums hsums => Yields.pure ⟨?_, hsums.2⟩
    rw [hsums.1, Mat.AllShaped.length_zip ⟨hml, hm⟩ ⟨hnl, hn⟩]

/-- Numbers for the directions stand side by side in one row. -/
theorem yields_ofComponents_spatial (hs : d.spatial = some s) (hc : d.coefficients = .none)
    (h : Mat.AllShaped components (s.count G) 1 1) :
    Yields (ofComponents d 1 components) (·.HasForm (d.form 1 G C)) := by
  have hcols : Mat.totalCols components = s.count G := by
    rw [Mat.totalCols_of_single fun m hm => (h.2 m hm).2, h.1]
  rw [Directions.form_spatial hs hc]
  simp only [ofComponents, hs, hc]
  refine (Mat.yields_hstack fun m hm => (h.2 m hm).1).bind fun row hrow => Yields.pure ?_
  rw [hcols] at hrow
  exact hrow

/-- Matrices for the directions stay apart, unless there is a single direction. -/
theorem yields_ofComponents_mixed {c : Coefficient} (hs : d.spatial = some s)
    (hc : d.coefficients = .single c)
    (h : Mat.AllShaped components (s.count G) 1 (C c.block)) :
    Yields (ofComponents d 1 components) (·.HasForm (d.form 1 G C)) := by
  cases s with
  | single axis =>
    obtain ⟨m, rfl⟩ := List.length_eq_one_iff.1 h.1
    have hm := h.2 m (List.mem_singleton.2 rfl)
    rw [Directions.form_axis hs hc]
    simp only [ofComponents, hs, hc]
    refine (Mat.yields_hstack fun m hm => (h.2 m hm).1).bind fun row hrow => Yields.pure ?_
    exact ⟨hrow.1, hrow.2.trans hm.2⟩
  | all =>
    rw [Directions.form_all hs hc]
    simp only [ofComponents, hs, hc]
    exact Yields.pure h

end Derivative

namespace Request

variable {E : EvaluationError → Prop} {r : Request K} {V G : ℕ} {c₁ c₂ : Coefficient}

omit [Scalar K] in
/-- Without a spatial part, two coefficients are contracted with a column. -/
theorem Fits.meets_column (h : r.Fits V G) (hs : r.directions.spatial = none)
    (hc : r.directions.coefficients = .two c₁ c₂) :
    Meets E r.requireAlong (·.HasShape V 1) := by
  obtain ⟨W, hW, hrows, hcols⟩ := h c₁ c₂ hc
  rw [hs, if_neg fun h => (nomatch h)] at hcols
  rw [requireAlong, hW]
  exact ⟨hrows, hcols⟩

omit [Scalar K] in
/-- With a spatial part, they are contracted with one column for each direction. -/
theorem Fits.meets_columns (h : r.Fits V G) {s : SpatialDirection}
    (hs : r.directions.spatial = some s) (hc : r.directions.coefficients = .two c₁ c₂) :
    Meets E r.requireAlong (·.HasShape V (s.count G)) := by
  obtain ⟨W, hW, -⟩ := h c₁ c₂ hc
  rw [requireAlong, hW]
  exact h.rows_cols hs hc hW

end Request

omit [Scalar K] in
/-- A row of weights has an item for each of its columns. -/
theorem Mat.HasShape.lt_of_mem_zipIdx {W : Mat K} {n k : ℕ} {x : K} (hW : W.HasShape 1 n)
    (h : (x, k) ∈ W.flatten.toList.zipIdx) : k < n := by
  have hk := ElementFields.lt_of_mem_zipIdx h
  rw [Array.length_toList, size_flatten hW, Nat.one_mul] at hk
  exact hk

end ElementFields
