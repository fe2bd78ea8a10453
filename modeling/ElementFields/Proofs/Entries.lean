import ElementFields.Proofs.Exact
import ElementFields.Proofs.Outcome
import ElementFields.Proofs.StackedColumns

namespace ElementFields
open Scalar
open scoped BigOperators

variable {K : Type} [ExactScalar K]

namespace Mat

theorem entry_ofFn_eq_ite (rows cols : ℕ) (f : ℕ → ℕ → K) (i j : ℕ) :
    (ofFn rows cols f).entry i j = if i < rows ∧ j < cols then f i j else 0 := by
  by_cases h : i < rows ∧ j < cols
  · rw [if_pos h, entry_ofFn f h.1 h.2]
  · rw [if_neg h, entry_outside h]

/-- If `f` vanishes outside the shape, it gives the entries everywhere. -/
theorem entry_ofFn_of_vanishes {rows cols : ℕ} {f : ℕ → ℕ → K}
    (hf : ∀ i j, ¬(i < rows ∧ j < cols) → f i j = 0) (i j : ℕ) :
    (ofFn rows cols f).entry i j = f i j := by
  rw [entry_ofFn_eq_ite]
  split
  · rfl
  · rename_i h
    exact (hf i j h).symm

@[simp] theorem entry_zero (rows cols i j : ℕ) : (zero rows cols : Mat K).entry i j = 0 :=
  entry_ofFn_of_vanishes (fun _ _ _ => rfl) i j

@[simp] theorem entry_scale (m : Mat K) (s : K) (i j : ℕ) :
    (m.scale s).entry i j = m.entry i j * s := by
  apply entry_ofFn_of_vanishes
  intro i j h
  rw [entry_outside h, zero_mul]

@[simp] theorem entry_transpose (m : Mat K) (i j : ℕ) : m.transpose.entry i j = m.entry j i := by
  apply entry_ofFn_of_vanishes (f := fun i j => m.entry j i)
  intro i j h
  exact entry_outside fun hm => h ⟨hm.2, hm.1⟩

@[simp] theorem entry_scalar (x : K) : (scalar x).entry 0 0 = x :=
  entry_ofFn _ Nat.zero_lt_one Nat.zero_lt_one

@[simp] theorem entry_column (v : Vec K) (i : ℕ) : (column v).entry i 0 = v.entry i := by
  by_cases h : i < v.size
  · exact entry_ofFn _ h Nat.zero_lt_one
  · rw [entry_outside fun hm => h hm.1, Vec.entry_of_size_le (Nat.le_of_not_lt h)]

theorem entry_identity {n i j : ℕ} (hi : i < n) (hj : j < n) :
    (identity n : Mat K).entry i j = delta i j :=
  entry_ofFn _ hi hj

@[simp] theorem entry_columnVec (m : Mat K) (i j : ℕ) :
    (m.columnVec j).entry i = m.entry i j := by
  by_cases h : i < m.rows
  · exact Vec.entry_ofFn _ h
  · rw [Vec.entry_of_size_le (by rw [columnVec, Vec.size_ofFn]; omega),
      entry_outside fun hm => h hm.1]

@[simp] theorem size_columnVec (m : Mat K) (j : ℕ) : (m.columnVec j).size = m.rows :=
  Vec.size_ofFn _ _

@[simp] theorem cols_scale (m : Mat K) (s : K) : (m.scale s).cols = m.cols := rfl

@[simp] theorem rows_transpose (m : Mat K) : m.transpose.rows = m.cols := rfl

@[simp] theorem cols_transpose (m : Mat K) : m.transpose.cols = m.rows := rfl

@[simp] theorem rows_column (v : Vec K) : (column v).rows = v.size := rfl

theorem add_eq_ok {a b m : Mat K} (h : a.add b = .ok m) :
    (a.rows = b.rows ∧ a.cols = b.cols) ∧ (m.rows = a.rows ∧ m.cols = a.cols) ∧
      ∀ i j, m.entry i j = a.entry i j + b.entry i j := by
  obtain ⟨hs, rfl⟩ := Checked.require_eq_ok_iff.1 h
  have hr : a.rows = b.rows := congrArg Prod.fst hs
  have hc : a.cols = b.cols := congrArg Prod.snd hs
  refine ⟨⟨hr, hc⟩, ⟨rfl, rfl⟩, ?_⟩
  intro i j
  apply entry_ofFn_of_vanishes (f := fun i j => a.entry i j + b.entry i j)
  intro i j hij
  rw [entry_outside hij, entry_outside (m := b) (by rwa [← hr, ← hc]), add_zero]

theorem exists_add {a b : Mat K} (hr : a.rows = b.rows) (hc : a.cols = b.cols) :
    ∃ m, a.add b = .ok m :=
  ⟨_, Checked.require_eq_ok_iff.2 ⟨Prod.ext hr hc, rfl⟩⟩

/-- A sum is known by its entries. -/
theorem add_eq_of_entry {a b m : Mat K} (hb : b.rows = a.rows ∧ b.cols = a.cols)
    (hm : m.rows = a.rows ∧ m.cols = a.cols)
    (he : ∀ i < a.rows, ∀ j < a.cols, m.entry i j = a.entry i j + b.entry i j) :
    a.add b = .ok m := by
  obtain ⟨S, hS⟩ := exists_add hb.1.symm hb.2.symm
  obtain ⟨-, ⟨hrows, hcols⟩, hentry⟩ := add_eq_ok hS
  have hSm : S = m := by
    refine ext_entry (hrows.trans hm.1.symm) (hcols.trans hm.2.symm) fun i j hi hj => ?_
    rw [hentry, he i (hrows ▸ hi) j (hcols ▸ hj)]
  exact hSm ▸ hS

theorem mul_eq_ok {a b m : Mat K} (h : a.mul b = .ok m) :
    a.cols = b.rows ∧ (m.rows = a.rows ∧ m.cols = b.cols) ∧
      ∀ i j, m.entry i j = ∑ k ∈ Finset.range a.cols, a.entry i k * b.entry k j := by
  obtain ⟨hs, rfl⟩ := Checked.require_eq_ok_iff.1 h
  refine ⟨hs, ⟨rfl, rfl⟩, ?_⟩
  intro i j
  rw [entry_ofFn_of_vanishes (f := fun i j => sumTo a.cols fun k => a.entry i k * b.entry k j),
    sumTo_eq_sum]
  intro i j hij
  rw [sumTo_eq_sum]
  apply Finset.sum_eq_zero
  intro k hk
  by_cases hi : i < a.rows
  · rw [entry_outside (m := b) fun hb => hij ⟨hi, hb.2⟩, mul_zero]
  · rw [entry_outside fun ha => hi ha.1, zero_mul]

theorem exists_mul {a b : Mat K} (h : a.cols = b.rows) : ∃ m, a.mul b = .ok m :=
  ⟨_, Checked.require_eq_ok_iff.2 ⟨h, rfl⟩⟩

/-- A product is known by its entries. -/
theorem mul_eq_of_entry {a b m : Mat K} (h : a.cols = b.rows)
    (hm : m.rows = a.rows ∧ m.cols = b.cols)
    (he : ∀ i < a.rows, ∀ j < b.cols,
      m.entry i j = ∑ k ∈ Finset.range a.cols, a.entry i k * b.entry k j) : a.mul b = .ok m := by
  obtain ⟨P, hP⟩ := exists_mul h
  obtain ⟨-, ⟨hrows, hcols⟩, hentry⟩ := mul_eq_ok hP
  have hPm : P = m := by
    refine ext_entry (hrows.trans hm.1.symm) (hcols.trans hm.2.symm) fun i j hi hj => ?_
    rw [hentry, he i (hrows ▸ hi) j (hcols ▸ hj)]
  exact hPm ▸ hP

theorem transposeMul_eq_ok {a b m : Mat K} (h : a.transposeMul b = .ok m) :
    a.rows = b.rows ∧ (m.rows = a.cols ∧ m.cols = b.cols) ∧
      ∀ i j, m.entry i j = ∑ k ∈ Finset.range a.rows, a.entry k i * b.entry k j := by
  obtain ⟨hs, rfl⟩ := Checked.require_eq_ok_iff.1 h
  refine ⟨hs, ⟨rfl, rfl⟩, ?_⟩
  intro i j
  rw [entry_ofFn_of_vanishes (f := fun i j => sumTo a.rows fun k => a.entry k i * b.entry k j),
    sumTo_eq_sum]
  intro i j hij
  rw [sumTo_eq_sum]
  apply Finset.sum_eq_zero
  intro k hk
  by_cases hi : i < a.cols
  · rw [entry_outside (m := b) fun hb => hij ⟨hi, hb.2⟩, mul_zero]
  · rw [entry_outside fun ha => hi ha.2, zero_mul]

theorem mulVec_eq_ok {a : Mat K} {v w : Vec K} (h : a.mulVec v = .ok w) :
    a.cols = v.size ∧ w.size = a.rows ∧
      ∀ i, w.entry i = ∑ k ∈ Finset.range a.cols, a.entry i k * v.entry k := by
  obtain ⟨hs, rfl⟩ := Checked.require_eq_ok_iff.1 h
  refine ⟨hs, Vec.size_ofFn _ _, fun i => ?_⟩
  by_cases hi : i < a.rows
  · rw [Vec.entry_ofFn _ hi, sumTo_eq_sum]
  · rw [Vec.entry_of_size_le (by rw [Vec.size_ofFn]; omega)]
    refine (Finset.sum_eq_zero fun k _ => ?_).symm
    rw [entry_outside fun hm => hi hm.1, zero_mul]

theorem dot_eq_ok {a b : Mat K} {x : K} (h : a.dot b = .ok x) :
    (a.rows = b.rows ∧ a.cols = b.cols) ∧
      x = ∑ j ∈ Finset.range a.cols, ∑ i ∈ Finset.range a.rows, a.entry i j * b.entry i j := by
  obtain ⟨hs, rfl⟩ := Checked.require_eq_ok_iff.1 h
  refine ⟨⟨congrArg Prod.fst hs, congrArg Prod.snd hs⟩, ?_⟩
  simp only [sumTo_eq_sum]

theorem exists_dot {a b : Mat K} (hr : a.rows = b.rows) (hc : a.cols = b.cols) :
    ∃ x, a.dot b = .ok x :=
  ⟨_, Checked.require_eq_ok_iff.2 ⟨Prod.ext hr hc, rfl⟩⟩

theorem columnAt_eq_ok {m : Mat K} {j : ℕ} {v : Vec K} (h : m.columnAt j = .ok v) :
    j < m.cols ∧ v = m.columnVec j := by
  obtain ⟨hj, rfl⟩ := Checked.require_eq_ok_iff.1 h
  exact ⟨hj, rfl⟩

theorem entryAt_eq_ok {m : Mat K} {i j : ℕ} {x : K} (h : m.entryAt i j = .ok x) :
    (i < m.rows ∧ j < m.cols) ∧ x = m.entry i j := by
  obtain ⟨hij, rfl⟩ := Checked.require_eq_ok_iff.1 h
  exact ⟨hij, rfl⟩

/-- In a matrix with one row, the entries listed one after the other are those of the row. -/
theorem entry_flatten_row {m : Mat K} (h : m.rows = 1) (k : ℕ) :
    m.flatten.entry k = m.entry 0 k := by
  have hs := m.size_entries
  rw [h, Nat.one_mul] at hs
  by_cases hk : k < m.cols
  · simp [entry, flatten, Vec.entry, h, hk]
  · rw [entry_outside fun hm => hk hm.2]
    exact Vec.entry_of_size_le (by rw [flatten, hs]; omega)

/-- In a matrix with one column, the entries listed one after the other are those of the column. -/
theorem entry_flatten_column {m : Mat K} (h : m.cols = 1) (k : ℕ) :
    m.flatten.entry k = m.entry k 0 := by
  have hs := m.size_entries
  rw [h, Nat.mul_one] at hs
  by_cases hk : k < m.rows
  · simp [entry, flatten, Vec.entry, h, hk]
  · rw [entry_outside fun hm => hk hm.1]
    exact Vec.entry_of_size_le (by rw [flatten, hs]; omega)

theorem ofRows_eq_ok {cols : ℕ} {rows : List (Mat K)} {m : Mat K} (h : ofRows cols rows = .ok m) :
    (∀ b ∈ rows, b.rows = 1 ∧ b.cols = cols) ∧ (m.rows = rows.length ∧ m.cols = cols) ∧
      ∀ (i : ℕ) (b : Mat K), rows[i]? = some b → ∀ j, j < cols → m.entry i j = b.entry 0 j := by
  obtain ⟨hb, rfl⟩ := Checked.require_eq_ok_iff.1 h
  refine ⟨fun b hm => ⟨congrArg Prod.fst (hb b hm), congrArg Prod.snd (hb b hm)⟩, ⟨rfl, rfl⟩, ?_⟩
  intro i b hi j hj
  have hl : i < rows.length := (List.getElem?_eq_some_iff.1 hi).1
  rw [entry_ofFn _ hl hj, hi]

end Mat

/-- If each step of a fold keeps `P` and adds `g` of its item to `μ`, then the result has `P` and the
fold has added all of them. -/
theorem foldlM_adds {ε σ α M : Type} [AddCommMonoid M] {step : σ → α → Except ε σ} {l : List α}
    {start final : σ} (P : σ → Prop) (μ : σ → M) (g : α → M)
    (hstep : ∀ s x t, P s → step s x = .ok t → P t ∧ μ t = μ s + g x) (hs : P start)
    (h : l.foldlM step start = .ok final) : P final ∧ μ final = μ start + (l.map g).sum := by
  induction l generalizing start with
  | nil =>
    rw [List.foldlM_nil, pure_eq_ok_iff] at h
    rw [← h, List.map_nil, List.sum_nil, add_zero]
    exact ⟨hs, rfl⟩
  | cons x rest ih =>
    rw [List.foldlM_cons, bind_eq_ok_iff] at h
    obtain ⟨t, ht, h⟩ := h
    obtain ⟨hP, hμ⟩ := hstep start x t hs ht
    obtain ⟨hP', hμ'⟩ := ih hP h
    rw [hμ', hμ, List.map_cons, List.sum_cons, add_assoc]
    exact ⟨hP', rfl⟩

theorem foldlM_zipIdx_adds {ε σ M : Type} [AddCommMonoid M] {step : σ → K × ℕ → Except ε σ}
    {v : Vec K} {start final : σ} (P : σ → Prop) (μ : σ → M) (g : K → ℕ → M)
    (hstep : ∀ s x k t, P s → step s (x, k) = .ok t → P t ∧ μ t = μ s + g x k) (hs : P start)
    (h : v.toList.zipIdx.foldlM step start = .ok final) :
    P final ∧ μ final = μ start + ∑ k ∈ Finset.range v.size, g (v.entry k) k := by
  obtain ⟨hP, hμ⟩ := foldlM_adds P μ (fun p => g p.1 p.2) (fun s p t => hstep s p.1 p.2 t) hs h
  refine ⟨hP, ?_⟩
  rw [hμ, sum_map_zipIdx 0, Array.length_toList]
  congr 1
  refine Finset.sum_congr rfl ?_
  intro k _
  rw [Nat.zero_add, Vec.entry, Array.getD_eq_getD_getElem?, List.getD_eq_getElem?_getD,
    Array.getElem?_toList]

/-- The inner product of vectors, as a sum over the components of the first. -/
theorem Vec.inner_eq_sum (u v : Vec K) :
    u.inner v = ∑ i ∈ Finset.range u.size, u.entry i * v.entry i :=
  sumTo_eq_sum _ _

end ElementFields
