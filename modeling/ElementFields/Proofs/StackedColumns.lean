import Mathlib.Algebra.BigOperators.Group.List.Basic
import Mathlib.Algebra.GroupWithZero.Nat
import ElementFields.Expression.Derivative

namespace ElementFields

variable {K : Type} [Scalar K]

namespace Mat

theorem getElem?_splitColumns {m : Mat K} {j : ℕ} (hj : j < m.cols) :
    ∃ b, m.splitColumns[j]? = some b ∧ (b.rows = m.rows ∧ b.cols = 1) ∧
      ∀ i, b.entry i 0 = m.entry i j := by
  refine ⟨ofFn m.rows 1 fun i _ => m.entry i j, ?_, ⟨rfl, rfl⟩, ?_⟩
  · rw [splitColumns, List.getElem?_map, List.getElem?_range hj, Option.map_some]
  · intro i
    by_cases hi : i < m.rows
    · exact entry_ofFn _ hi Nat.zero_lt_one
    · rw [entry_outside (m := m) fun h => hi h.1]
      exact entry_outside fun h => hi h.1

@[simp] theorem length_splitColumns (m : Mat K) : m.splitColumns.length = m.cols := by
  rw [splitColumns, List.length_map, List.length_range]

theorem shape_of_mem_splitColumns {m b : Mat K} (h : b ∈ m.splitColumns) :
    b.rows = m.rows ∧ b.cols = 1 := by
  obtain ⟨j, -, rfl⟩ := List.mem_map.1 h
  exact ⟨rfl, rfl⟩

omit [Scalar K] in
theorem totalCols_eq_sum (blocks : List (Mat K)) : totalCols blocks = (blocks.map cols).sum := by
  induction blocks with
  | nil => rfl
  | cons head rest ih => rw [totalCols, ih, List.map_cons, List.sum_cons]

omit [Scalar K] in
/-- Blocks of one width end at its multiples. -/
theorem totalCols_of_width {width : ℕ} {blocks : List (Mat K)}
    (hb : ∀ b ∈ blocks, b.cols = width) : totalCols blocks = blocks.length * width := by
  induction blocks with
  | nil => rw [totalCols, List.length_nil, Nat.zero_mul]
  | cons head rest ih =>
    have hr := ih fun b hm => hb b (List.mem_cons_of_mem head hm)
    rw [totalCols, hr, hb head List.mem_cons_self, List.length_cons, Nat.add_one_mul, Nat.add_comm]

omit [Scalar K] in
theorem totalCols_of_single {blocks : List (Mat K)} (hb : ∀ b ∈ blocks, b.cols = 1) :
    totalCols blocks = blocks.length := by
  rw [totalCols_of_width hb, Nat.mul_one]

section Block

variable {blocks : List (Mat K)} {b c : ℕ} {m : Mat K} (hb : blocks[b]? = some m)
include hb

/-- The columns of a block come behind those of the blocks before it. -/
theorem stackedEntry_block (hc : c < m.cols) (i : ℕ) :
    stackedEntry blocks i (totalCols (blocks.take b) + c) = m.entry i c := by
  induction blocks generalizing b with
  | nil => nomatch hb
  | cons head rest ih =>
    cases b with
    | zero =>
      obtain rfl := Option.some.inj hb
      rw [List.take_zero, totalCols, Nat.zero_add, stackedEntry, if_pos hc]
    | succ b =>
      rw [List.take_succ_cons, totalCols, Nat.add_assoc, stackedEntry_add]
      exact ih hb

omit [Scalar K] in
theorem block_lt_totalCols (hc : c < m.cols) :
    totalCols (blocks.take b) + c < totalCols blocks := by
  induction blocks generalizing b with
  | nil => nomatch hb
  | cons head rest ih =>
    cases b with
    | zero =>
      obtain rfl := Option.some.inj hb
      rw [List.take_zero, totalCols, totalCols]
      omega
    | succ b =>
      have hlt := ih hb
      rw [List.take_succ_cons, totalCols, totalCols]
      omega

omit [Scalar K] in
/-- The blocks before the one at place `b` are `b` in number. -/
theorem totalCols_take_of_width {width : ℕ} (hw : ∀ b ∈ blocks, b.cols = width) :
    totalCols (blocks.take b) = b * width := by
  have hlt : b < blocks.length := (List.getElem?_eq_some_iff.1 hb).1
  rw [totalCols_of_width fun m hm => hw m (List.mem_of_mem_take hm), List.length_take,
    Nat.min_eq_left (Nat.le_of_lt hlt)]

/-- With blocks of one column each, column `b` is the block at place `b`. -/
theorem stackedEntry_of_single (hw : ∀ b ∈ blocks, b.cols = 1) (i : ℕ) :
    stackedEntry blocks i b = m.entry i 0 := by
  have hm : 0 < m.cols := by
    rw [hw m (List.mem_of_getElem? hb)]
    exact Nat.one_pos
  have h := stackedEntry_block hb hm i
  rwa [totalCols_take_of_width hb hw, Nat.mul_one, Nat.add_zero] at h

end Block

section Stack

variable {rows : ℕ} {blocks : List (Mat K)} {s : Mat K}

theorem hstack_eq_ok (h : hstack rows blocks = .ok s) :
    (∀ b ∈ blocks, b.rows = rows) ∧ (s.rows = rows ∧ s.cols = totalCols blocks) ∧
      ∀ i j, i < rows → j < totalCols blocks → s.entry i j = stackedEntry blocks i j := by
  obtain ⟨hb, rfl⟩ := Checked.require_eq_ok_iff.1 h
  exact ⟨hb, ⟨rfl, rfl⟩, fun i j hi hj => entry_ofFn _ hi hj⟩

theorem exists_hstack (h : ∀ b ∈ blocks, b.rows = rows) : ∃ s, hstack rows blocks = .ok s :=
  ⟨_, Checked.require_eq_ok_iff.2 ⟨h, rfl⟩⟩

/-- Stacking breaks the contract on rows, and no other one, if some block has another height. -/
theorem hstack_eq_error_iff {v : Violation} :
    hstack rows blocks = .error v ↔ v = .blockRows ∧ ∃ b ∈ blocks, b.rows ≠ rows := by
  unfold hstack Checked.require
  split
  · rename_i hall
    constructor
    · exact fun h => nomatch h
    · rintro ⟨-, b, hb, hne⟩
      exact absurd (hall b hb) hne
  · rename_i hnot
    rw [Except.error.injEq, eq_comm]
    refine (and_iff_left ?_).symm
    by_contra hno
    exact hnot fun b hb => by_contra fun hne => hno ⟨b, hb, hne⟩

/-- A single block stays as it is. -/
theorem hstack_singleton {b m : Mat K} (h : hstack rows [b] = .ok m) : m = b := by
  obtain ⟨hb, ⟨hr, hc⟩, he⟩ := hstack_eq_ok h
  have hrows : b.rows = rows := hb b (List.mem_singleton.2 rfl)
  have hcols : totalCols [b] = b.cols := Nat.add_zero _
  rw [hcols] at hc he
  refine ext_entry (hr.trans hrows.symm) hc ?_
  intro i j hi hj
  rw [hr] at hi
  rw [hc] at hj
  rw [he i j hi hj, stackedEntry, if_pos hj]

/-- The columns of a matrix, put side by side again. -/
theorem hstack_splitColumns (m : Mat K) : hstack m.rows m.splitColumns = .ok m := by
  have hone : ∀ b ∈ m.splitColumns, b.cols = 1 := fun b hb => (shape_of_mem_splitColumns hb).2
  obtain ⟨s, hs⟩ := exists_hstack fun (b : Mat K) (hb : b ∈ m.splitColumns) =>
    (shape_of_mem_splitColumns hb).1
  obtain ⟨-, ⟨hrows, hcols⟩, hentry⟩ := hstack_eq_ok hs
  rw [totalCols_of_single hone, length_splitColumns] at hcols hentry
  -- Stacking never fails here, so it is enough to compare the two matrices.
  have hsm : s = m := by
    refine ext_entry hrows hcols fun i j hi hj => ?_
    rw [hrows] at hi
    rw [hcols] at hj
    obtain ⟨b, hb, -, hcolumn⟩ := getElem?_splitColumns hj
    rw [hentry i j hi hj, stackedEntry_of_single hb hone, hcolumn]
  exact hsm ▸ hs

/-- Single columns that were put side by side, taken apart again. -/
theorem splitColumns_of_single (h : hstack rows blocks = .ok s) (hone : ∀ b ∈ blocks, b.cols = 1) :
    s.splitColumns = blocks := by
  obtain ⟨hr, ⟨hrows, hcols⟩, hentry⟩ := hstack_eq_ok h
  rw [totalCols_of_single hone] at hcols hentry
  apply List.ext_getElem (by rw [length_splitColumns, hcols])
  intro j hj hj'
  obtain ⟨b, hb, ⟨hbr, hbc⟩, hcolumn⟩ := getElem?_splitColumns (m := s) (hcols.symm ▸ hj')
  have hmem := List.getElem_mem hj'
  rw [List.getElem?_eq_getElem hj, Option.some.injEq] at hb
  rw [hb]
  refine ext_entry ?_ ?_ fun i k hi hk => ?_
  · rw [hbr, hrows, hr _ hmem]
  · rw [hbc, hone _ hmem]
  · rw [hbr, hrows] at hi
    obtain rfl : k = 0 := by omega
    rw [hcolumn, hentry i j hi hj', stackedEntry_of_single (List.getElem?_eq_getElem hj') hone]

end Stack

def writeColumns (m : Mat K) (offset : ℕ) (block : Mat K) : Mat K :=
  ofFn m.rows m.cols fun i j =>
    if offset ≤ j ∧ j < offset + block.cols then block.entry i (j - offset) else m.entry i j

/-- The matrix with blocks of its height written over its columns from `offset` on, each of them
where the one before it ends. -/
def writeBlocks (m : Mat K) (offset : ℕ) : List (Mat K) → Checked (Mat K)
  | [] => .ok m
  | block :: rest =>
    if block.rows = m.rows then (m.writeColumns offset block).writeBlocks (offset + block.cols) rest
    else .error .blockRows

/-- A column lies before the first block, in it, or behind it. -/
theorem entry_writeColumns {m head : Mat K} (rest : List (Mat K)) (offset : ℕ) {i j : ℕ}
    (hi : i < m.rows) (hj : j < m.cols) :
    (if j < offset + head.cols then (m.writeColumns offset head).entry i j
      else stackedEntry rest i (j - (offset + head.cols))) =
      if j < offset then m.entry i j else stackedEntry (head :: rest) i (j - offset) := by
  have hwritten : (m.writeColumns offset head).entry i j =
      if offset ≤ j ∧ j < offset + head.cols then head.entry i (j - offset) else m.entry i j :=
    entry_ofFn _ hi hj
  rw [hwritten]
  by_cases hbefore : j < offset
  · have hout : ¬(offset ≤ j ∧ j < offset + head.cols) := by omega
    rw [if_pos (Nat.lt_add_right _ hbefore), if_pos hbefore, if_neg hout]
  rw [if_neg hbefore]
  by_cases hin : j < offset + head.cols
  · have hlt : j - offset < head.cols := by omega
    rw [if_pos hin, if_pos ⟨Nat.le_of_not_lt hbefore, hin⟩, stackedEntry, if_pos hlt]
  · obtain ⟨k, rfl⟩ := Nat.exists_eq_add_of_le (Nat.le_of_not_lt hin)
    have hk : offset + head.cols + k - offset = head.cols + k := by omega
    rw [if_neg hin, hk, stackedEntry_add, Nat.add_sub_cancel_left]

/-- Up to the offset nothing changes, and from there on the columns are those of the blocks. -/
theorem writeBlocks_eq {m : Mat K} {offset : ℕ} {blocks : List (Mat K)}
    (h : m.cols = offset + totalCols blocks) :
    m.writeBlocks offset blocks = .require (∀ b ∈ blocks, b.rows = m.rows) .blockRows
      (ofFn m.rows m.cols fun i j =>
        if j < offset then m.entry i j else stackedEntry blocks i (j - offset)) := by
  -- The induction is on the blocks that are left, for every matrix with some of them written.
  induction blocks generalizing m offset with
  | nil =>
    rw [writeBlocks, Checked.require, if_pos fun b hb => absurd hb List.not_mem_nil]
    refine congrArg Except.ok (ext_entry rfl rfl fun i j hi hj => ?_)
    rw [totalCols, Nat.add_zero] at h
    rw [entry_ofFn _ hi hj, if_pos (h ▸ hj)]
  | cons head rest ih =>
    rw [writeBlocks]
    by_cases hhead : head.rows = m.rows
    · rw [totalCols, ← Nat.add_assoc] at h
      have hrest : (m.writeColumns offset head).cols = offset + head.cols + totalCols rest := h
      have hiff : (∀ b ∈ rest, b.rows = m.rows) ↔ ∀ b ∈ head :: rest, b.rows = m.rows := by
        rw [List.forall_mem_cons]
        exact (and_iff_right hhead).symm
      rw [if_pos hhead, ih hrest]
      simp only [Checked.require, ← hiff]
      refine if_congr Iff.rfl (congrArg Except.ok ?_) rfl
      refine ext_entry rfl rfl fun i j (hi : i < m.rows) (hj : j < m.cols) => ?_
      refine (entry_ofFn _ hi hj).trans (Eq.trans ?_ (entry_ofFn _ hi hj).symm)
      exact entry_writeColumns rest offset hi hj
    · have hnot : ¬∀ b ∈ head :: rest, b.rows = m.rows := fun h => hhead (h head List.mem_cons_self)
      rw [if_neg hhead, Checked.require, if_neg hnot]

/-- Stacking fills a zero matrix with one block after the other. -/
theorem writeBlocks_zero (rows : ℕ) (blocks : List (Mat K)) :
    (zero rows (totalCols blocks)).writeBlocks 0 blocks = hstack rows blocks := by
  rw [writeBlocks_eq (Nat.zero_add _).symm]
  rfl

/-- The matrix has the given height, and its columns are those of the blocks one after the other. -/
structure ConsistsOf (s : Mat K) (rows : ℕ) (blocks : List (Mat K)) : Prop where
  height : s.rows = rows
  width : s.cols = (blocks.map Mat.cols).sum
  /-- A block starts behind the columns of the blocks before it. -/
  entry : ∀ {b : ℕ} {m : Mat K}, blocks[b]? = some m → ∀ r < rows, ∀ c < m.cols,
    s.entry r (((blocks.take b).map Mat.cols).sum + c) = m.entry r c

theorem consistsOf_of_hstack {rows : ℕ} {blocks : List (Mat K)} {s : Mat K}
    (h : hstack rows blocks = .ok s) : s.ConsistsOf rows blocks := by
  obtain ⟨-, ⟨hrows, hcols⟩, hentry⟩ := hstack_eq_ok h
  refine ⟨hrows, hcols.trans (totalCols_eq_sum blocks), fun {b m} hb r hr c hc => ?_⟩
  rw [← totalCols_eq_sum, hentry r _ hr (block_lt_totalCols hb hc), stackedEntry_block hb hc]

/-- The derivatives for the directions, as one matrix: direction `k` takes the columns from `k * width`
on. Without directions there are no rows either. -/
theorem toMatrix_perDirection {height width : ℕ} {ms : List (Mat K)}
    (h : ∀ m ∈ ms, m.shape = (height, width)) :
    ∃ s, (Derivative.perDirection ms).toMatrix = .ok s ∧
      (s.rows = if ms = [] then 0 else height) ∧ s.cols = ms.length * width ∧
      ∀ k m, ms[k]? = some m → ∀ r < height, ∀ c < width,
        s.entry r (k * width + c) = m.entry r c := by
  have hheight : ∀ m ∈ ms, m.rows = height := fun m hm => congrArg Prod.fst (h m hm)
  have hwidth : ∀ m ∈ ms, m.cols = width := fun m hm => congrArg Prod.snd (h m hm)
  cases ms with
  | nil => exact ⟨_, rfl, rfl, (Nat.zero_mul width).symm, fun k m hm => nomatch hm⟩
  | cons head rest =>
    have hhead : head.rows = height := hheight head List.mem_cons_self
    obtain ⟨s, hs⟩ := exists_hstack hheight
    have hstacked := consistsOf_of_hstack hs
    refine ⟨s, ?_, hstacked.height, ?_, fun k m hm r hr c hc => ?_⟩
    · rw [← hs, ← hhead]
      rfl
    · rw [hstacked.width, ← totalCols_eq_sum, totalCols_of_width hwidth]
    · have hm' : c < m.cols := by rwa [hwidth m (List.mem_of_getElem? hm)]
      have hentry := hstacked.entry hm r hr c hm'
      rwa [← totalCols_eq_sum, totalCols_take_of_width hm hwidth] at hentry

/-- Stacking and splitting columns undo each other. A matrix is the stack of its columns. Stacking fails
if a block has another height, and for no other reason; otherwise each block stands where the columns of
the blocks before it end, just as if all were written into a zero matrix one after the other, and blocks
of one column are the columns of the stack. So the derivatives for the directions stand side by side,
each in the columns of its direction. -/
theorem hstack_places_blocks :
    (∀ m : Mat K, hstack m.rows m.splitColumns = .ok m) ∧
    (∀ (rows : ℕ) (blocks : List (Mat K)),
      (∀ v, hstack rows blocks = .error v ↔ v = .blockRows ∧ ∃ b ∈ blocks, b.rows ≠ rows) ∧
      (∀ s, hstack rows blocks = .ok s → s.ConsistsOf rows blocks ∧
        ((∀ b ∈ blocks, b.cols = 1) → s.splitColumns = blocks)) ∧
      (zero rows (totalCols blocks)).writeBlocks 0 blocks = hstack rows blocks) ∧
    ∀ (height width : ℕ) (ms : List (Mat K)), (∀ m ∈ ms, m.shape = (height, width)) →
      ∃ s, (Derivative.perDirection ms).toMatrix = .ok s ∧
        (s.rows = if ms = [] then 0 else height) ∧ s.cols = ms.length * width ∧
        ∀ k m, ms[k]? = some m → ∀ r < height, ∀ c < width,
          s.entry r (k * width + c) = m.entry r c := by
  refine ⟨hstack_splitColumns, fun rows blocks => ⟨fun v => hstack_eq_error_iff, fun s hs => ?_, ?_⟩,
    fun height width ms h => toMatrix_perDirection h⟩
  · exact ⟨consistsOf_of_hstack hs, splitColumns_of_single hs⟩
  · exact writeBlocks_zero rows blocks

/-- Blocks with two columns, none and one; another height; and two directions. -/
theorem hstack_places_blocks_mixed :
    let wide : Mat Float := ofFn 2 2 fun i j => Float.ofNat (2 * i + j)
    let empty : Mat Float := ofFn 2 0 fun _ _ => 0
    let single : Mat Float := ofFn 2 1 fun i _ => Float.ofNat (7 + i)
    (∃ s, hstack 2 [wide, empty, single] = .ok s ∧ s.cols = 3 ∧
      s.entry 1 2 = Float.ofNat 8 ∧ s.entry 1 0 = Float.ofNat 2) ∧
    hstack 3 [wide, empty, single] = .error .blockRows ∧
    (∀ m ∈ [wide, wide], m.shape = (2, 2)) ∧
      ∃ s, (Derivative.perDirection [wide, wide]).toMatrix = .ok s ∧
        s.entry 1 3 = Float.ofNat 3 := by
  intro wide empty single
  obtain ⟨-, hstacks, hdirections⟩ := hstack_places_blocks (K := Float)
  have hrows : ∀ b ∈ [wide, empty, single], b.rows = 2 := by simp [wide, empty, single]
  obtain ⟨s, hs⟩ := exists_hstack hrows
  obtain ⟨-, hok, -⟩ := hstacks 2 [wide, empty, single]
  obtain ⟨⟨-, hcols, hentry⟩, -⟩ := hok s hs
  obtain ⟨herror, -⟩ := hstacks 3 [wide, empty, single]
  have hshape : ∀ m ∈ [wide, wide], m.shape = (2, 2) := by simp [wide, shape]
  obtain ⟨t, ht, -, -, hblock⟩ := hdirections 2 2 [wide, wide] hshape
  refine ⟨⟨s, hs, hcols, ?_, ?_⟩, ?_, hshape, t, ht, ?_⟩
  · have hlast : s.entry 1 2 = single.entry 1 0 :=
      hentry (b := 2) rfl 1 Nat.one_lt_two 0 Nat.one_pos
    rw [hlast]
    exact entry_ofFn _ Nat.one_lt_two Nat.one_pos
  · have hfirst : s.entry 1 0 = wide.entry 1 0 := hentry (b := 0) rfl 1 Nat.one_lt_two 0 Nat.two_pos
    rw [hfirst]
    exact entry_ofFn _ Nat.one_lt_two Nat.two_pos
  · refine (herror .blockRows).2 ⟨rfl, wide, List.mem_cons_self, ?_⟩
    decide
  · have hsecond : t.entry 1 3 = wide.entry 1 1 :=
      hblock 1 wide rfl 1 Nat.one_lt_two 1 Nat.one_lt_two
    rw [hsecond]
    exact entry_ofFn _ Nat.one_lt_two Nat.one_lt_two

end Mat

end ElementFields
