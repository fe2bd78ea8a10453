import ElementFields.Proofs.Entries
import ElementFields.Expression.Operand

namespace ElementFields

inductive Form where
  | matrix (rows cols : ℕ)
  | perDirection (count rows cols : ℕ)
deriving DecidableEq, Repr

namespace Form

def count : Form → ℕ
  | matrix _ _ => 1
  | perDirection n _ _ => n

def rows : Form → ℕ
  | matrix m _ | perDirection _ m _ => m

def cols : Form → ℕ
  | matrix _ n | perDirection _ _ n => n

end Form

def SpatialDirection.count (G : ℕ) : SpatialDirection → ℕ
  | single _ => 1
  | all => G

def SpatialDirection.axis (k : ℕ) : SpatialDirection → ℕ
  | single axis => axis
  | all => k

/-- The form of a derivative of an expression with `V` components on an element with `G` axes,
where the corrections of block `b` have `C b` components. -/
def Directions.form (V G : ℕ) (C : BlockId → ℕ) (d : Directions) : Form :=
  match d.spatial, d.coefficients with
  | none, .none => .matrix V 1
  | some s, .none => .matrix V (s.count G)
  | some .all, .single c => .perDirection G V (C c.block)
  | _, .single c => .matrix V (C c.block)
  | _, .two c₁ c₂ => .matrix (C c₁.block) (C c₂.block)

namespace Directions

variable {V G : ℕ} {C : BlockId → ℕ} {d : Directions}

theorem form_spatial {s : SpatialDirection} (hs : d.spatial = some s)
    (hc : d.coefficients = .none) : d.form V G C = .matrix V (s.count G) := by
  rw [form, hs, hc]

theorem form_single {c : Coefficient} (hs : d.spatial = none) (hc : d.coefficients = .single c) :
    d.form V G C = .matrix V (C c.block) := by
  rw [form, hs, hc]

theorem form_axis {c : Coefficient} {k : ℕ} (hs : d.spatial = some (.single k))
    (hc : d.coefficients = .single c) : d.form V G C = .matrix V (C c.block) := by
  rw [form, hs, hc]

theorem form_all {c : Coefficient} (hs : d.spatial = some .all) (hc : d.coefficients = .single c) :
    d.form V G C = .perDirection G V (C c.block) := by
  rw [form, hs, hc]

/-- One matrix for each direction in space, though a single direction leaves a single matrix. -/
theorem count_form_mixed {s : SpatialDirection} {c : Coefficient} (hs : d.spatial = some s)
    (hc : d.coefficients = .single c) :
    (d.form V G C).count = s.count G ∧ (d.form V G C).rows = V ∧
      (d.form V G C).cols = C c.block := by
  cases s with
  | single axis =>
    rw [form_axis hs hc]
    exact ⟨rfl, rfl, rfl⟩
  | all =>
    rw [form_all hs hc]
    exact ⟨rfl, rfl, rfl⟩

theorem mem_coefficientList {c : Coefficient} (hc : d.coefficients = .single c) :
    c ∈ d.coefficientList := by
  rw [coefficientList, hc]
  exact List.mem_singleton.2 rfl

theorem mem_coefficientList_two {c₁ c₂ : Coefficient} (hc : d.coefficients = .two c₁ c₂) :
    c₁ ∈ d.coefficientList ∧ c₂ ∈ d.coefficientList := by
  rw [coefficientList, hc]
  exact ⟨List.mem_cons_self, List.mem_cons_of_mem _ (List.mem_singleton.2 rfl)⟩

theorem form_two {c₁ c₂ : Coefficient} (hc : d.coefficients = .two c₁ c₂) :
    d.form V G C = .matrix (C c₁.block) (C c₂.block) := by
  rw [form, hc]
  cases d.spatial with
  | none => rfl
  | some s => cases s <;> rfl

/-- Directions that a node may ask of an operand when it was asked for `d` itself: no more
coefficients, and in space nothing, the same, or everything. -/
def DrawnFrom (d' d : Directions) : Prop :=
  (d'.spatial = none ∨ d'.spatial = d.spatial ∨ d'.spatial = some .all) ∧
    ∀ c ∈ d'.coefficientList, c ∈ d.coefficientList

theorem DrawnFrom.refl (d : Directions) : d.DrawnFrom d := ⟨Or.inr (Or.inl rfl), fun _ h => h⟩

/-- Directions that occur in a term of the product rule or the chain rule for `d`: in space nothing or
the same, and of the coefficients none, a single one or all. -/
def PartOf (d' d : Directions) : Prop :=
  (d'.spatial = none ∨ d'.spatial = d.spatial) ∧
    (d'.coefficients = .none ∨ d'.coefficients = d.coefficients ∨
      ∃ c ∈ d.coefficientList, d'.coefficients = .single c)

theorem PartOf.refl (d : Directions) : d.PartOf d := ⟨Or.inr rfl, Or.inr (Or.inl rfl)⟩

theorem PartOf.drawnFrom {d' : Directions} (h : d'.PartOf d) : d'.DrawnFrom d := by
  obtain ⟨hs, hc⟩ := h
  refine ⟨hs.imp_right Or.inl, fun c hmem => ?_⟩
  rw [coefficientList] at hmem
  rcases hc with hc | hc | ⟨c', hc', hc⟩
  · rw [hc] at hmem
    exact absurd hmem List.not_mem_nil
  · rwa [hc] at hmem
  · rw [hc] at hmem
    obtain rfl := List.mem_singleton.1 hmem
    exact hc'

theorem PartOf.coefficients_eq_two {d' : Directions} (h : d'.PartOf d) {c₁ c₂ : Coefficient}
    (hc : d'.coefficients = .two c₁ c₂) : d.coefficients = .two c₁ c₂ := by
  rcases h.2 with h | h | ⟨c, -, h⟩
  · nomatch hc.symm.trans h
  · exact h.symm.trans hc
  · nomatch hc.symm.trans h

end Directions

namespace Request

variable {K : Type} (r : Request K)

theorem spatialPart_partOf : r.spatialPart.directions.PartOf r.directions :=
  ⟨Or.inr rfl, Or.inl rfl⟩

theorem coefficientPart_partOf {c : Coefficient} (hc : c ∈ r.directions.coefficientList) :
    (r.coefficientPart c).directions.PartOf r.directions :=
  ⟨Or.inl rfl, Or.inr (Or.inr ⟨c, hc, rfl⟩)⟩

theorem mixedPart_partOf {c : Coefficient} (hc : c ∈ r.directions.coefficientList) :
    (r.mixedPart c).directions.PartOf r.directions :=
  ⟨Or.inr rfl, Or.inr (Or.inr ⟨c, hc, rfl⟩)⟩

theorem withoutSpatialAlong_partOf (along : Option (Mat K)) :
    (r.withoutSpatialAlong along).directions.PartOf r.directions :=
  ⟨Or.inl rfl, Or.inr (Or.inl rfl)⟩

theorem withAlong_partOf (along : Option (Mat K)) :
    (r.withAlong along).directions.PartOf r.directions := Directions.PartOf.refl _

theorem spatialPart_drawnFrom : r.spatialPart.directions.DrawnFrom r.directions :=
  r.spatialPart_partOf.drawnFrom

theorem coefficientPart_drawnFrom {c : Coefficient} (hc : c ∈ r.directions.coefficientList) :
    (r.coefficientPart c).directions.DrawnFrom r.directions := (r.coefficientPart_partOf hc).drawnFrom

theorem mixedPart_drawnFrom {c : Coefficient} (hc : c ∈ r.directions.coefficientList) :
    (r.mixedPart c).directions.DrawnFrom r.directions := (r.mixedPart_partOf hc).drawnFrom

theorem withoutSpatialAlong_drawnFrom (along : Option (Mat K)) :
    (r.withoutSpatialAlong along).directions.DrawnFrom r.directions :=
  (r.withoutSpatialAlong_partOf along).drawnFrom

theorem withAlong_drawnFrom (along : Option (Mat K)) :
    (r.withAlong along).directions.DrawnFrom r.directions := (r.withAlong_partOf along).drawnFrom

/-- What a request for two coefficients is contracted with has `V` rows, and one column for each of
the directions in space. -/
def Fits (V G : ℕ) (r : Request K) : Prop :=
  ∀ c₁ c₂, r.directions.coefficients = .two c₁ c₂ → ∃ W, r.along = some W ∧
    W.rows = V ∧ W.cols = if r.directions.spatial = some .all then G else 1

variable {r} {V G : ℕ}

theorem fits_of_none (h : r.directions.coefficients = .none) : r.Fits V G := by
  intro c₁ c₂ hc
  rw [h] at hc
  nomatch hc

theorem fits_of_single {c : Coefficient} (h : r.directions.coefficients = .single c) :
    r.Fits V G := by
  intro c₁ c₂ hc
  rw [h] at hc
  nomatch hc

theorem Fits.rows_cols {s : SpatialDirection} {c₁ c₂ : Coefficient} {W : Mat K} (h : r.Fits V G)
    (hs : r.directions.spatial = some s) (hc : r.directions.coefficients = .two c₁ c₂)
    (hW : r.along = some W) : W.rows = V ∧ W.cols = s.count G := by
  obtain ⟨W', hW', hrows, hcols⟩ := h c₁ c₂ hc
  obtain rfl := Option.some.inj (hW.symm.trans hW')
  refine ⟨hrows, ?_⟩
  rw [hcols, hs]
  cases s with
  | single axis => exact if_neg fun h => (nomatch h)
  | all => exact if_pos rfl

theorem withoutSpatialAlong_fits {W : Mat K} (hW : W.rows = V ∧ W.cols = 1) :
    (r.withoutSpatialAlong (some W)).Fits V G :=
  fun _ _ _ => ⟨W, rfl, hW.1, hW.2.trans (if_neg fun h => (nomatch h)).symm⟩

theorem withAlong_fits {s : SpatialDirection} {W : Mat K} (hs : r.directions.spatial = some s)
    (hW : W.rows = V ∧ W.cols = s.count G) : (r.withAlong (some W)).Fits V G := by
  refine fun _ _ _ => ⟨W, rfl, hW.1, hW.2.trans ?_⟩
  show s.count G = if r.directions.spatial = some .all then G else 1
  rw [hs]
  cases s with
  | single axis => exact (if_neg fun h => (nomatch h)).symm
  | all => exact (if_pos rfl).symm

end Request

namespace Derivative

variable {K : Type}

def HasForm : Derivative K → Form → Prop
  | matrix m, .matrix rows cols => m.rows = rows ∧ m.cols = cols
  | perDirection ms, .perDirection count rows cols =>
    ms.length = count ∧ ∀ m ∈ ms, m.rows = rows ∧ m.cols = cols
  | matrix _, .perDirection _ _ _ | perDirection _, .matrix _ _ => False

theorem HasForm.exists_matrix {D : Derivative K} {rows cols : ℕ} (h : D.HasForm (.matrix rows cols)) :
    ∃ m, D = matrix m ∧ m.rows = rows ∧ m.cols = cols := by
  cases D with
  | matrix m => exact ⟨m, rfl, h⟩
  | perDirection ms => exact h.elim

theorem HasForm.exists_perDirection {D : Derivative K} {count rows cols : ℕ}
    (h : D.HasForm (.perDirection count rows cols)) :
    ∃ ms, D = perDirection ms ∧ ms.length = count ∧ ∀ m ∈ ms, m.rows = rows ∧ m.cols = cols := by
  cases D with
  | matrix m => exact h.elim
  | perDirection ms => exact ⟨ms, rfl, h⟩

variable [ExactScalar K]

/-- The entry in row `i` and column `j` of the matrix for direction `k`; a single matrix stands for
direction zero. -/
def entry (D : Derivative K) (k i j : ℕ) : K :=
  match D.toComponents[k]? with
  | some m => m.entry i j
  | none => 0

@[simp] theorem entry_matrix (m : Mat K) (i j : ℕ) : (matrix m).entry 0 i j = m.entry i j := rfl

theorem entry_perDirection {ms : List (Mat K)} {k : ℕ} {m : Mat K} (h : ms[k]? = some m) (i j : ℕ) :
    (perDirection ms).entry k i j = m.entry i j := by
  simp only [entry, toComponents, h]

/-- Outside its form a derivative has no entries. -/
theorem HasForm.entry_eq_zero {D : Derivative K} {F : Form} (h : D.HasForm F) {k i j : ℕ}
    (hout : ¬(k < F.count ∧ i < F.rows ∧ j < F.cols)) : D.entry k i j = 0 := by
  cases F with
  | matrix rows cols =>
    obtain ⟨m, rfl, hr, hc⟩ := h.exists_matrix
    cases k with
    | zero => exact Mat.entry_outside fun hm => hout ⟨Nat.zero_lt_one, hr ▸ hm.1, hc ▸ hm.2⟩
    | succ k => rfl
  | perDirection count rows cols =>
    obtain ⟨ms, rfl, hl, hm⟩ := h.exists_perDirection
    by_cases hk : k < ms.length
    · obtain ⟨hr, hc⟩ := hm _ (List.getElem_mem hk)
      rw [entry_perDirection (List.getElem?_eq_getElem hk)]
      exact Mat.entry_outside fun hm => hout ⟨hl ▸ hk, hr ▸ hm.1, hc ▸ hm.2⟩
    · have hnone : ms[k]? = none := List.getElem?_eq_none (Nat.le_of_not_lt hk)
      simp only [entry, toComponents, hnone]

/-- Derivatives of one form are equal if they agree inside of it. -/
theorem entry_congr {D D' : Derivative K} {F : Form} (h : D.HasForm F) (h' : D'.HasForm F)
    (he : ∀ k i j, k < F.count → i < F.rows → j < F.cols → D.entry k i j = D'.entry k i j)
    (k i j : ℕ) : D.entry k i j = D'.entry k i j := by
  by_cases hin : k < F.count ∧ i < F.rows ∧ j < F.cols
  · exact he k i j hin.1 hin.2.1 hin.2.2
  · rw [h.entry_eq_zero hin, h'.entry_eq_zero hin]

/-- Derivatives of one form with the same entries are equal. -/
theorem ext_of_hasForm {D D' : Derivative K} {F : Form} (h : D.HasForm F) (h' : D'.HasForm F)
    (he : ∀ k i j, D.entry k i j = D'.entry k i j) : D = D' := by
  cases F with
  | matrix rows cols =>
    obtain ⟨m, rfl, hr, hc⟩ := h.exists_matrix
    obtain ⟨m', rfl, hr', hc'⟩ := h'.exists_matrix
    rw [Mat.ext_entry (hr.trans hr'.symm) (hc.trans hc'.symm) fun i j _ _ => he 0 i j]
  | perDirection count rows cols =>
    obtain ⟨ms, rfl, hl, hm⟩ := h.exists_perDirection
    obtain ⟨ms', rfl, hl', hm'⟩ := h'.exists_perDirection
    have hms : ms = ms' := by
      apply List.ext_getElem (hl.trans hl'.symm)
      intro k hk hk'
      have hs := hm _ (List.getElem_mem hk)
      have hs' := hm' _ (List.getElem_mem hk')
      refine Mat.ext_entry (hs.1.trans hs'.1.symm) (hs.2.trans hs'.2.symm) ?_
      intro i j _ _
      have := he k i j
      rwa [entry_perDirection (List.getElem?_eq_getElem hk),
        entry_perDirection (List.getElem?_eq_getElem hk')] at this
    rw [hms]

end Derivative

namespace Form

variable {K : Type}

def zero [Scalar K] : Form → Derivative K
  | matrix rows cols => .matrix (.zero rows cols)
  | perDirection count rows cols => .perDirection (List.replicate count (.zero rows cols))

theorem hasForm_zero [Scalar K] (F : Form) : (F.zero : Derivative K).HasForm F := by
  cases F with
  | matrix rows cols => exact ⟨rfl, rfl⟩
  | perDirection count rows cols =>
    refine ⟨List.length_replicate, ?_⟩
    intro m hm
    rw [List.eq_of_mem_replicate hm]
    exact ⟨rfl, rfl⟩

theorem entry_zero [ExactScalar K] (F : Form) (k i j : ℕ) :
    (F.zero : Derivative K).entry k i j = 0 := by
  unfold Derivative.entry
  split
  · rename_i m hm
    have hz : ∃ rows cols, m = Mat.zero rows cols := by
      cases F with
      | matrix rows cols => exact ⟨rows, cols, List.mem_singleton.1 (List.mem_of_getElem? hm)⟩
      | perDirection count rows cols =>
        exact ⟨rows, cols, List.eq_of_mem_replicate (List.mem_of_getElem? hm)⟩
    obtain ⟨rows, cols, rfl⟩ := hz
    rw [Mat.entry_zero]
  · rfl

end Form

namespace Operand

variable {K : Type} [ExactScalar K]

def entry (o : Operand K) (r : Request K) (k i j : ℕ) : K :=
  match o.derivative r with
  | .ok D => D.entry k i j
  | .error _ => 0

theorem entry_of_ok {o : Operand K} {r : Request K} {D : Derivative K} (h : o.derivative r = .ok D)
    (k i j : ℕ) : o.entry r k i j = D.entry k i j := by
  rw [entry, h]

def slope (o : Operand K) (r : Request K) (i k : ℕ) : K := o.entry r.spatialPart 0 i k

def varied (o : Operand K) (r : Request K) (c : Coefficient) (i a : ℕ) : K :=
  o.entry (r.coefficientPart c) 0 i a

def mixed (o : Operand K) (r : Request K) (c : Coefficient) (k i a : ℕ) : K :=
  o.entry (r.mixedPart c) k i a

def twice (o : Operand K) (r : Request K) (along : Mat K) (a b : ℕ) : K :=
  o.entry (r.withoutSpatialAlong (some along)) 0 a b

def thrice (o : Operand K) (r : Request K) (along : Mat K) (a b : ℕ) : K :=
  o.entry (r.withAlong (some along)) 0 a b

def Answers (o : Operand K) (r : Request K) : Prop := ∃ D, o.derivative r = .ok D

/-- Values are columns of `V` components, and every answer to directions drawn from `d`, contracted
with something of the right shape, has the form that belongs to the directions. -/
structure Formed (o : Operand K) (V G : ℕ) (C : BlockId → ℕ) (d : Directions) : Prop where
  value : ∀ site m, o.value site = .ok m → m.rows = V ∧ m.cols = 1
  derivative : ∀ (r : Request K) (D : Derivative K), r.directions.DrawnFrom d → r.Fits V G →
    o.derivative r = .ok D → D.HasForm (r.directions.form V G C)

variable {o : Operand K} {V G : ℕ} {C : BlockId → ℕ} {r : Request K}

/-- A single matrix that an operand answers is read entry by entry. -/
theorem derivativeMatrix_eq_ok {d : Directions} (hf : o.Formed V G C d)
    (hd : r.directions.DrawnFrom d) (hfit : r.Fits V G) {rows cols : ℕ}
    (hF : r.directions.form V G C = .matrix rows cols) {m : Mat K}
    (h : o.derivativeMatrix r = .ok m) :
    o.Answers r ∧ (m.rows = rows ∧ m.cols = cols) ∧ ∀ i j, m.entry i j = o.entry r 0 i j := by
  obtain ⟨D, hD, h⟩ := bind_eq_ok_iff.1 h
  have hm := hf.derivative r D hd hfit hD
  rw [hF] at hm
  obtain ⟨n, rfl, hn⟩ := hm.exists_matrix
  rw [lift_eq_ok_iff] at h
  cases h
  exact ⟨⟨_, hD⟩, hn, fun i j => (entry_of_ok hD 0 i j).symm⟩

/-- An answer whose form is a single matrix can be had as one. -/
theorem exists_derivativeMatrix {d : Directions} (hf : o.Formed V G C d)
    (hd : r.directions.DrawnFrom d) (hfit : r.Fits V G) {rows cols : ℕ}
    (hF : r.directions.form V G C = .matrix rows cols) (h : o.Answers r) :
    ∃ m, o.derivativeMatrix r = .ok m := by
  obtain ⟨D, hD⟩ := h
  have hm := hf.derivative r D hd hfit hD
  rw [hF] at hm
  obtain ⟨m, rfl, -⟩ := hm.exists_matrix
  exact ⟨m, bind_eq_ok_iff.2 ⟨_, hD, rfl⟩⟩

theorem wrtCoefficient_eq_ok (hf : o.Formed V G C r.directions) {c : Coefficient}
    (hc : c ∈ r.directions.coefficientList) {m : Mat K} (h : o.wrtCoefficient r c = .ok m) :
    o.Answers (r.coefficientPart c) ∧ (m.rows = V ∧ m.cols = C c.block) ∧
      ∀ i j, m.entry i j = o.varied r c i j :=
  derivativeMatrix_eq_ok hf (r.coefficientPart_drawnFrom hc) (Request.fits_of_single rfl)
    (Directions.form_single rfl rfl) h

theorem secondAlong_eq_ok (hf : o.Formed V G C r.directions) {c₁ c₂ : Coefficient}
    (hc : r.directions.coefficients = .two c₁ c₂) {along m : Mat K}
    (h : o.secondAlong r along = .ok m) (halong : along.rows = V ∧ along.cols = 1) :
    o.Answers (r.withoutSpatialAlong (some along)) ∧
      (m.rows = C c₁.block ∧ m.cols = C c₂.block) ∧
      ∀ i j, m.entry i j = o.twice r along i j :=
  derivativeMatrix_eq_ok hf (r.withoutSpatialAlong_drawnFrom _)
    (Request.withoutSpatialAlong_fits halong) (Directions.form_two hc) h

theorem thirdAlong_eq_ok (hf : o.Formed V G C r.directions) {s : SpatialDirection}
    (hs : r.directions.spatial = some s) {c₁ c₂ : Coefficient}
    (hc : r.directions.coefficients = .two c₁ c₂) {along m : Mat K}
    (h : o.thirdAlong r along = .ok m) (halong : along.rows = V ∧ along.cols = s.count G) :
    o.Answers (r.withAlong (some along)) ∧ (m.rows = C c₁.block ∧ m.cols = C c₂.block) ∧
      ∀ i j, m.entry i j = o.thrice r along i j :=
  derivativeMatrix_eq_ok hf (r.withAlong_drawnFrom (some along)) (Request.withAlong_fits hs halong)
    (Directions.form_two hc) h

/-- The columns of the spatial derivative, one for each direction. -/
theorem spatialComponents_eq_ok (hf : o.Formed V G C r.directions) {s : SpatialDirection}
    (hs : r.directions.spatial = some s) {columns : List (Mat K)}
    (h : o.spatialComponents r = .ok columns) :
    o.Answers r.spatialPart ∧ columns.length = s.count G ∧
      ∀ k, k < s.count G → ∃ m, columns[k]? = some m ∧ (m.rows = V ∧ m.cols = 1) ∧
        ∀ i, m.entry i 0 = o.slope r i k := by
  obtain ⟨S, hS, h⟩ := bind_eq_ok_iff.1 h
  rw [pure_eq_ok_iff] at h
  subst h
  obtain ⟨ha, ⟨hr, hc⟩, he⟩ :=
    derivativeMatrix_eq_ok hf r.spatialPart_drawnFrom (Request.fits_of_none rfl)
      (Directions.form_spatial hs rfl) hS
  refine ⟨ha, by rw [Mat.length_splitColumns, hc], ?_⟩
  intro k hk
  obtain ⟨m, hm, ⟨hmr, hmc⟩, hme⟩ := Mat.getElem?_splitColumns (hc ▸ hk : k < S.cols)
  exact ⟨m, hm, ⟨hmr.trans hr, hmc⟩, fun i => (hme i).trans (he i k)⟩

/-- The derivatives with respect to a coefficient and each direction. -/
theorem mixedComponents_eq_ok (hf : o.Formed V G C r.directions) {s : SpatialDirection}
    (hs : r.directions.spatial = some s) {c : Coefficient}
    (hc : c ∈ r.directions.coefficientList) {matrices : List (Mat K)}
    (h : o.mixedComponents r c = .ok matrices) :
    o.Answers (r.mixedPart c) ∧ matrices.length = s.count G ∧
      ∀ k, k < s.count G → ∃ m, matrices[k]? = some m ∧ (m.rows = V ∧ m.cols = C c.block) ∧
        ∀ i j, m.entry i j = o.mixed r c k i j := by
  obtain ⟨D, hD, h⟩ := bind_eq_ok_iff.1 h
  rw [pure_eq_ok_iff] at h
  subst h
  have hF := hf.derivative _ D (r.mixedPart_drawnFrom hc) (Request.fits_of_single rfl) hD
  have hs' : (r.mixedPart c).directions.spatial = some s := hs
  refine ⟨⟨D, hD⟩, ?_⟩
  cases s with
  | single axis =>
    rw [Directions.form_axis hs' rfl] at hF
    obtain ⟨m, rfl, hm⟩ := hF.exists_matrix
    refine ⟨rfl, fun k hk => ⟨m, ?_, hm, fun i j => ?_⟩⟩
    · rw [Nat.lt_one_iff.1 hk]
      rfl
    · rw [Nat.lt_one_iff.1 hk, mixed, entry_of_ok hD, Derivative.entry_matrix]
  | all =>
    rw [Directions.form_all hs' rfl] at hF
    obtain ⟨ms, rfl, hl, hm⟩ := hF.exists_perDirection
    refine ⟨hl, fun k hk => ?_⟩
    have hk' : k < ms.length := hl ▸ hk
    have hg : ms[k]? = some ms[k] := List.getElem?_eq_getElem hk'
    refine ⟨ms[k], hg, hm _ (List.getElem_mem hk'), fun i j => ?_⟩
    rw [mixed, entry_of_ok hD, Derivative.entry_perDirection hg]

end Operand

namespace Derivative

variable {K : Type} [ExactScalar K] {V G : ℕ} {C : BlockId → ℕ} {d : Directions}
  {s : SpatialDirection} {components : List (Mat K)} {D : Derivative K}

/-- Numbers for the directions stand side by side in one row. -/
theorem ofComponents_spatial (hs : d.spatial = some s) (hc : d.coefficients = .none)
    (hl : components.length = s.count G) (hm : ∀ m ∈ components, m.rows = 1 ∧ m.cols = 1)
    (h : ofComponents d 1 components = .ok D) :
    D.HasForm (d.form 1 G C) ∧
      ∀ (k : ℕ) (m : Mat K), components[k]? = some m → D.entry 0 0 k = m.entry 0 0 := by
  have hcols : ∀ m ∈ components, m.cols = 1 := fun m h => (hm m h).2
  simp only [ofComponents, hs, hc, bind_eq_ok_iff, pure_eq_ok_iff] at h
  obtain ⟨M, hM, rfl⟩ := h
  obtain ⟨-, ⟨hr, hcM⟩, he⟩ := Mat.hstack_eq_ok hM
  rw [Mat.totalCols_of_single hcols, hl] at hcM he
  rw [Directions.form_spatial hs hc]
  refine ⟨⟨hr, hcM⟩, ?_⟩
  intro k m hk
  have hk' : k < s.count G := hl ▸ (List.getElem?_eq_some_iff.1 hk).1
  rw [entry_matrix, he 0 k Nat.zero_lt_one hk', Mat.stackedEntry_of_single hk hcols]

/-- Matrices for the directions stay apart, unless there is a single direction. -/
theorem ofComponents_mixed {c : Coefficient} (hs : d.spatial = some s)
    (hc : d.coefficients = .single c) (hl : components.length = s.count G)
    (hm : ∀ m ∈ components, m.rows = 1 ∧ m.cols = C c.block)
    (h : ofComponents d 1 components = .ok D) :
    D.HasForm (d.form 1 G C) ∧
      ∀ (k : ℕ) (m : Mat K), components[k]? = some m → ∀ i j, D.entry k i j = m.entry i j := by
  cases s with
  | single axis =>
    obtain ⟨m, rfl⟩ := List.length_eq_one_iff.1 hl
    simp only [ofComponents, hs, hc, bind_eq_ok_iff, pure_eq_ok_iff] at h
    obtain ⟨M, hM, rfl⟩ := h
    obtain rfl := Mat.hstack_singleton hM
    rw [Directions.form_axis hs hc]
    refine ⟨hm _ (List.mem_singleton.2 rfl), ?_⟩
    intro k n hk i j
    have hk0 : k = 0 := by
      have := (List.getElem?_eq_some_iff.1 hk).1
      rw [List.length_singleton] at this
      omega
    subst hk0
    rw [List.getElem?_cons_zero] at hk
    cases hk
    rfl
  | all =>
    simp only [ofComponents, hs, hc] at h
    cases h
    rw [Directions.form_all hs hc]
    exact ⟨⟨hl, hm⟩, fun k m hk => entry_perDirection hk⟩

end Derivative

end ElementFields
