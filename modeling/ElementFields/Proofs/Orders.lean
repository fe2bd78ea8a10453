import ElementFields.Expression.Tree

namespace ElementFields

namespace PolynomialOrder

theorem annihilatedBy_one_iff {o : PolynomialOrder} : o.annihilatedBy 1 = true ↔ o = constant := by
  cases o <;> decide

theorem annihilatedBy_of_constant {n : Nat} (hn : 1 ≤ n) : constant.annihilatedBy n = true :=
  decide_eq_true hn

theorem annihilatedBy_mono {o : PolynomialOrder} {m n : Nat} (h : o.annihilatedBy m = true)
    (hmn : m ≤ n) : o.annihilatedBy n = true := by
  rw [annihilatedBy_iff] at h ⊢
  obtain ⟨d, hd, hlt⟩ := h
  exact ⟨d, hd, Nat.lt_of_lt_of_le hlt hmn⟩

theorem annihilatedBy_of_max {o p : PolynomialOrder} {n : Nat}
    (h : (max o p).annihilatedBy n = true) :
    o.annihilatedBy n = true ∧ p.annihilatedBy n = true := by
  rw [annihilatedBy_iff] at h
  obtain ⟨d, hd, hlt⟩ := h
  have hle : ∃ m k, o.degree? = some m ∧ p.degree? = some k ∧ m ≤ d ∧ k ≤ d := by
    cases o <;> cases p <;> cases hd <;> exact ⟨_, _, rfl, rfl, by decide, by decide⟩
  obtain ⟨m, k, hm, hk, hmd, hkd⟩ := hle
  exact ⟨annihilatedBy_iff.2 ⟨m, hm, by omega⟩, annihilatedBy_iff.2 ⟨k, hk, by omega⟩⟩

/-- A product of degree zero has factors of degree zero. -/
theorem constant_of_mul {o p : PolynomialOrder} (h : (o * p).annihilatedBy 1 = true) :
    o = constant ∧ p = constant := by
  rw [annihilatedBy_one_iff] at h
  cases o <;> cases p <;> first | exact ⟨rfl, rfl⟩ | nomatch h

/-- In a product of degree at most one, one of the factors has degree zero. -/
theorem linear_of_mul {o p : PolynomialOrder} (h : (o * p).annihilatedBy 2 = true) :
    (o.annihilatedBy 2 = true ∧ p.annihilatedBy 2 = true) ∧ (o = constant ∨ p = constant) := by
  cases o <;> cases p <;>
    first
    | exact ⟨⟨rfl, rfl⟩, Or.inl rfl⟩
    | exact ⟨⟨rfl, rfl⟩, Or.inr rfl⟩
    | nomatch h

/-- In a product of degree at most two, either both factors are at most linear, or one of them has
degree zero. -/
theorem quadratic_of_mul {o p : PolynomialOrder} (h : (o * p).annihilatedBy 3 = true) :
    (o.annihilatedBy 2 = true ∧ p.annihilatedBy 2 = true) ∨
      (o = constant ∧ p.annihilatedBy 3 = true) ∨ (o.annihilatedBy 3 = true ∧ p = constant) := by
  cases o <;> cases p <;>
    first
    | exact Or.inl ⟨rfl, rfl⟩
    | exact Or.inr (Or.inl ⟨rfl, rfl⟩)
    | exact Or.inr (Or.inr ⟨rfl, rfl⟩)
    | nomatch h

theorem constant_of_unlessConstant {o result : PolynomialOrder} {n : Nat}
    (hr : result.annihilatedBy n = false) (h : (o.unlessConstant result).annihilatedBy n = true) :
    o = constant := by
  unfold unlessConstant at h
  split at h
  · assumption
  · rw [hr] at h
    nomatch h

end PolynomialOrder

open PolynomialOrder

namespace Directions

variable {d : Directions}

theorem coefficientOrderIn_pos {c : Coefficient} (hc : c ∈ d.coefficientList) :
    1 ≤ d.coefficientOrderIn c.block :=
  List.length_pos_of_mem (List.mem_filter.2 ⟨hc, decide_eq_true rfl⟩)

theorem coefficientOrderIn_le (d : Directions) (block : BlockId) : d.coefficientOrderIn block ≤ 2 := by
  refine Nat.le_trans (List.length_filter_le _ _) ?_
  rw [coefficientList]
  cases d.coefficients <;> simp [CoefficientPart.toList]

theorem coefficientOrderIn_single {c : Coefficient} (hd : d.coefficients = .single c) :
    d.coefficientOrderIn c.block = 1 := by
  simp [coefficientOrderIn, coefficientList, hd, CoefficientPart.toList]

theorem coefficientOrderIn_two {c₁ c₂ : Coefficient} (hd : d.coefficients = .two c₁ c₂)
    (hb : c₂.block = c₁.block) : d.coefficientOrderIn c₁.block = 2 := by
  simp [coefficientOrderIn, coefficientList, hd, CoefficientPart.toList, hb]

/-- In different blocks one differentiation with respect to each of them remains. -/
theorem coefficientOrderIn_of_ne {c₁ c₂ : Coefficient} (hd : d.coefficients = .two c₁ c₂)
    (hb : c₂.block ≠ c₁.block) {c : Coefficient} (hc : c ∈ d.coefficientList) :
    d.coefficientOrderIn c.block = 1 := by
  have hlist : d.coefficientList = [c₁, c₂] := by rw [coefficientList, hd]; rfl
  rw [hlist] at hc
  rcases List.mem_cons.1 hc with rfl | hc
  · simp [coefficientOrderIn, hlist, hb]
  · obtain rfl := List.mem_singleton.1 hc
    simp [coefficientOrderIn, hlist, Ne.symm hb]

end Directions

namespace Expr

variable {K : Type} {a b e : Expr K} {d : Directions}

theorem annihilated_iff : e.annihilated d = true ↔ ∃ c ∈ d.coefficientList,
    (e.orderIn c.block).annihilatedBy (d.coefficientOrderIn c.block) = true :=
  List.any_eq_true

/-- A first derivative is annihilated if the expression is constant in the block, and only then. -/
theorem annihilated_single_iff {c : Coefficient} (hd : d.coefficients = .single c) :
    e.annihilated d = true ↔ e.orderIn c.block = .constant := by
  rw [annihilated_iff, Directions.coefficientList, hd]
  simp only [CoefficientPart.toList, List.mem_singleton, exists_eq_left,
    Directions.coefficientOrderIn_single hd, annihilatedBy_one_iff]

/-- A second derivative within a block is annihilated if the expression is at most linear in it, and
only then. -/
theorem annihilated_two_iff {c₁ c₂ : Coefficient} (hd : d.coefficients = .two c₁ c₂)
    (hb : c₂.block = c₁.block) :
    e.annihilated d = true ↔ (e.orderIn c₁.block).annihilatedBy 2 = true := by
  rw [annihilated_iff, Directions.coefficientList, hd]
  simp [CoefficientPart.toList, hb, Directions.coefficientOrderIn_two hd hb]

theorem annihilated_of_none (hc : d.coefficients = .none) : e.annihilated d = false := by
  rw [annihilated, Directions.coefficientList, hc]
  rfl

/-- An expression that is constant in the block of one of the coefficients is annihilated. -/
theorem annihilated_of_constant {c : Coefficient} (hc : c ∈ d.coefficientList)
    (h : e.orderIn c.block = .constant) : e.annihilated d = true := by
  refine annihilated_iff.2 ⟨c, hc, ?_⟩
  rw [h]
  exact annihilatedBy_of_constant (Directions.coefficientOrderIn_pos hc)

theorem constant_of_annihilated_map {g : ScalarMap}
    (h : (unary (.map g) a).annihilated d = true) :
    ∃ c ∈ d.coefficientList, a.orderIn c.block = .constant := by
  obtain ⟨c, hc, h⟩ := annihilated_iff.1 h
  exact ⟨c, hc, constant_of_unlessConstant rfl h⟩

theorem constant_of_annihilated_strain (h : (unary .strain a).annihilated d = true) :
    ∃ c ∈ d.coefficientList, a.orderIn c.block = .constant := by
  obtain ⟨c, hc, h⟩ := annihilated_iff.1 h
  have hle : d.coefficientOrderIn c.block ≤ 2 := d.coefficientOrderIn_le c.block
  have hquadratic : PolynomialOrder.quadratic.annihilatedBy (d.coefficientOrderIn c.block) = false :=
    decide_eq_false (Nat.not_lt.2 hle)
  exact ⟨c, hc, constant_of_unlessConstant hquadratic h⟩

theorem annihilated_of_sum (h : (binary .sum a b).annihilated d = true) :
    a.annihilated d = true ∧ b.annihilated d = true := by
  obtain ⟨c, hc, h⟩ := annihilated_iff.1 h
  obtain ⟨ha, hb⟩ := annihilatedBy_of_max h
  exact ⟨annihilated_iff.2 ⟨c, hc, ha⟩, annihilated_iff.2 ⟨c, hc, hb⟩⟩

theorem constant_of_annihilated_dot {c : Coefficient} (hd : d.coefficients = .single c)
    (h : (binary .dot a b).annihilated d = true) :
    a.orderIn c.block = .constant ∧ b.orderIn c.block = .constant :=
  constant_of_mul (annihilatedBy_one_iff.2 ((annihilated_single_iff hd).1 h))

/-- If the second derivative of a product is annihilated, both operands are as well, and of the two
coefficients none can vary one operand while the other varies the other one. -/
theorem annihilated_of_dot {c₁ c₂ : Coefficient} (hd : d.coefficients = .two c₁ c₂)
    (h : (binary .dot a b).annihilated d = true) :
    (a.annihilated d = true ∧ b.annihilated d = true) ∧
      (a.orderIn c₁.block = .constant ∨ b.orderIn c₂.block = .constant) ∧
      (b.orderIn c₁.block = .constant ∨ a.orderIn c₂.block = .constant) := by
  have hlist : d.coefficientList = [c₁, c₂] := by rw [Directions.coefficientList, hd]; rfl
  obtain ⟨c, hc, h⟩ := annihilated_iff.1 h
  by_cases hb : c₁.block = c₂.block
  · -- Within one block the two differentiations count together.
    have htwo : d.coefficientOrderIn c.block = 2 := by
      rw [hlist] at hc
      simp only [List.mem_cons, List.not_mem_nil, or_false] at hc
      rcases hc with rfl | rfl <;> simp [Directions.coefficientOrderIn, hlist, hb]
    have hblock : c.block = c₂.block := by
      rw [hlist] at hc
      simp only [List.mem_cons, List.not_mem_nil, or_false] at hc
      rcases hc with rfl | rfl
      · exact hb
      · rfl
    rw [htwo] at h
    obtain ⟨⟨ha2, hb2⟩, hor⟩ := linear_of_mul h
    refine ⟨⟨annihilated_iff.2 ⟨c, hc, htwo.symm ▸ ha2⟩, annihilated_iff.2 ⟨c, hc, htwo.symm ▸ hb2⟩⟩,
      ?_⟩
    rw [hb, ← hblock]
    exact ⟨hor, hor.symm⟩
  · -- In two blocks one of them annihilates by itself, and both operands are constant in its block.
    rw [Directions.coefficientOrderIn_of_ne hd (Ne.symm hb) hc] at h
    obtain ⟨ha0, hb0⟩ := constant_of_mul h
    refine ⟨⟨annihilated_of_constant hc ha0, annihilated_of_constant hc hb0⟩, ?_⟩
    rw [hlist] at hc
    simp only [List.mem_cons, List.not_mem_nil, or_false] at hc
    rcases hc with rfl | rfl
    · exact ⟨Or.inl ha0, Or.inl hb0⟩
    · exact ⟨Or.inr hb0, Or.inr ha0⟩

end Expr

end ElementFields
