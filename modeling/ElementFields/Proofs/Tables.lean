import ElementFields.Proofs.FieldForm
import ElementFields.Proofs.StrainTables

namespace ElementFields
open Scalar
open scoped BigOperators

variable {K : Type} [ExactScalar K]

namespace Partials

variable {T A B : Partials K} {V G : ℕ} {C : BlockId → ℕ} {r : Request K} {D E S : Derivative K}

theorem ReadBy.scale (h : T.ReadBy V G C r D) (s : K) :
    (T.scale s).ReadBy V G C r (D.scale s) := by
  obtain ⟨hF, h⟩ := h
  refine ⟨hF.scale s, ?_⟩
  rcases hs : r.directions.spatial with _ | d <;>
    rcases hc : r.directions.coefficients with _ | c | ⟨c₁, c₂⟩ <;> simp only [hs, hc] at h ⊢
  case none.none =>
    intro i hi
    rw [Derivative.entry_scale, h i hi, Partials.scale]
  case none.single =>
    intro i hi a ha
    rw [Derivative.entry_scale, h i hi a ha, Partials.scale]
  case none.two =>
    intro W hW a ha b hb
    rw [Derivative.entry_scale, h W hW a ha b hb, Finset.sum_mul]
    exact Finset.sum_congr rfl fun i _ => mul_assoc _ _ _
  case some.none =>
    intro i hi k hk
    rw [Derivative.entry_scale, h i hi k hk, Partials.scale]
  case some.single =>
    intro k hk i hi a ha
    rw [Derivative.entry_scale, h k hk i hi a ha, Partials.scale]
  case some.two =>
    intro W hW a ha b hb
    rw [Derivative.entry_scale, h W hW a ha b hb, Finset.sum_mul]
    refine Finset.sum_congr rfl fun k _ => ?_
    rw [Finset.sum_mul]
    exact Finset.sum_congr rfl fun i _ => mul_assoc _ _ _

theorem ReadBy.add (hA : A.ReadBy V G C r D) (hB : B.ReadBy V G C r E) (h : D.add E = .ok S) :
    (A.add B).ReadBy V G C r S := by
  obtain ⟨hD, hA⟩ := hA
  obtain ⟨hE, hB⟩ := hB
  obtain ⟨hS, hadd⟩ := Derivative.add_eq_ok hD hE h
  refine ⟨hS, ?_⟩
  rcases hs : r.directions.spatial with _ | d <;>
    rcases hc : r.directions.coefficients with _ | c | ⟨c₁, c₂⟩ <;> simp only [hs, hc] at hA hB ⊢
  case none.none =>
    intro i hi
    rw [hadd, hA i hi, hB i hi, Partials.add]
  case none.single =>
    intro i hi a ha
    rw [hadd, hA i hi a ha, hB i hi a ha, Partials.add]
  case none.two =>
    intro W hW a ha b hb
    rw [hadd, hA W hW a ha b hb, hB W hW a ha b hb, ← Finset.sum_add_distrib]
    exact Finset.sum_congr rfl fun i _ => (mul_add _ _ _).symm
  case some.none =>
    intro i hi k hk
    rw [hadd, hA i hi k hk, hB i hi k hk, Partials.add]
  case some.single =>
    intro k hk i hi a ha
    rw [hadd, hA k hk i hi a ha, hB k hk i hi a ha, Partials.add]
  case some.two =>
    intro W hW a ha b hb
    rw [hadd, hA W hW a ha b hb, hB W hW a ha b hb, ← Finset.sum_add_distrib]
    refine Finset.sum_congr rfl fun k _ => ?_
    rw [← Finset.sum_add_distrib]
    exact Finset.sum_congr rfl fun i _ => (mul_add _ _ _).symm

/-- The sizes of the corrections matter in the blocks of the coefficients only. -/
theorem ReadBy.congr {C' : BlockId → ℕ} (h : T.ReadBy V G C r D)
    (hC : ∀ c ∈ r.directions.coefficientList, C c.block = C' c.block) :
    T.ReadBy V G C' r D := by
  obtain ⟨hF, h⟩ := h
  refine ⟨Directions.form_congr hC ▸ hF, ?_⟩
  rcases hs : r.directions.spatial with _ | d <;>
    rcases hc : r.directions.coefficients with _ | c | ⟨c₁, c₂⟩ <;> simp only [hs, hc] at h ⊢
  case none.none => exact h
  case none.single => rwa [hC c (Directions.mem_coefficientList hc)] at h
  case none.two =>
    obtain ⟨h₁, h₂⟩ := Directions.mem_coefficientList_two hc
    rwa [hC c₁ h₁, hC c₂ h₂] at h
  case some.none => exact h
  case some.single => rwa [hC c (Directions.mem_coefficientList hc)] at h
  case some.two =>
    obtain ⟨h₁, h₂⟩ := Directions.mem_coefficientList_two hc
    rwa [hC c₁ h₁, hC c₂ h₂] at h

variable {order : BlockId → PolynomialOrder}

theorem obeys_const (V : ℕ) (c : K) (order : BlockId → PolynomialOrder) :
    (const c).Obeys V order :=
  ⟨fun _ _ _ _ => ⟨rfl, fun _ => rfl, fun _ => ⟨⟨rfl, rfl⟩, fun _ => ⟨rfl, rfl⟩⟩⟩,
    fun _ _ _ _ _ _ => ⟨rfl, fun _ => rfl⟩⟩

theorem Obeys.scale (h : T.Obeys V order) (s : K) : (T.scale s).Obeys V order := by
  have hz {x : K} (hx : x = 0) : x * s = 0 := by rw [hx, zero_mul]
  refine ⟨?_, ?_⟩
  · intro α hα i hi
    obtain ⟨hv, hm, ht⟩ := h.constant α hα i hi
    exact ⟨hz hv, fun k => hz (hm k), fun β => ⟨⟨hz (ht β).1.1, hz (ht β).1.2⟩,
      fun k => ⟨hz ((ht β).2 k).1, hz ((ht β).2 k).2⟩⟩⟩
  · intro α β hb hl i hi
    obtain ⟨ht, hth⟩ := h.linear α β hb hl i hi
    exact ⟨hz ht, fun k => hz (hth k)⟩

theorem Obeys.add {o p : BlockId → PolynomialOrder} (hA : A.Obeys V o) (hB : B.Obeys V p) :
    (A.add B).Obeys V fun b => max (o b) (p b) := by
  have hz {x y : K} (hx : x = 0) (hy : y = 0) : x + y = 0 := by rw [hx, hy, add_zero]
  refine ⟨?_, ?_⟩
  · intro α hα i hi
    obtain ⟨ho, hp⟩ := PolynomialOrder.annihilatedBy_of_max
      (PolynomialOrder.annihilatedBy_one_iff.2 hα)
    obtain ⟨hv, hm, ht⟩ := hA.constant α (PolynomialOrder.annihilatedBy_one_iff.1 ho) i hi
    obtain ⟨hv', hm', ht'⟩ := hB.constant α (PolynomialOrder.annihilatedBy_one_iff.1 hp) i hi
    exact ⟨hz hv hv', fun k => hz (hm k) (hm' k), fun β =>
      ⟨⟨hz (ht β).1.1 (ht' β).1.1, hz (ht β).1.2 (ht' β).1.2⟩,
        fun k => ⟨hz ((ht β).2 k).1 ((ht' β).2 k).1, hz ((ht β).2 k).2 ((ht' β).2 k).2⟩⟩⟩
  · intro α β hb hl i hi
    obtain ⟨ho, hp⟩ := PolynomialOrder.annihilatedBy_of_max hl
    obtain ⟨ht, hth⟩ := hA.linear α β hb ho i hi
    obtain ⟨ht', hth'⟩ := hB.linear α β hb hp i hi
    exact ⟨hz ht ht', fun k => hz (hth k) (hth' k)⟩

/-- In a product with a factor that is constant in a block, only the other one is differentiated in
it. -/
theorem Obeys.inner {o p : BlockId → PolynomialOrder} (hA : A.Obeys V o) (hB : B.Obeys V p) :
    (Partials.inner V A B).Obeys 1 fun b => o b * p b := by
  refine ⟨?_, ?_⟩ <;> simp only [Partials.inner]
  · intro α hα i _
    obtain ⟨ho, hp⟩ := PolynomialOrder.constant_of_mul (PolynomialOrder.annihilatedBy_one_iff.2 hα)
    have hA := hA.constant α ho
    have hB := hB.constant α hp
    refine ⟨?_, fun k => ?_, fun β => ⟨⟨?_, ?_⟩, fun k => ⟨?_, ?_⟩⟩⟩
    all_goals
      refine Finset.sum_eq_zero fun d hd => ?_
      obtain ⟨hv, hm, ht⟩ := hA d (Finset.mem_range.mp hd)
      obtain ⟨hv', hm', ht'⟩ := hB d (Finset.mem_range.mp hd)
      simp only [hv, hv', hm, hm', ht, ht', zero_mul, mul_zero, add_zero]
  · -- At most linear, a product has a constant factor, which leaves no cross terms.
    intro α β hb hl i _
    obtain ⟨⟨ho, hp⟩, hor⟩ := PolynomialOrder.linear_of_mul hl
    have hA2 := hA.linear α β hb ho
    have hB2 := hB.linear α β hb hp
    rcases hor with hc | hc
    · have hAα := hA.constant α hc
      have hAβ := hA.constant β (hb ▸ hc)
      refine ⟨?_, fun k => ?_⟩
      all_goals
        refine Finset.sum_eq_zero fun d hd => ?_
        obtain ⟨hv, hm, -⟩ := hAα d (Finset.mem_range.mp hd)
        obtain ⟨hv', hm', -⟩ := hAβ d (Finset.mem_range.mp hd)
        obtain ⟨ht, hth⟩ := hA2 d (Finset.mem_range.mp hd)
        obtain ⟨ht', hth'⟩ := hB2 d (Finset.mem_range.mp hd)
        simp only [hv, hv', hm, hm', ht, ht', hth, hth', zero_mul, mul_zero, add_zero]
    · have hBα := hB.constant α hc
      have hBβ := hB.constant β (hb ▸ hc)
      refine ⟨?_, fun k => ?_⟩
      all_goals
        refine Finset.sum_eq_zero fun d hd => ?_
        obtain ⟨hv, hm, -⟩ := hBα d (Finset.mem_range.mp hd)
        obtain ⟨hv', hm', -⟩ := hBβ d (Finset.mem_range.mp hd)
        obtain ⟨ht, hth⟩ := hA2 d (Finset.mem_range.mp hd)
        obtain ⟨ht', hth'⟩ := hB2 d (Finset.mem_range.mp hd)
        simp only [hv, hv', hm, hm', ht, ht', hth, hth', zero_mul, mul_zero, add_zero]

theorem Obeys.map {o : BlockId → PolynomialOrder} (h : T.Obeys 1 o) (y : K) (t : Taylor K) :
    (Partials.map y t T).Obeys 1 fun b => (o b).unlessConstant .nonlinear := by
  have hconst {b : BlockId} {n : ℕ}
      (hb : ((o b).unlessConstant .nonlinear).annihilatedBy n = true) : o b = .constant :=
    PolynomialOrder.constant_of_unlessConstant rfl hb
  refine ⟨?_, ?_⟩
  · intro α hα i _
    have ho := hconst (PolynomialOrder.annihilatedBy_one_iff.2 hα)
    obtain ⟨hv, hm, ht⟩ := h.constant α ho 0 Nat.zero_lt_one
    refine ⟨?_, fun k => ?_, fun β => ⟨⟨?_, ?_⟩, fun k => ⟨?_, ?_⟩⟩⟩ <;>
      simp only [Partials.map, hv, hm, ht, zero_mul, mul_zero, add_zero]
  · intro α β _ hl i _
    obtain ⟨hv, hm, ht⟩ := h.constant α (hconst hl) 0 Nat.zero_lt_one
    refine ⟨?_, fun k => ?_⟩
    · simp only [Partials.map, hv, ht, zero_mul, mul_zero, add_zero]
    · obtain ⟨hv', hm', -⟩ := h.constant β (‹α.block = β.block› ▸ hconst hl) 0 Nat.zero_lt_one
      simp only [Partials.map, hv, hv', hm, ht, zero_mul, mul_zero, add_zero]

/-- Where the orders annihilate a derivative, the zero tensor is read off the table. -/
theorem Obeys.readBy_zero {e : Expr K} (h : T.Obeys V e.orderIn)
    (hann : e.annihilated r.directions = true) :
    T.ReadBy V G C r (r.directions.form V G C).zero := by
  refine ⟨Form.hasForm_zero _, ?_⟩
  simp only [Form.entry_zero]
  obtain ⟨c, hmem, hc⟩ := Expr.annihilated_iff.1 hann
  rcases hd : r.directions.coefficients with _ | c' | ⟨c₁, c₂⟩
  case none =>
    rw [Directions.coefficientList, hd] at hmem
    exact absurd hmem List.not_mem_nil
  case single =>
    rw [Directions.coefficientList, hd] at hmem
    obtain rfl := List.mem_singleton.1 hmem
    have hone : r.directions.coefficientOrderIn c.block = 1 := by
      simp [Directions.coefficientOrderIn, Directions.coefficientList, hd,
        CoefficientPart.toList]
    rw [hone, PolynomialOrder.annihilatedBy_one_iff] at hc
    rcases hs : r.directions.spatial with _ | d <;> simp only
    · exact fun i hi a _ => (h.constant ⟨c, a⟩ hc i hi).1.symm
    · exact fun k _ i hi a _ => ((h.constant ⟨c, a⟩ hc i hi).2.1 _).symm
  case two =>
    -- Either one of the coefficients belongs to a block in which the field is constant, or both
    -- belong to one in which it is at most linear.
    have hzero (a b i : ℕ) (hi : i < V) : T.twice ⟨c₁, a⟩ ⟨c₂, b⟩ i = 0 ∧
        ∀ k, T.thrice k ⟨c₁, a⟩ ⟨c₂, b⟩ i = 0 := by
      have hlist : r.directions.coefficientList = [c₁, c₂] := by
        rw [Directions.coefficientList, hd, CoefficientPart.toList]
      by_cases hconst : e.orderIn c.block = .constant
      · rw [hlist] at hmem
        rcases List.mem_cons.1 hmem with rfl | hmem
        · have ht := (h.constant ⟨c, a⟩ hconst i hi).2.2 ⟨c₂, b⟩
          exact ⟨ht.1.1, fun k => (ht.2 k).1⟩
        · obtain rfl := List.mem_singleton.1 hmem
          have ht := (h.constant ⟨c, b⟩ hconst i hi).2.2 ⟨c₁, a⟩
          exact ⟨ht.1.2, fun k => (ht.2 k).2⟩
      · have hsame : c₁.block = c.block ∧ c₂.block = c.block := by
          by_contra hne
          apply hconst
          rw [← PolynomialOrder.annihilatedBy_one_iff]
          refine PolynomialOrder.annihilatedBy_mono hc ?_
          rw [Directions.coefficientOrderIn, hlist]
          by_cases h₁ : c₁.block = c.block
          · have h₂ : c₂.block ≠ c.block := fun h₂ => hne ⟨h₁, h₂⟩
            simp [h₁, h₂]
          · rw [List.filter_cons_of_neg (by simpa using h₁)]
            exact List.length_filter_le _ [c₂]
        have hc := PolynomialOrder.annihilatedBy_mono hc (r.directions.coefficientOrderIn_le _)
        rw [← hsame.1] at hc
        exact h.linear ⟨c₁, a⟩ ⟨c₂, b⟩ (hsame.1.trans hsame.2.symm) hc i hi
    rcases hs : r.directions.spatial with _ | d <;> simp only
    · intro W _ a _ b _
      refine (Finset.sum_eq_zero fun i hi => ?_).symm
      rw [(hzero a b i (Finset.mem_range.mp hi)).1, mul_zero]
    · intro W _ a _ b _
      refine (Finset.sum_eq_zero fun k _ => Finset.sum_eq_zero fun i hi => ?_).symm
      rw [(hzero a b i (Finset.mem_range.mp hi)).2, mul_zero]

end Partials

structure Leaf.Reads (l : Leaf K) (site : Site K) (T : Partials K) : Prop where
  obeys : T.Obeys l.valueSize fun block => if l.block = block then l.order else .constant
  answer : ∀ (r : Request K) D, r.site = site → l.Accepts r → l.answer r = .ok D →
    T.ReadBy l.valueSize l.gridDim (fun _ => l.correctionSize) r D

theorem Leaf.Reads.value {l : Leaf K} {site : Site K} {T : Partials K} (h : l.Reads site T)
    {v : Vec K} (hv : l.primitives.value l.toLeafData site = .ok v) {i : ℕ}
    (hi : i < l.valueSize) : v.entry i = T.value i := by
  have haccepts : l.Accepts { site, directions := .value } :=
    ⟨fun _ hk => (nomatch hk), fun _ hc => absurd hc List.not_mem_nil, Request.fits_of_none rfl⟩
  have hanswer : l.answer { site, directions := .value } = .ok (.matrix (.column v)) :=
    bind_eq_ok_iff.2 ⟨v, hv, rfl⟩
  have hread := (h.answer _ _ rfl haccepts hanswer).2 i hi
  rwa [Derivative.entry_matrix, Mat.entry_column] at hread

omit [ExactScalar K] in
theorem Expr.StrainFree.part {p e : Expr K} (h : e.StrainFree) (hp : p.IsPart e) :
    p.StrainFree := by
  induction hp with
  | refl => exact h
  | unary op _ ih =>
    cases op with
    | strain => exact h.elim
    | _ => exact ih h
  | left op b _ ih => exact ih h.1
  | right op a _ ih => exact ih h.2

namespace ElementField

def LeavesRead (f : ElementField K) (site : Site K) (T : ℕ → Partials K) (e : Expr K) : Prop :=
  ∀ slot signature l, (Expr.leaf slot signature : Expr K).IsPart e →
    f.HostsLeaf slot signature l → l.Reads site (T slot)

variable {f : ElementField K} {site : Site K} {T : ℕ → Partials K}

theorem LeavesRead.part {e p : Expr K} (h : f.LeavesRead site T e)
    (hp : ∀ {q : Expr K}, q.IsPart p → q.IsPart e) : f.LeavesRead site T p :=
  fun slot signature l hl => h slot signature l (hp hl)

def tangentEntry (f : ElementField K) (site : Site K) (displacement : Expr K) (d k : ℕ) : K :=
  match f.referenceTangents displacement site with
  | .ok m => m.entry d k
  | .error _ => 0

def table (f : ElementField K) (site : Site K) (T : ℕ → Partials K) (e : Expr K) : Partials K :=
  e.table f.gridDim (f.tangentEntry site) T

theorem entry_referenceTangents {a : Expr K} {m : Mat K} (h : f.referenceTangents a site = .ok m)
    (d k : ℕ) : m.entry d k = f.tangentEntry site a d k := by rw [tangentEntry, h]

/-- The table of an expression obeys its orders. -/
theorem table_obeys {e : Expr K} (hT : f.LeavesRead site T e) (he : f.Hosts e) :
    (f.table site T e).Obeys e.valueSize e.orderIn := by
  induction e with
  | leaf slot signature =>
    obtain ⟨l, hl⟩ := he
    obtain rfl := hl.signature_eq
    exact (hT slot _ l (.refl _) hl).obeys
  | constant x => exact Partials.obeys_const _ _ _
  | unary op a ih =>
    have ih := ih (hT.part (.unary op))
    cases op with
    | negate => exact (ih he).scale (-1)
    | scale factor => exact (ih he).scale factor
    | map g =>
      have ha := ih he.1
      rw [he.2] at ha
      exact ha.map _ _
    | strain =>
      obtain ⟨ha, ⟨hV, hG⟩, hdim, -⟩ := he
      have ha := ih ha
      rw [hV] at ha
      rw [Expr.valueSize, hG]
      exact ha.strains hdim.2 _
  | binary op a b iha ihb =>
    obtain ⟨⟨ha, hb⟩, hsize⟩ := he
    have hA := iha (hT.part (.left op b)) ha
    have hB := ihb (hT.part (.right op a)) hb
    rw [← hsize] at hB
    cases op with
    | sum => exact hA.add hB
    | dot => exact hA.inner hB

/-- The table of an expression without strains obeys its orders. -/
theorem partials_obeys {e : Expr K} (hT : f.LeavesRead site T e) (he : f.Hosts e)
    (hfree : e.StrainFree) : (e.partials T).Obeys e.valueSize e.orderIn :=
  Expr.table_eq_partials hfree ▸ table_obeys hT he

def ReadsTable (f : ElementField K) (site : Site K) (T : ℕ → Partials K) (e : Expr K) : Prop :=
  ∀ r : Request K, r.site = site → f.Admits r.directions →
    (f.operand e).Reads e.valueSize f.gridDim f.tangentDim (f.table site T e) r

section Nodes

variable {e a b : Expr K}

theorem ReadsTable.value (h : f.ReadsTable site T e) {m : Mat K}
    (hm : (f.operand e).value site = .ok m) {i : ℕ} (hi : i < e.valueSize) :
    m.entry i 0 = (f.table site T e).value i :=
  (h ⟨site, .value, none⟩ rfl f.admits_value).value m hm i hi

theorem ReadsTable.readBy (h : f.ReadsTable site T e) {r : Request K} {D : Derivative K}
    (hsite : r.site = site) (hr : f.Admits r.directions) (hfit : r.Fits e.valueSize f.gridDim)
    (hD : (f.operand e).derivative r = .ok D) :
    (f.table site T e).ReadBy e.valueSize f.gridDim f.tangentDim r D :=
  (h r hsite hr).derivative r D rfl (.refl _) hfit hD

/-- It is enough that the value and the rule of the node at the top are read off the table. -/
theorem readsTable_of_rule (hshape : ∀ l ∈ f.reachableLeaves, l.KeepsShapes)
    (hT : f.LeavesRead site T e) (he : f.Hosts e)
    (hvalue : ∀ m, (f.operand e).value site = .ok m →
      ∀ i < e.valueSize, m.entry i 0 = (f.table site T e).value i)
    (hrule : ∀ (r : Request K) D, r.site = site → f.Admits r.directions →
      r.Fits e.valueSize f.gridDim → r.directions ≠ .value →
      f.rule Expr.annihilated e r = .ok D →
      (f.table site T e).ReadBy e.valueSize f.gridDim f.tangentDim r D) :
    f.ReadsTable site T e := by
  rintro r rfl hr
  refine ⟨hvalue, ?_⟩
  intro r' D hsite hd hfit hD
  have hr' := hr.drawnFrom hd
  rcases operandWith_derivative_eq_ok hr' hD with ⟨hv, m, hm, rfl⟩ | ⟨hann, rfl⟩ | ⟨hv, -, h⟩
  · have hs : r'.directions.spatial = none := by rw [hv]; rfl
    have hc : r'.directions.coefficients = .none := by rw [hv]; rfl
    have hform := operandWith_formed hshape Expr.annihilated he hr
    refine ⟨hform.derivative r' _ hd hfit hD, ?_⟩
    simp only [hs, hc, Derivative.entry_matrix]
    exact hvalue m (hsite ▸ hm)
  · exact (table_obeys hT he).readBy_zero hann
  · exact hrule r' D hsite hr' hfit hv h

theorem leaf_value {slot : ℕ} {signature : LeafSignature}
    (hT : f.LeavesRead site T (.leaf slot signature)) (he : f.Hosts (.leaf slot signature))
    {m : Mat K} (hm : f.leafValue slot site = .ok m) {i : ℕ} (hi : i < signature.valueSize) :
    m.entry i 0 = (T slot).value i := by
  obtain ⟨l, hl⟩ := he
  obtain rfl := hl.signature_eq
  rw [leafValue_eq hl.get] at hm
  obtain ⟨v, hv, hm⟩ := bind_eq_ok_iff.1 hm
  rw [pure_eq_ok_iff] at hm
  rw [← hm, Mat.entry_column]
  exact (hT slot _ l (.refl _) hl).value hv hi

theorem leaf_reads {slot : ℕ} {signature : LeafSignature}
    (hT : f.LeavesRead site T (.leaf slot signature)) (he : f.Hosts (.leaf slot signature))
    {r : Request K} {D : Derivative K} (hsite : r.site = site) (hr : f.Admits r.directions)
    (hfit : r.Fits signature.valueSize f.gridDim) (h : f.leafDerivative slot r = .ok D) :
    (T slot).ReadBy signature.valueSize f.gridDim f.tangentDim r D := by
  obtain ⟨l, hl⟩ := he
  obtain rfl := hl.signature_eq
  have hread := hT slot _ l (.refl _) hl
  rw [leafDerivative_eq hl.get] at h
  split at h
  · -- A coefficient of another block, in which the leaf is constant.
    rename_i hforeign
    obtain ⟨c, hc, hne⟩ := List.any_eq_true.1 hforeign
    have hconst : (Expr.leaf slot l.signature : Expr K).orderIn c.block = .constant :=
      if_neg fun heq => of_decide_eq_true hne heq.symm
    rw [zeroDerivative_eq hr] at h
    obtain rfl := Except.ok.inj h
    have hobeys : (T slot).Obeys l.valueSize (Expr.leaf slot l.signature : Expr K).orderIn :=
      hread.obeys
    exact hobeys.readBy_zero (Expr.annihilated_of_constant hc hconst)
  · rename_i hown
    have hown : ∀ c ∈ r.directions.coefficientList, c.block = l.block := by
      simpa using hown
    have hr := hread.answer r D hsite (hl.accepts hr hown hfit) h
    rw [hl.gridDim] at hr
    refine hr.congr fun c hc => ?_
    obtain ⟨info, hi, hsize, -⟩ := hl.info
    rw [hown c hc, tangentDim_eq hi, hsize]

theorem constant_reads {x : K} {r : Request K} {D : Derivative K} (hr : f.Admits r.directions)
    (hv : r.directions ≠ .value) (h : f.zeroDerivative 1 r.directions = .ok D) :
    (Partials.const x).ReadBy 1 f.gridDim f.tangentDim r D := by
  rw [zeroDerivative_eq hr] at h
  obtain rfl := Except.ok.inj h
  by_cases hlist : r.directions.coefficientList = []
  · -- A derivative in space alone; the value is excluded.
    refine ⟨Form.hasForm_zero _, ?_⟩
    simp only [Form.entry_zero]
    rcases hs : r.directions.spatial with _ | s <;>
      rcases hc : r.directions.coefficients with _ | c | ⟨c₁, c₂⟩
    · exact absurd (congrArg₂ Directions.mk hs hc) hv
    all_goals first
      | exact fun _ _ _ _ => rfl
      | simp [Directions.coefficientList, hc, CoefficientPart.toList] at hlist
  · obtain ⟨c, hc⟩ := List.exists_mem_of_ne_nil _ hlist
    exact (Partials.obeys_const 1 x _).readBy_zero (e := .constant x)
      (Expr.annihilated_of_constant hc rfl)

/-- What an operand answers, scaled, is read off its table, scaled. -/
theorem scaled_value (ha : f.ReadsTable site T a) {x : K} {m : Mat K}
    (hm : (do return (← (f.operand a).value site).scale x) = .ok m) {i : ℕ} (hi : i < a.valueSize) :
    m.entry i 0 = ((f.table site T a).scale x).value i := by
  obtain ⟨n, hn, hm⟩ := bind_eq_ok_iff.1 hm
  rw [pure_eq_ok_iff] at hm
  rw [← hm, Mat.entry_scale, ha.value hn hi, Partials.scale]

theorem scaled_reads (ha : f.ReadsTable site T a) {x : K} {r : Request K} {D : Derivative K}
    (hsite : r.site = site) (hr : f.Admits r.directions) (hfit : r.Fits a.valueSize f.gridDim)
    (h : (do return (← (f.operand a).derivative r).scale x) = .ok D) :
    ((f.table site T a).scale x).ReadBy a.valueSize f.gridDim f.tangentDim r D := by
  obtain ⟨E, hE, h⟩ := bind_eq_ok_iff.1 h
  rw [pure_eq_ok_iff] at h
  exact h ▸ (ha.readBy hsite hr hfit hE).scale x

theorem map_value (ha : f.ReadsTable site T a) (hV : a.valueSize = 1) {g : ScalarMap} {m : Mat K}
    (hm : Chain.value g (f.operand a) site = .ok m) :
    m.entry 0 0 = g.apply ((f.table site T a).value 0) := by
  obtain ⟨n, hn, hm⟩ := bind_eq_ok_iff.1 hm
  obtain ⟨v, hv, hm⟩ := bind_eq_ok_iff.1 hm
  obtain ⟨-, rfl⟩ := Mat.entryAt_eq_ok (lift_eq_ok_iff.1 hv)
  rw [pure_eq_ok_iff] at hm
  rw [← hm, Mat.entry_scalar, ha.value hn (by omega)]

theorem sum_value (ha : f.ReadsTable site T a) (hb : f.ReadsTable site T b)
    (hsize : a.valueSize = b.valueSize) {m : Mat K}
    (hm : binaryValue .sum (f.operand a) (f.operand b) site = .ok m) {i : ℕ}
    (hi : i < a.valueSize) :
    m.entry i 0 = (f.table site T a).value i + (f.table site T b).value i := by
  obtain ⟨x, hx, hm⟩ := bind_eq_ok_iff.1 hm
  obtain ⟨y, hy, hm⟩ := bind_eq_ok_iff.1 hm
  obtain ⟨-, -, hadd⟩ := Mat.add_eq_ok (lift_eq_ok_iff.1 hm)
  rw [hadd, ha.value hx hi, hb.value hy (hsize ▸ hi)]

theorem sum_reads (ha : f.ReadsTable site T a) (hb : f.ReadsTable site T b)
    (hsize : a.valueSize = b.valueSize) {r : Request K} {D : Derivative K} (hsite : r.site = site)
    (hr : f.Admits r.directions) (hfit : r.Fits a.valueSize f.gridDim)
    (h : binaryDerivative .sum (f.operand a) (f.operand b) r = .ok D) :
    ((f.table site T a).add (f.table site T b)).ReadBy a.valueSize f.gridDim f.tangentDim r D := by
  obtain ⟨x, hx, h⟩ := bind_eq_ok_iff.1 h
  obtain ⟨y, hy, h⟩ := bind_eq_ok_iff.1 h
  have hB := hb.readBy hsite hr (hsize ▸ hfit) hy
  rw [← hsize] at hB
  exact (ha.readBy hsite hr hfit hx).add hB (lift_eq_ok_iff.1 h)

theorem dot_value (ha : f.ReadsTable site T a) (hb : f.ReadsTable site T b)
    (hsize : a.valueSize = b.valueSize)
    (hform : (f.operand a).Formed a.valueSize f.gridDim f.tangentDim .value) {m : Mat K}
    (hm : Product.value (f.operand a) (f.operand b) site = .ok m) :
    m.entry 0 0 = ∑ d ∈ Finset.range a.valueSize,
      (f.table site T a).value d * (f.table site T b).value d := by
  obtain ⟨x, y, hx, hy, p, hp, rfl⟩ := Product.value_eq_ok hm
  rw [Mat.entry_scalar, Product.dot_column (hform.value site x hx) hp]
  refine Finset.sum_congr rfl fun d hd => ?_
  have hd := Finset.mem_range.mp hd
  rw [ha.value hx hd, hb.value hy (hsize ▸ hd)]

end Nodes

/-- Every part of the expression answers the entries of its table. -/
theorem readsTable (hshape : ∀ l ∈ f.reachableLeaves, l.KeepsShapes) {e : Expr K}
    (hT : f.LeavesRead site T e) (he : f.Hosts e) : f.ReadsTable site T e := by
  have hform {a : Expr K} (ha : f.Hosts a) {d : Directions} (hd : f.Admits d) :=
    operandWith_formed hshape Expr.annihilated ha hd
  induction e with
  | leaf slot signature =>
    refine readsTable_of_rule hshape hT he (fun m hm i hi => leaf_value hT he hm hi) ?_
    exact fun r D hsite hr hfit _ h => leaf_reads hT he hsite hr hfit h
  | constant x =>
    refine readsTable_of_rule hshape hT he ?_ fun r D _ hr _ hv h => constant_reads hr hv h
    intro m hm i hi
    cases hm
    rw [Nat.lt_one_iff.1 hi, Mat.entry_scalar]
    rfl
  | unary op a ih =>
    have ih := ih (hT.part (.unary op))
    cases op with
    | negate | scale _ =>
      exact readsTable_of_rule hshape hT he (fun m hm i hi => scaled_value (ih he) hm hi)
        fun r D hsite hr hfit _ h => scaled_reads (ih he) hsite hr hfit h
    | map g =>
      obtain ⟨ha, hV⟩ := id he
      refine readsTable_of_rule hshape hT he (fun m hm i hi => ?_) fun r D hsite hr hfit _ h => ?_
      · rw [Nat.lt_one_iff.1 hi]
        exact map_value (ih ha) hV hm
      · exact Chain.derivative_reads (hV ▸ hform ha hr) (hV ▸ ih ha r hsite hr) hfit h
    | strain =>
      obtain ⟨ha, ⟨hV, hG⟩, hdim, -⟩ := id he
      have hsize : (Expr.unary .strain a).valueSize = strainSize f.gridDim := by
        rw [Expr.valueSize, hG, Option.getD_some]
      have hfa {d : Directions} (hd : f.Admits d) := hV ▸ hform ha hd
      have hra (r : Request K) (hsite : r.site = site) (hr : f.Admits r.directions) :=
        hV ▸ ih ha r hsite hr
      have hA (m : Mat K) (hm : f.referenceTangents a site = .ok m) (i j : ℕ) :
          m.entry i j = f.tangentEntry site a i j := entry_referenceTangents hm i j
      refine readsTable_of_rule hshape hT he ?_ ?_
      · rw [hsize]
        exact fun m hm => Strain.value_reads (r := ⟨site, .value, none⟩) (hfa f.admits_value)
          (hra _ rfl f.admits_value) hdim.2 hA hm
      · rintro r D rfl hr hfit _ h
        rw [hsize] at hfit ⊢
        exact Strain.derivative_reads (hfa hr) (hra r rfl hr) hdim.2 hA hdim.1 hfit h
  | binary op a b iha ihb =>
    obtain ⟨⟨ha, hb⟩, hsize⟩ := id he
    have iha := iha (hT.part (.left op b)) ha
    have ihb := ihb (hT.part (.right op a)) hb
    cases op with
    | sum =>
      exact readsTable_of_rule hshape hT he (fun m hm i hi => sum_value iha ihb hsize hm hi)
        fun r D hsite hr hfit _ h => sum_reads iha ihb hsize hsite hr hfit h
    | dot =>
      refine readsTable_of_rule hshape hT he (fun m hm i hi => ?_) fun r D hsite hr hfit _ h => ?_
      · rw [Nat.lt_one_iff.1 hi]
        exact dot_value iha ihb hsize (hform ha f.admits_value) hm
      · exact Product.derivative_reads (hform ha hr) (hsize ▸ hform hb hr) (iha r hsite hr)
          (hsize ▸ ihb r hsite hr) hfit h

/-- Every part of an expression without strains answers the entries of its table. -/
theorem operand_reads (hshape : ∀ l ∈ f.reachableLeaves, l.KeepsShapes) {e : Expr K}
    (hT : f.LeavesRead site T e) (he : f.Hosts e) (hfree : e.StrainFree) {r : Request K}
    (hsite : r.site = site) (hr : f.Admits r.directions) :
    (f.operand e).Reads e.valueSize f.gridDim f.tangentDim (e.partials T) r :=
  Expr.table_eq_partials hfree ▸ readsTable hshape hT he r hsite hr

section Built

variable (hf : f.Built) (hshape : ∀ l ∈ f.reachableLeaves, l.KeepsShapes)
include hf hshape

/-- What a built field answers is read off the table of its expression. -/
theorem readBy_table {r : Request K} (hT : f.LeavesRead r.site T f.expr) {D : Derivative K}
    (hD : f.evaluateRequest r = .ok D) :
    (f.table r.site T f.expr).ReadBy f.valueSize f.gridDim f.tangentDim r D := by
  obtain ⟨⟨hadmits, hfits⟩, hD⟩ := evaluateRequest_eq_ok_iff.1 hD
  have hsize : f.valueSize = f.expr.valueSize := f.top.valueSize_eq
  rw [hsize] at hfits ⊢
  exact (readsTable hshape hT hf.hosts).readBy rfl hadmits hfits hD

end Built

end ElementField

end ElementFields
