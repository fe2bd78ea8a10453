import ElementFields.Proofs.RealScalar
import ElementFields.Proofs.SameLeaves
import ElementFields.Proofs.StrainVariation
import ElementFields.Proofs.UnitLength

namespace ElementFields

open Scalar
open scoped BigOperators

namespace Jet

noncomputable def apply (g : ScalarMap) (J : Jet ℝ) : Jet ℝ := J.map (g.apply J.v) (g.derivatives J.v)

theorem sum_one {K : Type} [ExactScalar K] (f : ℕ → Jet K) : sum 1 f = f 0 := by
  ext <;> simp only [sum, Finset.sum_range_one]

/-- The square root inverts squaring. -/
theorem mul_self_sqrt {J : Jet ℝ} (hpos : 0 < J.v) : (J.apply .sqrt).mul (J.apply .sqrt) = J := by
  obtain ⟨v, x, p, q, xp, xq, pq, xpq⟩ := J
  have hpos : 0 < v := hpos
  have hr : Real.sqrt v ≠ 0 := (Real.sqrt_pos.2 hpos).ne'
  have hv : v = Real.sqrt v * Real.sqrt v := (Real.mul_self_sqrt hpos.le).symm
  have hsqrt : (Scalar.sqrt v : ℝ) = Real.sqrt v := rfl
  simp only [apply, map, mul, ScalarMap.apply, ScalarMap.derivatives, hsqrt, Nat.cast_ofNat]
  -- The unperturbed number is the square of its root, in which everything is rational.
  generalize Real.sqrt v = r at hr hv
  subst hv
  ext
  case v => rfl
  all_goals
    simp only
    field_simp
    ring

/-- The logarithm turns products into sums. -/
theorem log_mul {J L : Jet ℝ} (hJ : 0 < J.v) (hL : 0 < L.v) :
    (J.mul L).apply .log = (J.apply .log).add (L.apply .log) := by
  have hJ := hJ.ne'
  have hL := hL.ne'
  have hlog : (Scalar.log (J.v * L.v) : ℝ) = Scalar.log J.v + Scalar.log L.v := Real.log_mul hJ hL
  -- Only the values are transcendental; the derivatives of a logarithm are powers of the reciprocal.
  simp only [apply, map, mul, add, ScalarMap.apply, ScalarMap.derivatives, hlog, Nat.cast_ofNat]
  ext
  case v => rfl
  case x | p | q =>
    simp only
    field_simp
  all_goals
    simp only
    field_simp
    ring

end Jet

namespace Partials

noncomputable def apply (g : ScalarMap) (T : Partials ℝ) : Partials ℝ :=
  map (g.apply (T.value 0)) (g.derivatives (T.value 0)) T

variable (A B T : Partials ℝ) (g : ScalarMap) (k : ℕ) (α β : Variable) (i : ℕ)

theorem jet_apply : (T.apply g).jet k α β i = (T.jet k α β 0).apply g := rfl

theorem jet_inner_one :
    (inner 1 A B).jet k α β i = (A.jet k α β 0).mul (B.jet k α β 0) :=
  (jet_inner A B k α β i 1).trans (Jet.sum_one _)

variable {A B T}

theorem inner_sqrt (hpos : 0 < T.value 0) : (inner 1 (T.apply .sqrt) (T.apply .sqrt)).Agree 1 T := by
  intro i hi k α β
  rw [Nat.lt_one_iff.1 hi, jet_inner_one, jet_apply]
  exact Jet.mul_self_sqrt hpos

theorem log_inner (hA : 0 < A.value 0) (hB : 0 < B.value 0) :
    ((inner 1 A B).apply .log).Agree 1 ((A.apply .log).add (B.apply .log)) := by
  intro i _ k α β
  rw [jet_apply, jet_inner_one, jet_add, jet_apply, jet_apply]
  exact Jet.log_mul hA hB

end Partials

theorem Mat.dot_scalar {K : Type} [ExactScalar K] (x y : K) :
    (Mat.scalar x).dot (.scalar y) = .ok (x * y) := by
  obtain ⟨p, hp⟩ := Mat.exists_dot (a := .scalar x) (b := .scalar y) rfl rfl
  rw [hp, (Mat.dot_eq_ok hp).2]
  exact congrArg Except.ok ((Finset.sum_range_one _).trans (Finset.sum_range_one _))

namespace ElementField

variable {f g : ElementField ℝ} {a b : Expr ℝ} {site : Site ℝ}

section Segment

variable {K : Type} [Scalar K]

def productField (x y z w : K) : ElementField K :=
  { coupled x y z w with
    nodes := #[.leaf 0, .leaf 1, .binary .dot 0 1]
    root := 2
    top := .binary .dot 0 1 (.leaf 0 (Leaf.onEdge ⟨0⟩ x y).signature)
      (.leaf 1 (Leaf.onEdge ⟨1⟩ z w).signature) }

def squaredRoot (x y z w : K) : ElementField K :=
  { coupled x y z w with
    nodes := #[.leaf 0, .leaf 1, .binary .dot 0 1, .unary (.map .sqrt) 2, .binary .dot 3 3]
    root := 4
    top :=
      let s : Entry K := .unary (.map .sqrt) 2 (productField x y z w).top
      .binary .dot 3 3 s s }

def logOfProduct (x y z w : K) : ElementField K :=
  { coupled x y z w with
    nodes := #[.leaf 0, .leaf 1, .binary .dot 0 1, .binary .dot 0 2, .unary (.map .log) 3]
    root := 4
    top := .unary (.map .log) 3
      (.binary .dot 0 2 (.leaf 0 (Leaf.onEdge ⟨0⟩ x y).signature) (productField x y z w).top) }

def sumOfLogs (x y z w : K) : ElementField K :=
  { coupled x y z w with
    nodes := #[.leaf 0, .leaf 1, .binary .dot 0 1, .unary (.map .log) 0, .unary (.map .log) 2,
      .binary .sum 3 4]
    root := 5
    top := .binary .sum 3 4 (.unary (.map .log) 0 (.leaf 0 (Leaf.onEdge ⟨0⟩ x y).signature))
      (.unary (.map .log) 2 (productField x y z w).top) }

theorem reachable_product (x y z w : K) :
    let u : Entry K := .leaf 0 (Leaf.onEdge ⟨0⟩ x y).signature
    let v : Entry K := .leaf 1 (Leaf.onEdge ⟨1⟩ z w).signature
    Builder.Reachable
      { leaves := #[.onEdge ⟨0⟩ x y, .onEdge ⟨1⟩ z w], entries := #[u, v, .binary .dot 0 1 u v] } :=
  (Builder.reachable_pair (.onEdge ⟨0⟩ x y) (.onEdge ⟨1⟩ z w)).step (.dot 0 1)

/-- Whatever is built from the two numbers is a field with their slots and their blocks. -/
theorem built_of_reachable_pair {x y z w : K} {entries : Array (Entry K)} {nodes : Array (Node K)}
    {root : ℕ} {top : Entry K}
    (h : Builder.Reachable { leaves := #[.onEdge ⟨0⟩ x y, .onEdge ⟨1⟩ z w], entries })
    (htop : entries[root]? = some top) (hnodes : entries.toList.map Entry.node = nodes.toList)
    (hslots : top.summary.slots = [0, 1]) :
    ({ coupled x y z w with nodes, root, top } : ElementField K).Built :=
  .build h (build_eq_of_sorted htop ⟨rfl, hnodes⟩ hslots (List.pairwise_pair.2 (Nat.zero_le 1)) rfl
    (List.pairwise_pair.2 (Nat.zero_le 1)))

theorem built_productField (x y z w : K) : (productField x y z w).Built :=
  built_of_reachable_pair (reachable_product x y z w) rfl rfl rfl

theorem built_squaredRoot (x y z w : K) : (squaredRoot x y z w).Built := by
  let leaves : Array (Leaf K) := #[.onEdge ⟨0⟩ x y, .onEdge ⟨1⟩ z w]
  let u : Entry K := .leaf 0 (Leaf.onEdge ⟨0⟩ x y).signature
  let v : Entry K := .leaf 1 (Leaf.onEdge ⟨1⟩ z w).signature
  let p : Entry K := .binary .dot 0 1 u v
  let s : Entry K := .unary (.map .sqrt) 2 p
  have hroot : Builder.Reachable { leaves, entries := #[u, v, p, s] } :=
    (reachable_product x y z w).step (.map .sqrt 2)
  have hsquare : Builder.Reachable { leaves, entries := #[u, v, p, s, .binary .dot 3 3 s s] } :=
    hroot.step (.dot 3 3)
  exact built_of_reachable_pair hsquare rfl rfl rfl

theorem built_logOfProduct (x y z w : K) : (logOfProduct x y z w).Built := by
  let leaves : Array (Leaf K) := #[.onEdge ⟨0⟩ x y, .onEdge ⟨1⟩ z w]
  let u : Entry K := .leaf 0 (Leaf.onEdge ⟨0⟩ x y).signature
  let v : Entry K := .leaf 1 (Leaf.onEdge ⟨1⟩ z w).signature
  let p : Entry K := .binary .dot 0 1 u v
  let m : Entry K := .binary .dot 0 2 u p
  have hdot : Builder.Reachable { leaves, entries := #[u, v, p, m] } :=
    (reachable_product x y z w).step (.dot 0 2)
  have hlog : Builder.Reachable { leaves, entries := #[u, v, p, m, .unary (.map .log) 3 m] } :=
    hdot.step (.map .log 3)
  exact built_of_reachable_pair hlog rfl rfl rfl

theorem built_sumOfLogs (x y z w : K) : (sumOfLogs x y z w).Built := by
  let leaves : Array (Leaf K) := #[.onEdge ⟨0⟩ x y, .onEdge ⟨1⟩ z w]
  let u : Entry K := .leaf 0 (Leaf.onEdge ⟨0⟩ x y).signature
  let v : Entry K := .leaf 1 (Leaf.onEdge ⟨1⟩ z w).signature
  let p : Entry K := .binary .dot 0 1 u v
  let a : Entry K := .unary (.map .log) 0 u
  let b : Entry K := .unary (.map .log) 2 p
  have ha : Builder.Reachable { leaves, entries := #[u, v, p, a] } :=
    (reachable_product x y z w).step (.map .log 0)
  have hb : Builder.Reachable { leaves, entries := #[u, v, p, a, b] } := ha.step (.map .log 2)
  have hsum : Builder.Reachable { leaves, entries := #[u, v, p, a, b, .binary .sum 3 4 a b] } :=
    hb.step (.sum 3 4)
  exact built_of_reachable_pair hsum rfl rfl rfl

end Segment

/-- In the middle of the segment stands the mean of the two numbers at the ends. -/
theorem leafValue_onEdge {slot : ℕ} (block : BlockId) (x y : ℝ)
    (hget : f.leaves[slot]? = some (.onEdge block x y)) :
    f.leafValue slot middle = .ok (.scalar ((x + y) / 2)) := by
  let l : Leaf ℝ := .onEdge block x y
  have hshapes : ∀ φ, l.valuesAt middle = .ok φ → ∀ j, φ.entry j = segmentValue 0 j :=
    fun φ hφ => entry_shapeValues_segment (lift_eq_ok_iff.1 hφ)
  obtain ⟨v, hv⟩ : ∃ v, l.primitives.value l.toLeafData middle = .ok v := ⟨_, rfl⟩
  have hsize : v.size = 1 := (Leaf.standard_onEdge block x y).kind.keepsShapes.value middle v hv
  have hmean : v = #[(x + y) / 2] := by
    refine Vec.ext_entry hsize fun i hi => ?_
    rw [hsize] at hi
    rw [Nat.lt_one_iff.1 hi, Interpolation.value_entry (g := fun _ _ => 0)
      hshapes hv Nat.one_pos]
    show ∑ j ∈ Finset.range 2, segmentValue 0 j * l.coefficients.entry 0 j = (x + y) / 2
    have h0 : l.coefficients.entry 0 0 = x := rfl
    have h1 : l.coefficients.entry 0 1 = y := rfl
    rw [Finset.sum_range_succ, Finset.sum_range_one, h0, h1, segmentValue, segmentValue]
    ring
  rw [leafValue_eq hget]
  exact bind_eq_ok_iff.2 ⟨v, hv, hmean ▸ rfl⟩

theorem value_product {x y z w : ℝ} (hleaves : f.leaves = #[.onEdge ⟨0⟩ x y, .onEdge ⟨1⟩ z w]) :
    (f.operand (product x y z w)).value middle = .ok (.scalar ((x + y) / 2 * ((z + w) / 2))) := by
  have hu : f.leafValue 0 middle = .ok (.scalar ((x + y) / 2)) :=
    leafValue_onEdge ⟨0⟩ x y (by rw [hleaves]; rfl)
  have hv : f.leafValue 1 middle = .ok (.scalar ((z + w) / 2)) :=
    leafValue_onEdge ⟨1⟩ z w (by rw [hleaves]; rfl)
  refine bind_eq_ok_iff.2 ⟨_, hu, bind_eq_ok_iff.2 ⟨_, hv, ?_⟩⟩
  rw [Mat.dot_scalar]
  rfl

/-- Two fields without strains that never answer differently answer alike what is valid for both. -/
theorem exists_common_answer (hf : f.Built) (hg : g.Built) (hfree : f.expr.StrainFree)
    (hfree' : g.expr.StrainFree) {r : Request ℝ}
    (hserve : ∀ l ∈ f.reachableLeaves, l.Serves (fun _ => False) r.site)
    (hserve' : ∀ l ∈ g.reachableLeaves, l.Serves (fun _ => False) r.site)
    (hvalid : f.validate r = .ok () ∧ g.validate r = .ok ())
    (hsame : ∀ D E, f.evaluateRequest r = .ok D → g.evaluateRequest r = .ok E → D = E) :
    ∃ D, f.evaluateRequest r = .ok D ∧ g.evaluateRequest r = .ok D := by
  obtain ⟨D, hD⟩ := exists_answer_of_valid hf hfree hserve hvalid.1
  obtain ⟨E, hE⟩ := exists_answer_of_valid hg hfree' hserve' hvalid.2
  obtain rfl := hsame D E hD hE
  exact ⟨D, hD, hE⟩

/-- The square root inverts squaring in every derivative. Take a scalar expression `a` on leaves of the
library, of whichever form, and the inner product of its square root with itself, as fields on the same
leaves. Where the value of `a` is positive, whatever both fields answer is the same: values, and
derivatives in any directions, contracted with anything, in either frame. -/
theorem square_of_root (hf : f.Built) (hg : g.Built)
    (hexpr : f.expr = .binary .dot (.unary (.map .sqrt) a) (.unary (.map .sqrt) a))
    (hexpr' : g.expr = a) (hsame : ∀ slot ∈ a.slots, g.leaves[slot]? = f.leaves[slot]?)
    (hleaf : ∀ l ∈ f.reachableLeaves, l.Standard) {v : Vec ℝ} (hv : g.evaluate site = .ok v)
    (hpos : 0 < v.entry 0) :
    (∀ u, f.evaluate site = .ok u → u = v) ∧
      ∀ d along D E, f.evaluateRequest ⟨site, d, along⟩ = .ok D →
        g.evaluateRequest ⟨site, d, along⟩ = .ok E → D = E := by
  have hslots : ∀ slot, slot ∈ f.expr.slots ↔ slot ∈ a.slots := fun slot => by
    rw [hexpr]
    exact List.mem_append.trans or_self_iff
  have hdim : f.expr.gridDim = a.gridDim := by
    rw [hexpr]
    show (a.gridDim <|> a.gridDim) = a.gridDim
    cases a.gridDim <;> rfl
  have h : f.SharesLeaves g :=
    ⟨hf, hg, hexpr' ▸ hdim.symm, fun slot => hexpr' ▸ (hslots slot).symm,
      fun slot hs => hsame slot ((hslots slot).1 hs)⟩
  have hscalar : a.valueSize = 1 := (hexpr ▸ hf.hosts).1.1.2
  have hsize : f.valueSize = 1 := f.valueSize_eq.trans (congrArg Expr.valueSize hexpr)
  have hsize' : g.valueSize = 1 := g.valueSize_eq.trans (hexpr' ▸ hscalar)
  -- Both tables are made from that of `a`, which is the same in the two fields.
  let T := f.table site (f.leafTables site) a
  have htable : f.tableAt site = .inner 1 (T.apply .sqrt) (T.apply .sqrt) := by
    rw [tableAt, hexpr]
    rfl
  have htable' : g.tableAt site = T := by
    rw [tableAt, hexpr']
    exact h.table_eq (fun slot => (hslots slot).2) site
  have hT : 0 < T.value 0 := by
    have hread := (evaluate_reads_table hg (h.standard hleaf) hv).2 0 (hsize' ▸ Nat.one_pos)
    rwa [← htable', ← hread]
  have hagree : (f.tableAt site).Agree f.valueSize (g.tableAt site) := by
    rw [hsize, htable, htable']
    exact Partials.inner_sqrt hT
  obtain ⟨hvalues, hanswers⟩ := h.answers_eq hleaf (hsize'.trans hsize.symm) hagree
  exact ⟨fun u hu => hvalues u v hu hv, hanswers⟩

/-- The product of two blocks in the middle of the segment: its value, its gradient, and its
derivatives with respect to one coefficient and two, alone and along the axis. -/
theorem square_of_root_product :
    let f : ElementField ℝ := squaredRoot 1 2 3 4
    let g : ElementField ℝ := productField 1 2 3 4
    let a : Expr ℝ := product 1 2 3 4
    ((f.Built ∧ g.Built) ∧
      f.expr = .binary .dot (.unary (.map .sqrt) a) (.unary (.map .sqrt) a) ∧ g.expr = a ∧
      ∀ l ∈ f.reachableLeaves, l.Standard) ∧
    (g.evaluate middle = .ok #[21 / 4] ∧ f.evaluate middle = .ok #[21 / 4]) ∧
    ∀ s ∈ [none, some (.single 0), some .all],
      ∀ c ∈ [.none, .single ⟨⟨0⟩, 1⟩, .two ⟨⟨0⟩, 1⟩ ⟨⟨0⟩, 1⟩, .two ⟨⟨0⟩, 0⟩ ⟨⟨1⟩, 1⟩],
        ∃ D, f.evaluateRequest ⟨middle, ⟨s, c⟩, some (.scalar 1)⟩ = .ok D ∧
          g.evaluateRequest ⟨middle, ⟨s, c⟩, some (.scalar 1)⟩ = .ok D := by
  intro f g a
  have hf : f.Built := built_squaredRoot 1 2 3 4
  have hg : g.Built := built_productField 1 2 3 4
  have hleaf : ∀ l ∈ f.reachableLeaves, l.Standard :=
    fun l hl => standard_of_mem_coupled (x := 1) (y := 2) (z := 3) (w := 4) hl
  have hv : g.evaluate middle = .ok #[21 / 4] := by
    refine bind_eq_ok_iff.2 ⟨_, value_product rfl, ?_⟩
    norm_num
    rfl
  obtain ⟨hvalue, hanswer⟩ := square_of_root hf hg rfl rfl (fun _ _ => rfl) hleaf hv
    (show (0 : ℝ) < 21 / 4 by norm_num)
  refine ⟨⟨⟨hf, hg⟩, rfl, rfl, hleaf⟩, ⟨hv, ?_⟩, fun s hs c hc => ?_⟩
  · obtain ⟨u, hu⟩ : ∃ u, f.evaluate middle = .ok u := ⟨_, rfl⟩
    exact hvalue u hu ▸ hu
  · simp only [List.mem_cons, List.not_mem_nil, or_false] at hs hc
    have hvalid : f.validate ⟨middle, ⟨s, c⟩, some (.scalar 1)⟩ = .ok () ∧
        g.validate ⟨middle, ⟨s, c⟩, some (.scalar 1)⟩ = .ok () := by
      rcases hs with rfl | rfl | rfl <;> rcases hc with rfl | rfl | rfl | rfl <;> exact ⟨rfl, rfl⟩
    exact exists_common_answer hf hg ⟨⟨trivial, trivial⟩, ⟨trivial, trivial⟩⟩ ⟨trivial, trivial⟩
      (serves_at_position hf hleaf (.inr rfl)) (serves_at_position hg hleaf (.inr rfl)) hvalid
      (hanswer _ _)

/-- The logarithm turns products into sums in every derivative. Take two scalar expressions `a` and `b`
on leaves of the library, of whichever form and with leaves in common or not, the logarithm of their
product, and the sum of their logarithms, as fields on the same leaves. Where the values of `a` and `b`
are positive, whatever both fields answer is the same. -/
theorem log_of_product (hf : f.Built) (hg : g.Built)
    (hexpr : f.expr = .unary (.map .log) (.binary .dot a b))
    (hexpr' : g.expr = .binary .sum (.unary (.map .log) a) (.unary (.map .log) b))
    (hsame : ∀ slot ∈ a.slots ++ b.slots, g.leaves[slot]? = f.leaves[slot]?)
    (hleaf : ∀ l ∈ f.reachableLeaves, l.Standard) {x y : Mat ℝ}
    (hx : (f.operand a).value site = .ok x) (hy : (f.operand b).value site = .ok y)
    (hpos : 0 < x.entry 0 0 ∧ 0 < y.entry 0 0) :
    (∀ u v, f.evaluate site = .ok u → g.evaluate site = .ok v → u = v) ∧
      ∀ d along D E, f.evaluateRequest ⟨site, d, along⟩ = .ok D →
        g.evaluateRequest ⟨site, d, along⟩ = .ok E → D = E := by
  have hslots : f.expr.slots = a.slots ++ b.slots := congrArg Expr.slots hexpr
  have hslots' : g.expr.slots = a.slots ++ b.slots := congrArg Expr.slots hexpr'
  have hdim : g.expr.gridDim = f.expr.gridDim := by rw [hexpr, hexpr']; rfl
  have h : f.SharesLeaves g :=
    ⟨hf, hg, hdim, fun slot => by rw [hslots, hslots'], fun slot hs => hsame slot (hslots ▸ hs)⟩
  have hhosts := hexpr' ▸ hg.hosts
  have ha : a.valueSize = 1 := hhosts.1.1.2
  have hb : b.valueSize = 1 := hhosts.1.2.2
  have hsize : f.valueSize = 1 := f.valueSize_eq.trans (congrArg Expr.valueSize hexpr)
  have hsize' : g.valueSize = 1 := g.valueSize_eq.trans (congrArg Expr.valueSize hexpr')
  -- The tables of `a` and `b` are the same in the two fields; only what is made from them differs.
  let A := f.table site (f.leafTables site) a
  let B := f.table site (f.leafTables site) b
  have htable : f.tableAt site = (Partials.inner 1 A B).apply .log := by
    rw [tableAt, hexpr, ← ha]
    rfl
  have htable' : g.tableAt site = (A.apply .log).add (B.apply .log) := by
    rw [tableAt, h.table_eq (fun slot hs => hslots ▸ hslots' ▸ hs) site, hexpr']
    rfl
  have hA : 0 < A.value 0 := by
    have hpart : a.IsPart f.expr := hexpr ▸ .unary _ (.left _ b (.refl a))
    rw [← (value_reads_table hf hleaf hpart hx).2 0 (ha ▸ Nat.one_pos)]
    exact hpos.1
  have hB : 0 < B.value 0 := by
    have hpart : b.IsPart f.expr := hexpr ▸ .unary _ (.right _ a (.refl b))
    rw [← (value_reads_table hf hleaf hpart hy).2 0 (hb ▸ Nat.one_pos)]
    exact hpos.2
  refine h.answers_eq hleaf (hsize'.trans hsize.symm) ?_
  rw [hsize, htable, htable']
  exact Partials.log_inner hA hB

/-- The first number and the product have a leaf in common. In the middle of the segment the logarithm
of their product is differentiated along the axis, with respect to one coefficient and to two. -/
theorem log_of_product_coupled :
    let f : ElementField ℝ := logOfProduct 1 2 3 4
    let g : ElementField ℝ := sumOfLogs 1 2 3 4
    let a : Expr ℝ := .leaf 0 (Leaf.onEdge ⟨0⟩ 1 2 : Leaf ℝ).signature
    let b : Expr ℝ := product 1 2 3 4
    ((f.Built ∧ g.Built) ∧ f.expr = .unary (.map .log) (.binary .dot a b) ∧
      g.expr = .binary .sum (.unary (.map .log) a) (.unary (.map .log) b) ∧
      ∀ l ∈ f.reachableLeaves, l.Standard) ∧
    ((f.operand a).value middle = .ok (.scalar (3 / 2)) ∧
      (f.operand b).value middle = .ok (.scalar (21 / 4))) ∧
    ∀ s ∈ [none, some (.single 0), some .all],
      ∀ c ∈ [.none, .single ⟨⟨0⟩, 1⟩, .two ⟨⟨0⟩, 1⟩ ⟨⟨0⟩, 1⟩, .two ⟨⟨0⟩, 0⟩ ⟨⟨1⟩, 1⟩],
        ∃ D, f.evaluateRequest ⟨middle, ⟨s, c⟩, some (.scalar 1)⟩ = .ok D ∧
          g.evaluateRequest ⟨middle, ⟨s, c⟩, some (.scalar 1)⟩ = .ok D := by
  intro f g a b
  have hf : f.Built := built_logOfProduct 1 2 3 4
  have hg : g.Built := built_sumOfLogs 1 2 3 4
  have hleaf : ∀ l ∈ f.reachableLeaves, l.Standard :=
    fun l hl => standard_of_mem_coupled (x := 1) (y := 2) (z := 3) (w := 4) hl
  have ha : (f.operand a).value middle = .ok (.scalar (3 / 2)) := by
    refine (leafValue_onEdge ⟨0⟩ 1 2 rfl).trans ?_
    norm_num
  have hb : (f.operand b).value middle = .ok (.scalar (21 / 4)) := by
    refine (value_product rfl).trans ?_
    norm_num
  have hpos : (0 : ℝ) < 3 / 2 ∧ (0 : ℝ) < 21 / 4 := by norm_num
  obtain ⟨-, hanswer⟩ := log_of_product hf hg rfl rfl (fun _ _ => rfl) hleaf ha hb hpos
  refine ⟨⟨⟨hf, hg⟩, rfl, rfl, hleaf⟩, ⟨ha, hb⟩, fun s hs c hc => ?_⟩
  simp only [List.mem_cons, List.not_mem_nil, or_false] at hs hc
  have hvalid : f.validate ⟨middle, ⟨s, c⟩, some (.scalar 1)⟩ = .ok () ∧
      g.validate ⟨middle, ⟨s, c⟩, some (.scalar 1)⟩ = .ok () := by
    rcases hs with rfl | rfl | rfl <;> rcases hc with rfl | rfl | rfl | rfl <;> exact ⟨rfl, rfl⟩
  exact exists_common_answer hf hg ⟨trivial, trivial, trivial⟩ ⟨trivial, trivial, trivial⟩
    (serves_at_position hf hleaf (.inr rfl)) (serves_at_position hg hleaf (.inr rfl)) hvalid
    (hanswer _ _)

end ElementField

end ElementFields
