import ElementFields.Proofs.Corrections
import ElementFields.Proofs.FieldSideBySide
import ElementFields.Proofs.JointBinding
import ElementFields.Proofs.Totality

namespace ElementFields

variable {K : Type} [Scalar K]

namespace CachedShapes

variable {s : CachedShapes K} {rule : QuadratureRule K} {orders : List ℕ}
  (h : s.BoundTo rule orders) (hrule : rule.Regular) {q : ℕ} {ξ : Vec K}
  (hq : rule.points[q]? = some ξ)

omit [Scalar K] in
theorem lookUp_of_mapM {α : Type} {g : Vec K → Checked α} {items : List α}
    (hitems : rule.points.mapM g = .ok items) {q : ℕ} {ξ : Vec K}
    (hq : rule.points[q]? = some ξ) : lookUp items q = liftM (g ξ) := by
  obtain ⟨a, ha, hg⟩ := (mapM_eq_ok hitems).2 q ξ hq
  rw [lookUp, ha, hg]
  rfl

include h hrule hq

theorem BoundTo.checkIndex_eq (order : ℕ) : s.checkIndex q order =
    if order ∈ orders then .ok () else .refuse (.missingBasisOrder order) := by
  have hlt : q < rule.weights.length := hrule.1 ▸ (List.getElem?_eq_some_iff.1 hq).1
  have hsize : ¬rule.size ≤ q := Nat.not_le.2 hlt
  have hmem : (s.orders.contains order = true) = (order ∈ orders) := by
    rw [List.contains_iff_mem, h.mem_orders_iff]
  rw [checkIndex, h.rule_eq]
  show (if rule.size ≤ q then _ else if s.orders.contains order = true then _ else _) = _
  rw [if_neg hsize, ite_congr hmem (fun _ => rfl) fun _ => rfl]
  rfl

theorem BoundTo.checkPosition_eq : s.checkPosition ξ = .ok ξ :=
  if_pos (h.takes.size_eq hrule ξ (List.mem_of_getElem? hq))

theorem BoundTo.position_eq :
    s.position (.integrationPoint q) = s.position (.position ξ) := by
  show (do
    let rule ← Outcome.ofOption .basisNotBound s.rule
    Outcome.ofOption (.integrationPointOutOfRange q rule.size) rule.points[q]?) = s.checkPosition ξ
  rw [h.checkPosition_eq hrule hq, h.rule_eq]
  show Outcome.ofOption _ rule.points[q]? = _
  rw [hq]
  rfl

theorem BoundTo.valuesAt_eq (horder : 0 ∈ orders) :
    s.valuesAt (.integrationPoint q) = s.valuesAt (.position ξ) := by
  have hvalues := h.values_eq
  rw [cachedValues, if_pos (List.contains_iff_mem.2 horder)] at hvalues
  rw [valuesAt, valuesAt, h.checkIndex_eq hrule hq, if_pos horder, h.checkPosition_eq hrule hq]
  exact lookUp_of_mapM hvalues hq

theorem BoundTo.gradientsAt_eq (horder : 1 ∈ orders) :
    s.gradientsAt (.integrationPoint q) = s.gradientsAt (.position ξ) := by
  have hgradients := h.gradients_eq
  rw [cachedGradients, if_pos (List.contains_iff_mem.2 horder)] at hgradients
  rw [gradientsAt, gradientsAt, h.checkIndex_eq hrule hq, if_pos horder,
    h.checkPosition_eq hrule hq]
  exact lookUp_of_mapM hgradients hq

theorem BoundTo.valuesAt_refused (horder : 0 ∉ orders) :
    s.valuesAt (.integrationPoint q) = .refuse (.missingBasisOrder 0) := by
  rw [valuesAt, h.checkIndex_eq hrule hq, if_neg horder]
  rfl

theorem BoundTo.gradientsAt_refused (horder : 1 ∉ orders) :
    s.gradientsAt (.integrationPoint q) = .refuse (.missingBasisOrder 1) := by
  rw [gradientsAt, h.checkIndex_eq hrule hq, if_neg horder]
  rfl

end CachedShapes

/-- An integration point against its position, where the look-up may be refused if not all orders are
cached. -/
def Comparison.cached (q : ℕ) (ξ : Vec K) (t : Transform) (orders : List ℕ) : Comparison K where
  left := { point := .integrationPoint q, transform := t }
  right := { point := .position ξ, transform := t }
  axis k k' := k = k'
  axis_self _ := rfl
  number x y := x = y
  respected := Scalar.respected_eq
  failure e e' := e = e'
  failure_self _ := rfl
  lenient := ¬(0 ∈ orders ∧ 1 ∈ orders)

namespace Comparison

variable {q : ℕ} {ξ : Vec K} {t : Transform} {orders : List ℕ}

theorem cached_directed {d d' : Directions} (h : (cached q ξ t orders).Directed d d') : d = d' := by
  obtain ⟨s, c⟩ := d
  obtain ⟨s', c'⟩ := d'
  obtain rfl : c' = c := h.coefficients
  cases h.spatial with
  | none => rfl
  | some hs =>
    cases hs with
    | single hk => exact congrArg (fun k => Directions.mk (some (.single k)) c') hk
    | all => rfl

theorem cached_names : (cached q ξ t orders).Names where
  missingAlong _ _ h := congrArg (fun d => Failure.refused (.missingAlong d)) (cached_directed h)
  notImplemented operation _ _ h :=
    congrArg (fun d => Failure.refused (.notImplemented operation d)) (cached_directed h)

theorem cached_gradients_refl (g : Mat K) : (cached q ξ t orders).Gradients g g where
  cols := rfl
  inside := by
    rintro k _ rfl
    exact Iff.rfl
  entry := by
    rintro k _ rfl i
    rfl

theorem directed_refl (A : Comparison K) (d : Directions) : A.Directed d d := by
  refine ⟨?_, rfl⟩
  rcases d.spatial with _ | k | _
  case none => exact .none
  case some.single => exact .some (.single (A.axis_self k))
  case some.all => exact .some .all

theorem eq_of_paired_cached {x y : Outcome (Derivative K)}
    (h : Paired (cached q ξ t orders) (Derivative.Like fun x y => x = y) x y) :
    (0 ∈ orders ∧ 1 ∈ orders → x = y) ∧ ∀ D, x = .ok D → y = .ok D := by
  cases x <;> cases y
  · exact ⟨fun hboth => h.elim (absurd hboth) (congrArg _), fun D hD => nomatch hD⟩
  · exact ⟨fun hboth => absurd hboth h, fun D hD => nomatch hD⟩
  · exact h.elim
  · obtain rfl := Derivative.like_eq h
    exact ⟨fun _ => rfl, fun D hD => hD⟩

end Comparison

/-- The shape functions of a leaf that is bound to a rule are those at the position of the point, or
their look-up is refused. -/
theorem LeafData.alike_cached {l : LeafData K} {rule : QuadratureRule K} {orders : List ℕ}
    (h : l.shapes.BoundTo rule orders) (hrule : rule.Regular) {q : ℕ} {ξ : Vec K}
    (hq : rule.points[q]? = some ξ) (t : Transform) :
    l.Alike (.cached q ξ t orders) := by
  refine ⟨?_, ?_⟩
  · show Paired _ _ (l.shapes.valuesAt (.integrationPoint q)) (l.shapes.valuesAt (.position ξ))
    by_cases horder : 0 ∈ orders
    · rw [h.valuesAt_eq hrule hq horder]
      exact Paired.refl (fun v => .refl Scalar.respected_eq v) _
    · rw [h.valuesAt_refused hrule hq horder]
      exact Paired.of_lenient fun hboth => horder hboth.1
  · show Paired _ _ (l.shapes.gradientsIn l.geometry ⟨.integrationPoint q, t⟩)
      (l.shapes.gradientsIn l.geometry ⟨.position ξ, t⟩)
    by_cases horder : 1 ∈ orders
    · simp only [CachedShapes.gradientsIn, h.gradientsAt_eq hrule hq horder,
        h.position_eq hrule hq]
      exact Paired.refl Comparison.cached_gradients_refl _
    · simp only [CachedShapes.gradientsIn, h.gradientsAt_refused hrule hq horder]
      exact Paired.of_lenient fun hboth => horder hboth.2

omit [Scalar K] in
/-- The leaves of a part are leaves of the expression. -/
theorem Expr.IsPart.mem_slots {p e : Expr K} (h : p.IsPart e) {slot : ℕ} (hs : slot ∈ p.slots) :
    slot ∈ e.slots := by
  induction h with
  | refl => exact hs
  | unary op _ ih => exact ih
  | left op b _ ih => exact List.mem_append_left _ ih
  | right op a _ ih => exact List.mem_append_right _ ih

namespace ElementField

variable {f g g' : ElementField K} {rule : QuadratureRule K} {orders : List ℕ}

/-- The reference tangents of a displacement depend on where its leaves place the point. -/
theorem referenceTangents_congr_point {a : Expr K} {p p' : EvaluationPoint K} (t : Transform)
    (h : ∀ slot ∈ a.slots, ∀ l, f.leaves[slot]? = some l →
      l.shapes.position p = l.shapes.position p') :
    f.referenceTangents a ⟨p, t⟩ = f.referenceTangents a ⟨p', t⟩ := by
  cases t with
  | gridElement => rfl
  | referenceElement =>
    simp only [referenceTangents, tangentsOver]
    split
    · rfl
    · split
      · rfl
      · rename_i l rest hleaves
        have hl : l ∈ leavesIn f.leaves a.slots := hleaves ▸ List.mem_cons_self
        obtain ⟨slot, hs, hget⟩ := List.mem_filterMap.1 hl
        rw [h slot hs l hget]

structure Holds (f : ElementField K) (last : Option (QuadratureRule K × List ℕ)) : Prop where
  built : f.Built
  ofLibrary : ∀ slot ∈ f.expr.slots, ∀ l, f.leaves[slot]? = some l → l.primitives.OfLibrary
  bound : ∀ rule orders, last = some (rule, orders) → rule.Regular ∧
    ∀ slot ∈ f.expr.slots, ∀ l, f.leaves[slot]? = some l → l.shapes.BoundTo rule orders

/-- What a solver may do to a field, with the rule and the orders that were taken last: bind the field
to regular rules, whether they are taken or not, and correct coefficients in place, whether the
corrections are accepted or not. -/
inductive Run (f : ElementField K) :
    Option (QuadratureRule K × List ℕ) → ElementField K → Prop
  | start : Run f none f
  | taken {last : Option (QuadratureRule K × List ℕ)} {g g' : ElementField K}
      {rule : QuadratureRule K} {orders : List ℕ} (h : Run f last g) (hrule : rule.Regular)
      (hbind : g.bind rule orders = (g', .ok ())) : Run f (some (rule, orders)) g'
  | refused {last : Option (QuadratureRule K × List ℕ)} {g g' : ElementField K}
      {rule : QuadratureRule K} {orders : List ℕ} {e : Failure} (h : Run f last g)
      (hrule : rule.Regular) (hbind : g.bind rule orders = (g', .error e)) : Run f last g'
  | corrected {last : Option (QuadratureRule K × List ℕ)} {g : ElementField K} (h : Run f last g)
      (κ : Motion) (block : BlockId) (d : Vec K) : Run f last (g.correctInPlace κ block d).1

variable {last : Option (QuadratureRule K × List ℕ)}

theorem Holds.taken (h : g.Holds last) (hrule : rule.Regular)
    (hbind : g.bind rule orders = (g', .ok ())) : g'.Holds (some (rule, orders)) := by
  have hbuilt : g'.Built := by
    have hb := h.built.bind rule orders
    rwa [hbind] at hb
  have hbound : g.BoundTo rule orders g' := by
    rcases h.built.bind_cases hrule orders with ⟨reason, hrefused⟩ | ⟨g'', hok, hb⟩
    · nomatch (congrArg Prod.snd hbind).symm.trans (congrArg Prod.snd hrefused)
    · obtain rfl : g'' = g' := congrArg Prod.fst (hok.symm.trans hbind)
      exact hb
  have hexpr : g'.expr = g.expr := by rw [hbound.rest]; rfl
  -- What stands in a slot of the expression is the old leaf on the shape functions that are bound.
  have hleaf {slot : ℕ} (hs : slot ∈ g'.expr.slots) {l : Leaf K} (hl : g'.leaves[slot]? = some l) :
      l.primitives.OfLibrary ∧ l.shapes.BoundTo rule orders := by
    obtain ⟨m, shapes, hm, hb, hm'⟩ := hbound.bound slot (hexpr ▸ hs)
    obtain rfl := Option.some.inj (hl.symm.trans hm')
    exact ⟨h.ofLibrary slot (hexpr ▸ hs) m hm, hb⟩
  refine ⟨hbuilt, fun slot hs l hl => (hleaf hs hl).1, ?_⟩
  rintro rule' orders' heq
  obtain ⟨rfl, rfl⟩ := Prod.mk.inj (Option.some.inj heq)
  exact ⟨hrule, fun slot hs l hl => (hleaf hs hl).2⟩

theorem Holds.refused (h : g.Holds last) (hrule : rule.Regular) {e : Failure}
    (hbind : g.bind rule orders = (g', .error e)) : g'.Holds last := by
  rcases h.built.bind_cases hrule orders with ⟨reason, hrefused⟩ | ⟨g'', hok, -⟩
  · obtain rfl : g = g' := congrArg Prod.fst (hrefused.symm.trans hbind)
    exact h
  · nomatch (congrArg Prod.snd hbind).symm.trans (congrArg Prod.snd hok)

theorem Holds.corrected (h : g.Holds last) (κ : Motion) (block : BlockId) (d : Vec K) :
    (g.correctInPlace κ block d).1.Holds last := by
  cases hcheck : g.checkOwners block d.size κ.expected with
  | error e =>
    have hplace : g.correctInPlace κ block d = (g, .error e) := by rw [correctInPlace, hcheck]
    rw [hplace]
    exact h
  | ok u =>
    obtain ⟨g', hcorrect, hplace, hrouted⟩ := h.built.exists_correct hcheck
    rw [hplace]
    have hbuilt : g'.Built := by
      cases κ with
      | tangent => exact h.built.update hcorrect
      | embedding => exact h.built.embed hcorrect
    have hexpr : g'.expr = g.expr := by rw [hrouted.rest]; rfl
    -- A correction keeps the primitives and the shape functions of every leaf.
    have hleaf {slot : ℕ} {l : Leaf K} (hl : g'.leaves[slot]? = some l) :
        ∃ m, g.leaves[slot]? = some m ∧ l.primitives = m.primitives ∧ l.shapes = m.shapes := by
      by_cases howned : ∃ m, g.Owns block slot m
      · obtain ⟨m, hm⟩ := howned
        obtain ⟨points, -, hget⟩ := hrouted.owned slot m hm
        obtain rfl := Option.some.inj (hl.symm.trans hget)
        exact ⟨m, hm.get, rfl, rfl⟩
      · rw [hrouted.other slot fun m hm => howned ⟨m, hm⟩] at hl
        exact ⟨l, hl, rfl, rfl⟩
    refine ⟨hbuilt, fun slot hs l hl => ?_, fun rule orders hlast => ?_⟩
    · obtain ⟨m, hm, hp, -⟩ := hleaf hl
      exact hp ▸ h.ofLibrary slot (hexpr ▸ hs) m hm
    · obtain ⟨hrule, hbound⟩ := h.bound rule orders hlast
      refine ⟨hrule, fun slot hs l hl => ?_⟩
      obtain ⟨m, hm, -, hshapes⟩ := hleaf hl
      exact hshapes ▸ hbound slot (hexpr ▸ hs) m hm

/-- Whatever a solver does, the leaves are bound to the rule that was taken last. -/
theorem Run.holds (h : f.Run last g) (hf : f.Built)
    (hleaf : ∀ l ∈ f.reachableLeaves, l.primitives.OfLibrary) : g.Holds last := by
  induction h with
  | start =>
    refine ⟨hf, fun slot hs l hl => ?_, fun rule orders hnone => nomatch hnone⟩
    exact hleaf l (mem_reachableLeaves (hf.mem_slots_iff.2 hs) hl)
  | taken _ hrule hbind ih => exact ih.taken hrule hbind
  | refused _ hrule hbind ih => exact ih.refused hrule hbind
  | corrected _ κ block d ih => exact ih.corrected κ block d

/-- The field answers alike at an integration point and at its position. -/
theorem Holds.operand_alike (h : f.Holds (some (rule, orders))) {q : ℕ} {ξ : Vec K}
    (hq : rule.points[q]? = some ξ) (t : Transform) :
    (f.operand f.expr).Alike (.cached q ξ t orders) (f.operand f.expr) := by
  obtain ⟨hrule, hbound⟩ := h.bound rule orders rfl
  refine ElementField.operand_alike Comparison.cached_names ?_ ?_
  · intro slot hs l hl
    exact (h.ofLibrary slot hs l hl).alike (LeafData.alike_cached (hbound slot hs l hl) hrule hq t)
  · intro a ha
    have htangents : f.referenceTangents a ⟨.integrationPoint q, t⟩ =
        f.referenceTangents a ⟨.position ξ, t⟩ := by
      refine referenceTangents_congr_point t fun slot hs l hl => ?_
      have hslot : slot ∈ f.expr.slots := ha.mem_slots (p := .unary .strain a) hs
      exact (hbound slot hslot l hl).position_eq hrule hq
    show Paired _ _ (f.referenceTangents a ⟨.integrationPoint q, t⟩)
      (f.referenceTangents a ⟨.position ξ, t⟩)
    rw [htangents]
    exact Paired.refl (fun m => .refl Scalar.respected_eq m) _

/-- After any run in which a rule was taken, every request at an integration point of the rule taken
last is answered as at the position of the point: with the same answer or the same error if values and
gradients are cached, and with the same answer, if there is one, whatever is cached. -/
theorem cached_evaluation (hf : f.Built)
    (hleaf : ∀ l ∈ f.reachableLeaves, l.primitives.OfLibrary)
    (hrun : f.Run (some (rule, orders)) g) {q : ℕ} (hq : q < rule.size) :
    ∃ ξ, rule.points[q]? = some ξ ∧
      ∀ (t : Transform) (d : Directions) (along : Option (Mat K)),
        let cached := g.evaluateRequest ⟨⟨.integrationPoint q, t⟩, d, along⟩
        let direct := g.evaluateRequest ⟨⟨.position ξ, t⟩, d, along⟩
        (0 ∈ orders ∧ 1 ∈ orders → cached = direct) ∧ ∀ D, cached = .ok D → direct = .ok D := by
  have hg := hrun.holds hf hleaf
  have hlt : q < rule.points.length := (hg.bound rule orders rfl).1.1 ▸ hq
  obtain ⟨ξ, hξ⟩ : ∃ ξ, rule.points[q]? = some ξ := ⟨_, List.getElem?_eq_getElem hlt⟩
  refine ⟨ξ, hξ, fun t d along => ?_⟩
  have hr : Request.Like (.cached q ξ t orders) ⟨⟨.integrationPoint q, t⟩, d, along⟩
      ⟨⟨.position ξ, t⟩, d, along⟩ := by
    refine ⟨rfl, rfl, Comparison.directed_refl _ d, ?_⟩
    cases along with
    | none => exact .none
    | some W => exact .some (.refl Scalar.respected_eq W)
  have hvalidate : Paired (.cached q ξ t orders) Eq
      (g.validate ⟨⟨.integrationPoint q, t⟩, d, along⟩)
      (g.validate ⟨⟨.position ξ, t⟩, d, along⟩) :=
    Paired.refl (fun _ => rfl) (g.validate ⟨⟨.position ξ, t⟩, d, along⟩)
  have hpaired : Paired (.cached q ξ t orders) (Derivative.Like fun x y => x = y)
      (g.evaluateRequest ⟨⟨.integrationPoint q, t⟩, d, along⟩)
      (g.evaluateRequest ⟨⟨.position ξ, t⟩, d, along⟩) :=
    hvalidate.bind fun _ _ _ => (hg.operand_alike hξ t).derivative _ _ hr
  exact Comparison.eq_of_paired_cached hpaired

/-- A field of strains is bound, bound again to another rule, refused a third binding and corrected;
then it answers at the second point of the second rule as at the position of that point. -/
theorem cached_evaluation_stretched :
    let old : QuadratureRule ℝ := { weights := [2], points := [#[0]] }
    let rule : QuadratureRule ℝ := { weights := [1, 1], points := [#[-1], #[1]] }
    let f : ElementField ℝ := stretched 3 4
    let bound := ((f.bind old [0]).1.bind rule [1, 0]).1
    let g := ((bound.bind old [2]).1.correctInPlace .tangent ⟨0⟩ #[1, -1]).1
    (f.Built ∧ (∀ l ∈ f.reachableLeaves, l.primitives.OfLibrary) ∧ f.Run (some (rule, [1, 0])) g) ∧
      ∀ (t : Transform) (d : Directions) (along : Option (Mat ℝ)),
        g.evaluateRequest ⟨⟨.integrationPoint 1, t⟩, d, along⟩ =
          g.evaluateRequest ⟨⟨.position #[1], t⟩, d, along⟩ := by
  intro old rule f bound g
  have hold : old.Regular := by
    refine ⟨rfl, fun p hp => ?_⟩
    obtain rfl := List.mem_singleton.1 hp
    rfl
  have hrule : rule.Regular := by
    refine ⟨rfl, fun p hp => ?_⟩
    rcases List.mem_cons.1 hp with rfl | hp
    · rfl
    · obtain rfl := List.mem_singleton.1 hp
      rfl
  have hf : f.Built := built_stretched 3 4
  have hleaf : ∀ l ∈ f.reachableLeaves, l.primitives.OfLibrary := by
    intro l hl
    have hmem : l ∈ [Leaf.onEdge ⟨0⟩ (3 : ℝ) 4] := hl
    exact (List.mem_singleton.1 hmem ▸ Leaf.standard_onEdge ⟨0⟩ 3 4 : l.Standard).ofLibrary
  have hfirst : f.bind old [0] = ((f.bind old [0]).1, .ok ()) := Prod.ext rfl rfl
  have hsecond : (f.bind old [0]).1.bind rule [1, 0] = (bound, .ok ()) := Prod.ext rfl rfl
  have hthird : bound.bind old [2] = ((bound.bind old [2]).1, .refuse (.unsupportedBasisOrder 2)) :=
    Prod.ext rfl rfl
  have hrun : f.Run (some (rule, [1, 0])) g :=
    (((Run.start.taken hold hfirst).taken hrule hsecond).refused hold hthird).corrected .tangent
      ⟨0⟩ #[1, -1]
  refine ⟨⟨hf, hleaf, hrun⟩, fun t d along => ?_⟩
  have hq : 1 < rule.size := Nat.one_lt_two
  obtain ⟨ξ, hξ, hall⟩ := cached_evaluation hf hleaf hrun hq
  obtain rfl : #[1] = ξ := Option.some.inj hξ
  exact (hall t d along).1 ⟨List.mem_cons_of_mem 1 List.mem_cons_self, List.mem_cons_self⟩

end ElementField

end ElementFields
