import ElementFields.Proofs.Binding
import ElementFields.Proofs.RealScalar
import ElementFields.Proofs.Routing

namespace ElementFields

variable {K : Type}

namespace CachedShapes

/-- Whether shape functions in the given dimension take a rule: all orders can be cached, and the
points have that dimension, if there are any. -/
def Takes (dim : ℕ) (rule : QuadratureRule K) (orders : List ℕ) : Prop :=
  unsupported? orders = none ∧ (rule.isEmpty = false → rule.dim = dim)

variable [Scalar K]

/-- The rule, which suits the element, is bound with these orders, and what is cached are the shape
functions at its points. -/
structure BoundTo (s : CachedShapes K) (rule : QuadratureRule K) (orders : List ℕ) : Prop where
  takes : Takes s.dim rule orders
  rule_eq : s.rule = some rule
  orders_eq : s.orders = cacheable orders
  mem_orders_iff : ∀ n, n ∈ s.orders ↔ n ∈ orders
  values_eq : cachedValues s.element rule orders = .ok s.values
  gradients_eq : cachedGradients s.element rule orders = .ok s.gradients

variable {s : CachedShapes K} {rule : QuadratureRule K} {orders : List ℕ}

omit [Scalar K] in
/-- If no order is too high, those that can be cached are all. -/
theorem mem_cacheable_iff (h : unsupported? orders = none) (n : ℕ) :
    n ∈ cacheable orders ↔ n ∈ orders := by
  rw [cacheable, List.mem_filter, List.contains_iff_mem]
  refine ⟨And.right, fun hn => ⟨?_, hn⟩⟩
  have hlow : ¬1 < n := by
    intro hlt
    have hmem : n ∈ orders.filter (1 < ·) := List.mem_filter.2 ⟨hn, decide_eq_true hlt⟩
    rw [unsupported?, List.min?_eq_none_iff] at h
    exact absurd (h ▸ hmem) List.not_mem_nil
  have hcases : n = 0 ∨ n = 1 := by omega
  simpa using hcases

omit [Scalar K] in
/-- The points of a regular rule that is taken all have the dimension of the element. -/
theorem Takes.size_eq {dim : ℕ} (h : Takes dim rule orders) (hrule : rule.Regular) :
    ∀ p ∈ rule.points, p.size = dim := by
  intro p hp
  have hweight : rule.isEmpty = false := by
    rw [QuadratureRule.isEmpty, List.isEmpty_eq_false_iff, ← List.length_pos_iff, hrule.1]
    exact List.length_pos_of_mem hp
  rw [hrule.2 p hp, h.2 hweight]

theorem exists_bind_of_takes (hrule : rule.Regular) (h : Takes s.dim rule orders) :
    ∃ t, s.bind rule orders = (t, .ok ()) ∧ t.BoundTo rule orders := by
  have hpoints : ∀ p ∈ rule.points, p.size = s.element.dim := h.size_eq hrule
  obtain ⟨values, hvalues, -⟩ := yields_cachedValues orders hpoints
  obtain ⟨gradients, hgradients, -⟩ := yields_cachedGradients orders hpoints
  have hdim : ¬(rule.isEmpty = false ∧ rule.dim ≠ s.dim) := fun hne => hne.2 (h.2 hne.1)
  refine ⟨{ s with rule := some rule, orders := cacheable orders, values, gradients }, ?_, ?_⟩
  · simp only [CachedShapes.bind, h.1, if_neg hdim, hvalues, hgradients]
  · exact ⟨h, rfl, rfl, mem_cacheable_iff h.1, hvalues, hgradients⟩

theorem bind_of_not_takes (h : ¬Takes s.dim rule orders) :
    ∃ reason, s.bind rule orders = (s, .refuse reason) := by
  cases hu : unsupported? orders with
  | some order => exact ⟨.unsupportedBasisOrder order, by simp only [CachedShapes.bind, hu]⟩
  | none =>
    have hdim : rule.isEmpty = false ∧ rule.dim ≠ s.dim := by
      by_contra hfits
      exact h ⟨hu, fun hne => not_not.1 fun hd => hfits ⟨hne, hd⟩⟩
    exact ⟨.positionDimensionMismatch s.dim rule.dim,
      by simp only [CachedShapes.bind, hu, if_pos hdim]⟩

theorem BoundTo.isBoundLike {t : CachedShapes K} (hs : s.BoundTo rule orders)
    (ht : t.BoundTo rule orders) (hself : (rule == rule) = true) : s.isBoundLike t = true := by
  rw [CachedShapes.isBoundLike, hs.rule_eq, ht.rule_eq, hs.orders_eq, ht.orders_eq,
    Option.some_beq_some, hself, beq_self_eq_true, Bool.and_true]

/-- Bound shape functions show the points of a regular rule with their weights, in order. -/
theorem BoundTo.integrationPoints (hs : s.BoundTo rule orders) (hrule : rule.Regular) :
    ∃ points, s.integrationPoints = .ok points ∧ points.map (·.index) = List.range rule.size ∧
      points.map (·.position) = rule.points ∧ points.map (·.weight) = rule.weights := by
  have hlength : rule.toList.length = rule.size := by
    rw [QuadratureRule.toList, List.length_zip, ← hrule.1, Nat.min_self, QuadratureRule.size]
  refine ⟨_, by rw [CachedShapes.integrationPoints, hs.rule_eq]; rfl, ?_, ?_, ?_⟩
  · rw [List.map_map]
    show rule.toList.zipIdx.map Prod.snd = _
    rw [List.zipIdx_map_snd, hlength, List.range_eq_range']
  · rw [List.map_map]
    show rule.toList.zipIdx.map (Prod.snd ∘ Prod.fst) = _
    rw [← List.map_map, List.zipIdx_map_fst, QuadratureRule.toList,
      List.map_snd_zip (Nat.le_of_eq hrule.1.symm)]
  · rw [List.map_map]
    show rule.toList.zipIdx.map (Prod.fst ∘ Prod.fst) = _
    rw [← List.map_map, List.zipIdx_map_fst, QuadratureRule.toList,
      List.map_fst_zip (Nat.le_of_eq hrule.1)]

end CachedShapes

namespace ElementField

variable {rule : QuadratureRule K} {orders : List ℕ} {f : ElementField K}

section Loop

variable [Scalar K] {leaves : Array (Leaf K)} {slots : List ℕ} {G : ℕ}

def HoldDim (leaves : Array (Leaf K)) (slots : List ℕ) (G : ℕ) : Prop :=
  ∀ slot ∈ slots, ∃ l, leaves[slot]? = some l ∧ l.gridDim = G

omit [Scalar K] in
theorem HoldDim.set {slot : ℕ} (h : HoldDim leaves slots G) {l l' : Leaf K}
    (hget : leaves[slot]? = some l) (hk : l.SameKind l') :
    HoldDim (leaves.setIfInBounds slot l') slots G := by
  intro s hs
  obtain ⟨m, hm, hdim⟩ := h s hs
  by_cases heq : slot = s
  · subst heq
    obtain rfl := Option.some.inj (hget.symm.trans hm)
    exact ⟨l', Array.getElem?_setIfInBounds_self_of_lt (Array.getElem?_eq_some_iff.1 hget).1,
      hk.gridDim.trans hdim⟩
  · exact ⟨m, by rw [Array.getElem?_setIfInBounds_ne heq, hm], hdim⟩

/-- Where the rule is taken, all leaves in the slots are bound, and no other leaf changes. -/
theorem bindSlots_of_takes (hrule : rule.Regular) (htakes : CachedShapes.Takes G rule orders)
    (h : HoldDim leaves slots G) : ∃ leaves', bindSlots rule orders slots leaves = (leaves', .ok ()) ∧
      (∀ slot ∈ slots, ∃ l shapes, leaves[slot]? = some l ∧ shapes.BoundTo rule orders ∧
        leaves'[slot]? = some (l.withShapes shapes)) ∧
      ∀ slot ∉ slots, leaves'[slot]? = leaves[slot]? := by
  induction slots generalizing leaves with
  | nil => exact ⟨leaves, rfl, fun s hs => absurd hs List.not_mem_nil, fun _ _ => rfl⟩
  | cons slot rest ih =>
    obtain ⟨l, hget, hdim⟩ := h slot List.mem_cons_self
    obtain ⟨shapes, hbind, hbound⟩ :=
      CachedShapes.exists_bind_of_takes (s := l.shapes) hrule (hdim ▸ htakes)
    have hl : l.bind rule orders = (l.withShapes shapes, .ok ()) := by rw [Leaf.bind, hbind]
    have hk : l.SameKind (l.withShapes shapes) := by
      have hkind := l.sameKind_bind rule orders
      rwa [hl] at hkind
    have hslot : (leaves.setIfInBounds slot (l.withShapes shapes))[slot]? =
        some (l.withShapes shapes) :=
      Array.getElem?_setIfInBounds_self_of_lt (Array.getElem?_eq_some_iff.1 hget).1
    -- The other leaves are on elements of the same dimension, so they take the rule as well.
    obtain ⟨final, hfinal, hown, hother⟩ :=
      ih ((show HoldDim leaves rest G from fun s hs => h s (List.mem_cons_of_mem slot hs)).set hget hk)
    refine ⟨final, ?_, ?_, ?_⟩
    · rw [bindSlots, hget]
      simp only [hl]
      exact hfinal
    · intro s hs
      by_cases hrest : s ∈ rest
      · -- A slot that comes again is bound again, to the same rule.
        obtain ⟨m, shapes', hm, hb, hget'⟩ := hown s hrest
        by_cases heq : slot = s
        · subst heq
          obtain rfl := Option.some.inj (hslot.symm.trans hm)
          exact ⟨l, shapes', hget, hb, hget'⟩
        · rw [Array.getElem?_setIfInBounds_ne heq] at hm
          exact ⟨m, shapes', hm, hb, hget'⟩
      · obtain rfl : s = slot := (List.mem_cons.1 hs).resolve_right hrest
        exact ⟨l, shapes, hget, hbound, (hother s hrest).trans hslot⟩
    · intro s hs
      rw [hother s fun hmem => hs (List.mem_cons_of_mem slot hmem),
        Array.getElem?_setIfInBounds_ne fun heq => hs (List.mem_cons.2 (Or.inl heq.symm))]

/-- Where the rule is not taken, the first leaf is refused and nothing changes. -/
theorem bindSlots_of_not_takes (htakes : ¬CachedShapes.Takes G rule orders)
    (h : HoldDim leaves slots G) (hne : slots ≠ []) :
    ∃ reason, bindSlots rule orders slots leaves = (leaves, .refuse reason) := by
  obtain ⟨slot, rest, rfl⟩ := List.exists_cons_of_ne_nil hne
  obtain ⟨l, hget, hdim⟩ := h slot List.mem_cons_self
  obtain ⟨reason, hbind⟩ := CachedShapes.bind_of_not_takes (s := l.shapes) (hdim ▸ htakes)
  have hl : l.bind rule orders = (l, .refuse reason) := by
    rw [Leaf.bind, hbind]
    rfl
  refine ⟨reason, ?_⟩
  have hsame : leaves.setIfInBounds slot l = leaves := by
    apply Array.ext_getElem?
    intro s
    by_cases heq : slot = s
    · subst heq
      rw [Array.getElem?_setIfInBounds_self_of_lt (Array.getElem?_eq_some_iff.1 hget).1, hget]
    · rw [Array.getElem?_setIfInBounds_ne heq]
  rw [bindSlots, hget]
  simp only [hl, Outcome.refuse, hsame]

end Loop

variable [Scalar K]

/-- The slots of a built field hold leaves on elements of its dimension. -/
theorem Built.holdDim (hf : f.Built) : HoldDim f.leaves f.slots f.gridDim := by
  intro slot hs
  obtain ⟨_, l, hl⟩ := hf.hosts.exists_leaf (hf.listed.slots slot hs)
  exact ⟨l, hl.get, hl.gridDim⟩

/-- The second field is the first one with every leaf of the expression bound to the rule, and with
nothing else changed. -/
structure BoundTo (f : ElementField K) (rule : QuadratureRule K) (orders : List ℕ)
    (f' : ElementField K) : Prop where
  rest : f' = { f with leaves := f'.leaves }
  bound : ∀ slot ∈ f.expr.slots, ∃ l shapes, f.leaves[slot]? = some l ∧
    shapes.BoundTo rule orders ∧ f'.leaves[slot]? = some (l.withShapes shapes)
  other : ∀ slot ∉ f.expr.slots, f'.leaves[slot]? = f.leaves[slot]?

/-- A regular rule is refused by a built field that is left as it was, or bound to all of its leaves.
-/
theorem Built.bind_cases (hf : f.Built) (hrule : rule.Regular) (orders : List ℕ) :
    (∃ reason, f.bind rule orders = (f, .refuse reason)) ∨
      ∃ f', f.bind rule orders = (f', .ok ()) ∧ f.BoundTo rule orders f' := by
  have hall (hslots : (∃ leaves', bindSlots rule orders f.slots f.leaves = (leaves', .ok ()) ∧
      (∀ slot ∈ f.slots, ∃ l shapes, f.leaves[slot]? = some l ∧ shapes.BoundTo rule orders ∧
        leaves'[slot]? = some (l.withShapes shapes)) ∧
      ∀ slot ∉ f.slots, leaves'[slot]? = f.leaves[slot]?)) :
      ∃ f', f.bind rule orders = (f', .ok ()) ∧ f.BoundTo rule orders f' := by
    obtain ⟨leaves', hbind, hown, hother⟩ := hslots
    refine ⟨{ f with leaves := leaves' }, by rw [ElementField.bind, hbind], rfl, ?_, ?_⟩
    · exact fun slot hs => hown slot (hf.mem_slots_iff.2 hs)
    · exact fun slot hs => hother slot fun hmem => hs (hf.mem_slots_iff.1 hmem)
  by_cases htakes : CachedShapes.Takes f.gridDim rule orders
  · exact Or.inr (hall (bindSlots_of_takes hrule htakes hf.holdDim))
  · by_cases hempty : f.slots = []
    · -- Without leaves there is nothing that could refuse the rule.
      refine Or.inr (hall ⟨f.leaves, by rw [hempty]; rfl, fun s hs => ?_, fun _ _ => rfl⟩)
      exact absurd (hempty ▸ hs) List.not_mem_nil
    · obtain ⟨reason, hbind⟩ := bindSlots_of_not_takes htakes hf.holdDim hempty
      exact Or.inl ⟨reason, by rw [ElementField.bind, hbind]⟩

theorem BoundTo.of_mem {f' : ElementField K} (h : f.BoundTo rule orders f') (hf : f.Built)
    {l : Leaf K} (hl : l ∈ f'.reachableLeaves) : l.shapes.BoundTo rule orders := by
  obtain ⟨slot, hs, hget⟩ := List.mem_filterMap.1 hl
  have hslots : f'.slots = f.slots := by rw [h.rest]
  rw [hslots] at hs
  obtain ⟨m, shapes, -, hb, hget'⟩ := h.bound slot (hf.mem_slots_iff.1 hs)
  obtain rfl := Option.some.inj (hget.symm.trans hget')
  exact hb

/-- Leaves that are bound to one rule are bound alike, if the rule compares equal to itself. -/
theorem boundAlike_of_boundTo {leaves : List (Leaf K)}
    (h : ∀ l ∈ leaves, l.shapes.BoundTo rule orders) (hself : (rule == rule) = true) :
    boundAlike leaves = true := by
  induction leaves with
  | nil => rfl
  | cons l rest ih =>
    have hrest := ih fun m hm => h m (List.mem_cons_of_mem l hm)
    cases rest with
    | nil => rfl
    | cons m rest =>
      have hlm := (h l List.mem_cons_self).isBoundLike
        (h m (List.mem_cons_of_mem l List.mem_cons_self)) hself
      rw [boundAlike, hlm, hrest, Bool.and_self]

/-- Every block that a built field lists has a leaf. -/
theorem Built.exists_leaf_of_mem_ids (hf : f.Built) {block : BlockId} (hb : block ∈ f.ids) :
    ∃ l, f.leaf? block = some l ∧ l ∈ f.reachableLeaves := by
  obtain ⟨info, hi, rfl⟩ := List.mem_map.1 hb
  obtain ⟨slot, hs, m, hget, hm, -⟩ := hf.listed.attained info hi
  have howner : m ∈ f.owners info.block :=
    List.mem_filter.2 ⟨mem_reachableLeaves hs hget, decide_eq_true hm⟩
  obtain ⟨l, rest, howners⟩ := List.exists_cons_of_ne_nil (List.ne_nil_of_mem howner)
  refine ⟨l, by rw [leaf?, howners, List.head?_cons], ?_⟩
  exact (List.mem_filter.1 (show l ∈ f.owners info.block from howners ▸ List.mem_cons_self)).1

/-- Binding a built field to a regular rule is all or nothing: it is refused and changes nothing, or
it binds every leaf of the expression with exactly the orders asked for. In the second case, if the
rule compares equal to itself, the integration points seen through any of the blocks are those of the
rule, in order. -/
theorem bind_all_or_nothing (hf : f.Built) (hrule : rule.Regular) (orders : List ℕ) :
    (∃ reason, f.bind rule orders = (f, .error (.refused reason))) ∨
      ∃ f', f.bind rule orders = (f', .ok ()) ∧ f.BoundTo rule orders f' ∧
        ((rule == rule) = true → ∀ block ∈ f'.ids, ∃ points,
          f'.integrationPoints block = .ok points ∧
            points.map (·.index) = List.range rule.size ∧
            points.map (·.position) = rule.points ∧ points.map (·.weight) = rule.weights) := by
  rcases hf.bind_cases hrule orders with hrefused | ⟨f', hbind, hbound⟩
  · exact Or.inl hrefused
  · refine Or.inr ⟨f', hbind, hbound, fun hself block hb => ?_⟩
    have hf' : f'.Built := by
      have hbuilt := hf.bind rule orders
      rwa [hbind] at hbuilt
    have hleaves (l : Leaf K) (hl : l ∈ f'.reachableLeaves) : l.shapes.BoundTo rule orders :=
      hbound.of_mem hf hl
    obtain ⟨l, hl, hmem⟩ := hf'.exists_leaf_of_mem_ids hb
    obtain ⟨points, hpoints, hindex⟩ := (hleaves l hmem).integrationPoints hrule
    refine ⟨points, ?_, hindex⟩
    rw [integrationPoints, if_pos (boundAlike_of_boundTo hleaves hself), hl]
    exact hpoints

/-- In exact arithmetic a rule compares equal to itself. -/
theorem rule_beq_self {K : Type} [ExactScalar K] (rule : QuadratureRule K) :
    (rule == rule) = true := by
  have hself : ReflBEq K := ⟨fun {x} => (ExactScalar.beq_iff x x).2 rfl⟩
  show (rule.weights == rule.weights && rule.points == rule.points) = true
  rw [beq_self_eq_true, beq_self_eq_true, Bool.and_self]

/-- A field that is bound to a rule with one point takes one with two points; it refuses to cache
second derivatives. -/
theorem bind_all_or_nothing_square :
    let old : QuadratureRule ℝ := { weights := [2], points := [#[0]] }
    let rule : QuadratureRule ℝ := { weights := [1, 1], points := [#[-1], #[1]] }
    let f : ElementField ℝ := ((square 2 3).bind old [0]).1
    (f.Built ∧ rule.Regular ∧ (rule == rule) = true) ∧
      (∃ f' points, f.bind rule [1, 0] = (f', .ok ()) ∧ f.BoundTo rule [1, 0] f' ∧
        f'.integrationPoints ⟨0⟩ = .ok points ∧ points.map (·.position) = [#[-1], #[1]]) ∧
      ∃ reason, f.bind rule [2] = (f, .error (.refused reason)) := by
  intro old rule f
  have hf : f.Built := (built_square 2 3).bind old [0]
  have hrule : rule.Regular := by
    refine ⟨rfl, fun p hp => ?_⟩
    rcases List.mem_cons.1 hp with rfl | hp
    · rfl
    · obtain rfl := List.mem_singleton.1 hp
      rfl
  have htaken : (f.bind rule [1, 0]).2 = .ok () := rfl
  have hrefused : (f.bind rule [2]).2 = .refuse (.unsupportedBasisOrder 2) := rfl
  refine ⟨⟨hf, hrule, rule_beq_self rule⟩, ?_, ?_⟩
  · rcases bind_all_or_nothing hf hrule [1, 0] with ⟨reason, h⟩ | ⟨f', h, hbound, hpoints⟩
    · nomatch (congrArg Prod.snd h).symm.trans htaken
    · have hids : (⟨0⟩ : BlockId) ∈ f'.ids := by
        rw [hbound.rest]
        exact List.mem_cons_self
      obtain ⟨points, hok, -, hposition, -⟩ := hpoints (rule_beq_self rule) ⟨0⟩ hids
      exact ⟨f', points, h, hbound, hok, hposition⟩
  · rcases bind_all_or_nothing hf hrule [2] with h | ⟨f', h, -⟩
    · exact h
    · nomatch (congrArg Prod.snd h).symm.trans hrefused

end ElementField

end ElementFields
