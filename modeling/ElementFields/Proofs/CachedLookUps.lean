import ElementFields.Proofs.JointBinding
import ElementFields.Proofs.ShapeSlopes

/-! Look-ups at the points of a bound rule, for rules that nobody has checked. An index is compared with
the number of weights, while a cache has one item for each point, or none at all if a later binding
broke off after it had dropped the values. -/
namespace ElementFields

variable {K : Type}

structure BindingAttempt (K : Type) where
  rule : QuadratureRule K
  orders : List ℕ

namespace BindingAttempt

def PointsFit (a : BindingAttempt K) (e : Element) : Prop := ∀ ξ ∈ a.rule.points, ξ.size = e.dim

/-- The rule is taken, and everything that is asked for can be evaluated at its points. The gradients
on a simplex do not look at the point. -/
structure Completes (a : BindingAttempt K) (e : Element) : Prop where
  takes : CachedShapes.Takes e.dim a.rule a.orders
  values : 0 ∈ a.orders → a.PointsFit e
  gradients : 1 ∈ a.orders → e.isSimplex = true ∨ a.PointsFit e

structure Interrupts (a : BindingAttempt K) (e : Element) : Prop where
  takes : CachedShapes.Takes e.dim a.rule a.orders
  no_values : 0 ∉ a.orders
  gradients : 1 ∈ a.orders
  tensor : e.isSimplex = false
  misfit : ¬a.PointsFit e

variable {a : BindingAttempt K} {e : Element}

theorem Interrupts.not_completes (h : a.Interrupts e) : ¬a.Completes e := by
  intro hc
  rcases hc.gradients h.gradients with hs | hfit
  · exact Bool.noConfusion (hs.symm.trans h.tensor)
  · exact h.misfit hfit

/-- The points of a regular rule fit as soon as the rule is taken. -/
theorem not_interrupts_of_regular (h : a.rule.Regular) : ¬a.Interrupts e :=
  fun hi => hi.misfit (hi.takes.size_eq h)

end BindingAttempt

namespace CachedShapes

section Filling

variable [Scalar K] {element : Element} {rule : QuadratureRule K} {orders : List ℕ}

theorem cachedValues_eq_ok_iff : (∃ values, cachedValues element rule orders = .ok values) ↔
    (0 ∈ orders → ∀ ξ ∈ rule.points, ξ.size = element.dim) := by
  rw [cachedValues, ← List.contains_iff_mem]
  split
  · rename_i h
    constructor
    · rintro ⟨values, hvalues⟩ - ξ hξ
      obtain ⟨v, hv⟩ := exists_of_mem_mapM hvalues hξ
      exact size_of_shapeValues hv
    · intro hfit
      refine exists_mapM fun ξ hξ => ?_
      obtain ⟨v, hv, -⟩ := Element.yields_shapeValues (hfit h ξ hξ)
      exact ⟨v, hv⟩
  · exact ⟨fun _ h => absurd h ‹_›, fun _ => ⟨[], rfl⟩⟩

theorem size_of_shapeGradients {ξ : Vec K} {m : Mat K} (h : element.shapeGradients ξ = .ok m) :
    element.isSimplex = true ∨ ξ.size = element.dim := by
  rw [Element.shapeGradients] at h
  split at h
  · exact .inl ‹_›
  · exact .inr (Checked.require_eq_ok_iff.1 h).1

theorem exists_shapeGradients {ξ : Vec K} (h : element.isSimplex = true ∨ ξ.size = element.dim) :
    ∃ m, element.shapeGradients ξ = .ok m := by
  rcases h with hs | hξ
  · exact ⟨_, if_pos hs⟩
  · obtain ⟨m, hm, -⟩ := Element.yields_shapeGradients hξ
    exact ⟨m, hm⟩

theorem cachedGradients_eq_ok_iff :
    (∃ gradients, cachedGradients element rule orders = .ok gradients) ↔
      (1 ∈ orders → element.isSimplex = true ∨ ∀ ξ ∈ rule.points, ξ.size = element.dim) := by
  rw [cachedGradients, ← List.contains_iff_mem]
  split
  · rename_i h
    constructor
    · rintro ⟨gradients, hgradients⟩ -
      by_cases hs : element.isSimplex = true
      · exact .inl hs
      · refine .inr fun ξ hξ => ?_
        obtain ⟨m, hm⟩ := exists_of_mem_mapM hgradients hξ
        exact (size_of_shapeGradients hm).resolve_left hs
    · intro hfit
      exact exists_mapM fun ξ hξ => exists_shapeGradients ((hfit h).imp_right fun h => h ξ hξ)
  · exact ⟨fun _ h => absurd h ‹_›, fun _ => ⟨[], rfl⟩⟩

theorem length_cachedValues {values : List (Vec K)}
    (h : cachedValues element rule orders = .ok values) (hzero : 0 ∈ orders) :
    values.length = rule.points.length := by
  rw [cachedValues, if_pos (List.contains_iff_mem.2 hzero)] at h
  exact (mapM_eq_ok h).1

theorem length_cachedGradients {gradients : List (Mat K)}
    (h : cachedGradients element rule orders = .ok gradients) (hone : 1 ∈ orders) :
    gradients.length = rule.points.length := by
  rw [cachedGradients, if_pos (List.contains_iff_mem.2 hone)] at h
  exact (mapM_eq_ok h).1

end Filling

section Runs

variable [Scalar K] {s : CachedShapes K} {e : Element} {a : BindingAttempt K}
  {run : List (BindingAttempt K)}

/-- What one attempt does to shape functions: it fails and leaves them as they are, it drops their
values and then fails, or it replaces everything. -/
theorem bind_cases (s : CachedShapes K) (a : BindingAttempt K) :
    (¬a.Completes s.element ∧ ¬a.Interrupts s.element ∧
      ∃ failure, s.bind a.rule a.orders = (s, .error failure)) ∨
    (a.Interrupts s.element ∧
      ∃ v, s.bind a.rule a.orders = ({ s with values := [] }, .error (.broken v))) ∨
    (a.Completes s.element ∧ ∃ values gradients,
      (0 ∈ a.orders → values.length = a.rule.points.length) ∧
      (1 ∈ a.orders → gradients.length = a.rule.points.length) ∧
      s.bind a.rule a.orders =
        ({ s with rule := some a.rule, orders := cacheable a.orders, values, gradients },
          .ok ())) := by
  by_cases htakes : Takes s.element.dim a.rule a.orders
  swap
  · obtain ⟨reason, hbind⟩ := bind_of_not_takes htakes
    exact .inl ⟨fun h => htakes h.takes, fun h => htakes h.takes, _, hbind⟩
  have hdim : ¬(a.rule.isEmpty = false ∧ a.rule.dim ≠ s.dim) := fun hne =>
    hne.2 (htakes.2 hne.1)
  cases hvalues : cachedValues s.element a.rule a.orders with
  | error v =>
    have hnot : ¬(0 ∈ a.orders → a.PointsFit s.element) := by
      intro hfit
      obtain ⟨values, hok⟩ := cachedValues_eq_ok_iff.2 hfit
      cases hvalues.symm.trans hok
    have hbind : s.bind a.rule a.orders = (s, .error (.broken v)) := by
      simp only [bind, htakes.1, if_neg hdim, hvalues]
    exact .inl ⟨fun h => hnot h.values, fun h => hnot fun hzero => absurd hzero h.no_values, _, hbind⟩
  | ok values =>
    have hfit : 0 ∈ a.orders → a.PointsFit s.element := cachedValues_eq_ok_iff.1 ⟨values, hvalues⟩
    cases hgradients : cachedGradients s.element a.rule a.orders with
    | error v =>
      have hnot : ¬(1 ∈ a.orders → s.element.isSimplex = true ∨ a.PointsFit s.element) := by
        intro hfit
        obtain ⟨gradients, hok⟩ := cachedGradients_eq_ok_iff.2 hfit
        cases hgradients.symm.trans hok
      obtain ⟨hone, hneither⟩ := Classical.not_imp.1 hnot
      obtain ⟨htensor, hmisfit⟩ := not_or.1 hneither
      -- Had values been asked for, the binding would not have got as far as the gradients.
      refine .inr (.inl ⟨⟨htakes, fun hzero => hmisfit (hfit hzero), hone,
        Bool.eq_false_iff.2 htensor, hmisfit⟩, v, ?_⟩)
      simp only [bind, htakes.1, if_neg hdim, hvalues, hgradients,
        values_of_stopped hvalues hgradients]
    | ok gradients =>
      refine .inr (.inr ⟨⟨htakes, hfit, cachedGradients_eq_ok_iff.1 ⟨gradients, hgradients⟩⟩, values,
        gradients, length_cachedValues hvalues, length_cachedGradients hgradients, ?_⟩)
      simp only [bind, htakes.1, if_neg hdim, hvalues, hgradients]

/-- The shape functions of an element after a run of attempts, the latest one first. Whether an attempt
succeeds or not, the next one starts from the state it has reached. -/
def bound (e : Element) : List (BindingAttempt K) → CachedShapes K
  | [] => unbound e
  | a :: earlier => ((bound e earlier).bind a.rule a.orders).1

omit [Scalar K] in
/-- The values are gone though the rule they belong to is still bound: since the last attempt that
completed there was one that was interrupted. -/
def Emptied (e : Element) : List (BindingAttempt K) → Prop
  | [] => False
  | a :: earlier => ¬a.Completes e ∧ (a.Interrupts e ∨ Emptied e earlier)

structure Follows (s : CachedShapes K) (e : Element) (run : List (BindingAttempt K)) : Prop where
  element : s.element = e
  orders : s.rule = none → s.orders = []
  emptied : Emptied e run → s.values = []
  values : ¬Emptied e run → ∀ rule, s.rule = some rule → 0 ∈ s.orders →
    s.values.length = rule.points.length
  gradients : ∀ rule, s.rule = some rule → 1 ∈ s.orders → s.gradients.length = rule.points.length

theorem Follows.bind (h : s.Follows e run) (a : BindingAttempt K) :
    (s.bind a.rule a.orders).1.Follows e (a :: run) := by
  obtain ⟨rfl, horders, hemptied, hvalues, hgradients⟩ := h
  rcases s.bind_cases a with ⟨hc, hi, _, hbind⟩ | ⟨hi, v, hbind⟩ |
    ⟨hc, values, gradients, hlv, hlg, hbind⟩ <;> rw [hbind]
  · have hsame : Emptied s.element (a :: run) ↔ Emptied s.element run :=
      ⟨fun h => h.2.resolve_left hi, fun h => ⟨hc, .inr h⟩⟩
    exact ⟨rfl, horders, fun h => hemptied (hsame.1 h), fun h => hvalues (mt hsame.2 h), hgradients⟩
  · have hempty : Emptied s.element (a :: run) := ⟨hi.not_completes, .inl hi⟩
    exact ⟨rfl, horders, fun _ => rfl, fun h => absurd hempty h, hgradients⟩
  · have hmem (n : ℕ) (hn : n ∈ cacheable a.orders) : n ∈ a.orders :=
      (mem_cacheable_iff hc.takes.1 n).1 hn
    refine ⟨rfl, fun h => (nomatch h), fun h => absurd hc h.1, fun _ rule hrule hzero => ?_,
      fun rule hrule hone => ?_⟩
    · obtain rfl := Option.some.inj hrule
      exact hlv (hmem 0 hzero)
    · obtain rfl := Option.some.inj hrule
      exact hlg (hmem 1 hone)

theorem follows_bound (e : Element) (run : List (BindingAttempt K)) : (bound e run).Follows e run := by
  induction run with
  | nil =>
    exact ⟨rfl, fun _ => rfl, fun h => h.elim, fun _ _ h => (nomatch h), fun _ h => (nomatch h)⟩
  | cons a earlier ih => exact ih.bind a

omit [Scalar K] in
/-- Regular rules do not interrupt each other. -/
theorem not_emptied_of_regular (h : ∀ a ∈ run, a.rule.Regular) : ¬Emptied e run := by
  induction run with
  | nil => exact id
  | cons a earlier ih =>
    rintro ⟨-, hi | hearlier⟩
    · exact BindingAttempt.not_interrupts_of_regular (h a List.mem_cons_self) hi
    · exact ih (fun a ha => h a (List.mem_cons_of_mem _ ha)) hearlier

/-- The rule that is bound is one of those that were tried. -/
theorem exists_of_rule_bound {rule : QuadratureRule K} (h : (bound e run).rule = some rule) :
    ∃ a ∈ run, a.rule = rule := by
  induction run with
  | nil => nomatch h
  | cons a earlier ih =>
    have hearlier (h : (bound e earlier).rule = some rule) : ∃ a' ∈ a :: earlier, a'.rule = rule := by
      obtain ⟨a', ha', hrule⟩ := ih h
      exact ⟨a', List.mem_cons_of_mem _ ha', hrule⟩
    rw [bound] at h
    rcases (bound e earlier).bind_cases a with ⟨-, -, _, hbind⟩ | ⟨-, _, hbind⟩ |
      ⟨-, _, _, -, -, hbind⟩ <;> rw [hbind] at h
    · exact hearlier h
    · exact hearlier h
    · exact ⟨a, List.mem_cons_self, Option.some.inj h⟩

end Runs

section LookUps

variable {α β : Type}

structure LooksUp (x : Outcome α) (q weights cached : ℕ) : Prop where
  ok_iff : (∃ a, x = .ok a) ↔ q < weights ∧ q < cached
  broken_iff : (∃ v, x = .error (.broken v)) ↔ q < weights ∧ cached ≤ q

def SafeLike (x : Outcome α) (y : Outcome β) : Prop :=
  (∀ v, x ≠ .error (.broken v)) ∧ ((∃ a, x = .ok a) ↔ ∃ b, y = .ok b)

/-- At every integration point, values and gradients that are cached can be looked up without breaking,
and they exist exactly where a position does. -/
def IndexedSafely [Scalar K] (s : CachedShapes K) : Prop := ∀ q : ℕ,
  (0 ∈ s.orders → SafeLike (s.valuesAt (.integrationPoint q)) (s.position (.integrationPoint q))) ∧
  (1 ∈ s.orders →
    SafeLike (s.gradientsAt (.integrationPoint q)) (s.position (.integrationPoint q)))

theorem looksUp_lookUp (l : List α) {q weights : ℕ} (hq : q < weights) :
    LooksUp (lookUp l q) q weights l.length := by
  rw [lookUp]
  by_cases hl : q < l.length
  · rw [List.getElem?_eq_getElem hl]
    refine ⟨⟨fun _ => ⟨hq, hl⟩, fun _ => ⟨_, rfl⟩⟩, ?_, fun h => absurd hl (Nat.not_lt.2 h.2)⟩
    rintro ⟨_, h⟩
    cases h
  · rw [List.getElem?_eq_none (Nat.le_of_not_lt hl)]
    refine ⟨⟨?_, fun h => absurd h.2 hl⟩, fun _ => ⟨hq, Nat.le_of_not_lt hl⟩, fun _ => ⟨_, rfl⟩⟩
    rintro ⟨_, h⟩
    cases h

/-- At all points together, a look-up is safe only if there are as many weights as points and enough
items. -/
theorem forall_safeLike_iff {x : ℕ → Outcome α} {y : ℕ → Outcome β} {weights cached points : ℕ}
    (hx : ∀ q, LooksUp (x q) q weights cached) (hy : ∀ q, (∃ b, y q = .ok b) ↔ q < points) :
    (∀ q, SafeLike (x q) (y q)) ↔ weights = points ∧ weights ≤ cached := by
  constructor
  · intro h
    have hle : weights ≤ cached := by
      by_contra hlt
      obtain ⟨v, hv⟩ := (hx cached).broken_iff.2 ⟨Nat.lt_of_not_le hlt, le_rfl⟩
      exact (h cached).1 v hv
    have hlt (q : ℕ) : q < weights ↔ q < points := by
      rw [← hy q, ← (h q).2, (hx q).ok_iff]
      exact ⟨fun hq => ⟨hq, hq.trans_le hle⟩, fun hq => hq.1⟩
    have hw := hlt weights
    have hp := hlt points
    exact ⟨by omega, hle⟩
  · rintro ⟨rfl, hle⟩ q
    refine ⟨fun v hv => ?_, ?_⟩
    · have hbroken := (hx q).broken_iff.1 ⟨v, hv⟩
      omega
    · rw [(hx q).ok_iff, hy q]
      exact ⟨fun hq => hq.1, fun hq => ⟨hq, hq.trans_le hle⟩⟩

variable {s : CachedShapes K} {rule : QuadratureRule K} (hrule : s.rule = some rule)
include hrule

theorem exists_position_iff (q : ℕ) :
    (∃ ξ, s.position (.integrationPoint q) = .ok ξ) ↔ q < rule.points.length := by
  rw [position, hrule]
  constructor
  · rintro ⟨ξ, hξ⟩
    exact (List.getElem?_eq_some_iff.1 (ofOption_eq_ok_iff.1 hξ)).1
  · exact fun hq => ⟨_, ofOption_eq_ok_iff.2 (List.getElem?_eq_getElem hq)⟩

theorem looksUp_of_rule {order : ℕ} (ho : order ∈ s.orders) (l : List α) (q : ℕ) :
    LooksUp (do s.checkIndex q order; lookUp l q) q rule.size l.length := by
  have hcheck : s.checkIndex q order =
      if rule.size ≤ q then .refuse (.integrationPointOutOfRange q rule.size) else .ok () := by
    rw [checkIndex, hrule, List.contains_iff_mem.2 ho]
    rfl
  rw [hcheck]
  split
  · rename_i hle
    exact ⟨⟨fun ⟨_, h⟩ => (nomatch h), fun h => absurd h.1 (Nat.not_lt.2 hle)⟩,
      ⟨fun ⟨_, h⟩ => (nomatch h), fun h => absurd h.1 (Nat.not_lt.2 hle)⟩⟩
  · exact looksUp_lookUp l (Nat.lt_of_not_le ‹_›)

end LookUps

section Safety

variable [Scalar K] {s : CachedShapes K} {e : Element} {run : List (BindingAttempt K)}
  {rule : QuadratureRule K}

/-- After a run of bindings, what is needed so that no look-up breaks and none misses a position. -/
theorem Follows.indexedSafely_iff (h : s.Follows e run) (hrule : s.rule = some rule) :
    s.IndexedSafely ↔ (0 ∈ s.orders ∨ 1 ∈ s.orders → rule.size = rule.points.length) ∧
      (0 ∈ s.orders → Emptied e run → rule.size = 0) := by
  have hposition := exists_position_iff hrule
  have hvalues (ho : 0 ∈ s.orders) := forall_safeLike_iff (looksUp_of_rule hrule ho s.values) hposition
  have hgradients (ho : 1 ∈ s.orders) :=
    forall_safeLike_iff (looksUp_of_rule hrule ho s.gradients) hposition
  constructor
  · intro hsafe
    have hv (ho : 0 ∈ s.orders) := (hvalues ho).1 fun q => (hsafe q).1 ho
    have hg (ho : 1 ∈ s.orders) := (hgradients ho).1 fun q => (hsafe q).2 ho
    refine ⟨fun ho => ho.elim (fun ho => (hv ho).1) fun ho => (hg ho).1, fun ho hempty => ?_⟩
    have hle := (hv ho).2
    rw [h.emptied hempty] at hle
    exact Nat.le_zero.1 hle
  · rintro ⟨hsize, hnone⟩ q
    refine ⟨fun ho => (hvalues ho).2 ⟨hsize (.inl ho), ?_⟩ q,
      fun ho => (hgradients ho).2 ⟨hsize (.inr ho), ?_⟩ q⟩
    · by_cases hempty : Emptied e run
      · rw [hnone ho hempty]
        exact Nat.zero_le _
      · rw [h.values hempty rule hrule ho, hsize (.inl ho)]
    · rw [h.gradients rule hrule ho, hsize (.inr ho)]

/-- Whatever rules were bound before, checked or not: positions exist for the points of the rule that is
bound in the end, gradients are looked up in a cache with one item for each point, and so are values,
unless some later binding was interrupted, after which there are none. All of this is safe exactly if
the rule has as many weights as points and its values, if any are used, were not dropped. In a run of
regular rules that is always so. -/
theorem indexing_of_run (e : Element) (run : List (BindingAttempt K)) :
    let s := bound e run
    (s.rule = none → s.orders = []) ∧
    (∀ rule, s.rule = some rule →
      (∀ q, (∃ ξ, s.position (.integrationPoint q) = .ok ξ) ↔ q < rule.points.length) ∧
      (1 ∈ s.orders → ∀ q,
        LooksUp (s.gradientsAt (.integrationPoint q)) q rule.size rule.points.length) ∧
      (0 ∈ s.orders → ¬Emptied e run → ∀ q,
        LooksUp (s.valuesAt (.integrationPoint q)) q rule.size rule.points.length) ∧
      (0 ∈ s.orders → Emptied e run → ∀ q,
        LooksUp (s.valuesAt (.integrationPoint q)) q rule.size 0) ∧
      (s.IndexedSafely ↔ (0 ∈ s.orders ∨ 1 ∈ s.orders → rule.size = rule.points.length) ∧
        (0 ∈ s.orders → Emptied e run → rule.size = 0))) ∧
    ((∀ a ∈ run, a.rule.Regular) → s.IndexedSafely) := by
  intro s
  have hs : s.Follows e run := follows_bound e run
  refine ⟨hs.orders, fun rule hrule => ⟨exists_position_iff hrule, fun ho => ?_, fun ho hfull => ?_,
    fun ho hempty => ?_, hs.indexedSafely_iff hrule⟩, fun hregular => ?_⟩
  · rw [← hs.gradients rule hrule ho]
    exact looksUp_of_rule hrule ho s.gradients
  · rw [← hs.values hfull rule hrule ho]
    exact looksUp_of_rule hrule ho s.values
  · have hnone : s.values.length = 0 := congrArg List.length (hs.emptied hempty)
    rw [← hnone]
    exact looksUp_of_rule hrule ho s.values
  · cases hrule : s.rule with
    | none =>
      -- Before a rule is bound no order is cached, so there is nothing to show.
      intro q
      rw [hs.orders hrule]
      exact ⟨fun h => absurd h List.not_mem_nil, fun h => absurd h List.not_mem_nil⟩
    | some rule =>
      obtain ⟨a, ha, rfl⟩ := exists_of_rule_bound hrule
      exact (hs.indexedSafely_iff hrule).2 ⟨fun _ => (hregular a ha).1,
        fun _ hempty => absurd hempty (not_emptied_of_regular hregular)⟩

/-- On a segment, one point is bound with its values; then gradients are asked for at two points, the
second of which has two coordinates. The first rule is still bound and shows its point, but the look-up
of its values breaks. -/
theorem indexing_of_run_interrupted :
    let first : BindingAttempt ℝ := ⟨⟨[2], [#[0]]⟩, [0]⟩
    let second : BindingAttempt ℝ := ⟨⟨[1, 1], [#[0], #[0, 0]]⟩, [1]⟩
    (bound .segment [first]).IndexedSafely ∧ Emptied .segment [second, first] ∧
      (∃ v, (bound .segment [second, first]).valuesAt (.integrationPoint 0) =
        .error (.broken v)) ∧ ¬(bound .segment [second, first]).IndexedSafely := by
  intro first second
  have hinterrupts : second.Interrupts .segment := by
    refine ⟨⟨rfl, fun _ => rfl⟩, by decide, by decide, rfl, fun hfit => ?_⟩
    exact absurd (hfit #[0, 0] (.tail _ (.head _))) (by decide)
  have hempty : Emptied .segment [second, first] := ⟨hinterrupts.not_completes, .inl hinterrupts⟩
  have hregular : ∀ a ∈ [first], a.rule.Regular := by
    intro a ha
    obtain rfl := List.mem_singleton.1 ha
    refine ⟨rfl, fun ξ hξ => ?_⟩
    rw [List.mem_singleton.1 hξ]
    rfl
  have hzero : 0 ∈ (bound .segment [second, first]).orders := by
    show 0 ∈ [0]
    decide
  obtain ⟨-, hbound, -⟩ := indexing_of_run .segment [second, first]
  obtain ⟨-, -, -, hlookup, hsafe⟩ := hbound first.rule rfl
  refine ⟨(indexing_of_run .segment [first]).2.2 hregular, hempty,
    (hlookup hzero hempty 0).broken_iff.2 ⟨Nat.zero_lt_one, Nat.le_refl 0⟩, fun h => ?_⟩
  exact absurd ((hsafe.1 h).2 hzero hempty) (by decide)

/-- On a segment, a rule with two weights but one point: the look-up of the values at the second point
breaks, where the position is refused. -/
theorem spare_weight_breaks :
    let spare : BindingAttempt ℝ := ⟨⟨[1, 2], [#[1 / 2]]⟩, [0]⟩
    let s := bound .segment [spare]
    0 ∈ s.orders ∧ s.valuesAt (.integrationPoint 1) = .error (.broken .misfit) ∧
      s.position (.integrationPoint 1) = .refuse (.integrationPointOutOfRange 1 2) ∧
      ¬s.IndexedSafely := by
  intro spare s
  have hzero : 0 ∈ s.orders := by
    show 0 ∈ [0]
    decide
  have hbroken : s.valuesAt (.integrationPoint 1) = .error (.broken .misfit) := rfl
  exact ⟨hzero, hbroken, rfl, fun h => ((h 1).1 hzero).1 .misfit hbroken⟩

end Safety

end CachedShapes

end ElementFields
