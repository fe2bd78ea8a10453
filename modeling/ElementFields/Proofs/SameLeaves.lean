import ElementFields.Proofs.CachedEvaluation
import ElementFields.Proofs.NormalizedLeaf
import ElementFields.Proofs.Updates

namespace ElementFields
open Scalar
open scoped BigOperators

variable {K : Type} [ExactScalar K]

namespace Partials

def Agree (V : ℕ) (T T' : Partials K) : Prop :=
  ∀ i < V, ∀ k α β, T.jet k α β i = T'.jet k α β i

variable {T T' : Partials K} {V G : ℕ} {C : BlockId → ℕ} {r : Request K} {D D' : Derivative K}

/-- There is one answer to a request that is read off tables that agree. -/
theorem ReadBy.unique (h : T.ReadBy V G C r D) (h' : T'.ReadBy V G C r D') (hT : T.Agree V T')
    (hfit : r.Fits V G) : D = D' := by
  obtain ⟨hform, hentry⟩ := h
  obtain ⟨hform', hentry'⟩ := h'
  have γ : Variable := ⟨⟨⟨0⟩, 0⟩, 0⟩
  refine Derivative.ext_of_hasForm hform hform'
    (Derivative.entry_congr hform hform' fun k i j hk hi hj => ?_)
  -- One case for each kind of request: each reads one part of the perturbed numbers.
  rcases hs : r.directions.spatial with _ | d <;>
    rcases hc : r.directions.coefficients with _ | c | ⟨c₁, c₂⟩ <;>
    simp only [hs, hc] at hentry hentry'
  case none.none =>
    rw [Directions.form, hs, hc] at hk hi hj
    rw [Nat.lt_one_iff.1 hk, Nat.lt_one_iff.1 hj, hentry i hi, hentry' i hi]
    exact congrArg Jet.v (hT i hi 0 γ γ)
  case none.single =>
    rw [Directions.form_single hs hc] at hk hi hj
    rw [Nat.lt_one_iff.1 hk, hentry i hi j hj, hentry' i hi j hj]
    exact congrArg Jet.p (hT i hi 0 ⟨c, j⟩ γ)
  case none.two =>
    obtain ⟨W, hW, -⟩ := hfit c₁ c₂ hc
    rw [Directions.form_two hc] at hk hi hj
    rw [Nat.lt_one_iff.1 hk, hentry W hW i hi j hj, hentry' W hW i hi j hj]
    refine Finset.sum_congr rfl fun n hn => congrArg (W.entry n 0 * ·) ?_
    exact congrArg Jet.pq (hT n (Finset.mem_range.1 hn) 0 ⟨c₁, i⟩ ⟨c₂, j⟩)
  case some.none =>
    rw [Directions.form_spatial hs hc] at hk hi hj
    rw [Nat.lt_one_iff.1 hk, hentry i hi j hj, hentry' i hi j hj]
    exact congrArg Jet.x (hT i hi _ γ γ)
  case some.single =>
    obtain ⟨hcount, hrows, hcols⟩ := Directions.count_form_mixed (V := V) (G := G) (C := C) hs hc
    rw [hcount] at hk
    rw [hrows] at hi
    rw [hcols] at hj
    rw [hentry k hk i hi j hj, hentry' k hk i hi j hj]
    exact congrArg Jet.xp (hT i hi _ ⟨c, j⟩ γ)
  case some.two =>
    obtain ⟨W, hW, -⟩ := hfit c₁ c₂ hc
    rw [Directions.form_two hc] at hk hi hj
    rw [Nat.lt_one_iff.1 hk, hentry W hW i hi j hj, hentry' W hW i hi j hj]
    refine Finset.sum_congr rfl fun m _ => Finset.sum_congr rfl fun n hn =>
      congrArg (W.entry n m * ·) ?_
    exact congrArg Jet.xpq (hT n (Finset.mem_range.1 hn) _ ⟨c₁, i⟩ ⟨c₂, j⟩)

end Partials

/-- The table of an expression is known from the tables of its leaves and from the reference tangents
of its parts. -/
theorem Expr.table_congr {e : Expr K} {dim : ℕ} {A A' : Expr K → ℕ → ℕ → K} {T T' : ℕ → Partials K}
    (hA : ∀ p : Expr K, p.IsPart e → A p = A' p) (hT : ∀ slot ∈ e.slots, T slot = T' slot) :
    e.table dim A T = e.table dim A' T' := by
  induction e with
  | leaf slot signature => exact hT slot List.mem_cons_self
  | constant x => rfl
  | unary op a ih =>
    have ih := ih (fun p hp => hA p (.unary op hp)) hT
    -- A strain also takes the tangents of its operand, nothing else takes any.
    cases op with
    | strain => simp only [table, ih, hA a (.unary _ (.refl a))]
    | _ => simp only [table, ih]
  | binary op a b iha ihb =>
    have iha := iha (fun p hp => hA p (.left op b hp)) fun slot hs =>
      hT slot (List.mem_append_left _ hs)
    have ihb := ihb (fun p hp => hA p (.right op a hp)) fun slot hs =>
      hT slot (List.mem_append_right _ hs)
    cases op <;> simp only [table, iha, ihb]

namespace ElementField

variable {f g : ElementField K} {site : Site K}

section Values

variable (hf : f.Built) (hleaf : ∀ l ∈ f.reachableLeaves, l.Standard)
include hf hleaf

/-- The value of a part of a field is read off the table of the part. -/
theorem value_reads_table {p : Expr K} (hp : p.IsPart f.expr) {m : Mat K}
    (hm : (f.operand p).value site = .ok m) :
    (m.rows = p.valueSize ∧ m.cols = 1) ∧
      ∀ i < p.valueSize, m.entry i 0 = (f.table site (f.leafTables site) p).value i := by
  have hshape : ∀ l ∈ f.reachableLeaves, l.KeepsShapes := fun l hl => (hleaf l hl).kind.keepsShapes
  have hhosts : f.Hosts p := hf.hosts.part hp
  have hread := readsTable hshape (leavesRead_leafTables hleaf site p) hhosts
  exact ⟨(operandWith_formed hshape _ hhosts f.admits_value).value site m hm,
    fun i hi => hread.value hm hi⟩

theorem evaluate_reads_table {v : Vec K} (hv : f.evaluate site = .ok v) :
    v.size = f.valueSize ∧ ∀ i < f.valueSize, v.entry i = (f.tableAt site).value i := by
  obtain ⟨m, hm, hcols, rfl⟩ := evaluate_eq_ok_iff.1 hv
  obtain ⟨⟨hrows, -⟩, hread⟩ := value_reads_table hf hleaf (.refl _) hm
  rw [f.valueSize_eq]
  refine ⟨?_, fun i hi => ?_⟩
  · rw [Mat.flatten, m.size_entries, hrows, hcols, Nat.mul_one]
  · rw [Mat.entry_flatten_column hcols]
    exact hread i hi

end Values

structure SharesLeaves (f g : ElementField K) : Prop where
  built : f.Built
  built' : g.Built
  gridDim : g.expr.gridDim = f.expr.gridDim
  slots : ∀ slot, slot ∈ g.expr.slots ↔ slot ∈ f.expr.slots
  leaves : ∀ slot ∈ f.expr.slots, g.leaves[slot]? = f.leaves[slot]?

namespace SharesLeaves

variable (h : f.SharesLeaves g)
include h

theorem gridDim_eq : g.gridDim = f.gridDim := by
  rw [ElementField.gridDim_eq, ElementField.gridDim_eq, h.gridDim]

theorem mem_reachableLeaves_iff {l : Leaf K} : l ∈ g.reachableLeaves ↔ l ∈ f.reachableLeaves := by
  rw [h.built'.mem_reachableLeaves_iff, h.built.mem_reachableLeaves_iff, mem_leavesIn_iff,
    mem_leavesIn_iff]
  simp only [h.slots]
  exact exists_congr fun slot => and_congr_right fun hs => by rw [h.leaves slot hs]

theorem standard (hleaf : ∀ l ∈ f.reachableLeaves, l.Standard) :
    ∀ l ∈ g.reachableLeaves, l.Standard :=
  fun l hl => hleaf l (h.mem_reachableLeaves_iff.1 hl)

/-- Where a block has coefficients, both fields know the size of their corrections from a leaf. -/
theorem tangentDim_eq {d : Directions} (hd : f.Admits d) {c : Coefficient}
    (hc : c ∈ d.coefficientList) : g.tangentDim c.block = f.tangentDim c.block := by
  obtain ⟨info, hi, -⟩ := hd.2 c hc
  obtain ⟨l, hl, -⟩ := h.built.exists_owner hi
  obtain ⟨hl, hblock⟩ := List.mem_filter.1 hl
  rw [← of_decide_eq_true hblock, h.built.tangentDim_eq hl,
    h.built'.tangentDim_eq (h.mem_reachableLeaves_iff.2 hl)]

/-- An expression on leaves of both fields has the same table in both. -/
theorem table_eq {e : Expr K} (he : ∀ slot ∈ e.slots, slot ∈ f.expr.slots) (site : Site K) :
    g.table site (g.leafTables site) e = f.table site (f.leafTables site) e := by
  rw [table, table, h.gridDim_eq]
  refine Expr.table_congr (fun p hp => ?_) fun slot hs => ?_
  -- On equal leaves an expression is a copy of itself, and copies have the same tangents.
  · have hp : p.Copies f.leaves g.leaves p :=
      .self fun slot hs => h.leaves slot (he slot (hp.mem_slots hs))
    funext d k
    simp only [tangentEntry, referenceTangents_of_copies hp h.gridDim_eq]
  · rw [leafTables, leafTables, h.leaves slot (he slot hs)]

/-- If the tables of the two fields agree at a site, then so does whatever both of them answer
there. -/
theorem answers_eq (hleaf : ∀ l ∈ f.reachableLeaves, l.Standard) (hV : g.valueSize = f.valueSize)
    (hT : (f.tableAt site).Agree f.valueSize (g.tableAt site)) :
    (∀ v w, f.evaluate site = .ok v → g.evaluate site = .ok w → v = w) ∧
      ∀ d along D E, f.evaluateRequest ⟨site, d, along⟩ = .ok D →
        g.evaluateRequest ⟨site, d, along⟩ = .ok E → D = E := by
  have hleaf' := h.standard hleaf
  refine ⟨fun v w hv hw => ?_, fun d along D E hD hE => ?_⟩
  · obtain ⟨hsize, hv⟩ := evaluate_reads_table h.built hleaf hv
    obtain ⟨hsize', hw⟩ := evaluate_reads_table h.built' hleaf' hw
    have γ : Variable := ⟨⟨⟨0⟩, 0⟩, 0⟩
    refine Vec.ext_entry (hsize.trans (hsize'.trans hV).symm) fun i hi => ?_
    rw [hsize] at hi
    rw [hv i hi, hw i (hV ▸ hi)]
    exact congrArg Jet.v (hT i hi 0 γ γ)
  · obtain ⟨⟨hadmits, hfits⟩, -⟩ := evaluateRequest_eq_ok_iff.1 hD
    have hread' := readBy_tableAt hleaf' h.built' hE
    rw [hV, h.gridDim_eq] at hread'
    exact (readBy_tableAt hleaf h.built hD).unique
      (hread'.congr fun c hc => h.tangentDim_eq hadmits hc) hT hfits

end SharesLeaves

end ElementField

end ElementFields
