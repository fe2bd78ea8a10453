import ElementFields.Proofs.LeafShapes

namespace ElementFields

theorem nodup_eraseDups (l : List ℕ) : l.eraseDups.Nodup := by
  match l with
  | [] => exact List.nodup_nil
  | a :: rest =>
    have ih := nodup_eraseDups (rest.filter fun b => !b == a)
    rw [List.eraseDups_cons, List.nodup_cons]
    refine ⟨?_, ih⟩
    rw [List.mem_eraseDups, List.mem_filter]
    rintro ⟨-, ha⟩
    simp at ha
termination_by l.length
decreasing_by
  have := List.length_filter_le (fun b => !b == a) rest
  rw [List.length_cons]
  omega

namespace ElementField

variable {K : Type}

theorem gridDim_eq (f : ElementField K) : f.gridDim = f.expr.gridDim.getD 0 := by
  rw [gridDim, f.top.gridDim_eq]
  rfl

theorem valueSize_eq (f : ElementField K) : f.valueSize = f.expr.valueSize := f.top.valueSize_eq

theorem orderIn_eq (f : ElementField K) (block : BlockId) : f.orderIn block = f.expr.orderIn block :=
  f.top.orderIn_eq block

theorem mem_leavesIn_iff {leaves : Array (Leaf K)} {slots : List ℕ} {l : Leaf K} :
    l ∈ leavesIn leaves slots ↔ ∃ slot ∈ slots, leaves[slot]? = some l :=
  List.mem_filterMap

theorem nodup_slots_of_build {b : Builder K} {root : ℕ} {f : ElementField K}
    (h : b.build root = .ok f) : f.slots.Nodup := by
  unfold Builder.build at h
  split at h
  · nomatch h
  · rename_i top _
    obtain ⟨infos, -, h⟩ := bind_eq_ok_iff.1 h
    rw [pure_eq_ok_iff] at h
    subst h
    show top.summary.slots.mergeSort.Nodup
    rw [(List.mergeSort_perm _ _).nodup_iff, top.summary_eq, Expr.slots_summary]
    exact nodup_eraseDups _

theorem mem_slots_of_build {b : Builder K} {root : ℕ} {f : ElementField K}
    (h : b.build root = .ok f) : ∀ slot ∈ f.slots, slot ∈ f.expr.slots := by
  unfold Builder.build at h
  split at h
  · nomatch h
  · rename_i top _
    obtain ⟨infos, -, h⟩ := bind_eq_ok_iff.1 h
    rw [pure_eq_ok_iff] at h
    subst h
    intro slot hs
    rw [List.mem_mergeSort, top.summary_eq, Expr.slots_summary, List.mem_eraseDups] at hs
    exact hs

/-- Every slot of an expression holds a leaf that the field hosts. -/
theorem Hosts.exists_leaf {f : ElementField K} {e : Expr K} (h : f.Hosts e) {slot : ℕ}
    (hs : slot ∈ e.slots) : ∃ signature l, f.HostsLeaf slot signature l := by
  induction e with
  | leaf s signature =>
    obtain ⟨l, hl⟩ := h
    exact ⟨signature, l, List.mem_singleton.1 hs ▸ hl⟩
  | constant x => exact absurd hs List.not_mem_nil
  | unary op a ih =>
    cases op with
    | negate | scale => exact ih h hs
    | map | strain => exact ih h.1 hs
  | binary op a b iha ihb => exact (List.mem_append.1 hs).elim (iha h.1.1) (ihb h.1.2)

/-- Every slot is listed once and holds a leaf of the expression, and every block that is listed has a
leaf with the number of coefficients that is listed. -/
structure Listed (f : ElementField K) : Prop where
  nodup : f.slots.Nodup
  slots : ∀ slot ∈ f.slots, slot ∈ f.expr.slots
  attained : ∀ info ∈ f.blocks, ∃ slot ∈ f.slots, ∃ l, f.leaves[slot]? = some l ∧
    l.block = info.block ∧ l.numCoefficients = info.numCoefficients

theorem Listed.alike {f f' : ElementField K} (h : f.Listed) (ha : f.Alike f') : f'.Listed := by
  refine ⟨?_, ?_, ?_⟩
  · rw [ha.slots]
    exact h.nodup
  · rw [ha.slots, ha.expr]
    exact h.slots
  · have hblocks : f'.blocks = f.blocks := by rw [ha.rest]
    rw [hblocks, ha.slots]
    intro info hi
    obtain ⟨slot, hs, l, hl, hb, hn⟩ := h.attained info hi
    obtain ⟨l', hl', hk⟩ := ha.leaves slot l hl
    exact ⟨slot, hs, l', hl', hk.block.trans hb, hk.size.trans hn⟩

theorem Built.listed [Scalar K] {f : ElementField K} (h : f.Built) : f.Listed := by
  induction h with
  | build _ h =>
    refine ⟨nodup_slots_of_build h, mem_slots_of_build h, fun info hi => ?_⟩
    obtain ⟨l, hl, hb, hn⟩ := (registers_of_build h).attained info hi
    obtain ⟨slot, hs, hl⟩ := List.mem_filterMap.1 hl
    exact ⟨slot, hs, l, hl, hb, hn⟩
  | @bind g rule orders _ ih => exact ih.alike (g.alike_bind rule orders)
  | update _ h ih => exact ih.alike (alike_correctOwners (fun _ _ => Leaf.sameKind_update) h)
  | embed _ h ih => exact ih.alike (alike_correctOwners (fun _ _ => Leaf.sameKind_addInEmbedding) h)
  | modify _ h ih => exact ih.alike (alike_modifyCoefficients (fun _ _ => Leaf.sameKind_update) h)

/-- The slots that are listed are those of the expression. -/
theorem Built.mem_slots_iff [Scalar K] {f : ElementField K} (h : f.Built) {slot : ℕ} :
    slot ∈ f.slots ↔ slot ∈ f.expr.slots := by
  refine ⟨h.listed.slots slot, fun hs => ?_⟩
  obtain ⟨_, _, hl⟩ := h.hosts.exists_leaf hs
  exact hl.slot_mem

/-- A block that is known has an owner with the number of coefficients that is listed. -/
theorem Built.exists_owner [Scalar K] {f : ElementField K} (h : f.Built) {block : BlockId}
    {info : BlockInfo} (hi : f.blockInfo block = .ok info) :
    ∃ l ∈ f.owners block, l.numCoefficients = info.numCoefficients := by
  have hfind := ofOption_eq_ok_iff.1 hi
  have hblock : info.block = block := by simpa using List.find?_some hfind
  obtain ⟨slot, hs, l, hl, hb, hn⟩ := h.listed.attained info (List.mem_of_find?_eq_some hfind)
  have hmem : l ∈ f.owners block :=
    List.mem_filter.2 ⟨mem_reachableLeaves hs hl, decide_eq_true (hb.trans hblock)⟩
  exact ⟨l, hmem, hn⟩

/-- The leaves of a block all have the number of coefficients that is listed, if they have the same
number. -/
theorem Built.numCoefficients_eq [Scalar K] {f : ElementField K} (h : f.Built) {block : BlockId}
    {n : ℕ} (hn : ∀ l ∈ f.owners block, l.numCoefficients = n) {info : BlockInfo}
    (hi : f.blockInfo block = .ok info) : info.numCoefficients = n := by
  obtain ⟨l, hl, hcount⟩ := h.exists_owner hi
  exact hcount.symm.trans (hn l hl)

/-- Every leaf below the root is hosted. -/
theorem Built.hosts_of_mem [Scalar K] {f : ElementField K} (h : f.Built) {l : Leaf K}
    (hl : l ∈ f.reachableLeaves) : ∃ slot signature, f.HostsLeaf slot signature l := by
  obtain ⟨slot, hs, hget⟩ := List.mem_filterMap.1 hl
  obtain ⟨signature, l', hl'⟩ := h.hosts.exists_leaf (h.listed.slots slot hs)
  obtain rfl := Option.some.inj (hget.symm.trans hl'.get)
  exact ⟨slot, signature, hl'⟩

/-- The leaves below the root are those of the expression. -/
theorem Built.mem_reachableLeaves_iff [Scalar K] {f : ElementField K} (hf : f.Built) {l : Leaf K} :
    l ∈ f.reachableLeaves ↔ l ∈ leavesIn f.leaves f.expr.slots := by
  rw [reachableLeaves, mem_leavesIn_iff, mem_leavesIn_iff]
  simp only [hf.mem_slots_iff]

/-- Every slot of the expression of a built field holds a leaf. -/
theorem Built.exists_leaf [Scalar K] {f : ElementField K} (hf : f.Built) {slot : ℕ}
    (hs : slot ∈ f.expr.slots) : ∃ l, f.leaves[slot]? = some l := by
  obtain ⟨_, l, hl⟩ := hf.hosts.exists_leaf hs
  exact ⟨l, hl.get⟩

/-- The leaves of a block have corrections of the size that is listed. -/
theorem Built.tangentDim_eq [Scalar K] {f : ElementField K} (hf : f.Built) {l : Leaf K}
    (hl : l ∈ f.reachableLeaves) : f.tangentDim l.block = l.correctionSize := by
  obtain ⟨_, _, hhost⟩ := hf.hosts_of_mem hl
  obtain ⟨info, hi, hc, -⟩ := hhost.info
  rw [ElementField.tangentDim_eq hi, hc]

/-- Directions that a built field admits are known from its leaves: an axis of the element, and
coefficients that all owners of their block have, of which there is at least one. -/
theorem Built.admits_iff [Scalar K] {f : ElementField K} (hf : f.Built) {d : Directions} :
    f.Admits d ↔ (∀ k, d.spatial = some (.single k) → k < f.gridDim) ∧
      ∀ c ∈ d.coefficientList, f.owners c.block ≠ [] ∧
        ∀ l ∈ f.owners c.block, c.index < l.numCoefficients := by
  refine and_congr_right fun _ => forall₂_congr fun c _ => ?_
  have hinfo : ∀ l ∈ f.owners c.block, ∃ info, f.blockInfo c.block = .ok info ∧
      info.numCoefficients ≤ l.numCoefficients := by
    intro l hl
    obtain ⟨hmem, hblock⟩ := List.mem_filter.1 hl
    obtain ⟨_, _, hhost⟩ := hf.hosts_of_mem hmem
    obtain ⟨info, hi, -, hn⟩ := hhost.info
    exact ⟨info, of_decide_eq_true hblock ▸ hi, hn⟩
  constructor
  · rintro ⟨info, hi, hlt⟩
    obtain ⟨l, hl, -⟩ := hf.exists_owner hi
    refine ⟨List.ne_nil_of_mem hl, fun l' hl' => ?_⟩
    obtain ⟨info', hi', hn⟩ := hinfo l' hl'
    obtain rfl := Except.ok.inj (hi.symm.trans hi')
    exact hlt.trans_le hn
  · rintro ⟨hne, hall⟩
    obtain ⟨l, hl⟩ := List.exists_mem_of_ne_nil _ hne
    obtain ⟨info, hi, -⟩ := hinfo l hl
    -- The number that is listed is the smallest one, and an owner attains it.
    obtain ⟨l', hl', hn⟩ := hf.exists_owner hi
    exact ⟨info, hi, hn ▸ hall l' hl'⟩

/-- Going through slots that do not repeat, every leaf of the block among them is changed once, from
what it was at the start. -/
theorem foldlM_changeOwner {block : BlockId} {change : Leaf K → Checked (Leaf K)}
    {slots : List ℕ} (hn : slots.Nodup) {leaves leaves' : Array (Leaf K)}
    (h : slots.foldlM (changeOwner block change) leaves = .ok leaves') (slot : ℕ) :
    (slot ∈ slots → ∀ l, leaves[slot]? = some l → l.block = block →
      ∃ l', leaves'[slot]? = some l' ∧ change l = .ok l') ∧
    ((slot ∈ slots → ∀ l, leaves[slot]? = some l → l.block ≠ block) →
      leaves'[slot]? = leaves[slot]?) := by
  induction slots generalizing leaves with
  | nil =>
    rw [List.foldlM_nil, pure_eq_ok_iff] at h
    exact ⟨fun hs => absurd hs List.not_mem_nil, fun _ => by rw [h]⟩
  | cons s rest ih =>
    rw [List.foldlM_cons, bind_eq_ok_iff] at h
    obtain ⟨next, hnext, h⟩ := h
    obtain ⟨hs, hn⟩ := List.nodup_cons.1 hn
    obtain ⟨hown, hother⟩ := ih hn h
    rcases changeOwner_cases hnext with ⟨l, l', hl, hb, hl', rfl⟩ | ⟨hne, rfl⟩
    · by_cases heq : slot = s
      · -- The leaf is changed here, and its slot does not come again.
        subst heq
        have hlt : slot < leaves.size := (Array.getElem?_eq_some_iff.1 hl).1
        have hkeep := hother fun hmem => absurd hmem hs
        rw [Array.getElem?_setIfInBounds_self_of_lt hlt] at hkeep
        refine ⟨fun _ m hm _ => ⟨l', hkeep, ?_⟩, fun hno => ?_⟩
        · obtain rfl := Option.some.inj (hl.symm.trans hm)
          exact hl'
        · exact absurd hb (hno List.mem_cons_self l hl)
      · rw [Array.getElem?_setIfInBounds_ne (Ne.symm heq)] at hown hother
        refine ⟨fun hmem => hown ?_, fun hno => hother fun hmem => ?_⟩
        · exact (List.mem_cons.1 hmem).resolve_left heq
        · exact hno (List.mem_cons_of_mem s hmem)
    · refine ⟨fun hmem l hl hb => ?_, fun hno => hother fun hmem => ?_⟩
      · rcases List.mem_cons.1 hmem with rfl | hmem
        · exact absurd hb (hne l hl)
        · exact hown hmem l hl hb
      · exact hno (List.mem_cons_of_mem s hmem)

section Tangents

variable [Scalar K]

def placementsOf (leaves : List (Leaf K)) : List (Option (Geometry K) × CachedShapes K) :=
  leaves.map fun l => (l.geometry, l.shapes)

/-- The reference tangents depend on which geometries and shape functions there are, and on the first
of them. -/
theorem tangentsOver_of_placements {f f' : ElementField K} (hG : f'.gridDim = f.gridDim)
    {leaves leaves' : List (Leaf K)}
    (hfirst : (placementsOf leaves').head? = (placementsOf leaves).head?)
    (hmem : ∀ p, p ∈ placementsOf leaves' ↔ p ∈ placementsOf leaves) :
    f'.tangentsOver leaves' = f.tangentsOver leaves := by
  funext site
  cases ht : site.transform with
  | gridElement => simp only [ElementField.tangentsOver, ht, hG]
  | referenceElement =>
    have hany (leaves : List (Leaf K)) : (leaves.any fun l => l.geometry.isNone) =
        (placementsOf leaves).any fun p => p.1.isNone := by
      rw [placementsOf, List.any_map]
      rfl
    have hmissing : ((placementsOf leaves').any fun p => p.1.isNone) =
        (placementsOf leaves).any fun p => p.1.isNone := by
      apply Bool.eq_iff_iff.2
      simp only [List.any_eq_true, hmem]
    simp only [ElementField.tangentsOver, ht, hG, hany, hmissing]
    rcases leaves with _ | ⟨l, rest⟩ <;> rcases leaves' with _ | ⟨l', rest'⟩
    · rfl
    · nomatch hfirst
    · nomatch hfirst
    · obtain ⟨hg, hs⟩ := Prod.mk.inj (Option.some.inj hfirst)
      simp only [hg, hs]

def placements (f : ElementField K) (e : Expr K) : List (Option (Geometry K) × CachedShapes K) :=
  placementsOf (leavesIn f.leaves e.slots)

theorem referenceTangents_of_placements {f f' : ElementField K} (hG : f'.gridDim = f.gridDim)
    {e e' : Expr K} (hfirst : (f'.placements e').head? = (f.placements e).head?)
    (hmem : ∀ p, p ∈ f'.placements e' ↔ p ∈ f.placements e) :
    f'.referenceTangents e' = f.referenceTangents e :=
  tangentsOver_of_placements hG hfirst hmem

/-- Fields whose leaves have the same geometries and shape functions have the same reference tangents.
-/
theorem referenceTangents_congr {f f' : ElementField K} (hG : f'.gridDim = f.gridDim)
    (hslot : ∀ slot : ℕ, (f'.leaves[slot]?).map (fun l => (l.geometry, l.shapes)) =
      (f.leaves[slot]?).map fun l => (l.geometry, l.shapes)) (e : Expr K) :
    f'.referenceTangents e = f.referenceTangents e := by
  have hsame : f'.placements e = f.placements e := by
    simp only [placements, placementsOf, leavesIn, List.map_filterMap, hslot]
  apply referenceTangents_of_placements hG
  · rw [hsame]
  · intro p
    rw [hsame]

end Tangents

variable [ExactScalar K]

structure Corrected (f f' : ElementField K) (block : BlockId) (d : Vec K) : Prop where
  rest : f' = { f with leaves := f'.leaves }
  owned : ∀ slot ∈ f.slots, ∀ l, f.leaves[slot]? = some l → l.block = block →
    ∃ l', f'.leaves[slot]? = some l' ∧ l.update d = .ok l'
  other : ∀ slot, (slot ∈ f.slots → ∀ l, f.leaves[slot]? = some l → l.block ≠ block) →
    f'.leaves[slot]? = f.leaves[slot]?

theorem corrected_of_addToCoefficients {f f' : ElementField K} {block : BlockId} {d : Vec K}
    (hn : f.slots.Nodup) (h : f.addToCoefficients block d = .ok f') : f.Corrected f' block d := by
  obtain ⟨-, leaves, hleaves, rfl⟩ := correctOwners_eq_ok h
  exact ⟨rfl, fun slot => (foldlM_changeOwner hn hleaves slot).1,
    fun slot => (foldlM_changeOwner hn hleaves slot).2⟩

namespace Corrected

variable {f f' : ElementField K} {block : BlockId} {d : Vec K} (h : f.Corrected f' block d)
include h

/-- A leaf keeps its geometry and its shape functions. -/
theorem map_leaf {α : Type} (key : Leaf K → α)
    (hkey : ∀ l l' : Leaf K, l.update d = .ok l' → key l' = key l) (slot : ℕ) :
    (f'.leaves[slot]?).map key = (f.leaves[slot]?).map key := by
  by_cases hs : slot ∈ f.slots ∧ ∃ l, f.leaves[slot]? = some l ∧ l.block = block
  · obtain ⟨hs, l, hl, hb⟩ := hs
    obtain ⟨l', hl', hu⟩ := h.owned slot hs l hl hb
    rw [hl, hl', Option.map_some, Option.map_some, hkey l l' hu]
  · rw [h.other slot fun hmem l hl hb => hs ⟨hmem, l, hl, hb⟩]

theorem alike : f.Alike f' := by
  refine ⟨h.rest, fun slot l hl => ?_⟩
  by_cases hs : slot ∈ f.slots ∧ l.block = block
  · obtain ⟨l', hl', hu⟩ := h.owned slot hs.1 l hl hs.2
    exact ⟨l', hl', Leaf.sameKind_update hu⟩
  · refine ⟨l, ?_, Leaf.SameKind.refl l⟩
    rw [h.other slot fun hmem m hm hb => hs ⟨hmem, ?_⟩, hl]
    obtain rfl := Option.some.inj (hl.symm.trans hm)
    exact hb

theorem standard (hl : ∀ l ∈ f.reachableLeaves, l.Standard) :
    ∀ l ∈ f'.reachableLeaves, l.Standard := by
  intro l' hmem
  obtain ⟨slot, hs, hl'⟩ := List.mem_filterMap.1 hmem
  rw [h.alike.slots] at hs
  by_cases hown : ∃ l, f.leaves[slot]? = some l ∧ l.block = block
  · obtain ⟨l, hget, hb⟩ := hown
    obtain ⟨l'', hl'', hu⟩ := h.owned slot hs l hget hb
    obtain rfl := Option.some.inj (hl'.symm.trans hl'')
    exact (hl l (mem_reachableLeaves hs hget)).update hu
  · rw [h.other slot fun _ l hget hb => hown ⟨l, hget, hb⟩] at hl'
    exact hl l' (mem_reachableLeaves hs hl')

theorem referenceTangents (e : Expr K) : f'.referenceTangents e = f.referenceTangents e :=
  referenceTangents_congr h.alike.gridDim
    (h.map_leaf (fun l => (l.geometry, l.shapes)) fun _ _ hu =>
      Prod.ext (Leaf.sameKind_update hu).geometry (Leaf.shapes_update hu)) e

end Corrected

end ElementField

end ElementFields
