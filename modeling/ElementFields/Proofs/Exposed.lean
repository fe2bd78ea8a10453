import Mathlib.Order.Bounds.Basic
import ElementFields.Proofs.Covariance
import ElementFields.Proofs.Linked
import ElementFields.Proofs.Relocation

namespace ElementFields

variable {K : Type}

theorem mem_blocks_mergeOrders {combine : PolynomialOrder → PolynomialOrder → PolynomialOrder}
    {l m : List (BlockId × PolynomialOrder)} {block : BlockId} :
    block ∈ (mergeOrders combine l m).map Prod.fst ↔
      block ∈ l.map Prod.fst ∨ block ∈ m.map Prod.fst := by
  have hfst (blocks : List BlockId) (g : BlockId → PolynomialOrder) :
      (blocks.map fun b => (b, g b)).map Prod.fst = blocks := by
    rw [List.map_map]
    exact List.map_id blocks
  rw [mergeOrders, hfst, List.mem_eraseDups, List.map_append, List.mem_append]

/-- The orders that were merged list the blocks of the leaves. -/
theorem Expr.mem_orders_summary (e : Expr K) {block : BlockId} :
    block ∈ e.summary.orders.map Prod.fst ↔ block ∈ e.blocks := by
  induction e with
  | leaf slot signature => exact Iff.rfl
  | constant x => exact Iff.rfl
  | unary op a ih =>
    have hsame : (a.summary.orders.map fun p => (p.1, op.order p.2)).map Prod.fst =
        a.summary.orders.map Prod.fst := List.map_map
    rw [Expr.summary, Summary.unary, hsame]
    exact ih
  | binary op a b iha ihb =>
    calc block ∈ (mergeOrders (fun o p => op.order o p) a.summary.orders b.summary.orders).map
          Prod.fst
      _ ↔ block ∈ a.summary.orders.map Prod.fst ∨ block ∈ b.summary.orders.map Prod.fst :=
        mem_blocks_mergeOrders
      _ ↔ block ∈ a.blocks ∨ block ∈ b.blocks := or_congr iha ihb
      _ ↔ block ∈ (Expr.binary op a b).blocks := List.mem_append.symm

theorem Expr.Assembled.mem_blocks_iff {leaves : Array (Leaf K)} {e : Expr K}
    (h : e.Assembled leaves) {block : BlockId} :
    block ∈ e.blocks ↔ ∃ l ∈ leavesIn leaves e.slots, l.block = block := by
  induction e with
  | leaf slot signature =>
    obtain ⟨l, hget, rfl⟩ := h
    have hone : leavesIn leaves [slot] = [l] := by simp only [leavesIn, List.filterMap, hget]
    rw [Expr.slots, hone, Expr.blocks, List.mem_singleton]
    constructor
    · intro hb
      exact ⟨l, List.mem_singleton_self l, hb.symm⟩
    · rintro ⟨m, hm, hb⟩
      obtain rfl := List.mem_singleton.1 hm
      exact hb.symm
  | constant x =>
    apply iff_of_false List.not_mem_nil
    rintro ⟨l, hl, -⟩
    exact List.not_mem_nil hl
  | unary op a ih =>
    cases op with
    | negate | scale => exact ih h
    | map | strain => exact ih h.1
  | binary op a b iha ihb =>
    calc block ∈ (Expr.binary op a b).blocks
      _ ↔ block ∈ a.blocks ∨ block ∈ b.blocks := List.mem_append
      _ ↔ (∃ l ∈ leavesIn leaves a.slots, l.block = block) ∨
          ∃ l ∈ leavesIn leaves b.slots, l.block = block := or_congr (iha h.1.1) (ihb h.1.2)
      _ ↔ ∃ l ∈ leavesIn leaves (Expr.binary op a b).slots, l.block = block := by
        simp only [Expr.slots, leavesIn, List.filterMap_append, List.mem_append, or_and_right,
          exists_or]

open ElementField

def Builder.HoldsBelow (b : Builder K) (root : ℕ) (l : Leaf K) : Prop :=
  ∃ slot, b.LeafBelow root slot ∧ b.leaves[slot]? = some l

theorem Builder.Linked.holdsBelow_iff {b : Builder K} (h : b.Linked) {root : ℕ} {e : Entry K}
    (he : b.entries[root]? = some e) {l : Leaf K} :
    b.HoldsBelow root l ↔ l ∈ leavesIn b.leaves e.expr.slots := by
  rw [mem_leavesIn_iff]
  exact exists_congr fun slot => and_congr_left fun _ => h.leafBelow_iff_mem he

/-- The parts of a field that are taken from the builder as they are. -/
theorem parts_of_build {b : Builder K} {root : ℕ} {f : ElementField K} (h : b.build root = .ok f) :
    b.entries[root]? = some f.top ∧ f.leaves = b.leaves ∧
      f.slots = f.top.summary.slots.mergeSort := by
  unfold Builder.build at h
  split at h
  · nomatch h
  · rename_i top htop
    obtain ⟨infos, -, h⟩ := bind_eq_ok_iff.1 h
    rw [pure_eq_ok_iff] at h
    subst h
    exact ⟨htop, rfl, rfl⟩

theorem mem_slots_of_build_iff {b : Builder K} {root : ℕ} {f : ElementField K}
    (h : b.build root = .ok f) {slot : ℕ} : slot ∈ f.slots ↔ slot ∈ f.expr.slots := by
  obtain ⟨-, -, hslots⟩ := parts_of_build h
  rw [hslots, List.mem_mergeSort, f.top.summary_eq, Expr.slots_summary, List.mem_eraseDups]
  exact Iff.rfl

/-- The slots come in increasing order, each of them once. -/
theorem increasing_slots_of_build {b : Builder K} {root : ℕ} {f : ElementField K}
    (h : b.build root = .ok f) : f.slots.Pairwise (· < ·) := by
  have hnodup : f.slots.Pairwise (· ≠ ·) := nodup_slots_of_build h
  have hsorted : f.slots.Pairwise (· ≤ ·) := by
    obtain ⟨-, -, hslots⟩ := parts_of_build h
    rw [hslots]
    apply (List.pairwise_mergeSort _ _ f.top.summary.slots).imp of_decide_eq_true
    · intro i j k
      simp only [decide_eq_true_eq]
      exact Nat.le_trans
    · intro i j
      simp only [Bool.or_eq_true, decide_eq_true_eq]
      exact Nat.le_total i j
  exact hsorted.imp₂ (fun _ _ hle hne => Nat.lt_of_le_of_ne hle hne) hnodup

/-- An expression can be finished exactly if the leaves of each of its blocks agree on the size of a
correction. -/
theorem exists_build_iff {b : Builder K} (hb : b.Linked) (root : ℕ) :
    (∃ f, b.build root = .ok f) ↔ root < b.entries.size ∧
      ∀ l m, b.HoldsBelow root l → b.HoldsBelow root m → l.block = m.block →
        l.correctionSize = m.correctionSize := by
  constructor
  · rintro ⟨f, hf⟩
    obtain ⟨htop, hleaves, -⟩ := parts_of_build hf
    refine ⟨(Array.getElem?_eq_some_iff.1 htop).1, fun l m hl hm => ?_⟩
    have hmem {l : Leaf K} (hl : b.HoldsBelow root l) : l ∈ f.reachableLeaves := by
      obtain ⟨slot, hs, hget⟩ := mem_leavesIn_iff.1 ((hb.holdsBelow_iff htop).1 hl)
      rw [ElementField.reachableLeaves, mem_leavesIn_iff, hleaves]
      exact ⟨slot, (mem_slots_of_build_iff hf).2 hs, hget⟩
    exact (registers_of_build hf).consistent l (hmem hl) m (hmem hm)
  · rintro ⟨hroot, hconsistent⟩
    have htop : b.entries[root]? = some b.entries[root] := Array.getElem?_eq_getElem hroot
    have he : b.expr? root = some b.entries[root].expr :=
      Option.map_eq_some_iff.2 ⟨_, htop, rfl⟩
    obtain ⟨f, hf, -⟩ := exists_build he fun l hl m hm =>
      hconsistent l m ((hb.holdsBelow_iff htop).2 hl) ((hb.holdsBelow_iff htop).2 hm)
    exact ⟨f, hf⟩

namespace ElementField

/-- The field lists the leaves below the root of a builder, what is known of their blocks, and the
dimension that they share. -/
structure Exposes (f : ElementField K) (b : Builder K) (root : ℕ) : Prop where
  increasing : f.slots.Pairwise (· < ·)
  mem_slots : ∀ slot, slot ∈ f.slots ↔ b.LeafBelow root slot
  /-- One leaf for each of the slots. -/
  leaves : f.slots.Forall₂ (fun slot l => b.leaves[slot]? = some l) f.reachableLeaves
  ids_increasing : f.ids.Pairwise fun i j => i.index < j.index
  mem_ids : ∀ block, block ∈ f.ids ↔ ∃ l ∈ f.reachableLeaves, l.block = block
  mem_orders : ∀ e, b.entries[root]? = some e →
    ∀ block, block ∈ e.summary.orders.map Prod.fst ↔ block ∈ f.ids
  /-- The number of coefficients that requests are checked against. -/
  numCoefficients : ∀ block ∈ f.ids, ∃ info, f.blockInfo block = .ok info ∧
    IsLeast {n | ∃ l ∈ f.owners block, l.numCoefficients = n} info.numCoefficients
  gridDim : ∀ l ∈ f.reachableLeaves, l.gridDim = f.gridDim

variable {b : Builder K} {root : ℕ} {f : ElementField K}

theorem increasing_ids_of_build (h : b.build root = .ok f) :
    f.ids.Pairwise fun i j => i.index < j.index := by
  have hnodup : f.ids.Pairwise (· ≠ ·) := (registers_of_build h).nodup
  have hsorted : f.ids.Pairwise fun i j => i.index ≤ j.index :=
    List.pairwise_map.2 (sorted_blocks_of_build h)
  apply hsorted.imp₂ _ hnodup
  intro i j hle hne
  exact Nat.lt_of_le_of_ne hle fun heq => hne (congrArg BlockId.mk heq)

theorem mem_ids_iff_of_build (h : b.build root = .ok f) {block : BlockId} :
    block ∈ f.ids ↔ ∃ l ∈ f.reachableLeaves, l.block = block := by
  have hr := registers_of_build h
  constructor
  · intro hb
    obtain ⟨info, hi, rfl⟩ := List.mem_map.1 hb
    obtain ⟨l, hl, hblock, -⟩ := hr.attained info hi
    exact ⟨l, hl, hblock⟩
  · rintro ⟨l, hl, rfl⟩
    obtain ⟨info, hi, hblock, -⟩ := hr.covers l hl
    exact List.mem_map.2 ⟨info, hi, hblock⟩

/-- The number that is listed for a block is the smallest one among its owners. -/
theorem isLeast_of_build (h : b.build root = .ok f) {block : BlockId} (hb : block ∈ f.ids) :
    ∃ info, f.blockInfo block = .ok info ∧
      IsLeast {n | ∃ l ∈ f.owners block, l.numCoefficients = n} info.numCoefficients := by
  have hr := registers_of_build h
  obtain ⟨info, hi, rfl⟩ := List.mem_map.1 hb
  refine ⟨info, ofOption_eq_ok_iff.2 (hr.find?_eq hi), ?_, ?_⟩
  · obtain ⟨l, hl, hblock, hn⟩ := hr.attained info hi
    exact ⟨l, List.mem_filter.2 ⟨hl, decide_eq_true hblock⟩, hn⟩
  · rintro n ⟨l, hl, rfl⟩
    obtain ⟨hmem, hblock⟩ := List.mem_filter.1 hl
    obtain ⟨other, ho, hob, -, hle⟩ := hr.covers l hmem
    obtain rfl : other = info := hr.eq_of_block ho hi (hob.trans (of_decide_eq_true hblock))
    exact hle

theorem exposes_of_build (hb : b.Reachable) (h : b.build root = .ok f) : f.Exposes b root := by
  obtain ⟨htop, hleaves, -⟩ := parts_of_build h
  have hosts := hosts_of_build hb h
  have hget (slot : ℕ) (hs : slot ∈ f.slots) :
      ∃ l, b.leaves[slot]? = some l ∧ l.gridDim = f.gridDim := by
    obtain ⟨_, l, hl⟩ := hosts.exists_leaf ((mem_slots_of_build_iff h).1 hs)
    exact ⟨l, hleaves ▸ hl.get, hl.gridDim⟩
  refine ⟨increasing_slots_of_build h, fun slot => ?_, ?_, increasing_ids_of_build h,
    fun block => mem_ids_iff_of_build h, fun e he block => ?_, fun block => isLeast_of_build h,
    fun l hl => ?_⟩
  · rw [mem_slots_of_build_iff h]
    exact (hb.linked.leafBelow_iff_mem htop).symm
  · rw [reachableLeaves, hleaves]
    generalize f.slots = slots at hget
    induction slots with
    | nil => exact .nil
    | cons slot rest ih =>
      obtain ⟨l, hl, -⟩ := hget slot List.mem_cons_self
      rw [leavesIn, List.filterMap_cons_some hl]
      exact .cons hl (ih fun s hs => hget s (List.mem_cons_of_mem slot hs))
  · -- The orders are merged node by node, the blocks are folded over the leaves; both list the leaves.
    obtain rfl : e = f.top := Option.some.inj (he.symm.trans htop)
    have hassembled := hb.sound f.top (Array.mem_of_getElem? htop)
    rw [f.top.summary_eq, Expr.mem_orders_summary, hassembled.mem_blocks_iff,
      mem_ids_iff_of_build h]
    refine exists_congr fun l => and_congr_left fun _ => ?_
    rw [reachableLeaves, mem_leavesIn_iff, mem_leavesIn_iff, hleaves]
    simp only [mem_slots_of_build_iff h]
    exact Iff.rfl
  · obtain ⟨slot, hs, hl⟩ := mem_leavesIn_iff.1 hl
    obtain ⟨m, hm, hdim⟩ := hget slot hs
    obtain rfl : l = m := Option.some.inj (hl.symm.trans (hleaves ▸ hm))
    exact hdim

end ElementField

def Node.relocated (φ ψ : ℕ → ℕ) : Node K → Node K
  | leaf slot => leaf (ψ slot)
  | constant x => constant x
  | unary op i => unary op (φ i)
  | binary op i j => binary op (φ i) (φ j)

namespace Builder

/-- What lies below the root of the first builder is there in the second one too: the nodes at places
`φ`, and the leaves in slots `ψ`, which keep their order. Nothing is said of what does not lie below
the root, on either side. -/
structure Relocates (φ ψ : ℕ → ℕ) (b : Builder K) (root : ℕ) (b' : Builder K) : Prop where
  node : ∀ id, b.Below root id → b'.node? (φ id) = (b.node? id).map (Node.relocated φ ψ)
  leaf : ∀ slot, b.LeafBelow root slot → b'.leaves[ψ slot]? = b.leaves[slot]?
  increasing : ∀ s t, b.LeafBelow root s → b.LeafBelow root t → s < t → ψ s < ψ t

variable {φ ψ : ℕ → ℕ} {b b' : Builder K} {root : ℕ}

/-- Each node below the root stands for the same expression, up to the slots of the leaves. -/
theorem Relocates.exists_entry (h : b.Relocates φ ψ root b') (hb : b.Reachable)
    (hb' : b'.Reachable) {id : ℕ} (hid : b.Below root id) {e : Entry K}
    (he : b.entries[id]? = some e) :
    ∃ e', b'.entries[φ id]? = some e' ∧ e'.expr = e.expr.relocated ψ := by
  -- Operands come first, so the induction is on the place.
  induction id using Nat.strong_induction_on generalizing e with
  | h id ih =>
    obtain ⟨hlt, hstands⟩ := hb.linked id e he
    have hoperand {j : ℕ} (hj : j ∈ e.node.operands) : b.Below root j :=
      hid.tail ((refersTo_iff he).2 hj)
    have hnode : b'.node? (φ id) = some (e.node.relocated φ ψ) := by
      rw [h.node id hid, node?_eq he, Option.map_some]
    have hslot {slot : ℕ} (hs : e.node = .leaf slot) : b'.leaves[ψ slot]? = b.leaves[slot]? :=
      h.leaf slot ⟨id, hid, hs ▸ node?_eq he⟩
    have hassembled := hb.sound e (Array.mem_of_getElem? he)
    obtain ⟨e', he', hnode'⟩ := Option.map_eq_some_iff.1 hnode
    refine ⟨e', he', ?_⟩
    have hassembled' := hb'.sound e' (Array.mem_of_getElem? he')
    obtain ⟨-, hstands'⟩ := hb'.linked (φ id) e' he'
    rw [hnode'] at hstands'
    generalize e.node = node, e.expr = x at *
    generalize e'.expr = x' at *
    cases hstands with
    | leaf slot signature =>
      -- Both signatures are those of the leaf in the slot.
      cases hstands' with
      | leaf _ signature' =>
        obtain ⟨l, hl, rfl⟩ := hassembled
        obtain ⟨l', hl', rfl⟩ := hassembled'
        rw [hslot rfl] at hl'
        obtain rfl : l = l' := Option.some.inj (hl.symm.trans hl')
        rfl
    | constant x =>
      cases hstands'
      rfl
    | @unary op i a ha =>
      have hi : i ∈ (Node.unary op i).operands := List.mem_cons_self
      obtain ⟨a', ha', hexpr⟩ := ih i (hlt i hi) (hoperand hi) ha
      cases hstands' with
      | unary _ hc =>
        obtain rfl := Option.some.inj (ha'.symm.trans hc)
        rw [hexpr, Expr.relocated]
    | @binary op i j a c ha hc =>
      have hi : i ∈ (Node.binary op i j : Node K).operands := List.mem_cons_self
      have hj : j ∈ (Node.binary op i j : Node K).operands :=
        List.mem_cons_of_mem i List.mem_cons_self
      obtain ⟨a', ha', hleft⟩ := ih i (hlt i hi) (hoperand hi) ha
      obtain ⟨c', hc', hright⟩ := ih j (hlt j hj) (hoperand hj) hc
      cases hstands' with
      | binary _ hp hq =>
        obtain rfl := Option.some.inj (ha'.symm.trans hp)
        obtain rfl := Option.some.inj (hc'.symm.trans hq)
        rw [hleft, hright, Expr.relocated]

end Builder

section Relocates

variable {φ ψ : ℕ → ℕ} {b b' : Builder K} {root : ℕ} (h : b.Relocates φ ψ root b')
  (hb : b.Reachable) (hb' : b'.Reachable)
include h hb hb'

/-- A field and the one that is built from what lies below its root have their leaves in other slots.
-/
theorem relocated_of_build [Scalar K] {f f' : ElementField K} (hf : b.build root = .ok f)
    (hf' : b'.build (φ root) = .ok f') : f.Relocated ψ f' := by
  obtain ⟨htop, hleaves, -⟩ := parts_of_build hf
  obtain ⟨htop', hleaves', -⟩ := parts_of_build hf'
  obtain ⟨e', he', hexpr⟩ := h.exists_entry hb hb' .refl htop
  obtain rfl : f'.top = e' := Option.some.inj (htop'.symm.trans he')
  have hexpr : f'.expr = f.expr.relocated ψ := hexpr
  have hbelow {slot : ℕ} (hs : slot ∈ f.slots) : b.LeafBelow root slot :=
    ((exposes_of_build hb hf).mem_slots slot).1 hs
  have hget : ∀ s ∈ f.slots, f'.leaves[ψ s]? = f.leaves[s]? := by
    intro s hs
    rw [hleaves, hleaves']
    exact h.leaf s (hbelow hs)
  have hcopies : f.expr.Copies f.leaves b'.leaves f'.expr := by
    rw [hexpr, ← hleaves']
    exact Expr.copies_relocated fun s hs => hget s ((mem_slots_of_build_iff hf).2 hs)
  have hexpr? : b'.expr? (φ root) = some f'.expr := Option.map_eq_some_iff.2 ⟨_, htop', rfl⟩
  obtain ⟨g, hg, -, hmirrors⟩ := exists_build_of_copies hb hb' hf hexpr? hcopies
  obtain rfl : g = f' := Except.ok.inj (hg.symm.trans hf')
  have hmap : (f.slots.map ψ).Pairwise (· < ·) := by
    apply List.pairwise_map.2
    apply (increasing_slots_of_build hf).imp_of_mem
    exact fun {s t} hs ht hst => h.increasing s t (hbelow hs) (hbelow ht) hst
  refine ⟨hexpr, ?_, hmirrors.blocks, ?_, hget⟩
  · -- Both lists are increasing, so it is enough that they have the same members.
    have hmem (slot : ℕ) : slot ∈ g.slots ↔ slot ∈ f.slots.map ψ := by
      rw [mem_slots_of_build_iff hf', hexpr, Expr.slots_relocated]
      simp only [List.mem_map, mem_slots_of_build_iff hf]
    have hslots := increasing_slots_of_build hf'
    have hperm : g.slots.Perm (f.slots.map ψ) :=
      (List.perm_ext_iff_of_nodup (hslots.imp Nat.ne_of_lt) (hmap.imp Nat.ne_of_lt)).2 hmem
    exact hperm.eq_of_pairwise (fun s t _ _ hst hts => absurd hst (Nat.lt_asymm hts)) hslots hmap
  · intro s hs t ht hst
    rcases Nat.lt_trichotomy s t with hlt | heq | hlt
    · exact absurd hst (Nat.ne_of_lt (h.increasing s t (hbelow hs) (hbelow ht) hlt))
    · exact heq
    · exact absurd hst.symm (Nat.ne_of_lt (h.increasing t s (hbelow ht) (hbelow hs) hlt))

/-- Whether an expression can be finished depends on what lies below its root. -/
theorem exists_build_iff_of_relocates :
    (∃ f', b'.build (φ root) = .ok f') ↔ ∃ f, b.build root = .ok f := by
  rw [exists_build_iff hb.linked, exists_build_iff hb'.linked]
  have hroot : b'.node? (φ root) = (b.node? root).map (Node.relocated φ ψ) := h.node root .refl
  cases htop : b.entries[root]? with
  | none =>
    rw [Builder.node?, Builder.node?, htop, Option.map_none, Option.map_none,
      Option.map_eq_none_iff, Array.getElem?_eq_none_iff] at hroot
    rw [Array.getElem?_eq_none_iff] at htop
    exact iff_of_false (fun hlt => by omega) fun hlt => by omega
  | some e =>
    obtain ⟨e', he', hexpr⟩ := h.exists_entry hb hb' .refl htop
    -- Both trees have the same leaves below the root, in other slots.
    have hholds (l : Leaf K) : b'.HoldsBelow (φ root) l ↔ b.HoldsBelow root l := by
      have hcopies : e.expr.Copies b.leaves b'.leaves e'.expr := by
        rw [hexpr]
        apply Expr.copies_relocated
        intro slot hs
        exact h.leaf slot ((hb.linked.leafBelow_iff_mem htop).2 hs)
      rw [hb'.linked.holdsBelow_iff he', hb.linked.holdsBelow_iff htop, hcopies.leavesIn_eq]
    have hlt : root < b.entries.size := (Array.getElem?_eq_some_iff.1 htop).1
    have hlt' : φ root < b'.entries.size := (Array.getElem?_eq_some_iff.1 he').1
    simp only [hlt, hlt', hholds]

end Relocates

/-- Building exposes what the root depends on. It succeeds exactly if the root is a node and no two
leaves below it share a block with different sizes of corrections; the field then lists the leaves
below the root, their blocks with the smallest numbers of coefficients, and their dimension. If what
lies below the root is put into another builder, among whatever other nodes and leaves, that one can
be finished under the same conditions, and after any operations both fields answer alike. -/
theorem build_exposes_below [Scalar K] {b : Builder K} (hb : b.Reachable) (root : ℕ) :
    ((∃ f, b.build root = .ok f) ↔ root < b.entries.size ∧
      ∀ l m, b.HoldsBelow root l → b.HoldsBelow root m → l.block = m.block →
        l.correctionSize = m.correctionSize) ∧
    (∀ f, b.build root = .ok f → f.Exposes b root) ∧
    ∀ (b' : Builder K) (φ ψ : ℕ → ℕ), b'.Reachable → b.Relocates φ ψ root b' →
      ((∃ f', b'.build (φ root) = .ok f') ↔ ∃ f, b.build root = .ok f) ∧
      ∀ f f', b.build root = .ok f → b'.build (φ root) = .ok f' →
        ∀ operations, (f.performAll operations).AnswersAs (f'.performAll operations) := by
  refine ⟨exists_build_iff hb.linked root, fun f hf => exposes_of_build hb hf, ?_⟩
  intro b' φ ψ hb' h
  refine ⟨exists_build_iff_of_relocates h hb hb', fun f f' hf hf' operations => ?_⟩
  exact (relocated_of_build h hb hb' hf hf').performAll (.build hb hf) (.build hb' hf') operations

/-- In front of a square stands a leaf on a triangle, whose block is that of the square and whose
corrections have another size. It can be dropped. -/
theorem build_exposes_below_square :
    let b := Builder.after [.leaf (.placed ⟨0⟩), .leaf (.onSegment ⟨0⟩ (2 : ℝ) 3), .normSquared 1]
    let b' := Builder.after [.leaf (.onSegment ⟨0⟩ (2 : ℝ) 3), .normSquared 0]
    b.Reachable ∧ b'.Reachable ∧ b.Relocates (· - 1) (· - 1) 2 b' ∧
      ∃ f f', b.build 2 = .ok f ∧ b'.build 1 = .ok f' ∧ f.Exposes b 2 ∧
        ∀ operations, (f.performAll operations).AnswersAs (f'.performAll operations) := by
  intro b b'
  have hb : b.Reachable := Builder.reachable_after _
  have hb' : b'.Reachable := Builder.reachable_after _
  -- Below the product are itself and the second leaf.
  have hbelow {id : ℕ} (h : b.Below 2 id) : id = 2 ∨ id = 1 := by
    induction h with
    | refl => exact Or.inl rfl
    | @tail i j _ hstep ih =>
      obtain ⟨node, hnode, hj⟩ := hstep
      rcases ih with rfl | rfl <;> obtain rfl := Option.some.inj hnode
      · have hj : j ∈ [1, 1] := hj
        exact Or.inr (by simpa using hj)
      · exact absurd hj List.not_mem_nil
  have hslot {slot : ℕ} (h : b.LeafBelow 2 slot) : slot = 1 := by
    obtain ⟨id, hid, hnode⟩ := h
    rcases hbelow hid with rfl | rfl
    · nomatch Option.some.inj hnode
    · exact (Node.leaf.inj (Option.some.inj hnode)).symm
  have hrelocates : b.Relocates (· - 1) (· - 1) 2 b' := by
    refine ⟨fun id hid => ?_, fun slot hs => ?_, fun s t hs ht hst => ?_⟩
    · rcases hbelow hid with rfl | rfl <;> rfl
    · obtain rfl := hslot hs
      rfl
    · have hs := hslot hs
      have ht := hslot ht
      omega
  obtain ⟨hiff, hexposes, hdrop⟩ := build_exposes_below hb 2
  obtain ⟨hiff', hanswers⟩ := hdrop b' _ _ hb' hrelocates
  obtain ⟨f, hf⟩ := hiff.2 ⟨by decide, fun l m hl hm _ => by
    obtain ⟨s, hs, hl⟩ := hl
    obtain ⟨t, ht, hm⟩ := hm
    obtain rfl := hslot hs
    obtain rfl := hslot ht
    rw [Option.some.inj (hl.symm.trans hm)]⟩
  obtain ⟨f', hf'⟩ := hiff'.2 ⟨f, hf⟩
  exact ⟨hb, hb', hrelocates, f, f', hf, hf', hexposes f hf, hanswers f f' hf hf'⟩

end ElementFields
