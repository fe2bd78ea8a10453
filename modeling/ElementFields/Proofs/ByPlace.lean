import ElementFields.Proofs.WorkLoops

/-! Evaluation by places. A call for a node calls for the places of its operands, with requests that
need not be smaller; that the calls end is due to the order of the list alone. -/
namespace ElementFields

variable {K : Type}

def Entry.annihilated (e : Entry K) (d : Directions) : Bool :=
  d.coefficientList.any fun c => (e.orderIn c.block).annihilatedBy (d.coefficientOrderIn c.block)

theorem Entry.annihilated_eq (e : Entry K) : e.annihilated = e.expr.annihilated := by
  funext d
  simp only [annihilated, Expr.annihilated, e.orderIn_eq]

namespace ElementField

variable [Scalar K]

section Calls

-- What a call does that runs out of depth, or asks for a node or a leaf that is missing, is left open.
variable (f : ElementField K) (stuck : Operand K)

def tangentsBelow (steps id : ℕ) (site : Site K) : Outcome (Mat K) :=
  match (f.slotsBelow steps id).bind fun slots => slots.mapM (f.leaves[·]?) with
  | some leaves => f.tangentsOver leaves site
  | none => stuck.value site

def operandOf (steps : ℕ) (part : ℕ → Operand K) (e : Entry K) : Operand K :=
  match e.node with
  | .leaf slot =>
    if slot < f.leaves.size then
      f.skipping e.valueSize e.annihilated (f.leafValue slot) (f.leafDerivative slot)
    else stuck
  | .constant x =>
    f.skipping e.valueSize e.annihilated (fun _ => .ok (.scalar x)) fun r =>
      f.zeroDerivative 1 r.directions
  | .unary op i =>
    f.skipping e.valueSize e.annihilated
      (f.unaryValue op (f.tangentsBelow stuck steps i) (part i))
      (f.unaryDerivative op (f.tangentsBelow stuck steps i) (part i))
  | .binary op i j =>
    f.skipping e.valueSize e.annihilated (binaryValue op (part i) (part j))
      (binaryDerivative op (part i) (part j))

/-- The operand at a place of the list, by calls that are nested at most `depth` deep. -/
def operandAt (entries : Array (Entry K)) (steps : ℕ) : ℕ → ℕ → Operand K
  | 0, _ => stuck
  | depth + 1, id =>
    match entries[id]? with
    | none => stuck
    | some e => f.operandOf stuck steps (operandAt entries steps depth) e

end Calls

section Leaves

omit [Scalar K]

variable {leaves : Array (Leaf K)} {slots : List ℕ}

theorem leavesIn_cons {slot : ℕ} (hlt : slot < leaves.size) (rest : List ℕ) :
    leavesIn leaves (slot :: rest) = leaves[slot] :: leavesIn leaves rest :=
  List.filterMap_cons_some (Array.getElem?_eq_getElem hlt)

/-- Leaves that are all there are found one by one. -/
theorem mapM_leaves (h : ∀ slot ∈ slots, slot < leaves.size) :
    slots.mapM (leaves[·]?) = some (leavesIn leaves slots) := by
  induction slots with
  | nil => rfl
  | cons slot rest ih =>
    have hlt : slot < leaves.size := h slot List.mem_cons_self
    rw [List.mapM_cons, ih fun s hs => h s (List.mem_cons_of_mem slot hs), leavesIn_cons hlt,
      Array.getElem?_eq_getElem hlt]
    rfl

theorem head?_leavesIn (h : ∀ slot ∈ slots, slot < leaves.size) :
    (leavesIn leaves slots).head? = slots.head?.bind (leaves[·]?) := by
  cases slots with
  | nil => rfl
  | cons slot rest =>
    have hlt : slot < leaves.size := h slot List.mem_cons_self
    rw [leavesIn_cons hlt]
    exact (Array.getElem?_eq_getElem hlt).symm

end Leaves

structure Over (f : ElementField K) (b : Builder K) : Prop where
  linked : b.Linked
  node?_eq : f.node? = b.node?
  slot_lt : ∀ e ∈ b.entries, ∀ slot ∈ e.expr.slots, slot < f.leaves.size

omit [Scalar K] in
theorem nodes_of_build {b : Builder K} {root : ℕ} {f : ElementField K} (h : b.build root = .ok f) :
    f.nodes = b.entries.map Entry.node := by
  unfold Builder.build at h
  split at h
  · nomatch h
  · obtain ⟨infos, -, h⟩ := bind_eq_ok_iff.1 h
    rw [pure_eq_ok_iff] at h
    exact h ▸ rfl

omit [Scalar K] in
/-- A field stays on the list of its builder when its leaves change. -/
theorem over_of_build {b : Builder K} (hb : b.Reachable) {root : ℕ} {f g : ElementField K}
    (hf : b.build root = .ok f) (hg : f.Alike g) : g.Over b := by
  obtain ⟨-, hleaves, -⟩ := parts_of_build hf
  refine ⟨hb.linked, funext fun id => ?_, fun e he slot hs => ?_⟩
  · rw [hg.rest, node?, nodes_of_build hf, Array.getElem?_map, Builder.node?]
  · have hlt := (hb.sound e he).slot_lt hs
    rw [← hleaves] at hlt
    obtain ⟨l, hl, -⟩ := hg.leaves slot f.leaves[slot] (Array.getElem?_eq_getElem hlt)
    exact (Array.getElem?_eq_some_iff.1 hl).1

namespace Over

variable {f : ElementField K} {b : Builder K} (h : f.Over b) {id : ℕ} {e : Entry K}
  (he : b.entries[id]? = some e) {steps : ℕ} (hsteps : 2 ^ (id + 1) ≤ steps)
include h he hsteps

omit [Scalar K] in
theorem slotsBelow_eq : f.slotsBelow steps id = some (e.expr.slots.foldl addNewSlot []) := by
  rw [slotsBelow, h.node?_eq, h.linked.walk_eq he _ hsteps]

/-- The leaves that are found below a place are those of the expression, each of them once. -/
theorem tangentsBelow_eq (stuck : Operand K) :
    f.tangentsBelow stuck steps id = f.referenceTangents e.expr := by
  have hlt := h.slot_lt e (Array.mem_of_getElem? he)
  have hmem (slot : ℕ) : slot ∈ e.expr.slots.foldl addNewSlot [] ↔ slot ∈ e.expr.slots := by
    rw [mem_foldl_addNewSlot, or_iff_right List.not_mem_nil]
  have hfound : ∀ slot ∈ e.expr.slots.foldl addNewSlot [], slot < f.leaves.size :=
    fun slot hs => hlt slot ((hmem slot).1 hs)
  -- Each leaf is listed once and not for each occurrence. Only the first one and the set are looked at.
  have hsame : f.tangentsOver (leavesIn f.leaves (e.expr.slots.foldl addNewSlot [])) =
      f.referenceTangents e.expr := by
    refine tangentsOver_of_placements rfl ?_ fun p => ?_
    · rw [placementsOf, placementsOf, List.head?_map, List.head?_map, head?_leavesIn hfound,
        head?_leavesIn hlt, head?_foldl_addNewSlot, List.nil_append]
    · simp only [placementsOf, List.mem_map, mem_leavesIn_iff, hmem]
  funext site
  rw [tangentsBelow, h.slotsBelow_eq he hsteps, Option.bind_some, mapM_leaves hfound, ← hsame]

omit he hsteps in
/-- A call for a place is answered by the expression of the node there. The operands come first, so a
call is nested at most as deep as there are places up to its own. -/
theorem operandAt_eq (stuck : Operand K) {id steps depth : ℕ} {e : Entry K}
    (he : b.entries[id]? = some e) (hsteps : 2 ^ (id + 1) ≤ steps) (hdepth : id < depth) :
    f.operandAt stuck b.entries steps depth id = f.operand e.expr := by
  -- The induction is on the depth: a call for an operand is one for a smaller place.
  induction depth generalizing id e with
  | zero => nomatch hdepth
  | succ depth ih =>
    obtain ⟨hlt, hstands⟩ := h.linked id e he
    have hslot := h.slot_lt e (Array.mem_of_getElem? he)
    have hbelow {i : ℕ} (hi : i ∈ e.node.operands) : i < depth ∧ 2 ^ (i + 1) ≤ steps :=
      ⟨(hlt i hi).trans_le (Nat.lt_succ_iff.1 hdepth),
        (Nat.pow_le_pow_right two_pos (Nat.succ_le_succ (hlt i hi).le)).trans hsteps⟩
    have hpart {i : ℕ} (hi : i ∈ e.node.operands) {a : Entry K} (ha : b.entries[i]? = some a) :
        f.operandAt stuck b.entries steps depth i = f.operandWith Expr.annihilated a.expr :=
      ih ha (hbelow hi).2 (hbelow hi).1
    simp only [operandAt, he, operandOf, e.valueSize_eq, e.annihilated_eq]
    generalize e.node = node, e.expr = x at *
    cases hstands with
    | leaf slot signature =>
      rw [operand, operandWith]
      exact if_pos (hslot slot (List.mem_singleton_self slot))
    | constant x => rfl
    | @unary op i a ha =>
      have hi : i ∈ (Node.unary op i).operands := List.mem_cons_self
      rw [operand, operandWith]
      simp only [hpart hi ha, h.tangentsBelow_eq ha (hbelow hi).2]
    | @binary op i j a c ha hc =>
      have hi : i ∈ (Node.binary op i j : Node K).operands := List.mem_cons_self
      have hj : j ∈ (Node.binary op i j : Node K).operands :=
        List.mem_cons_of_mem i List.mem_cons_self
      rw [operand, operandWith]
      simp only [hpart hi ha, hpart hj hc]

end Over

end ElementField

/-- In every builder, after steps that succeed or are refused and whatever places they were given, nodes
come after their operands, and leaf nodes name leaves that exist. So from every node the loop that
finishes an expression ends, having met leaves that exist, and with the slots that the field lists. So
do the loops that look for the leaves below a node, in a field that has been built and in any state of
its leaves since; and the calls that answer a request, nested no deeper than there are places up to the
root. They answer what the field answers, whatever would happen if they did not end or if a node or a
leaf were missing. -/
theorem operands_come_first [Scalar K] {b : Builder K} (hb : b.Reachable) :
    b.Ordered ∧
    (∀ root < b.entries.size, ∀ steps, 2 ^ (root + 1) ≤ steps →
      ∃ slots, b.collectSlots steps root = some slots ∧ (∀ slot ∈ slots, slot < b.leaves.size) ∧
        ∀ f, b.build root = .ok f → ∀ slot, slot ∈ f.slots ↔ slot ∈ slots) ∧
    ∀ root f, b.build root = .ok f → ∀ g, f.Alike g →
      (∀ id < b.entries.size, ∀ steps, 2 ^ (id + 1) ≤ steps →
        ∃ slots, g.slotsBelow steps id = some slots ∧ slots.Nodup ∧
          ∀ slot ∈ slots, slot < g.leaves.size) ∧
      ∀ steps depth, 2 ^ (root + 1) ≤ steps → root < depth → ∀ stuck : Operand K,
        (∀ site, g.evaluate site = do
          (← (g.operandAt stuck b.entries steps depth root).value site).singleColumn) ∧
        ∀ r, g.evaluateRequest r = (do
          g.validate r
          (g.operandAt stuck b.entries steps depth root).derivative r) := by
  have hget {id : ℕ} (hid : id < b.entries.size) : b.entries[id]? = some b.entries[id] :=
    Array.getElem?_eq_getElem hid
  refine ⟨hb.ordered, fun root hroot steps hsteps => ?_, fun root f hf g hg => ⟨?_, ?_⟩⟩
  · have hslots : b.collectSlots steps root = some b.entries[root].expr.slots := by
      rw [Builder.collectSlots, hb.linked.walk_eq (hget hroot) _ hsteps, foldl_addSlot,
        List.nil_append]
    have hsound := hb.sound _ (Array.getElem_mem hroot)
    refine ⟨_, hslots, fun slot hs => hsound.slot_lt hs, fun f hf slot => ?_⟩
    obtain ⟨htop, -, -⟩ := parts_of_build hf
    rw [mem_slots_of_build_iff hf, ElementField.expr,
      Option.some.inj (htop.symm.trans (hget hroot))]
  · intro id hid steps hsteps
    have hover := ElementField.over_of_build hb hf hg
    refine ⟨_, hover.slotsBelow_eq (hget hid) hsteps, nodup_foldl_addNewSlot _ List.nodup_nil,
      fun slot hs => hover.slot_lt _ (Array.getElem_mem hid) slot ?_⟩
    exact ((mem_foldl_addNewSlot _ _).1 hs).resolve_left List.not_mem_nil
  · intro steps depth hsteps hdepth stuck
    obtain ⟨htop, -, -⟩ := parts_of_build hf
    have hcalls : g.operandAt stuck b.entries steps depth root = g.operand g.expr := by
      rw [hg.expr]
      exact (ElementField.over_of_build hb hf hg).operandAt_eq stuck htop hsteps hdepth
    rw [hcalls]
    exact ⟨fun site => rfl, fun r => rfl⟩

/-- A node is used twice on each of two levels, and one step is refused because its operand stems from
elsewhere. -/
theorem operands_come_first_shared :
    let b := Builder.after [.leaf (.onSegment ⟨0⟩ (2 : ℝ) 3), .normSquared 7, .normSquared 0,
      .dot 1 1, .map .sqrt 2]
    b.Reachable ∧ b.Ordered ∧ b.collectSlots 16 3 = some [0, 0, 0, 0] ∧
      ∃ f, b.build 3 = .ok f ∧ ∀ stuck : Operand ℝ,
        (∀ site, f.evaluate site = do
          (← (f.operandAt stuck b.entries 16 4 3).value site).singleColumn) ∧
        ∀ r, f.evaluateRequest r = (do
          f.validate r
          (f.operandAt stuck b.entries 16 4 3).derivative r) := by
  intro b
  have hb : b.Reachable := Builder.reachable_after _
  obtain ⟨hordered, -, hanswers⟩ := operands_come_first hb
  have hroot : 3 < b.entries.size := by decide
  obtain ⟨f, hf⟩ := (exists_build_iff hb.linked 3).2 ⟨hroot, fun l m hl hm _ => by
    -- There is one leaf only.
    obtain ⟨s, -, hl⟩ := hl
    obtain ⟨t, -, hm⟩ := hm
    have hs : s < 1 := (Array.getElem?_eq_some_iff.1 hl).1
    have ht : t < 1 := (Array.getElem?_eq_some_iff.1 hm).1
    obtain rfl : s = t := by omega
    rw [Option.some.inj (hl.symm.trans hm)]⟩
  obtain ⟨-, hcalls⟩ := hanswers 3 f hf f (.refl f)
  exact ⟨hb, hordered, rfl, f, hf, hcalls 16 4 le_rfl (by decide)⟩

end ElementFields
