import ElementFields.Proofs.Corrections
import ElementFields.Proofs.JointBinding
import ElementFields.Proofs.Substitution

namespace ElementFields

variable {K : Type}

inductive Operation (K : Type) where
  | bind (rule : QuadratureRule K) (orders : List ℕ)
  | correct (κ : Motion) (block : BlockId) (d : Vec K)
  | evaluate (site : Site K)
  | request (r : Request K)

/-- What is seen of an operation. The refusal of a correction names the first owner that it does not
suit, and which of them comes first depends on the slots; so of a change it is only seen whether it was
made, refused, or broke a contract. -/
inductive Reply (K : Type) where
  | changed
  | refused
  | broken
  | value (x : Outcome (Vec K))
  | derivative (x : Outcome (Derivative K))

def Reply.ofChange : Outcome Unit → Reply K
  | .ok () => .changed
  | .error (.refused _) => .refused
  | .error (.broken _) => .broken

namespace ElementField

section Operations

variable [Scalar K]

def perform (f : ElementField K) : Operation K → ElementField K × Reply K
  | .bind rule orders => ((f.bind rule orders).1, .ofChange (f.bind rule orders).2)
  | .correct κ block d =>
    ((f.correctInPlace κ block d).1, .ofChange (f.correctInPlace κ block d).2)
  | .evaluate site => (f, .value (f.evaluate site))
  | .request r => (f, .derivative (f.evaluateRequest r))

/-- What is seen of operations performed one after the other. A change that breaks a contract is the
last one. -/
def replies (f : ElementField K) : List (Operation K) → List (Reply K)
  | [] => []
  | operation :: rest =>
    match f.perform operation with
    | (_, .broken) => [.broken]
    | (g, reply) => reply :: g.replies rest

/-- Both fields are built, and the expression of the second one is that of the first with other slots
for its leaves. -/
structure Mirrors (f f' : ElementField K) : Prop where
  built : f.Built
  built' : f'.Built
  copies : f.expr.Copies f.leaves f'.leaves f'.expr
  blocks : f'.blocks = f.blocks

/-- Two operations show the same and leave fields that mirror each other, unless a contract is broken.
-/
structure InStep (p p' : ElementField K × Reply K) : Prop where
  reply : p'.2 = p.2
  field : p.2 ≠ .broken → p.1.Mirrors p'.1

end Operations

variable [Scalar K] {f f' : ElementField K}

namespace Mirrors

variable (h : f.Mirrors f')
include h

theorem gridDim_eq : f'.gridDim = f.gridDim := by
  rw [ElementField.gridDim_eq, ElementField.gridDim_eq, h.copies.gridDim_eq]

theorem valueSize_eq : f'.valueSize = f.valueSize := by
  rw [ElementField.valueSize_eq, ElementField.valueSize_eq, h.copies.valueSize_eq]

theorem orderIn_eq (block : BlockId) : f'.orderIn block = f.orderIn block := by
  rw [ElementField.orderIn_eq, ElementField.orderIn_eq, h.copies.orderIn_eq]

theorem ids_eq : f'.ids = f.ids := by rw [ids, ids, h.blocks]

theorem mem_reachableLeaves_iff {l : Leaf K} : l ∈ f'.reachableLeaves ↔ l ∈ f.reachableLeaves := by
  rw [h.built'.mem_reachableLeaves_iff, h.built.mem_reachableLeaves_iff, h.copies.leavesIn_eq]

theorem mem_owners_iff {block : BlockId} {l : Leaf K} :
    l ∈ f'.owners block ↔ l ∈ f.owners block := by
  rw [owners, owners, List.mem_filter, List.mem_filter, h.mem_reachableLeaves_iff]

theorem operand_eq : f'.operand f'.expr = f.operand f.expr :=
  operand_of_copies h.copies h.gridDim_eq h.blocks

theorem evaluate_eq (site : Site K) : f'.evaluate site = f.evaluate site := by
  rw [evaluate, evaluate, h.operand_eq]

theorem evaluateRequest_eq (r : Request K) : f'.evaluateRequest r = f.evaluateRequest r := by
  have hvalidate : f'.validate r = f.validate r := by
    simp only [validate, blockInfo, h.gridDim_eq, h.valueSize_eq, h.blocks]
  rw [evaluateRequest, evaluateRequest, hvalidate, h.operand_eq]

/-- Changes that do the same to the same leaf in both fields keep the fields in lockstep. -/
theorem changed {next next' : Array (Leaf K)} {R : Leaf K → Leaf K → Prop}
    (hR : ∀ l a b, R l a → R l b → a = b) (hbuilt : Built { f with leaves := next })
    (hbuilt' : Built { f' with leaves := next' })
    (hl : ∀ slot ∈ f.expr.slots, ∃ l a, f.leaves[slot]? = some l ∧ next[slot]? = some a ∧ R l a)
    (hl' : ∀ slot ∈ f'.expr.slots, ∃ l a, f'.leaves[slot]? = some l ∧ next'[slot]? = some a ∧
      R l a) :
    Mirrors { f with leaves := next } { f' with leaves := next' } :=
  ⟨hbuilt, hbuilt', h.copies.changed hR hl hl', h.blocks⟩

end Mirrors

section Binding

variable {rule : QuadratureRule K} {orders slots : List ℕ} {leaves : Array (Leaf K)}

/-- A leaf that would take the rule by its dimension refuses nothing; it can only break a contract. -/
theorem broken_of_takes {l : Leaf K} (h : CachedShapes.Takes l.gridDim rule orders) {e : Failure}
    (he : (l.bind rule orders).2 = .error e) : ∃ v, e = .broken v := by
  have he : (l.shapes.bind rule orders).2 = .error e := he
  have hdim : ¬(rule.isEmpty = false ∧ rule.dim ≠ l.shapes.dim) := fun hne => hne.2 (h.2 hne.1)
  simp only [CachedShapes.bind, h.1, if_neg hdim] at he
  split at he
  · exact ⟨_, (Except.error.inj he).symm⟩
  · split at he
    · exact ⟨_, (Except.error.inj he).symm⟩
    · cases he

/-- Binding goes through all leaves in the slots, each of them once, or it ends with the failure of one
of them. -/
theorem bindSlots_cases (rule : QuadratureRule K) (orders : List ℕ) (hn : slots.Nodup)
    (hl : ∀ slot ∈ slots, ∃ l, leaves[slot]? = some l) :
    (∃ next, bindSlots rule orders slots leaves = (next, .ok ()) ∧
      (∀ slot ∈ slots, ∃ l a, leaves[slot]? = some l ∧ next[slot]? = some a ∧
        l.bind rule orders = (a, .ok ())) ∧
      ∀ slot ∉ slots, next[slot]? = leaves[slot]?) ∨
    ∃ slot ∈ slots, ∃ l e, leaves[slot]? = some l ∧ (l.bind rule orders).2 = .error e ∧
      (bindSlots rule orders slots leaves).2 = .error e := by
  induction slots generalizing leaves with
  | nil => exact Or.inl ⟨leaves, rfl, fun s hs => absurd hs List.not_mem_nil, fun _ _ => rfl⟩
  | cons slot rest ih =>
    obtain ⟨hnot, hn⟩ := List.nodup_cons.1 hn
    obtain ⟨l, hget⟩ := hl slot List.mem_cons_self
    rcases hbind : l.bind rule orders with ⟨a, _ | ⟨⟨⟩⟩⟩
    · rename_i e
      refine Or.inr ⟨slot, List.mem_cons_self, l, e, hget, by rw [hbind], ?_⟩
      simp only [bindSlots, hget, hbind]
    · -- The slots that follow are others, so they hold what they held.
      have hsame {s : ℕ} (hs : s ∈ rest) : (leaves.setIfInBounds slot a)[s]? = leaves[s]? :=
        Array.getElem?_setIfInBounds_ne fun heq : slot = s => hnot (heq.symm ▸ hs)
      have hstep : bindSlots rule orders (slot :: rest) leaves =
          bindSlots rule orders rest (leaves.setIfInBounds slot a) := by
        simp only [bindSlots, hget, hbind]
      have hrest : ∀ s ∈ rest, ∃ m, (leaves.setIfInBounds slot a)[s]? = some m := by
        intro s hs
        rw [hsame hs]
        exact hl s (List.mem_cons_of_mem slot hs)
      rw [hstep]
      rcases ih hn hrest with ⟨next, hok, hown, hother⟩ | ⟨s, hs, m, e, hm, he, hres⟩
      · refine Or.inl ⟨next, hok, ?_, ?_⟩
        · intro s hs
          rcases List.mem_cons.1 hs with rfl | hs
          · refine ⟨l, a, hget, ?_, hbind⟩
            rw [hother s hnot, Array.getElem?_setIfInBounds_self_of_lt
              (Array.getElem?_eq_some_iff.1 hget).1]
          · obtain ⟨m, c, hm, hc, hb⟩ := hown s hs
            exact ⟨m, c, (hsame hs).symm.trans hm, hc, hb⟩
        · intro s hs
          obtain ⟨hne, hs⟩ := not_or.1 (mt List.mem_cons.2 hs)
          rw [hother s hs, Array.getElem?_setIfInBounds_ne (Ne.symm hne)]
      · exact Or.inr ⟨s, List.mem_cons_of_mem slot hs, m, e, (hsame hs).symm.trans hm, he, hres⟩

theorem Built.bind_leaves (hf : f.Built) (rule : QuadratureRule K) (orders : List ℕ) :
    (∃ next, f.bind rule orders = ({ f with leaves := next }, .ok ()) ∧
      ∀ slot ∈ f.expr.slots, ∃ l a, f.leaves[slot]? = some l ∧ next[slot]? = some a ∧
        l.bind rule orders = (a, .ok ())) ∨
    ∃ slot ∈ f.expr.slots, ∃ l e, f.leaves[slot]? = some l ∧ (l.bind rule orders).2 = .error e ∧
      (f.bind rule orders).2 = .error e := by
  have hl : ∀ slot ∈ f.slots, ∃ l, f.leaves[slot]? = some l :=
    fun slot hs => hf.exists_leaf (hf.mem_slots_iff.1 hs)
  rcases bindSlots_cases rule orders hf.listed.nodup hl with
    ⟨next, hok, hown, -⟩ | ⟨slot, hs, l, e, hget, he, hres⟩
  · refine Or.inl ⟨next, by rw [ElementField.bind, hok], fun slot hs => ?_⟩
    exact hown slot (hf.mem_slots_iff.2 hs)
  · exact Or.inr ⟨slot, hf.mem_slots_iff.1 hs, l, e, hget, he, hres⟩

/-- Where the dimension of the element or the orders do not admit the rule, a field with leaves refuses
it and stays as it is. -/
theorem Built.bind_of_not_takes (hf : f.Built) (h : ¬CachedShapes.Takes f.gridDim rule orders)
    {slot : ℕ} (hs : slot ∈ f.expr.slots) :
    ∃ reason, f.bind rule orders = (f, .refuse reason) := by
  have hne : f.slots ≠ [] := List.ne_nil_of_mem (hf.mem_slots_iff.2 hs)
  obtain ⟨reason, hbind⟩ := bindSlots_of_not_takes h hf.holdDim hne
  exact ⟨reason, by rw [ElementField.bind, hbind]⟩

theorem Built.broken_of_takes (hf : f.Built) (h : CachedShapes.Takes f.gridDim rule orders)
    {slot : ℕ} (hs : slot ∈ f.expr.slots) {l : Leaf K} (hget : f.leaves[slot]? = some l) {e : Failure}
    (he : (l.bind rule orders).2 = .error e) : ∃ v, e = .broken v := by
  obtain ⟨_, m, hm⟩ := hf.hosts.exists_leaf hs
  obtain rfl := Option.some.inj (hget.symm.trans hm.get)
  exact ElementField.broken_of_takes (hm.gridDim ▸ h) he

theorem Mirrors.bind (h : f.Mirrors f') (rule : QuadratureRule K) (orders : List ℕ) :
    InStep (f.perform (.bind rule orders)) (f'.perform (.bind rule orders)) := by
  have hG := h.gridDim_eq
  -- A leaf that fails in one of the fields stands in the other one too.
  have hmem (l : Leaf K) : (∃ slot ∈ f'.expr.slots, f'.leaves[slot]? = some l) ↔
      ∃ slot ∈ f.expr.slots, f.leaves[slot]? = some l := by
    rw [← mem_leavesIn_iff, ← mem_leavesIn_iff, h.copies.leavesIn_eq]
  have hclash (g : ElementField K) {next : Array (Leaf K)} {l : Leaf K} {e : Failure}
      (hall : ∀ slot ∈ g.expr.slots, ∃ l a, g.leaves[slot]? = some l ∧ next[slot]? = some a ∧
        l.bind rule orders = (a, .ok ()))
      (hslot : ∃ slot ∈ g.expr.slots, g.leaves[slot]? = some l)
      (he : (l.bind rule orders).2 = .error e) : False := by
    obtain ⟨slot, hs, hget⟩ := hslot
    obtain ⟨m, a, hm, -, hbind⟩ := hall slot hs
    obtain rfl := Option.some.inj (hm.symm.trans hget)
    rw [hbind] at he
    nomatch he
  rcases h.built.bind_leaves rule orders with
      ⟨next, hbind, hall⟩ | ⟨slot, hs, l, e, hget, he, hres⟩ <;>
    rcases h.built'.bind_leaves rule orders with
      ⟨next', hbind', hall'⟩ | ⟨slot', hs', l', e', hget', he', hres'⟩
  · have hnext := h.built.bind rule orders
    have hnext' := h.built'.bind rule orders
    rw [hbind] at hnext
    rw [hbind'] at hnext'
    simp only [perform, hbind, hbind']
    refine ⟨rfl, fun _ => h.changed ?_ hnext hnext' hall hall'⟩
    exact fun l a b ha hb => congrArg Prod.fst (ha.symm.trans hb)
  · exact (hclash f hall ((hmem l').1 ⟨slot', hs', hget'⟩) he').elim
  · exact (hclash f' hall' ((hmem l).2 ⟨slot, hs, hget⟩) he).elim
  · -- A rule that is not taken is refused by the first leaf; one that is taken can only break.
    by_cases htakes : CachedShapes.Takes f.gridDim rule orders
    · obtain ⟨v, rfl⟩ := h.built.broken_of_takes htakes hs hget he
      obtain ⟨v', rfl⟩ := h.built'.broken_of_takes (hG.symm ▸ htakes) hs' hget' he'
      simp only [perform, hres, hres']
      exact ⟨rfl, fun hbroken => absurd rfl hbroken⟩
    · obtain ⟨reason, hbind⟩ := h.built.bind_of_not_takes htakes hs
      obtain ⟨reason', hbind'⟩ := h.built'.bind_of_not_takes (hG.symm ▸ htakes) hs'
      simp only [perform, hbind, hbind']
      exact ⟨rfl, fun _ => h⟩

end Binding

section Corrections

variable {κ : Motion} {block : BlockId} {d : Vec K}

/-- A correction that is accepted changes the leaves of the block and no others. -/
theorem Built.leaves_of_correct (hf : f.Built) (h : κ.correct f block d = .ok f') :
    f' = { f with leaves := f'.leaves } ∧
      ∀ slot ∈ f.expr.slots, ∃ l a, f.leaves[slot]? = some l ∧ f'.leaves[slot]? = some a ∧
        if l.block = block then κ.change d l = .ok a else a = l := by
  rw [κ.correct_eq] at h
  obtain ⟨-, leaves, hleaves, rfl⟩ := correctOwners_eq_ok h
  refine ⟨rfl, fun slot hs => ?_⟩
  obtain ⟨l, hget⟩ := hf.exists_leaf hs
  obtain ⟨hown, hother⟩ := foldlM_changeOwner hf.listed.nodup hleaves slot
  by_cases hb : l.block = block
  · obtain ⟨a, ha, hchange⟩ := hown (hf.mem_slots_iff.2 hs) l hget hb
    exact ⟨l, a, hget, ha, by rwa [if_pos hb]⟩
  · refine ⟨l, l, hget, ?_, by rw [if_neg hb]⟩
    rw [← hget]
    apply hother
    intro _ m hm
    obtain rfl := Option.some.inj (hget.symm.trans hm)
    exact hb

theorem Mirrors.checkOwners_iff (h : f.Mirrors f') (κ : Motion) (block : BlockId) (d : Vec K) :
    f'.checkOwners block d.size κ.expected = .ok () ↔
      f.checkOwners block d.size κ.expected = .ok () := by
  rw [checkOwners_eq_ok_iff, checkOwners_eq_ok_iff]
  simp only [Ne, List.eq_nil_iff_forall_not_mem, h.mem_owners_iff]

theorem Mirrors.correct (h : f.Mirrors f') (κ : Motion) (block : BlockId) (d : Vec K) :
    InStep (f.perform (.correct κ block d)) (f'.perform (.correct κ block d)) := by
  have hiff := h.checkOwners_iff κ block d
  cases hcheck : f.checkOwners block d.size κ.expected with
  | ok u =>
    obtain ⟨g, hcorrect, hplace, -⟩ := h.built.exists_correct hcheck
    obtain ⟨g', hcorrect', hplace', -⟩ := h.built'.exists_correct (hiff.2 hcheck)
    have hbuilt {g g' : ElementField K} (hg : g.Built) (hc : κ.correct g block d = .ok g') :
        g'.Built := by
      cases κ with
      | tangent => exact hg.update hc
      | embedding => exact hg.embed hc
    obtain ⟨hrest, hall⟩ := h.built.leaves_of_correct hcorrect
    obtain ⟨hrest', hall'⟩ := h.built'.leaves_of_correct hcorrect'
    have hg := hbuilt h.built hcorrect
    have hg' := hbuilt h.built' hcorrect'
    rw [hrest] at hg
    rw [hrest'] at hg'
    simp only [perform, hplace, hplace']
    refine ⟨rfl, fun _ => ?_⟩
    rw [hrest, hrest']
    -- What becomes of a leaf depends on the leaf alone, not on the slot it stands in.
    apply h.changed _ hg hg' hall hall'
    intro l a b ha hb
    by_cases hown : l.block = block
    · rw [if_pos hown] at ha hb
      exact Except.ok.inj (ha.symm.trans hb)
    · rw [if_neg hown] at ha hb
      exact ha.trans hb.symm
  | error e =>
    cases hcheck' : f'.checkOwners block d.size κ.expected with
    | ok u =>
      nomatch hcheck.symm.trans (hiff.1 hcheck')
    | error e' =>
      obtain ⟨reason, rfl⟩ := refused_of_checkOwners hcheck
      obtain ⟨reason', rfl⟩ := refused_of_checkOwners hcheck'
      simp only [perform, correctInPlace, hcheck, hcheck']
      exact ⟨rfl, fun _ => h⟩

end Corrections

/-- One operation. -/
theorem Mirrors.perform (h : f.Mirrors f') (operation : Operation K) :
    InStep (f.perform operation) (f'.perform operation) := by
  cases operation with
  | bind rule orders => exact h.bind rule orders
  | correct κ block d => exact h.correct κ block d
  | evaluate site => exact ⟨congrArg Reply.value (h.evaluate_eq site), fun _ => h⟩
  | request r => exact ⟨congrArg Reply.derivative (h.evaluateRequest_eq r), fun _ => h⟩

/-- All operations. -/
theorem Mirrors.replies (h : f.Mirrors f') (operations : List (Operation K)) :
    f'.replies operations = f.replies operations := by
  induction operations generalizing f f' with
  | nil => rfl
  | cons operation rest ih =>
    obtain ⟨hreply, hfield⟩ := h.perform operation
    rcases hp : f.perform operation with ⟨g, reply⟩
    rcases hp' : f'.perform operation with ⟨g', reply'⟩
    rw [hp, hp'] at hreply
    rw [hp, hp'] at hfield
    obtain rfl : reply' = reply := hreply
    rw [ElementField.replies, ElementField.replies, hp, hp']
    cases reply' with
    | broken => rfl
    | changed | refused | value | derivative =>
      simp only [ih (hfield fun hbroken => nomatch hbroken)]

omit [Scalar K] in
theorem sorted_blocks_of_build {b : Builder K} {root : ℕ} (h : b.build root = .ok f) :
    f.blocks.Pairwise fun i j => i.block.index ≤ j.block.index := by
  unfold Builder.build at h
  split at h
  · nomatch h
  · obtain ⟨infos, -, h⟩ := bind_eq_ok_iff.1 h
    rw [pure_eq_ok_iff] at h
    subst h
    have htrans (i j k : BlockInfo) : decide (i.block.index ≤ j.block.index) = true →
        decide (j.block.index ≤ k.block.index) = true →
        decide (i.block.index ≤ k.block.index) = true := by
      simp only [decide_eq_true_eq]
      exact Nat.le_trans
    have htotal (i j : BlockInfo) : (decide (i.block.index ≤ j.block.index) ||
        decide (j.block.index ≤ i.block.index)) = true := by
      simp only [Bool.or_eq_true, decide_eq_true_eq]
      exact Nat.le_total _ _
    exact (List.pairwise_mergeSort htrans htotal infos).imp of_decide_eq_true

omit [Scalar K] in
/-- An expression is finished if the leaves of each of its blocks agree on the size of a correction. -/
theorem exists_build {b : Builder K} {root : ℕ} {e : Expr K} (he : b.expr? root = some e)
    (hc : BlockInfo.Consistent (leavesIn b.leaves e.slots)) :
    ∃ f, b.build root = .ok f ∧ f.expr = e ∧ f.leaves = b.leaves := by
  obtain ⟨top, htop, rfl⟩ := Option.map_eq_some_iff.1 he
  have hslots (slot : ℕ) : slot ∈ top.summary.slots.mergeSort ↔ slot ∈ top.expr.slots := by
    rw [List.mem_mergeSort, top.summary_eq, Expr.slots_summary, List.mem_eraseDups]
  have hmem (l : Leaf K) (hl : l ∈ [] ++ leavesIn b.leaves top.summary.slots.mergeSort) :
      l ∈ leavesIn b.leaves top.expr.slots := by
    obtain ⟨slot, hs, hget⟩ := mem_leavesIn_iff.1 hl
    exact mem_leavesIn_iff.2 ⟨slot, (hslots slot).1 hs, hget⟩
  have hempty : BlockInfo.Registers ([] : List BlockInfo) ([] : List (Leaf K)) :=
    ⟨List.nodup_nil, fun l hl => absurd hl List.not_mem_nil,
      fun info hi => absurd hi List.not_mem_nil⟩
  obtain ⟨infos, hinfos⟩ :=
    hempty.exists_foldlM fun l hl m hm => hc l (hmem l hl) m (hmem m hm)
  have hbuild : b.build root = .ok {
      leaves := b.leaves
      nodes := b.entries.map Entry.node
      root := root
      top := top
      slots := top.summary.slots.mergeSort
      blocks := infos.mergeSort fun i j => i.block.index ≤ j.block.index } := by
    unfold Builder.build
    rw [htop]
    exact bind_eq_ok_iff.2 ⟨infos, hinfos, rfl⟩
  exact ⟨_, hbuild, rfl, rfl⟩

/-- With copies for its leaves, a tree that can be finished still can, and the two fields mirror each
other. -/
theorem exists_build_of_copies {b b' : Builder K} (hb : b.Reachable) (hb' : b'.Reachable)
    {root root' : ℕ} (hf : b.build root = .ok f) {e' : Expr K} (he' : b'.expr? root' = some e')
    (hcopies : f.expr.Copies f.leaves b'.leaves e') :
    ∃ f', b'.build root' = .ok f' ∧ f'.expr = e' ∧ f.Mirrors f' := by
  have hbuilt : f.Built := .build hb hf
  have hr := registers_of_build hf
  have hc : BlockInfo.Consistent (leavesIn b'.leaves e'.slots) := by
    rw [hcopies.leavesIn_eq]
    intro l hl m hm
    exact hr.consistent l (hbuilt.mem_reachableLeaves_iff.2 hl) m (hbuilt.mem_reachableLeaves_iff.2 hm)
  obtain ⟨f', hf', rfl, hleaves⟩ := exists_build he' hc
  have hbuilt' : f'.Built := .build hb' hf'
  rw [← hleaves] at hcopies
  refine ⟨f', hf', rfl, hbuilt, hbuilt', hcopies, ?_⟩
  apply hr.eq_of_sorted (registers_of_build hf') _ (sorted_blocks_of_build hf)
    (sorted_blocks_of_build hf')
  intro l
  rw [hbuilt'.mem_reachableLeaves_iff, hbuilt.mem_reachableLeaves_iff, hcopies.leavesIn_eq]

/-- Sharing a leaf and copying it are indistinguishable. If a tree is finished to a field, so is every
tree that differs from it in the slots of its leaves only, the leaves being the same; the sizes, the
blocks and the orders are the same, and whatever is done to both fields, the same operations succeed
and every evaluation has the same outcome. -/
theorem copies_indistinguishable {b b' : Builder K} (hb : b.Reachable) (hb' : b'.Reachable)
    {root root' : ℕ} (hf : b.build root = .ok f) {e' : Expr K} (he' : b'.expr? root' = some e')
    (hcopies : f.expr.Copies f.leaves b'.leaves e') :
    ∃ f', b'.build root' = .ok f' ∧ f'.expr = e' ∧
      ((f'.valueSize = f.valueSize ∧ f'.gridDim = f.gridDim) ∧ f'.ids = f.ids ∧
        ∀ block, f'.orderIn block = f.orderIn block) ∧
      ∀ operations, f'.replies operations = f.replies operations := by
  obtain ⟨f', hf', he, h⟩ := exists_build_of_copies hb hb' hf he' hcopies
  exact ⟨f', hf', he, ⟨⟨h.valueSize_eq, h.gridDim_eq⟩, h.ids_eq, h.orderIn_eq⟩, h.replies⟩

/-- The square of one leaf, and the product of two copies of it. -/
theorem copies_indistinguishable_square :
    let l : Leaf ℝ := .onSegment ⟨0⟩ 2 3
    let f : ElementField ℝ := square 2 3
    let b := Builder.after [.leaf l, .normSquared 0]
    let b' := Builder.after [.leaf l, .leaf l, .dot 0 1]
    let e' : Expr ℝ := .binary .dot (.leaf 0 l.signature) (.leaf 1 l.signature)
    ((b.Reachable ∧ b'.Reachable) ∧ b.build 1 = .ok f ∧ b'.expr? 2 = some e' ∧
      f.expr.Copies f.leaves b'.leaves e') ∧
      ∃ f', b'.build 2 = .ok f' ∧ f'.ids = [⟨0⟩] ∧
        ∀ operations, f'.replies operations = f.replies operations := by
  intro l f b b' e'
  have hb : b.Reachable := Builder.reachable_after _
  have hb' : b'.Reachable := Builder.reachable_after _
  have hf : b.build f.root = .ok f :=
    build_eq_of_sorted rfl ⟨rfl, rfl⟩ rfl (List.pairwise_singleton _ _) rfl
      (List.pairwise_singleton _ _)
  have he' : b'.expr? 2 = some e' := rfl
  have hcopies : f.expr.Copies f.leaves b'.leaves e' :=
    .binary .dot (.leaf ⟨0, rfl, rfl⟩) (.leaf ⟨1, rfl, rfl⟩)
  obtain ⟨f', hf', -, ⟨-, hids, -⟩, hreplies⟩ := copies_indistinguishable hb hb' hf he' hcopies
  exact ⟨⟨⟨hb, hb'⟩, hf, he', hcopies⟩, f', hf', hids, hreplies⟩

end ElementField

end ElementFields
