import Mathlib.Logic.Relation
import ElementFields.Proofs.Refusals

namespace ElementFields

variable {K : Type}

/-- The expression is what the node stands for, among entries that hold its operands. -/
inductive Node.StandsFor (entries : Array (Entry K)) : Node K → Expr K → Prop where
  | leaf (slot : ℕ) (signature : LeafSignature) :
      StandsFor entries (.leaf slot) (.leaf slot signature)
  | constant (x : K) : StandsFor entries (.constant x) (.constant x)
  | unary (op : UnaryOp K) {i : ℕ} {e : Entry K} (he : entries[i]? = some e) :
      StandsFor entries (.unary op i) (.unary op e.expr)
  | binary (op : BinaryOp) {i j : ℕ} {e f : Entry K} (he : entries[i]? = some e)
      (hf : entries[j]? = some f) : StandsFor entries (.binary op i j) (.binary op e.expr f.expr)

theorem getElem?_push_of_some {α : Type} {a : Array α} {i : ℕ} {x y : α} (h : a[i]? = some x) :
    (a.push y)[i]? = some x := by
  have hlt : i < a.size := (Array.getElem?_eq_some_iff.1 h).1
  rw [Array.getElem?_push_lt hlt, ← h, Array.getElem?_eq_getElem hlt]

/-- More entries behind the ones there are do no harm. -/
theorem Node.StandsFor.push {entries : Array (Entry K)} {node : Node K} {x : Expr K}
    (h : node.StandsFor entries x) (e : Entry K) : node.StandsFor (entries.push e) x := by
  cases h with
  | leaf slot signature => exact .leaf slot signature
  | constant x => exact .constant x
  | unary op he => exact .unary op (getElem?_push_of_some he)
  | binary op he hf => exact .binary op (getElem?_push_of_some he) (getElem?_push_of_some hf)

namespace Builder

/-- The second builder has one entry more, and its operands are entries of the first one. -/
inductive Appends (b : Builder K) : Builder K → Prop where
  | leaf (l : Leaf K) : Appends b
      { leaves := b.leaves.push l, entries := b.entries.push (.leaf b.leaves.size l.signature) }
  | constant (x : K) : Appends b { b with entries := b.entries.push (.constant x) }
  | unary (op : UnaryOp K) {i : ℕ} {e : Entry K} (he : b.entries[i]? = some e) :
      Appends b { b with entries := b.entries.push (.unary op i e) }
  | binary (op : BinaryOp) {i j : ℕ} {e f : Entry K} (he : b.entries[i]? = some e)
      (hf : b.entries[j]? = some f) :
      Appends b { b with entries := b.entries.push (.binary op i j e f) }

namespace Step

variable {α β : Type} {b : Builder K}

/-- From the builder the step appends entries one after the other, or none, whether it succeeds or not.
-/
def Grows (b : Builder K) (s : Step K α) : Prop := Relation.ReflTransGen Appends b (s.after b).2

theorem grows_refuse (e : AssemblyError) : (throw e : Step K α).Grows b := .refl

theorem grows_append {e : Entry K} (h : b.Appends { b with entries := b.entries.push e }) :
    (append e).Grows b := .single h

theorem Grows.look_bind {i : ℕ} {f : Entry K → Step K β}
    (h : ∀ e, b.entries[i]? = some e → (f e).Grows b) : (look i >>= f).Grows b := by
  unfold Grows
  rw [after_look_bind]
  cases hi : b.entries[i]? with
  | none => exact .refl
  | some e => exact h e hi

theorem Grows.unless {c : Prop} [Decidable c] {e : AssemblyError} {s : Step K α} {f : β → Step K α}
    (h : s.Grows b) : (if c then s else throw e >>= f).Grows b := by
  split
  · exact h
  · unfold Grows
    rw [after_bind]
    exact .refl

end Step

open Step

theorem grows_unary (op : UnaryOp K) (i : ℕ) (b : Builder K) :
    (do let e ← look i; append (.unary op i e) : Step K ℕ).Grows b :=
  Grows.look_bind fun _ he => grows_append (.unary op he)

theorem grows_binary (op : BinaryOp) (i j : ℕ) (b : Builder K) :
    (binary op i j : Step K ℕ).Grows b := by
  refine Grows.look_bind fun e he => Grows.look_bind fun f hf => Grows.unless ?_
  split
  · exact Grows.unless (grows_append (.binary op he hf))
  · exact grows_append (.binary op he hf)

theorem grows_sub (i j : ℕ) (b : Builder K) : (sub i j : Step K ℕ).Grows b := by
  unfold Grows
  rw [after_sub]
  cases hj : b.entries[j]? with
  | none => exact .refl
  | some e =>
    -- The negated subtrahend comes first, and the sum is a step from there.
    have hnegated : b.Appends (b.withNegated j e) := .unary .negate hj
    exact .head hnegated (grows_binary .sum i b.entries.size (b.withNegated j e))

theorem grows_scaleBy (i factor : ℕ) (b : Builder K) : (scaleBy i factor : Step K ℕ).Grows b := by
  refine Grows.look_bind fun e _ => ?_
  split
  · exact grows_unary _ i b
  · exact grows_refuse _

theorem grows_map (g : ScalarMap) (i : ℕ) (b : Builder K) : (map g i : Step K ℕ).Grows b :=
  Grows.look_bind fun _ he => Grows.unless (grows_append (.unary (.map g) he))

theorem grows_strain (i : ℕ) (b : Builder K) : (strain i : Step K ℕ).Grows b := by
  refine Grows.look_bind fun e he => ?_
  split
  · refine Grows.unless ?_
    cases e.isCurved with
    | true =>
      unfold Grows
      rw [if_pos rfl, after_bind]
      exact .refl
    | false => exact grows_append (.unary .strain he)
  · exact grows_refuse _

/-- All that a command does is to append entries on top of the ones there are. -/
theorem grows_command (c : Command K) (b : Builder K) : c.step.Grows b := by
  cases c with
  | leaf l => exact .single (.leaf l)
  | constant x => exact grows_append (.constant x)
  | sum i j => exact grows_binary .sum i j b
  | sub i j => exact grows_sub i j b
  | dot i j => exact grows_binary .dot i j b
  | normSquared i => exact grows_binary .dot i i b
  | negate i => exact grows_unary .negate i b
  | scale i factor => exact grows_unary (.scale factor) i b
  | scaleBy i factor => exact grows_scaleBy i factor b
  | map g i => exact grows_map g i b
  | strain i => exact grows_strain i b

/-- Every node comes after its operands and stands for the expression next to it. -/
def Linked (b : Builder K) : Prop :=
  ∀ (id : ℕ) (e : Entry K), b.entries[id]? = some e →
    (∀ i ∈ e.node.operands, i < id) ∧ e.node.StandsFor b.entries e.expr

theorem Linked.push {b : Builder K} (h : b.Linked) (leaves : Array (Leaf K)) {e : Entry K}
    (hlt : ∀ i ∈ e.node.operands, i < b.entries.size) (he : e.node.StandsFor b.entries e.expr) :
    Linked { leaves, entries := b.entries.push e } := by
  intro id e' hid
  by_cases hlast : id = b.entries.size
  · subst hlast
    obtain rfl : e = e' := Option.some.inj (Array.getElem?_push_size.symm.trans hid)
    exact ⟨hlt, he.push e⟩
  · have hid : b.entries[id]? = some e' := by
      have hsize : id < b.entries.size + 1 := by
        simpa using (Array.getElem?_eq_some_iff.1 hid).1
      rwa [Array.getElem?_push, if_neg hlast] at hid
    exact ⟨(h id e' hid).1, (h id e' hid).2.push e⟩

/-- One entry. -/
theorem Linked.appends {b b' : Builder K} (h : b.Linked) (ha : b.Appends b') : b'.Linked := by
  have hlt {i : ℕ} {e : Entry K} (he : b.entries[i]? = some e) : i < b.entries.size :=
    (Array.getElem?_eq_some_iff.1 he).1
  cases ha with
  | leaf l => exact h.push _ (fun i hi => absurd hi List.not_mem_nil) (.leaf _ _)
  | constant x => exact h.push _ (fun i hi => absurd hi List.not_mem_nil) (.constant x)
  | @unary op i e he =>
    refine h.push _ (fun k hk => ?_) (.unary op he)
    obtain rfl : k = i := List.mem_singleton.1 hk
    exact hlt he
  | @binary op i j e f he hf =>
    refine h.push _ (fun k hk => ?_) (.binary op he hf)
    rcases List.mem_cons.1 hk with rfl | hk
    · exact hlt he
    · obtain rfl : k = j := List.mem_singleton.1 hk
      exact hlt hf

/-- All entries. -/
theorem Reachable.linked {b : Builder K} (h : b.Reachable) : b.Linked := by
  induction h with
  | empty =>
    intro id e he
    nomatch (Array.getElem?_eq_some_iff.1 he).1
  | @step b c _ ih =>
    have hrun : Relation.ReflTransGen Appends b (c.step.after b).2 := grows_command c b
    generalize (c.step.after b).2 = b' at hrun ⊢
    induction hrun with
    | refl => exact ih
    | tail _ ha ih => exact ih.appends ha

def node? (b : Builder K) (id : ℕ) : Option (Node K) := b.entries[id]?.map Entry.node

def RefersTo (b : Builder K) (i j : ℕ) : Prop := ∃ node, b.node? i = some node ∧ j ∈ node.operands

def Below (b : Builder K) (root : ℕ) : ℕ → Prop := Relation.ReflTransGen b.RefersTo root

def LeafBelow (b : Builder K) (root slot : ℕ) : Prop :=
  ∃ id, b.Below root id ∧ b.node? id = some (.leaf slot)

section Below

variable {b : Builder K} {root slot : ℕ} {e : Entry K}

theorem node?_eq (he : b.entries[root]? = some e) : b.node? root = some e.node :=
  Option.map_eq_some_iff.2 ⟨e, he, rfl⟩

theorem refersTo_iff (he : b.entries[root]? = some e) {j : ℕ} :
    b.RefersTo root j ↔ j ∈ e.node.operands := by
  constructor
  · rintro ⟨node, hnode, hj⟩
    obtain rfl : e.node = node := Option.some.inj ((node?_eq he).symm.trans hnode)
    exact hj
  · exact fun hj => ⟨e.node, node?_eq he, hj⟩

/-- What lies below the root is the root or lies below one of its operands. -/
theorem leafBelow_iff (he : b.entries[root]? = some e) :
    b.LeafBelow root slot ↔
      e.node = .leaf slot ∨ ∃ j ∈ e.node.operands, b.LeafBelow j slot := by
  constructor
  · rintro ⟨id, hbelow, hid⟩
    rcases hbelow.cases_head with rfl | ⟨j, hj, hbelow⟩
    · exact Or.inl (Option.some.inj ((node?_eq he).symm.trans hid))
    · exact Or.inr ⟨j, (refersTo_iff he).1 hj, id, hbelow, hid⟩
  · rintro (hleaf | ⟨j, hj, id, hbelow, hid⟩)
    · exact ⟨root, .refl, hleaf ▸ node?_eq he⟩
    · exact ⟨id, .head ((refersTo_iff he).2 hj) hbelow, hid⟩

/-- Following the places leads to the leaves of the expression. -/
theorem Linked.leafBelow_iff_mem (h : b.Linked) (he : b.entries[root]? = some e) :
    b.LeafBelow root slot ↔ slot ∈ e.expr.slots := by
  -- Operands come first, so the induction is on the place.
  induction root using Nat.strong_induction_on generalizing e with
  | h root ih =>
    obtain ⟨hlt, hstands⟩ := h root e he
    rw [leafBelow_iff he]
    generalize e.node = node, e.expr = x at hlt hstands
    cases hstands with
    | leaf slot' signature =>
      have hno : ¬∃ j ∈ (Node.leaf slot' : Node K).operands, b.LeafBelow j slot := by
        rintro ⟨j, hj, -⟩
        exact List.not_mem_nil hj
      rw [or_iff_left hno, Expr.slots, List.mem_singleton, Node.leaf.injEq, eq_comm]
    | constant x =>
      refine iff_of_false ?_ List.not_mem_nil
      rintro (hleaf | ⟨j, hj, -⟩)
      · nomatch hleaf
      · exact List.not_mem_nil hj
    | @unary op i a ha =>
      have hi : i ∈ (Node.unary op i).operands := List.mem_cons_self
      calc (Node.unary op i = .leaf slot ∨ ∃ j ∈ (Node.unary op i).operands, b.LeafBelow j slot)
        _ ↔ b.LeafBelow i slot := by simp [Node.operands]
        _ ↔ slot ∈ a.expr.slots := ih i (hlt i hi) ha
    | @binary op i j a c ha hc =>
      have hi : i ∈ (Node.binary op i j : Node K).operands := List.mem_cons_self
      have hj : j ∈ (Node.binary op i j : Node K).operands :=
        List.mem_cons_of_mem i List.mem_cons_self
      calc (Node.binary op i j = .leaf slot ∨
            ∃ k ∈ (Node.binary op i j : Node K).operands, b.LeafBelow k slot)
        _ ↔ b.LeafBelow i slot ∨ b.LeafBelow j slot := by simp [Node.operands]
        _ ↔ slot ∈ a.expr.slots ∨ slot ∈ c.expr.slots :=
          or_congr (ih i (hlt i hi) ha) (ih j (hlt j hj) hc)
        _ ↔ slot ∈ (Expr.binary op a.expr c.expr).slots := List.mem_append.symm

end Below

end Builder

end ElementFields
