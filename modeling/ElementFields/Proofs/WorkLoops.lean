import ElementFields.Proofs.Exposed

namespace ElementFields

variable {K : Type}

/-- The slots that are collected from the places on the stack. There is no result if the loop is not
done after `steps` places, or if one of them is missing. -/
def walk (node? : ℕ → Option (Node K)) (collect : List ℕ → ℕ → List ℕ) :
    ℕ → List ℕ → List ℕ → Option (List ℕ)
  | _, [], slots => some slots
  | 0, _ :: _, _ => none
  | steps + 1, id :: stack, slots =>
    match node? id with
    | none => none
    | some (.leaf slot) => walk node? collect steps stack (collect slots slot)
    | some node => walk node? collect steps (node.operands ++ stack) slots

def addSlot (slots : List ℕ) (slot : ℕ) : List ℕ := slots ++ [slot]

def addNewSlot (slots : List ℕ) (slot : ℕ) : List ℕ :=
  if slot ∈ slots then slots else slots ++ [slot]

def Builder.collectSlots (b : Builder K) (steps root : ℕ) : Option (List ℕ) :=
  walk b.node? addSlot steps [root] []

def ElementField.slotsBelow (f : ElementField K) (steps id : ℕ) : Option (List ℕ) :=
  walk f.node? addNewSlot steps [id] []

section Slots

variable (l acc : List ℕ)

theorem foldl_addSlot : l.foldl addSlot acc = acc ++ l := by
  induction l generalizing acc with
  | nil => exact (List.append_nil acc).symm
  | cons slot rest ih => rw [List.foldl_cons, ih, addSlot, List.append_assoc, List.singleton_append]

theorem mem_foldl_addNewSlot {slot : ℕ} :
    slot ∈ l.foldl addNewSlot acc ↔ slot ∈ acc ∨ slot ∈ l := by
  induction l generalizing acc with
  | nil => simp
  | cons s rest ih =>
    rw [List.foldl_cons, ih, addNewSlot, List.mem_cons]
    split
    · grind
    · rw [List.mem_append, List.mem_singleton, or_assoc]

theorem nodup_foldl_addNewSlot {acc : List ℕ} (h : acc.Nodup) : (l.foldl addNewSlot acc).Nodup := by
  induction l generalizing acc with
  | nil => exact h
  | cons s rest ih =>
    rw [List.foldl_cons, addNewSlot]
    split
    · exact ih h
    · exact ih (List.nodup_append_comm.1 (List.nodup_cons.2 ⟨‹_›, h⟩))

theorem head?_foldl_addNewSlot : (l.foldl addNewSlot acc).head? = (acc ++ l).head? := by
  induction l generalizing acc with
  | nil => rw [List.foldl_nil, List.append_nil]
  | cons s rest ih =>
    rw [List.foldl_cons, ih, addNewSlot]
    split
    · cases acc with
      | nil => exact absurd ‹_› List.not_mem_nil
      | cons first others => rfl
    · rw [List.append_assoc, List.singleton_append]

end Slots

/-- The number of nodes of an expression, where one that occurs twice counts twice. -/
def Expr.size : Expr K → ℕ
  | leaf _ _ | constant _ => 1
  | unary _ a => a.size + 1
  | binary _ a b => a.size + b.size + 1

/-- The leaves that an assembled expression refers to exist. -/
theorem Expr.Assembled.slot_lt {leaves : Array (Leaf K)} {e : Expr K} (h : e.Assembled leaves)
    {slot : ℕ} (hs : slot ∈ e.slots) : slot < leaves.size := by
  induction e with
  | leaf s signature =>
    obtain ⟨l, hl, -⟩ := h
    obtain rfl := List.mem_singleton.1 hs
    exact (Array.getElem?_eq_some_iff.1 hl).1
  | constant x => exact absurd hs List.not_mem_nil
  | unary op a ih =>
    cases op with
    | negate | scale => exact ih h hs
    | map | strain => exact ih h.1 hs
  | binary op a b iha ihb => exact (List.mem_append.1 hs).elim (iha h.1.1) (ihb h.1.2)

namespace Builder

structure Ordered (b : Builder K) : Prop where
  operands : ∀ id node, b.node? id = some node → ∀ i ∈ node.operands, i < id
  leaf : ∀ id slot, b.node? id = some (.leaf slot) → slot < b.leaves.size

variable {b : Builder K}

theorem Reachable.ordered (h : b.Reachable) : b.Ordered := by
  refine ⟨fun id node hnode => ?_, fun id slot hnode => ?_⟩
  · obtain ⟨e, he, rfl⟩ := Option.map_eq_some_iff.1 hnode
    exact (h.linked id e he).1
  · obtain ⟨e, he, hleaf⟩ := Option.map_eq_some_iff.1 hnode
    have hsound := h.sound e (Array.mem_of_getElem? he)
    obtain ⟨-, hstands⟩ := h.linked id e he
    rw [hleaf] at hstands
    generalize e.expr = x at hstands hsound
    cases hstands with
    | leaf _ signature => exact hsound.slot_lt (List.mem_singleton_self slot)

variable {id : ℕ} {e : Entry K}

/-- There are at most two operands, and both come first. -/
theorem Linked.size_lt (h : b.Linked) (he : b.entries[id]? = some e) :
    e.expr.size < 2 ^ (id + 1) := by
  -- The bound doubles from place to place, since an expression may share both of its operands.
  induction id using Nat.strong_induction_on generalizing e with
  | h id ih =>
    obtain ⟨hlt, hstands⟩ := h id e he
    have hpart {i : ℕ} (hi : i ∈ e.node.operands) {a : Entry K} (ha : b.entries[i]? = some a) :
        a.expr.size < 2 ^ id :=
      (ih i (hlt i hi) ha).trans_le (Nat.pow_le_pow_right two_pos (hlt i hi))
    have hpos : 0 < 2 ^ id := Nat.two_pow_pos id
    rw [pow_succ]
    generalize e.node = node, e.expr = x at hpart hstands
    cases hstands with
    | leaf slot signature => show 1 < _; omega
    | constant x => show 1 < _; omega
    | @unary op i a ha =>
      have := hpart List.mem_cons_self ha
      show a.expr.size + 1 < _
      omega
    | @binary op i j a c ha hc =>
      have := hpart List.mem_cons_self ha
      have := hpart (List.mem_cons_of_mem i List.mem_cons_self) hc
      show a.expr.size + c.expr.size + 1 < _
      omega

/-- A place on the stack is worked off in as many steps as its expression has nodes. -/
theorem Linked.walk_cons (h : b.Linked) (he : b.entries[id]? = some e)
    (collect : List ℕ → ℕ → List ℕ) (n : ℕ) (stack slots : List ℕ) :
    walk b.node? collect (n + e.expr.size) (id :: stack) slots =
      walk b.node? collect n stack (e.expr.slots.foldl collect slots) := by
  -- Operands come first, so the induction is on the place.
  induction id using Nat.strong_induction_on generalizing e n stack slots with
  | h id ih =>
    obtain ⟨hlt, hstands⟩ := h id e he
    have hnode := node?_eq he
    generalize e.node = node, e.expr = x at hlt hstands hnode
    cases hstands with
    | leaf slot signature => rw [Expr.size, walk, hnode]; rfl
    | constant x => rw [Expr.size, walk, hnode]; rfl
    | @unary op i a ha =>
      rw [Expr.size, ← Nat.add_assoc, walk, hnode]
      exact ih i (hlt i List.mem_cons_self) ha n stack slots
    | @binary op i j a c ha hc =>
      have hj : j < id := hlt j (List.mem_cons_of_mem i List.mem_cons_self)
      -- The left operand is worked off first, so the steps for the right one are left over.
      have hsteps : n + (Expr.binary op a.expr c.expr).size = n + c.expr.size + a.expr.size + 1 := by
        rw [Expr.size]
        omega
      rw [hsteps, walk, hnode, Expr.slots, List.foldl_append]
      calc walk b.node? collect (n + c.expr.size + a.expr.size) (i :: j :: stack) slots
        _ = walk b.node? collect (n + c.expr.size) (j :: stack) (a.expr.slots.foldl collect slots) :=
          ih i (hlt i List.mem_cons_self) ha _ _ _
        _ = _ := ih j hj hc n stack _

/-- A loop that starts at a node ends with the slots of its expression. -/
theorem Linked.walk_eq (h : b.Linked) (he : b.entries[id]? = some e)
    (collect : List ℕ → ℕ → List ℕ) {steps : ℕ} (hsteps : 2 ^ (id + 1) ≤ steps) :
    walk b.node? collect steps [id] [] = some (e.expr.slots.foldl collect []) := by
  obtain ⟨n, rfl⟩ := Nat.exists_eq_add_of_le ((h.size_lt he).le.trans hsteps)
  rw [Nat.add_comm, h.walk_cons he]
  cases n <;> rfl

end Builder

end ElementFields
