import ElementFields.Expression.Tree

namespace ElementFields

structure Summary where
  valueSize : Nat
  gridDim : Option Nat
  /-- The blocks of the leaves, each of them once, with the order in it. -/
  orders : List (BlockId × PolynomialOrder)
  /-- The slots of the leaves, each of them once. -/
  slots : List Nat
deriving DecidableEq, Repr

/-- The order in a block, which is constant for a block that is not listed. -/
def orderAmong (orders : List (BlockId × PolynomialOrder)) (block : BlockId) : PolynomialOrder :=
  (orders.lookup block).getD .constant

def mergeOrders (combine : PolynomialOrder → PolynomialOrder → PolynomialOrder)
    (l m : List (BlockId × PolynomialOrder)) : List (BlockId × PolynomialOrder) :=
  ((l ++ m).map Prod.fst).eraseDups.map fun block =>
    (block, combine (orderAmong l block) (orderAmong m block))

namespace Summary

def orderIn (s : Summary) (block : BlockId) : PolynomialOrder := orderAmong s.orders block

def leaf (slot : Nat) (signature : LeafSignature) : Summary where
  valueSize := signature.valueSize
  gridDim := some signature.gridDim
  orders := [(signature.block, signature.order)]
  slots := [slot]

def constant : Summary where
  valueSize := 1
  gridDim := none
  orders := []
  slots := []

def unarySize {K : Type} (s : Summary) : UnaryOp K → Nat
  | .negate | .scale _ => s.valueSize
  | .map _ => 1
  | .strain => strainSize (s.gridDim.getD 0)

def unary {K : Type} (op : UnaryOp K) (s : Summary) : Summary where
  valueSize := s.unarySize op
  gridDim := s.gridDim
  orders := s.orders.map fun (block, order) => (block, op.order order)
  slots := s.slots

def binary (op : BinaryOp) (s t : Summary) : Summary where
  valueSize :=
    match op with
    | .sum => s.valueSize
    | .dot => 1
  gridDim := s.gridDim <|> t.gridDim
  orders := mergeOrders (fun o p => op.order o p) s.orders t.orders
  slots := s.slots ++ t.slots.filter (· ∉ s.slots)

end Summary

def Expr.summary {K : Type} : Expr K → Summary
  | leaf slot signature => .leaf slot signature
  | constant _ => .constant
  | unary op a => .unary op a.summary
  | binary op a b => .binary op a.summary b.summary

theorem orderAmong_map {f : PolynomialOrder → PolynomialOrder} (hf : f .constant = .constant)
    (l : List (BlockId × PolynomialOrder)) (block : BlockId) :
    orderAmong (l.map fun (b, order) => (b, f order)) block = f (orderAmong l block) := by
  induction l with
  | nil => exact hf.symm
  | cons head tail ih =>
    obtain ⟨b, order⟩ := head
    by_cases h : block = b
    · subst h
      simp [orderAmong]
    · have hb : (block == b) = false := by simpa using h
      simpa [orderAmong, List.lookup_cons, hb] using ih

theorem orderAmong_eq_constant {l : List (BlockId × PolynomialOrder)} {block : BlockId}
    (h : block ∉ l.map Prod.fst) : orderAmong l block = .constant := by
  induction l with
  | nil => rfl
  | cons head tail ih =>
    obtain ⟨b, order⟩ := head
    have hb : (block == b) = false := by
      simp only [List.map_cons, List.mem_cons, not_or] at h
      simpa using h.1
    have ht : block ∉ tail.map Prod.fst := fun hm => h (List.mem_cons_of_mem b hm)
    simpa [orderAmong, List.lookup_cons, hb] using ih ht

theorem lookup_map_block (g : BlockId → PolynomialOrder) (blocks : List BlockId) (block : BlockId) :
    (blocks.map fun b => (b, g b)).lookup block =
      if block ∈ blocks then some (g block) else none := by
  induction blocks with
  | nil => rfl
  | cons b rest ih =>
    by_cases h : block = b
    · subst h
      simp
    · have hb : (block == b) = false := by simpa using h
      simp [List.lookup_cons, hb, ih, h]

theorem orderAmong_mergeOrders {combine : PolynomialOrder → PolynomialOrder → PolynomialOrder}
    (hc : combine .constant .constant = .constant) (l m : List (BlockId × PolynomialOrder))
    (block : BlockId) :
    orderAmong (mergeOrders combine l m) block =
      combine (orderAmong l block) (orderAmong m block) := by
  unfold mergeOrders
  rw [orderAmong, lookup_map_block fun b => combine (orderAmong l b) (orderAmong m b)]
  split
  · rfl
  · rename_i h
    have hm : block ∉ (l ++ m).map Prod.fst := fun hm => h (List.mem_eraseDups.2 hm)
    rw [List.map_append, List.mem_append, not_or] at hm
    rw [orderAmong_eq_constant hm.1, orderAmong_eq_constant hm.2, hc]
    rfl

theorem filter_eraseDups (p : Nat → Bool) (l : List Nat) :
    l.eraseDups.filter p = (l.filter p).eraseDups := by
  match l with
  | [] => rfl
  | a :: as =>
    have ih := filter_eraseDups p (as.filter fun b => !b == a)
    rw [List.eraseDups_cons]
    by_cases h : p a = true
    · rw [List.filter_cons_of_pos h, List.filter_cons_of_pos h, List.eraseDups_cons, ih]
      rw [List.filter_filter, List.filter_filter]
      simp only [Bool.and_comm]
    · have he : (as.filter fun b => !b == a).filter p = as.filter p := by
        rw [List.filter_filter]
        apply List.filter_congr
        intro b _
        by_cases hb : b = a
        · simp [hb, h]
        · simp [hb]
      rw [List.filter_cons_of_neg h, List.filter_cons_of_neg h, ih, he]
termination_by l.length
decreasing_by
  have := List.length_filter_le (fun b => !b == a) as
  simp only [List.length_cons]
  omega

namespace Expr

variable {K : Type}

theorem gridDim_summary (e : Expr K) : e.summary.gridDim = e.gridDim := by
  induction e with
  | leaf slot signature => rfl
  | constant x => rfl
  | unary op a ih => exact ih
  | binary op a b iha ihb =>
    show (a.summary.gridDim <|> b.summary.gridDim) = (a.gridDim <|> b.gridDim)
    rw [iha, ihb]

theorem valueSize_summary (e : Expr K) : e.summary.valueSize = e.valueSize := by
  induction e with
  | leaf slot signature => rfl
  | constant x => rfl
  | unary op a ih =>
    cases op with
    | negate => exact ih
    | scale factor => exact ih
    | map f => rfl
    | strain =>
      show strainSize (a.summary.gridDim.getD 0) = strainSize (a.gridDim.getD 0)
      rw [gridDim_summary]
  | binary op a b iha ihb =>
    cases op with
    | sum => exact iha
    | dot => rfl

theorem orderIn_summary (e : Expr K) (block : BlockId) :
    e.summary.orderIn block = e.orderIn block := by
  induction e with
  | leaf slot signature =>
    by_cases h : signature.block = block
    · simp [summary, Summary.orderIn, Summary.leaf, orderAmong, orderIn, h]
    · have hb : (block == signature.block) = false := by simpa using fun he => h he.symm
      simp [summary, Summary.orderIn, Summary.leaf, orderAmong, orderIn, h, List.lookup_cons, hb]
  | constant x => rfl
  | unary op a ih =>
    have hop : op.order .constant = .constant := by cases op <;> rfl
    show orderAmong (a.summary.orders.map fun (b, order) => (b, op.order order)) block =
      op.order (a.orderIn block)
    rw [orderAmong_map (f := fun o => op.order o) hop, ← ih]
    rfl
  | binary op a b iha ihb =>
    have hop : op.order .constant .constant = .constant := by cases op <;> rfl
    show orderAmong (mergeOrders (fun o p => op.order o p) a.summary.orders b.summary.orders)
        block =
      op.order (a.orderIn block) (b.orderIn block)
    rw [orderAmong_mergeOrders hop, ← iha, ← ihb]
    rfl

theorem slots_summary (e : Expr K) : e.summary.slots = e.slots.eraseDups := by
  induction e with
  | leaf slot signature => rfl
  | constant x => rfl
  | unary op a ih => exact ih
  | binary op a b iha ihb =>
    show a.summary.slots ++ b.summary.slots.filter (· ∉ a.summary.slots) =
      (a.slots ++ b.slots).eraseDups
    rw [iha, ihb, List.eraseDups_append, List.removeAll, filter_eraseDups]
    congr 2
    apply List.filter_congr
    intro slot _
    simp [List.mem_eraseDups]

end Expr

end ElementFields
