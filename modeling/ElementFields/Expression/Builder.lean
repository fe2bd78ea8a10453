import ElementFields.Expression.Summary
import ElementFields.Failure
import ElementFields.Leaf.Basic

/-! Assembly of expressions, bottom-up. A step that consists of several appends its nodes one by one,
so when a later one is refused the earlier ones stay. -/
namespace ElementFields

inductive Node (K : Type) where
  | leaf (slot : Nat)
  | constant (x : K)
  | unary (op : UnaryOp K) (child : Nat)
  | binary (op : BinaryOp) (a b : Nat)

def Node.operands {K : Type} : Node K → List Nat
  | leaf _ | constant _ => []
  | unary _ child => [child]
  | binary _ a b => [a, b]

def Leaf.signature {K : Type} (l : Leaf K) : LeafSignature where
  block := l.block
  valueSize := l.valueSize
  order := l.order
  gridDim := l.gridDim

structure Entry (K : Type) where
  node : Node K
  expr : Expr K
  -- Kept so that no step has to unfold the expression.
  summary : Summary
  summary_eq : summary = expr.summary

namespace Entry

variable {K : Type}

def leaf (slot : Nat) (signature : LeafSignature) : Entry K where
  node := .leaf slot
  expr := .leaf slot signature
  summary := .leaf slot signature
  summary_eq := rfl

def constant (x : K) : Entry K where
  node := .constant x
  expr := .constant x
  summary := .constant
  summary_eq := rfl

def unary (op : UnaryOp K) (child : Nat) (e : Entry K) : Entry K where
  node := .unary op child
  expr := .unary op e.expr
  summary := .unary op e.summary
  summary_eq := by rw [e.summary_eq, Expr.summary]

def binary (op : BinaryOp) (a b : Nat) (e f : Entry K) : Entry K where
  node := .binary op a b
  expr := .binary op e.expr f.expr
  summary := .binary op e.summary f.summary
  summary_eq := by rw [e.summary_eq, f.summary_eq, Expr.summary]

def valueSize (e : Entry K) : Nat := e.summary.valueSize

def gridDim (e : Entry K) : Option Nat := e.summary.gridDim

def orderIn (e : Entry K) (block : BlockId) : PolynomialOrder := e.summary.orderIn block

def isCurved (e : Entry K) : Bool :=
  e.summary.orders.any fun (block, _) => e.orderIn block ∉ [.constant, .linear]

theorem valueSize_eq (e : Entry K) : e.valueSize = e.expr.valueSize := by
  rw [valueSize, e.summary_eq, Expr.valueSize_summary]

theorem gridDim_eq (e : Entry K) : e.gridDim = e.expr.gridDim := by
  rw [gridDim, e.summary_eq, Expr.gridDim_summary]

theorem orderIn_eq (e : Entry K) (block : BlockId) : e.orderIn block = e.expr.orderIn block := by
  rw [orderIn, e.summary_eq, Expr.orderIn_summary]

/-- An entry that is not curved has at most linear order in every block, listed or not. -/
theorem isCurved_eq_false_iff (e : Entry K) :
    e.isCurved = false ↔ ∀ block, e.expr.orderIn block ∈ [.constant, .linear] := by
  simp only [isCurved, List.any_eq_false, decide_eq_true_eq, Decidable.not_not]
  constructor
  · intro h block
    rw [← e.orderIn_eq]
    by_cases hb : block ∈ e.summary.orders.map Prod.fst
    · obtain ⟨⟨b, order⟩, hm, rfl⟩ := List.mem_map.1 hb
      exact h (b, order) hm
    · have hc : e.orderIn block = .constant := orderAmong_eq_constant hb
      simp [hc]
  · intro h p _
    rw [e.orderIn_eq]
    exact h p.1

end Entry

structure Builder (K : Type) where
  leaves : Array (Leaf K) := #[]
  entries : Array (Entry K) := #[]

namespace Builder

variable {K : Type}

def expr? (b : Builder K) (id : Nat) : Option (Expr K) := b.entries[id]?.map Entry.expr

/-- A step of the assembly. Whether or not it succeeds, it leaves the builder it has reached. -/
abbrev Step (K : Type) := ExceptT AssemblyError (StateM (Builder K))

def look (id : Nat) : Step K (Entry K) := do
  match (← get).entries[id]? with
  | some e => return e
  | none => throw (.unknownNode id)

def append (e : Entry K) : Step K Nat :=
  modifyGet fun b => (b.entries.size, { b with entries := b.entries.push e })

def appendLeaf (l : Leaf K) : Step K Nat :=
  modifyGet fun b => (b.leaves.size, { b with leaves := b.leaves.push l })

def leaf (l : Leaf K) : Step K Nat := do
  let slot ← appendLeaf l
  append (.leaf slot l.signature)

def constant (x : K) : Step K Nat := append (.constant x)

def binary (op : BinaryOp) (a b : Nat) : Step K Nat := do
  let e ← look a
  let f ← look b
  unless e.valueSize = f.valueSize do throw (.sizeMismatch op.operation e.valueSize f.valueSize)
  match e.gridDim, f.gridDim with
  | some expected, some found =>
    unless expected = found do throw (.gridDimensionMismatch expected found)
  -- An operand without leaves fits any element.
  | _, _ => pure ()
  append (.binary op a b e f)

def sum (a b : Nat) : Step K Nat := binary .sum a b

def dot (a b : Nat) : Step K Nat := binary .dot a b

def normSquared (a : Nat) : Step K Nat := dot a a

def negate (a : Nat) : Step K Nat := do
  let e ← look a
  append (.unary .negate a e)

def sub (a b : Nat) : Step K Nat := do
  -- The negated node stays behind when the sum is refused.
  let negated ← negate b
  sum a negated

def scale (a : Nat) (factor : K) : Step K Nat := do
  let e ← look a
  append (.unary (.scale factor) a e)

def scaleBy (a factor : Nat) : Step K Nat := do
  match (← look factor).expr with
  | .constant x => scale a x
  | _ => throw .nonConstantScaling

def map (f : ScalarMap) (a : Nat) : Step K Nat := do
  let e ← look a
  unless e.valueSize = 1 do throw (.nonScalarOperand f.operation e.valueSize)
  append (.unary (.map f) a e)

/-- The Green-Lagrange strains of a displacement. It needs a leaf, one component for each of one to
three dimensions, and at most linear order in every block. -/
def strain (displacement : Nat) : Step K Nat := do
  let e ← look displacement
  let some dim := e.gridDim | throw .strainWithoutLeaf
  unless e.valueSize = dim ∧ 1 ≤ dim ∧ dim ≤ 3 do
    throw (.strainDimensionMismatch e.valueSize dim)
  if e.isCurved then throw .nonlinearStrainInput
  append (.unary .strain displacement e)

end Builder

end ElementFields
