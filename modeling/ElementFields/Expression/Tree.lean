import ElementFields.Block
import ElementFields.PolynomialOrder
import ElementFields.Request.Directions
import ElementFields.Scalar

namespace ElementFields

open Scalar

inductive ScalarMap where
  | sqrt
  | log
deriving DecidableEq, Repr

structure Taylor (K : Type) where
  first : K
  second : K
  third : K

namespace ScalarMap

variable {K : Type} [Scalar K]

def apply : ScalarMap → K → K
  | sqrt, v => Scalar.sqrt v
  | log, v => Scalar.log v

def derivatives : ScalarMap → K → Taylor K
  | sqrt, v =>
    let s := Scalar.sqrt v
    { first := 1 / ((2 : Nat) * s)
      second := -1 / ((4 : Nat) * v * s)
      third := (3 : Nat) / ((8 : Nat) * v * v * s) }
  | log, v => { first := 1 / v, second := -1 / (v * v), third := (2 : Nat) / (v * v * v) }

def operation : ScalarMap → String
  | sqrt => "sqrt"
  | log => "log"

end ScalarMap

inductive UnaryOp (K : Type) where
  | negate
  | scale (factor : K)
  | map (f : ScalarMap)
  | strain

inductive BinaryOp where
  | sum
  | dot
deriving DecidableEq, Repr

def BinaryOp.operation : BinaryOp → String
  | sum => "sum"
  | dot => "dot"

structure LeafSignature where
  block : BlockId
  valueSize : Nat
  order : PolynomialOrder
  gridDim : Nat
deriving DecidableEq, Repr

inductive Expr (K : Type) where
  | leaf (slot : Nat) (signature : LeafSignature)
  | constant (x : K)
  | unary (op : UnaryOp K) (a : Expr K)
  | binary (op : BinaryOp) (a b : Expr K)

/-- The number of strain components in `dim` dimensions, each pair of axes counted once. -/
def strainSize (dim : Nat) : Nat := dim * (dim + 1) / 2

def UnaryOp.order {K : Type} (o : PolynomialOrder) : UnaryOp K → PolynomialOrder
  | negate | scale _ => o
  | map _ => o.unlessConstant .nonlinear
  | strain => o.unlessConstant .quadratic

def BinaryOp.order (o p : PolynomialOrder) : BinaryOp → PolynomialOrder
  | sum => max o p
  | dot => o * p

namespace Expr

variable {K : Type}

/-- The dimension of the element that the first leaf lives on, if there is a leaf. -/
def gridDim : Expr K → Option Nat
  | leaf _ s => some s.gridDim
  | constant _ => none
  | unary _ a => a.gridDim
  | binary _ a b => a.gridDim <|> b.gridDim

def valueSize : Expr K → Nat
  | leaf _ s => s.valueSize
  | constant _ => 1
  | unary .negate a | unary (.scale _) a => a.valueSize
  | unary (.map _) _ => 1
  | unary .strain a => strainSize (a.gridDim.getD 0)
  | binary .sum a _ => a.valueSize
  | binary .dot _ _ => 1

def orderIn (block : BlockId) : Expr K → PolynomialOrder
  | leaf _ s => if s.block = block then s.order else .constant
  | constant _ => .constant
  | unary op a => op.order (a.orderIn block)
  | binary op a b => op.order (a.orderIn block) (b.orderIn block)

def blocks : Expr K → List BlockId
  | leaf _ s => [s.block]
  | constant _ => []
  | unary _ a => a.blocks
  | binary _ a b => a.blocks ++ b.blocks

def slots : Expr K → List Nat
  | leaf slot _ => [slot]
  | constant _ => []
  | unary _ a => a.slots
  | binary _ a b => a.slots ++ b.slots

/-- Whether the order in some block of the directions is below the number of differentiations with
respect to that block, so that the derivative is zero. -/
def annihilated (e : Expr K) (d : Directions) : Bool :=
  d.coefficientList.any fun c => (e.orderIn c.block).annihilatedBy (d.coefficientOrderIn c.block)

end Expr

end ElementFields
