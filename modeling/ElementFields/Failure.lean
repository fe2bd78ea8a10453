import ElementFields.Request.Directions
import ElementFields.Violation

namespace ElementFields

inductive EvaluationError where
  /-- The operation has no rule for these directions. -/
  | notImplemented (operation : String) (directions : Directions)
  | missingAlong (directions : Directions)
  | alongShapeMismatch (expected found : Nat × Nat)
  | unknownBlock (block : BlockId)
  | ambiguousBlock (block : BlockId)
  | coefficientIndexOutOfRange (block : BlockId) (index len : Nat)
  | spatialIndexOutOfRange (direction gridDim : Nat)
  | missingGeometry
  | nonSquareJacobian (rows cols : Nat)
  | singularJacobian
  | basisNotBound
  | missingBasisOrder (order : Nat)
  | unsupportedBasisOrder (order : Nat)
  | positionDimensionMismatch (expected found : Nat)
  | integrationPointOutOfRange (index len : Nat)
  | correctionSizeMismatch (expected found : Nat)
deriving DecidableEq, Repr

def EvaluationError.message : EvaluationError → String
  | notImplemented operation directions =>
    s!"{operation} does not implement the derivative {directions}"
  | missingAlong directions => s!"The derivative {directions} needs an `along` argument"
  | alongShapeMismatch (rows, cols) (foundRows, foundCols) =>
    s!"Expected `along` argument of shape {rows}x{cols}, found {foundRows}x{foundCols}"
  | unknownBlock block => s!"No leaf owns {block}"
  | ambiguousBlock block =>
    s!"Several leaves own {block}, cannot borrow its coefficients mutably"
  | coefficientIndexOutOfRange block index len =>
    s!"Coefficient index {index} out of range for {block} with {len} coefficients"
  | spatialIndexOutOfRange direction gridDim =>
    s!"Spatial direction {direction} out of range for grid dimension {gridDim}"
  | missingGeometry => "Grid element derivatives require an element geometry"
  | nonSquareJacobian rows cols => s!"Element Jacobian of shape {rows}x{cols} is not square"
  | singularJacobian => "Element Jacobian is singular"
  | basisNotBound => "Basis is not bound to a quadrature rule"
  | missingBasisOrder order => s!"Basis was not bound with derivative order {order}"
  | unsupportedBasisOrder order => s!"Basis derivatives of order {order} cannot be cached"
  | positionDimensionMismatch expected found =>
    s!"Evaluation position has dimension {found}, expected {expected}"
  | integrationPointOutOfRange index len =>
    s!"Integration point {index} out of range for rule with {len} points"
  | correctionSizeMismatch expected found => s!"Correction has length {found}, expected {expected}"

inductive AssemblyError where
  | sizeMismatch (operation : String) (left right : Nat)
  | nonScalarOperand (operation : String) (valueSize : Nat)
  | nonlinearStrainInput
  | strainDimensionMismatch (valueSize gridDim : Nat)
  | strainWithoutLeaf
  | nonConstantScaling
  | unknownNode (id : Nat)
  | gridDimensionMismatch (expected found : Nat)
  /-- Leaves of one block have corrections of different sizes. -/
  | inconsistentBlock (block : BlockId) (first second : Nat)
deriving DecidableEq, Repr

def AssemblyError.message : AssemblyError → String
  | sizeMismatch operation left right =>
    s!"Operands of {operation} have incompatible value sizes {left} and {right}"
  | nonScalarOperand operation valueSize =>
    s!"{operation} requires a scalar operand, but the operand has value size {valueSize}"
  | nonlinearStrainInput =>
    "Green-Lagrange strains require a displacement which is linear in its coefficients"
  | strainDimensionMismatch valueSize gridDim =>
    "Green-Lagrange strains require a displacement with one component per grid dimension " ++
      s!"(1 to 3), but the value size is {valueSize} and the grid dimension is {gridDim}"
  | strainWithoutLeaf => "Green-Lagrange strain node has no leaf below it"
  | nonConstantScaling => "Can only scale by a constant node"
  | unknownNode id => s!"Node {id} does not belong to this expression"
  | gridDimensionMismatch expected found =>
    s!"Leaf lives on a {found}-dimensional reference element, expected dimension {expected}"
  | inconsistentBlock block first second =>
    s!"Leaves of {block} disagree on the correction size ({first} vs. {second})"

/-- How an evaluation fails: it is refused, or its operands break a size contract. -/
inductive Failure where
  | refused (e : EvaluationError)
  | broken (v : Violation)
deriving DecidableEq, Repr

abbrev Outcome := Except Failure

def Outcome.refuse {α : Type} (e : EvaluationError) : Outcome α := .error (.refused e)

def Outcome.ofChecked {α : Type} : Checked α → Outcome α
  | .ok a => .ok a
  | .error v => .error (.broken v)

instance : MonadLift Checked Outcome where
  monadLift := Outcome.ofChecked

def Outcome.ofOption {α : Type} (e : EvaluationError) : Option α → Outcome α
  | some a => .ok a
  | none => refuse e

end ElementFields
