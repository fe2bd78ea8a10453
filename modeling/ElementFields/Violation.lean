namespace ElementFields

inductive Violation where
  /-- The sizes of operands differ, or an index lies outside. -/
  | misfit
  | vectorLength
  | matrixShape
  | singleColumn
  | blockRows
  | ruleLengths
  | ruleDimensions
  | nodeVertices
  | nodeColumns
  | nodeCoefficients
  | unitComponents
  | coordinateCount
  | realCorrection
  | tangentCorrection
  | embeddingCorrection
  | stackedTangent
  | stackedEmbedding
  | sharedRule
deriving DecidableEq, Repr

namespace Violation

/-- The text of the contract. A plain misfit has none. -/
def message? : Violation → Option String
  | misfit => none
  | vectorLength => some "Vector length must match fixed dimension."
  | matrixShape => some "Matrix shape must match fixed dimensions."
  | singleColumn => some "Matrix must have a single column."
  | blockRows => some "All blocks must have nrows rows."
  | ruleLengths => some "Number of weights and points must be equal."
  | ruleDimensions => some "All quadrature points must have the same dimension."
  | nodeVertices => some "Number of vertices must match number of nodes in basis."
  | nodeColumns => some "Need one column per node."
  | nodeCoefficients => some "Number of coefficients must match number of nodes in basis."
  | unitComponents => some "Unit vectors must have at least two components."
  | coordinateCount => some "Number of coordinates must match dimension."
  | realCorrection => some "Correction must have one entry per dimension."
  | tangentCorrection => some "Correction must have one entry per tangent direction."
  | embeddingCorrection => some "Correction must have one entry per embedding coordinate."
  | stackedTangent =>
    some "Correction must have one entry per tangent direction of every coefficient."
  | stackedEmbedding =>
    some "Correction must have one entry per embedding coordinate of every coefficient."
  | sharedRule => some "All leaves must be bound to the same quadrature rule."

end Violation

abbrev Checked := Except Violation

@[macro_inline] def Checked.require {α : Type} (contract : Prop) [Decidable contract]
    (v : Violation) (a : α) : Checked α :=
  if contract then .ok a else .error v

theorem Checked.require_eq_ok_iff {α : Type} {contract : Prop} [Decidable contract] {v : Violation}
    {a b : α} : Checked.require contract v a = .ok b ↔ contract ∧ a = b := by
  unfold Checked.require
  split <;> simp_all

end ElementFields
