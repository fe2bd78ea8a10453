import ElementFields.Expression.Chain
import ElementFields.Expression.Product
import ElementFields.Expression.Strain
import ElementFields.Field.Basic

namespace ElementFields

open Scalar

namespace ElementField

variable {K : Type} [Scalar K]

def validate (f : ElementField K) (r : Request K) : Outcome Unit := do
  match r.directions.spatial with
  | some (.single k) =>
    if f.gridDim ≤ k then .refuse (.spatialIndexOutOfRange k f.gridDim)
  | _ => pure ()
  r.directions.coefficientList.forM fun c => do
    let info ← f.blockInfo c.block
    if info.numCoefficients ≤ c.index then
      .refuse (.coefficientIndexOutOfRange c.block c.index info.numCoefficients)
  match r.directions.coefficients with
  | .two _ _ =>
    let along ← r.requireAlong
    -- One column for each direction in space.
    let cols := if r.directions.spatial = some .all then f.gridDim else 1
    unless along.shape = (f.valueSize, cols) do
      .refuse (.alongShapeMismatch (f.valueSize, cols) along.shape)
  | _ => pure ()

def correctionSize (f : ElementField K) (block : BlockId) : Outcome Nat := do
  return (← f.blockInfo block).correctionSize

def zeroDerivative (f : ElementField K) (rows : Nat) (d : Directions) : Outcome (Derivative K) :=
  match d.spatial, d.coefficients with
  | none, .none | some (.single _), .none => .ok (.matrix (.zero rows 1))
  | some .all, .none => .ok (.matrix (.zero rows f.gridDim))
  | none, .single c | some (.single _), .single c => do
    return .matrix (.zero rows (← f.correctionSize c.block))
  | some .all, .single c => do
    return .perDirection (List.replicate f.gridDim (.zero rows (← f.correctionSize c.block)))
  -- The contraction has removed the components and the axes.
  | _, .two c₁ c₂ => do
    return .matrix (.zero (← f.correctionSize c₁.block) (← f.correctionSize c₂.block))

def leafIn (f : ElementField K) (slot : Nat) : Outcome (Leaf K) :=
  match f.leaves[slot]? with
  | some l => .ok l
  | none => .error (.broken .misfit)

def leafValue (f : ElementField K) (slot : Nat) (site : Site K) : Outcome (Mat K) := do
  let l ← f.leafIn slot
  return .column (← l.primitives.value l.toLeafData site)

/-- The derivative of a leaf: the primitive for the directions, or zero if a coefficient belongs to
another block. -/
def leafDerivative (f : ElementField K) (slot : Nat) (r : Request K) : Outcome (Derivative K) := do
  let l ← f.leafIn slot
  let p := l.primitives
  let data := l.toLeafData
  let d := r.directions
  if d.coefficientList.any fun c => c.block ≠ l.block then f.zeroDerivative l.valueSize d
  else match d.spatial, d.coefficients with
    | none, .none => return .matrix (.column (← p.value data r.site))
    | some (.single k), .none => return .matrix (.column (← p.axis data r.site k))
    | some .all, .none => return .matrix (← p.gradient data r.site)
    | none, .single c => return .matrix (← p.coefficient data r.site c.index)
    | some (.single k), .single c => return .matrix (← p.coefficientAxis data r.site c.index k)
    | some .all, .single c => return .perDirection (← p.coefficientGradient data r.site c.index)
    | none, .two c₁ c₂ =>
      return .matrix (← p.second data r.site c₁.index c₂.index (← r.requireAlong))
    | some (.single k), .two c₁ c₂ =>
      return .matrix (← p.thirdAxis data r.site c₁.index c₂.index k (← r.requireAlong))
    | some .all, .two c₁ c₂ =>
      return .matrix (← p.thirdGradient data r.site c₁.index c₂.index (← r.requireAlong))

/-- The tangents of the reference configuration of a displacement with the given leaves, as columns:
the unit vectors in world coordinates, and in reference coordinates the derivatives of the geometry of
the first leaf. There every leaf needs a geometry. -/
def tangentsOver (f : ElementField K) (leaves : List (Leaf K)) (site : Site K) : Outcome (Mat K) :=
  match site.transform with
  | .gridElement => .ok (.identity f.gridDim)
  | .referenceElement => do
    if leaves.any fun l => l.geometry.isNone then .refuse .missingGeometry
    else match leaves with
      | [] => .refuse .missingGeometry
      | l :: _ =>
        let geometry ← .ofOption .missingGeometry l.geometry
        let ξ ← l.shapes.position site.point
        let jacobian ← geometry.jacobianTransposed ξ
        if jacobian.shape = (f.gridDim, f.gridDim) then return jacobian.transpose
        else .refuse (.nonSquareJacobian jacobian.rows jacobian.cols)

def referenceTangents (f : ElementField K) (displacement : Expr K) (site : Site K) :
    Outcome (Mat K) :=
  f.tangentsOver (leavesIn f.leaves displacement.slots) site

def skipping (f : ElementField K) (rows : Nat) (skip : Directions → Bool)
    (value : Site K → Outcome (Mat K)) (derivative : Request K → Outcome (Derivative K)) :
    Operand K where
  value := value
  derivative r :=
    -- A value is never skipped, whatever `skip` says.
    if r.directions = .value then do return .matrix (← value r.site)
    else if skip r.directions then f.zeroDerivative rows r.directions
    else derivative r

def unaryValue (f : ElementField K) (op : UnaryOp K) (tangents : Site K → Outcome (Mat K))
    (a : Operand K) (site : Site K) : Outcome (Mat K) :=
  match op with
  | .negate => do return (← a.value site).scale (-1)
  | .scale factor => do return (← a.value site).scale factor
  | .map g => Chain.value g a site
  | .strain => Strain.value f.gridDim tangents a site

def unaryDerivative (f : ElementField K) (op : UnaryOp K) (tangents : Site K → Outcome (Mat K))
    (a : Operand K) (r : Request K) : Outcome (Derivative K) :=
  match op with
  | .negate => do return (← a.derivative r).negate
  | .scale factor => do return (← a.derivative r).scale factor
  | .map g => Chain.derivative g a r
  | .strain => Strain.derivative f.gridDim tangents a r

def binaryValue (op : BinaryOp) (a b : Operand K) (site : Site K) : Outcome (Mat K) :=
  match op with
  | .sum => do
    let x ← a.value site
    x.add (← b.value site)
  | .dot => Product.value a b site

def binaryDerivative (op : BinaryOp) (a b : Operand K) (r : Request K) : Outcome (Derivative K) :=
  match op with
  | .sum => do
    let x ← a.derivative r
    x.add (← b.derivative r)
  | .dot => Product.derivative a b r

/-- The operand that an expression stands for, with the derivatives that `skip` names answered by
zero. -/
def operandWith (f : ElementField K) (skip : Expr K → Directions → Bool) : Expr K → Operand K
  | e@(.leaf slot _) =>
    f.skipping e.valueSize (skip e) (f.leafValue slot) (f.leafDerivative slot)
  | e@(.constant x) =>
    f.skipping e.valueSize (skip e) (fun _ => .ok (.scalar x)) fun r =>
      f.zeroDerivative 1 r.directions
  | e@(.unary op a) =>
    -- The operand of a part is made when it is asked, not ahead for the whole tree.
    f.skipping e.valueSize (skip e)
      (fun site => f.unaryValue op (f.referenceTangents a) (f.operandWith skip a) site) fun r =>
      f.unaryDerivative op (f.referenceTangents a) (f.operandWith skip a) r
  | e@(.binary op a b) =>
    f.skipping e.valueSize (skip e)
      (fun site => binaryValue op (f.operandWith skip a) (f.operandWith skip b) site) fun r =>
      binaryDerivative op (f.operandWith skip a) (f.operandWith skip b) r

def operand (f : ElementField K) : Expr K → Operand K := f.operandWith Expr.annihilated

def evaluate (f : ElementField K) (site : Site K) : Outcome (Vec K) := do
  (← (f.operand f.expr).value site).singleColumn

def evaluateRequest (f : ElementField K) (r : Request K) : Outcome (Derivative K) := do
  f.validate r
  (f.operand f.expr).derivative r

end ElementField

end ElementFields
