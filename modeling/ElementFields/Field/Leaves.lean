import ElementFields.Field.Basic

namespace ElementFields

namespace ElementField

variable {K : Type} [Scalar K]

def bindSlots (rule : QuadratureRule K) (orders : List Nat) :
    List Nat → Array (Leaf K) → Array (Leaf K) × Outcome Unit
  | [], leaves => (leaves, .ok ())
  | slot :: rest, leaves =>
    match leaves[slot]? with
    | none => (leaves, .error (.broken .misfit))
    | some l =>
      match l.bind rule orders with
      | (l, .ok ()) => bindSlots rule orders rest (leaves.setIfInBounds slot l)
      -- A leaf that fails may have changed before.
      | (l, .error e) => (leaves.setIfInBounds slot l, .error e)

/-- Binds every leaf to a rule. Returns the field reached and whether the binding succeeded; leaves
that were bound before a failure stay bound. -/
def bind (f : ElementField K) (rule : QuadratureRule K) (orders : List Nat) :
    ElementField K × Outcome Unit :=
  let (leaves, result) := bindSlots rule orders f.slots f.leaves
  ({ f with leaves }, result)

def boundAlike : List (Leaf K) → Bool
  | l :: m :: rest => l.shapes.isBoundLike m.shapes && boundAlike (m :: rest)
  | _ => true

/-- The integration points of the first leaf that owns a block. All leaves have to be bound alike.
-/
def integrationPoints (f : ElementField K) (block : BlockId) :
    Outcome (List (IntegrationPoint K)) := do
  if boundAlike f.reachableLeaves then
    let l ← .ofOption (.unknownBlock block) (f.leaf? block)
    l.shapes.integrationPoints
  else .error (.broken .sharedRule)

def soleOwner (f : ElementField K) (block : BlockId) : Outcome (Nat × Leaf K) :=
  match f.slots.filterMap fun slot =>
    (f.leaves[slot]?).bind fun l => if l.block = block then some (slot, l) else none with
  | [] => .refuse (.unknownBlock block)
  | [owner] => .ok owner
  | _ => .refuse (.ambiguousBlock block)

def modifyCoefficients (f : ElementField K) (block : BlockId)
    (change : Leaf K → Checked (Leaf K)) : Outcome (ElementField K) := do
  let (slot, l) ← f.soleOwner block
  return { f with leaves := f.leaves.setIfInBounds slot (← change l) }

def changeOwner (block : BlockId) (change : Leaf K → Checked (Leaf K)) (leaves : Array (Leaf K))
    (slot : Nat) : Checked (Array (Leaf K)) :=
  match leaves[slot]? with
  | none => .ok leaves
  | some l =>
    if l.block = block then do return leaves.setIfInBounds slot (← change l) else .ok leaves

/-- Applies a change that takes a correction of length `found` to every owner of a block. The length
has to suit all of them before any is changed. -/
def correctOwners (f : ElementField K) (block : BlockId) (found : Nat) (expected : Leaf K → Nat)
    (change : Leaf K → Checked (Leaf K)) : Outcome (ElementField K) := do
  if (f.owners block).isEmpty then .refuse (.unknownBlock block)
  (f.owners block).forM fun l =>
    unless expected l = found do .refuse (.correctionSizeMismatch (expected l) found)
  let leaves ← Outcome.ofChecked (f.slots.foldlM (changeOwner block change) f.leaves)
  return { f with leaves }

def addToCoefficients (f : ElementField K) (block : BlockId) (d : Vec K) :
    Outcome (ElementField K) :=
  f.correctOwners block d.size (fun l => l.numCoefficients * l.correctionSize) (·.update d)

def addInEmbedding (f : ElementField K) (block : BlockId) (d : Vec K) : Outcome (ElementField K) :=
  f.correctOwners block d.size (fun l => l.numCoefficients * l.valueSize) (·.addInEmbedding d)

end ElementField

end ElementFields
