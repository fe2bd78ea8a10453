import ElementFields.Expression.Builder

namespace ElementFields

structure BlockInfo where
  block : BlockId
  correctionSize : Nat
  /-- The smallest number of coefficients among the leaves of the block. -/
  numCoefficients : Nat
deriving DecidableEq, Repr

structure ElementField (K : Type) where
  leaves : Array (Leaf K)
  nodes : Array (Node K)
  /-- The place of the root among the nodes. -/
  root : Nat
  /-- The root with the expression it stands for. -/
  top : Entry K
  /-- The slots of the leaves below the root, in increasing order. -/
  slots : List Nat
  /-- The blocks of these leaves, in increasing order. -/
  blocks : List BlockInfo

namespace BlockInfo

/-- The blocks with one more leaf, which has to agree with the leaves of its block on the size of a
correction. -/
def register {K : Type} (infos : List BlockInfo) (l : Leaf K) :
    Except AssemblyError (List BlockInfo) :=
  match infos with
  | [] =>
    .ok [{
      block := l.block
      correctionSize := l.correctionSize
      numCoefficients := l.numCoefficients }]
  | info :: rest =>
    if info.block = l.block then
      if info.correctionSize = l.correctionSize then
        .ok ({ info with numCoefficients := min info.numCoefficients l.numCoefficients } :: rest)
      else .error (.inconsistentBlock l.block info.correctionSize l.correctionSize)
    else do return info :: (← register rest l)

end BlockInfo

def leavesIn {K : Type} (leaves : Array (Leaf K)) (slots : List Nat) : List (Leaf K) :=
  slots.filterMap (leaves[·]?)

def Builder.build {K : Type} (b : Builder K) (root : Nat) : Except AssemblyError (ElementField K) :=
  match b.entries[root]? with
  | none => .error (.unknownNode root)
  | some top => do
    let slots := top.summary.slots.mergeSort
    let infos ← (leavesIn b.leaves slots).foldlM BlockInfo.register []
    return {
      leaves := b.leaves
      nodes := b.entries.map Entry.node
      root := root
      top := top
      slots := slots
      blocks := infos.mergeSort fun i j => i.block.index ≤ j.block.index }

namespace ElementField

variable {K : Type}

def expr (f : ElementField K) : Expr K := f.top.expr

def node? (f : ElementField K) (id : Nat) : Option (Node K) := f.nodes[id]?

def valueSize (f : ElementField K) : Nat := f.top.valueSize

def gridDim (f : ElementField K) : Nat := f.top.gridDim.getD 0

def orderIn (f : ElementField K) (block : BlockId) : PolynomialOrder := f.top.orderIn block

/-- The blocks the field depends on, in increasing order. -/
def ids (f : ElementField K) : List BlockId := f.blocks.map BlockInfo.block

def isLeaf (f : ElementField K) : Bool :=
  match f.expr with
  | .leaf _ _ => true
  | _ => false

def blockInfo (f : ElementField K) (block : BlockId) : Outcome BlockInfo :=
  .ofOption (.unknownBlock block) (f.blocks.find? fun info => info.block = block)

def reachableLeaves (f : ElementField K) : List (Leaf K) := leavesIn f.leaves f.slots

def owners (f : ElementField K) (block : BlockId) : List (Leaf K) :=
  f.reachableLeaves.filter fun l => l.block = block

def leaf? (f : ElementField K) (block : BlockId) : Option (Leaf K) := (f.owners block).head?

end ElementField

end ElementFields
