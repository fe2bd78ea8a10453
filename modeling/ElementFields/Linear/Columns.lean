import ElementFields.Linear.Mat

namespace ElementFields

namespace Mat

variable {K : Type} [Scalar K]

def splitColumns (m : Mat K) : List (Mat K) :=
  (List.range m.cols).map fun j => ofFn m.rows 1 fun i _ => m.entry i j

def totalCols : List (Mat K) → Nat
  | [] => 0
  | m :: rest => m.cols + totalCols rest

def stackedEntry : List (Mat K) → Nat → Nat → K
  | [], _, _ => 0
  | m :: rest, i, j => if j < m.cols then m.entry i j else stackedEntry rest i (j - m.cols)

/-- The blocks side by side. Each of them must have `rows` rows. -/
def hstack (rows : Nat) (blocks : List (Mat K)) : Checked (Mat K) :=
  .require (∀ m ∈ blocks, m.rows = rows) .blockRows
    (ofFn rows (totalCols blocks) (stackedEntry blocks))

def ofRows (cols : Nat) (rows : List (Mat K)) : Checked (Mat K) :=
  .require (∀ m ∈ rows, m.shape = (1, cols)) .misfit
    (ofFn rows.length cols fun i j =>
      match rows[i]? with
      | some m => m.entry 0 j
      | none => 0)

/-- A column of a later block is found behind the columns of the block in front. -/
theorem stackedEntry_add (m : Mat K) (rest : List (Mat K)) (i j : Nat) :
    stackedEntry (m :: rest) i (m.cols + j) = stackedEntry rest i j := by
  have h : ¬m.cols + j < m.cols := by omega
  rw [stackedEntry, if_neg h, Nat.add_sub_cancel_left]

end Mat

end ElementFields
