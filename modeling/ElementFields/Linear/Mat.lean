import ElementFields.Linear.Vec

namespace ElementFields

open Scalar

/-- A matrix with `rows` times `cols` entries, listed column by column. -/
structure Mat (K : Type) where
  rows : Nat
  cols : Nat
  /-- The entries, one column after the other. -/
  entries : Array K
  size_entries : entries.size = rows * cols

namespace Mat

variable {K : Type}

def ofFn (rows cols : Nat) (f : Nat → Nat → K) : Mat K where
  rows := rows
  cols := cols
  entries := Array.ofFn fun k : Fin (rows * cols) => f (k % rows) (k / rows)
  size_entries := by simp

@[simp] theorem rows_ofFn (rows cols : Nat) (f : Nat → Nat → K) :
    (ofFn rows cols f).rows = rows := rfl

@[simp] theorem cols_ofFn (rows cols : Nat) (f : Nat → Nat → K) :
    (ofFn rows cols f).cols = cols := rfl

def shape (m : Mat K) : Nat × Nat := (m.rows, m.cols)

def flatten (m : Mat K) : Vec K := m.entries

variable [Scalar K]

/-- The entry in row `i` and column `j`, or zero outside the shape. -/
def entry (m : Mat K) (i j : Nat) : K :=
  if i < m.rows ∧ j < m.cols then m.entries.getD (i + m.rows * j) 0 else 0

theorem index_lt {rows cols i j : Nat} (hi : i < rows) (hj : j < cols) :
    i + rows * j < rows * cols :=
  calc i + rows * j < rows * 1 + rows * j := by omega
    _ = rows * (1 + j) := (Nat.mul_add rows 1 j).symm
    _ ≤ rows * cols := Nat.mul_le_mul_left rows (by omega)

@[simp] theorem entry_ofFn {rows cols i j : Nat} (f : Nat → Nat → K) (hi : i < rows)
    (hj : j < cols) : (ofFn rows cols f).entry i j = f i j := by
  have hk := index_lt hi hj
  have hm : (i + rows * j) % rows = i := by
    rw [Nat.add_mul_mod_self_left, Nat.mod_eq_of_lt hi]
  have hd : (i + rows * j) / rows = j := by
    rw [Nat.add_mul_div_left i j (by omega), Nat.div_eq_of_lt hi, Nat.zero_add]
  simp [entry, ofFn, Array.getD, hi, hj, hk, hm, hd]

theorem entry_outside {m : Mat K} {i j : Nat} (h : ¬(i < m.rows ∧ j < m.cols)) :
    m.entry i j = 0 := by
  simp [entry, h]

theorem ext_entry {a b : Mat K} (hr : a.rows = b.rows) (hc : a.cols = b.cols)
    (h : ∀ i j, i < a.rows → j < a.cols → a.entry i j = b.entry i j) : a = b := by
  obtain ⟨r, c, ea, sa⟩ := a
  obtain ⟨r', c', eb, sb⟩ := b
  simp only at hr hc
  subst hr hc
  have he : ea = eb := by
    apply Array.ext (by rw [sa, sb])
    intro k hka hkb
    have hk : k < r * c := by omega
    have hr : 0 < r := Nat.pos_of_ne_zero fun h0 => by simp [h0] at hk
    have hi : k % r < r := Nat.mod_lt k hr
    have hj : k / r < c := Nat.div_lt_of_lt_mul hk
    have hkk : k % r + r * (k / r) = k := Nat.mod_add_div k r
    have := h (k % r) (k / r) hi hj
    simpa [entry, Array.getD, hi, hj, hkk, hka, hkb] using this
  subst he
  rfl

def zero (rows cols : Nat) : Mat K := ofFn rows cols fun _ _ => 0

def identity (n : Nat) : Mat K := ofFn n n delta

def scalar (x : K) : Mat K := ofFn 1 1 fun _ _ => x

def column (v : Vec K) : Mat K := ofFn v.size 1 fun i _ => v.entry i

def scale (m : Mat K) (s : K) : Mat K := ofFn m.rows m.cols fun i j => m.entry i j * s

def transpose (m : Mat K) : Mat K := ofFn m.cols m.rows fun i j => m.entry j i

/-- The identity times `s`. Off the diagonal stand the products of zero and `s`. -/
def scaledIdentity (n : Nat) (s : K) : Mat K := (identity n).scale s

def columnVec (m : Mat K) (j : Nat) : Vec K := .ofFn m.rows fun i => m.entry i j

def columnAt (m : Mat K) (j : Nat) : Checked (Vec K) :=
  .require (j < m.cols) .misfit (m.columnVec j)

def singleColumn (m : Mat K) : Checked (Vec K) := .require (m.cols = 1) .singleColumn m.flatten

def entryAt (m : Mat K) (i j : Nat) : Checked K :=
  .require (i < m.rows ∧ j < m.cols) .misfit (m.entry i j)

def ofShape (m : Mat K) (shape : Nat × Nat) : Checked (Mat K) :=
  .require (m.shape = shape) .matrixShape m

def add (a b : Mat K) : Checked (Mat K) :=
  .require (a.shape = b.shape) .misfit (ofFn a.rows a.cols fun i j => a.entry i j + b.entry i j)

def mul (a b : Mat K) : Checked (Mat K) :=
  .require (a.cols = b.rows) .misfit
    (ofFn a.rows b.cols fun i j => sumTo a.cols fun k => a.entry i k * b.entry k j)

def transposeMul (a b : Mat K) : Checked (Mat K) :=
  .require (a.rows = b.rows) .misfit
    (ofFn a.cols b.cols fun i j => sumTo a.rows fun k => a.entry k i * b.entry k j)

def mulVec (a : Mat K) (v : Vec K) : Checked (Vec K) :=
  .require (a.cols = v.size) .misfit
    (.ofFn a.rows fun i => sumTo a.cols fun k => a.entry i k * v.entry k)

def dot (a b : Mat K) : Checked K :=
  .require (a.shape = b.shape) .misfit
    (sumTo a.cols fun j => sumTo a.rows fun i => a.entry i j * b.entry i j)

def outer (a b : Mat K) : Checked (Mat K) := a.mul b.transpose

instance : BEq (Mat K) where
  beq a b := a.rows == b.rows && a.cols == b.cols && a.entries == b.entries

end Mat

end ElementFields
