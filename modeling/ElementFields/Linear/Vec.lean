import ElementFields.Scalar
import ElementFields.Violation

namespace ElementFields

open Scalar

abbrev Vec (K : Type) := Array K

namespace Vec

variable {K : Type}

def ofFn (n : Nat) (f : Nat → K) : Vec K := Array.ofFn fun i : Fin n => f i

@[simp] theorem size_ofFn (n : Nat) (f : Nat → K) : (ofFn n f).size = n := by
  simp [ofFn]

variable [Scalar K]

/-- The component with index `i`, or zero beyond the end. -/
def entry (v : Vec K) (i : Nat) : K := v.getD i 0

@[simp] theorem entry_ofFn {n i : Nat} (f : Nat → K) (h : i < n) : entry (ofFn n f) i = f i := by
  simp [entry, ofFn, Array.getD, h]

theorem entry_of_size_le {v : Vec K} {i : Nat} (h : v.size ≤ i) : entry v i = 0 := by
  simp [entry, Array.getD, Nat.not_lt.2 h]

theorem ext_entry {u v : Vec K} (hs : u.size = v.size)
    (h : ∀ i, i < u.size → entry u i = entry v i) : u = v := by
  apply Array.ext hs
  intro i hu hv
  have he := h i hu
  simpa [entry, Array.getD, hu, hv] using he

def zero (n : Nat) : Vec K := ofFn n fun _ => 0

def inner (u v : Vec K) : K := sumTo u.size fun i => entry u i * entry v i

def dot (u v : Vec K) : Checked K := .require (u.size = v.size) .misfit (inner u v)

def norm (v : Vec K) : K := sqrt (inner v v)

def scale (v : Vec K) (s : K) : Vec K := ofFn v.size fun i => entry v i * s

def divide (v : Vec K) (s : K) : Vec K := ofFn v.size fun i => entry v i / s

/-- The sum by components, in the length of `u`. -/
def add (u v : Vec K) : Vec K := ofFn u.size fun i => entry u i + entry v i

def slice (v : Vec K) (start n : Nat) : Vec K := ofFn n fun i => entry v (start + i)

def component (v : Vec K) (i : Nat) : Checked K := .require (i < v.size) .misfit (entry v i)

def ofSize (v : Vec K) (n : Nat) : Checked (Vec K) := .require (v.size = n) .vectorLength v

end Vec

end ElementFields
