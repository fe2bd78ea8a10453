import ElementFields.Linear.Mat

namespace ElementFields

variable {K : Type} [Scalar K]

abbrev Scratch (K : Type) := StateT (Vec K) Checked

def Vec.put (x : Vec K) (i : Nat) (a : K) : Vec K := x.setIfInBounds i a

def evalShifted {α : Type} (f : Vec K → Checked α) (i : Nat) (t : K) : Scratch K α := do
  let a := (← get).entry i
  modify fun x => x.put i (a + t)
  let value ← f (← get)
  modify fun x => x.put i a
  return value

/-- Afterwards the scratch vector is what it was. -/
theorem run_evalShifted {α : Type} {f : Vec K → Checked α} {i : Nat} {t : K} {x : Vec K}
    (h : i < x.size) :
    (evalShifted f i t).run x = do return (← f (x.put i (x.entry i + t)), x) := by
  have hput : ∀ a, Vec.put (x.put i a) i (x.entry i) = x := by
    intro a
    have hx : x.entry i = x[i] := by simp [Vec.entry, Array.getD, h]
    rw [hx]
    apply Array.ext
    · simp [Vec.put]
    · intro j hj hj'
      simp only [Vec.put, Array.setIfInBounds_setIfInBounds]
      rw [Array.getElem_setIfInBounds hj']
      split
      · subst i
        rfl
      · rfl
  cases hf : f (x.put i (x.entry i + t)) with
  | ok value =>
    simp only [evalShifted, StateT.run_bind, StateT.run_get, StateT.run_modify, pure_bind,
      StateT.run_pure, hf]
    exact congrArg (fun y => Except.ok (value, y)) (hput _)
  | error v =>
    simp only [evalShifted, StateT.run_bind, StateT.run_get, StateT.run_modify, pure_bind, hf]
    rfl

abbrev GradientScheme (K : Type) := (Vec K → Checked K) → K → Scratch K (Vec K)

abbrev JacobianScheme (K : Type) := Nat → (Vec K → Checked (Vec K)) → K → Scratch K (Mat K)

def gradientByDifferences : GradientScheme K := fun f h => do
  let n := (← get).size
  let components ← (List.range n).mapM fun i => do
    let ahead ← evalShifted f i h
    let behind ← evalShifted f i (-h)
    return (ahead - behind) / ((2 : Nat) * h)
  return components.toArray

def jacobianByDifferences : JacobianScheme K := fun m f h => do
  let n := (← get).size
  let columns ← (List.range n).mapM fun j => do
    let ahead ← evalShifted f j h
    let behind ← evalShifted f j (-h)
    return Vec.ofFn m fun i => (ahead.entry i - behind.entry i) / ((2 : Nat) * h)
  return Mat.ofFn m n fun i j => (columns.getD j #[]).entry i

/-- The Hessian, as the Jacobian of the gradient. The gradient at a point is taken on a copy of the
point. -/
def hessianBy (gradient : GradientScheme K) (jacobian : JacobianScheme K) (f : Vec K → Checked K)
    (h : K) : Scratch K (Mat K) := do
  let n := (← get).size
  jacobian n (fun x => (gradient f h).run' x) h

def hessianByDifferences (f : Vec K → Checked K) (h : K) : Scratch K (Mat K) :=
  hessianBy gradientByDifferences jacobianByDifferences f h

end ElementFields
