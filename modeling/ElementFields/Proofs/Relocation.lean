import ElementFields.Proofs.Sharing

namespace ElementFields

variable {K : Type}

/-- The leaves in the given slots of the first array stand in the second one in other slots, each in a
slot of its own. -/
structure Moved (ψ : ℕ → ℕ) (slots : List ℕ) (leaves leaves' : Array (Leaf K)) : Prop where
  inj : ∀ s ∈ slots, ∀ t ∈ slots, ψ s = ψ t → s = t
  get : ∀ s ∈ slots, leaves'[ψ s]? = leaves[s]?

namespace Moved

variable {ψ : ℕ → ℕ} {slots rest : List ℕ} {leaves leaves' : Array (Leaf K)}

theorem leavesIn_eq (h : Moved ψ slots leaves leaves') :
    leavesIn leaves' (slots.map ψ) = leavesIn leaves slots := by
  rw [leavesIn, leavesIn, List.filterMap_map]
  apply List.filterMap_congr
  exact h.get

/-- A leaf may be written on both sides. -/
theorem set (h : Moved ψ slots leaves leaves') {slot : ℕ} (hs : slot ∈ slots) (l : Leaf K) :
    Moved ψ slots (leaves.setIfInBounds slot l) (leaves'.setIfInBounds (ψ slot) l) := by
  refine ⟨h.inj, fun s hs' => ?_⟩
  by_cases heq : slot = s
  · subst heq
    have hnone : leaves'.size ≤ ψ slot ↔ leaves.size ≤ slot := by
      rw [← Array.getElem?_eq_none_iff, ← Array.getElem?_eq_none_iff, h.get slot hs']
    have hsize : ψ slot < leaves'.size ↔ slot < leaves.size := by omega
    simp only [Array.getElem?_setIfInBounds_self, hsize]
  · have hne : ψ slot ≠ ψ s := fun h' => heq (h.inj slot hs s hs' h')
    rw [Array.getElem?_setIfInBounds_ne heq, Array.getElem?_setIfInBounds_ne hne]
    exact h.get s hs'

variable [Scalar K]

/-- Binding takes the same course on both sides. -/
theorem bindSlots (h : Moved ψ slots leaves leaves') (hrest : ∀ s ∈ rest, s ∈ slots)
    (rule : QuadratureRule K) (orders : List ℕ) :
    (ElementField.bindSlots rule orders (rest.map ψ) leaves').2 =
        (ElementField.bindSlots rule orders rest leaves).2 ∧
      Moved ψ slots (ElementField.bindSlots rule orders rest leaves).1
        (ElementField.bindSlots rule orders (rest.map ψ) leaves').1 := by
  induction rest generalizing leaves leaves' with
  | nil => exact ⟨rfl, h⟩
  | cons slot rest ih =>
    have hslot := hrest slot List.mem_cons_self
    rw [List.map_cons, ElementField.bindSlots, ElementField.bindSlots, h.get slot hslot]
    cases leaves[slot]? with
    | none => exact ⟨rfl, h⟩
    | some l =>
      dsimp only
      rcases l.bind rule orders with ⟨l', e | u⟩
      · exact ⟨rfl, h.set hslot l'⟩
      · exact ih (h.set hslot l') fun s hs => hrest s (List.mem_cons_of_mem slot hs)

omit [Scalar K] in
theorem writeOwners (h : Moved ψ slots leaves leaves') (hrest : ∀ s ∈ rest, s ∈ slots)
    (block : BlockId) (change : Leaf K → Checked (Leaf K)) :
    (ElementField.writeOwners block change (rest.map ψ) leaves').2 =
        (ElementField.writeOwners block change rest leaves).2 ∧
      Moved ψ slots (ElementField.writeOwners block change rest leaves).1
        (ElementField.writeOwners block change (rest.map ψ) leaves').1 := by
  induction rest generalizing leaves leaves' with
  | nil => exact ⟨rfl, h⟩
  | cons slot rest ih =>
    have hslot := hrest slot List.mem_cons_self
    have hrest : ∀ s ∈ rest, s ∈ slots := fun s hs => hrest s (List.mem_cons_of_mem slot hs)
    rw [List.map_cons, ElementField.writeOwners, ElementField.writeOwners,
      ElementField.changeOwner, ElementField.changeOwner, h.get slot hslot]
    cases leaves[slot]? with
    | none => exact ih h hrest
    | some l =>
      dsimp only
      by_cases hb : l.block = block
      · rw [if_pos hb, if_pos hb]
        cases change l with
        | error v => exact ⟨rfl, h⟩
        | ok l' => exact ih (h.set hslot l') hrest
      · rw [if_neg hb, if_neg hb]
        exact ih h hrest

end Moved

def Expr.relocated (ψ : ℕ → ℕ) : Expr K → Expr K
  | leaf slot signature => leaf (ψ slot) signature
  | constant x => constant x
  | unary op a => unary op (a.relocated ψ)
  | binary op a b => binary op (a.relocated ψ) (b.relocated ψ)

theorem Expr.slots_relocated (ψ : ℕ → ℕ) (e : Expr K) : (e.relocated ψ).slots = e.slots.map ψ := by
  induction e with
  | leaf slot signature => rfl
  | constant x => rfl
  | unary op a ih => exact ih
  | binary op a b iha ihb => rw [Expr.relocated, Expr.slots, Expr.slots, iha, ihb, List.map_append]

theorem Expr.copies_relocated {ψ : ℕ → ℕ} {leaves leaves' : Array (Leaf K)} {e : Expr K}
    (h : ∀ slot ∈ e.slots, leaves'[ψ slot]? = leaves[slot]?) :
    e.Copies leaves leaves' (e.relocated ψ) := by
  induction e with
  | leaf slot signature => exact .leaf ⟨ψ slot, rfl, h slot List.mem_cons_self⟩
  | constant x => exact .constant x
  | unary op a ih => exact .unary op (ih h)
  | binary op a b iha ihb =>
    exact .binary op (iha fun slot hs => h slot (List.mem_append_left _ hs))
      (ihb fun slot hs => h slot (List.mem_append_right _ hs))

namespace ElementField

structure Relocated (ψ : ℕ → ℕ) (f f' : ElementField K) : Prop where
  expr : f'.expr = f.expr.relocated ψ
  slots : f'.slots = f.slots.map ψ
  blocks : f'.blocks = f.blocks
  moved : Moved ψ f.slots f.leaves f'.leaves

variable [Scalar K]

/-- Two fields have the same leaves, and whatever is asked of them or done to them next has the same
outcome. -/
structure AnswersAs (f f' : ElementField K) : Prop where
  leaves : f'.reachableLeaves = f.reachableLeaves
  value : ∀ site, f'.evaluate site = f.evaluate site
  derivative : ∀ r, f'.evaluateRequest r = f.evaluateRequest r
  bind : ∀ rule orders, (f'.bind rule orders).2 = (f.bind rule orders).2
  integrationPoints : ∀ block, f'.integrationPoints block = f.integrationPoints block
  correct : ∀ κ block d, (f'.correctInPlace κ block d).2 = (f.correctInPlace κ block d).2

def performAll (f : ElementField K) (operations : List (Operation K)) : ElementField K :=
  operations.foldl (fun g operation => (g.perform operation).1) f

theorem Built.perform {f : ElementField K} (h : f.Built) (operation : Operation K) :
    (f.perform operation).1.Built := by
  cases operation with
  | bind rule orders => exact h.bind rule orders
  | evaluate site => exact h
  | request r => exact h
  | correct κ block d =>
    show (f.correctInPlace κ block d).1.Built
    cases hcheck : f.checkOwners block d.size κ.expected with
    | error e =>
      rw [correctInPlace, hcheck]
      exact h
    | ok u =>
      obtain ⟨g, hcorrect, hplace, -⟩ := h.exists_correct hcheck
      rw [hplace]
      cases κ with
      | tangent => exact h.update hcorrect
      | embedding => exact h.embed hcorrect

variable {ψ : ℕ → ℕ} {f f' : ElementField K}

namespace Relocated

variable (h : f.Relocated ψ f')
include h

omit [Scalar K] in
theorem reachableLeaves_eq : f'.reachableLeaves = f.reachableLeaves := by
  rw [reachableLeaves, reachableLeaves, h.slots, h.moved.leavesIn_eq]

omit [Scalar K] in
theorem owners_eq (block : BlockId) : f'.owners block = f.owners block := by
  rw [owners, owners, h.reachableLeaves_eq]

omit [Scalar K] in
theorem checkOwners_eq (block : BlockId) (found : ℕ) (expected : Leaf K → ℕ) :
    f'.checkOwners block found expected = f.checkOwners block found expected := by
  simp only [checkOwners, h.owners_eq]

theorem mirrors (hf : f.Built) (hf' : f'.Built) : f.Mirrors f' where
  built := hf
  built' := hf'
  copies := by
    rw [h.expr]
    exact Expr.copies_relocated fun slot hs => h.moved.get slot (hf.mem_slots_iff.2 hs)
  blocks := h.blocks

theorem bind (rule : QuadratureRule K) (orders : List ℕ) :
    (f'.bind rule orders).2 = (f.bind rule orders).2 ∧
      (f.bind rule orders).1.Relocated ψ (f'.bind rule orders).1 := by
  obtain ⟨houtcome, hmoved⟩ := h.moved.bindSlots (fun _ hs => hs) rule orders
  rw [← h.slots] at houtcome hmoved
  exact ⟨houtcome, h.expr, h.slots, h.blocks, hmoved⟩

theorem correct (κ : Motion) (block : BlockId) (d : Vec K) :
    (f'.correctInPlace κ block d).2 = (f.correctInPlace κ block d).2 ∧
      (f.correctInPlace κ block d).1.Relocated ψ (f'.correctInPlace κ block d).1 := by
  rw [correctInPlace, correctInPlace, h.checkOwners_eq]
  cases f.checkOwners block d.size κ.expected with
  | error e => exact ⟨rfl, h⟩
  | ok u =>
    obtain ⟨houtcome, hmoved⟩ := h.moved.writeOwners (fun _ hs => hs) block (κ.change d)
    rw [← h.slots] at houtcome hmoved
    exact ⟨houtcome, h.expr, h.slots, h.blocks, hmoved⟩

/-- One operation. -/
theorem perform (operation : Operation K) :
    (f.perform operation).1.Relocated ψ (f'.perform operation).1 := by
  cases operation with
  | bind rule orders => exact (h.bind rule orders).2
  | correct κ block d => exact (h.correct κ block d).2
  | evaluate site => exact h
  | request r => exact h

theorem answersAs (hf : f.Built) (hf' : f'.Built) : f.AnswersAs f' where
  leaves := h.reachableLeaves_eq
  value := (h.mirrors hf hf').evaluate_eq
  derivative := (h.mirrors hf hf').evaluateRequest_eq
  bind rule orders := (h.bind rule orders).1
  integrationPoints block := by
    simp only [integrationPoints, leaf?, h.reachableLeaves_eq, h.owners_eq]
  correct κ block d := (h.correct κ block d).1

/-- All operations. -/
theorem performAll (hf : f.Built) (hf' : f'.Built) (operations : List (Operation K)) :
    (f.performAll operations).AnswersAs (f'.performAll operations) := by
  induction operations generalizing f f' with
  | nil => exact h.answersAs hf hf'
  | cons operation rest ih =>
    exact ih (h.perform operation) (hf.perform operation) (hf'.perform operation)

end Relocated

end ElementField

end ElementFields
