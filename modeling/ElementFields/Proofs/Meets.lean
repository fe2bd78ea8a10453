import ElementFields.Proofs.Outcome

namespace ElementFields

variable {α β σ : Type}

/-- The computation succeeds, and its result has `P`. -/
def Yields (x : Checked α) (P : α → Prop) : Prop := ∃ a, x = .ok a ∧ P a

/-- The evaluation has a result with `P`, or it is refused for a reason in `E`. -/
def Meets (E : EvaluationError → Prop) (x : Outcome α) (P : α → Prop) : Prop :=
  match x with
  | .ok a => P a
  | .error (.refused e) => E e
  | .error (.broken _) => False

namespace Yields

variable {P : α → Prop} {Q : β → Prop}

theorem pure {a : α} (h : P a) : Yields (pure a) P := ⟨a, rfl, h⟩

theorem require {contract : Prop} [Decidable contract] {v : Violation} {a : α} (hc : contract)
    (h : P a) : Yields (Checked.require contract v a) P :=
  ⟨a, require_eq_ok.2 ⟨hc, rfl⟩, h⟩

theorem bind {x : Checked α} {f : α → Checked β} (hx : Yields x P)
    (hf : ∀ a, P a → Yields (f a) Q) : Yields (x >>= f) Q := by
  obtain ⟨a, rfl, ha⟩ := hx
  exact hf a ha

theorem mapM {f : α → Checked β} {l : List α} (h : ∀ a ∈ l, Yields (f a) Q) :
    Yields (l.mapM f) fun results => results.length = l.length ∧ ∀ b ∈ results, Q b := by
  obtain ⟨results, hr⟩ := exists_mapM fun a ha => (h a ha).imp fun b hb => hb.1
  obtain ⟨hl, he⟩ := mapM_eq_ok hr
  refine ⟨results, hr, hl, forall_mem_of_getElem? hl fun i hi => ?_⟩
  obtain ⟨b, hb, hf⟩ := he i l[i] (List.getElem?_eq_getElem hi)
  obtain ⟨b', hb', hQ⟩ := h l[i] (List.getElem_mem hi)
  have hbb : b = b' := Except.ok.inj (hf.symm.trans hb')
  exact ⟨b, hb, hbb ▸ hQ⟩

end Yields

namespace Meets

variable {E : EvaluationError → Prop} {P : α → Prop} {Q : β → Prop}

theorem pure {a : α} (h : P a) : Meets E (pure a) P := h

theorem refuse {e : EvaluationError} (h : E e) : Meets E (Outcome.refuse e) P := h

theorem imp {P' : α → Prop} {x : Outcome α} (h : Meets E x P) (hP : ∀ a, P a → P' a) :
    Meets E x P' := by
  match x, h with
  | .ok a, h => exact hP a h
  | .error (.refused e), h => exact h

theorem bind {x : Outcome α} {f : α → Outcome β} (hx : Meets E x P)
    (hf : ∀ a, P a → Meets E (f a) Q) : Meets E (x >>= f) Q := by
  match x, hx with
  | .ok a, ha => exact hf a ha
  | .error (.refused e), he => exact he

theorem lift {x : Checked α} (h : Yields x P) : Meets E (liftM x) P := by
  obtain ⟨a, rfl, ha⟩ := h
  exact ha

theorem ofOption {e : EvaluationError} {x : Option α} (he : x = none → E e)
    (h : ∀ a, x = some a → P a) : Meets E (Outcome.ofOption e x) P := by
  cases x with
  | none => exact he rfl
  | some a => exact h a rfl

theorem mapM {f : α → Outcome β} {l : List α} (h : ∀ a ∈ l, Meets E (f a) Q) :
    Meets E (l.mapM f) fun results => results.length = l.length ∧ ∀ b ∈ results, Q b := by
  induction l with
  | nil => exact ⟨rfl, fun b hb => absurd hb List.not_mem_nil⟩
  | cons a rest ih =>
    have hrest := ih fun a' ha' => h a' (List.mem_cons_of_mem a ha')
    rw [List.mapM_cons]
    refine (h a List.mem_cons_self).bind fun b hb => hrest.bind fun bs hbs => pure ⟨?_, ?_⟩
    · rw [List.length_cons, List.length_cons, hbs.1]
    · intro b' hb'
      rcases List.mem_cons.1 hb' with rfl | hb'
      · exact hb
      · exact hbs.2 b' hb'

theorem forM {f : α → Outcome Unit} {l : List α} (h : ∀ a ∈ l, Meets E (f a) fun _ => True) :
    Meets E (l.forM f) fun _ => True := by
  induction l with
  | nil => exact trivial
  | cons a rest ih =>
    show Meets E (f a >>= fun _ => rest.forM f) fun _ => True
    exact (h a List.mem_cons_self).bind fun _ _ => ih fun a' ha' => h a' (List.mem_cons_of_mem a ha')

/-- What every step of a fold keeps holds in the end. -/
theorem foldlM {step : σ → α → Outcome σ} {l : List α} {start : σ} (I : σ → Prop) (hs : I start)
    (hstep : ∀ s, I s → ∀ a ∈ l, Meets E (step s a) I) : Meets E (l.foldlM step start) I := by
  induction l generalizing start with
  | nil => exact hs
  | cons a rest ih =>
    rw [List.foldlM_cons]
    refine (hstep start hs a List.mem_cons_self).bind fun s hs' => ?_
    exact ih hs' fun s hs a' ha' => hstep s hs a' (List.mem_cons_of_mem a ha')

/-- A promise that allows every refusal is that no contract is broken. -/
theorem ne_broken {x : Outcome α} (h : Meets E x P) (v : Violation) : x ≠ .error (.broken v) := by
  rintro rfl
  exact h

/-- If no contract is broken, it is enough to look at results. -/
theorem of_ok {x : Outcome α} {P' : α → Prop} (h : Meets E x P) (hP : ∀ a, x = .ok a → P' a) :
    Meets E x P' := by
  match x, h with
  | .ok a, _ => exact hP a rfl
  | .error (.refused e), he => exact he

theorem of_eq_ok {x : Outcome α} {a : α} (h : Meets E x P) (hx : x = .ok a) : P a := by
  rw [hx] at h
  exact h

/-- A promise that allows no refusal is that there is a result. -/
theorem exists_ok {x : Outcome α} (h : Meets (fun _ => False) x P) : ∃ a, x = .ok a ∧ P a := by
  match x, h with
  | .ok a, h => exact ⟨a, rfl, h⟩

end Meets

/-- An item of a list with indices stands at its index. -/
theorem lt_of_mem_zipIdx {l : List α} {a : α} {k : Nat} (h : (a, k) ∈ l.zipIdx) : k < l.length := by
  obtain ⟨-, hk, -⟩ := List.mem_zipIdx h
  omega

end ElementFields
