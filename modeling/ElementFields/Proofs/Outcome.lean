import ElementFields.Expression.Operand

namespace ElementFields

section Success

variable {ε α β σ : Type}

/-- A sequence succeeds exactly when its steps do, one after the other. -/
@[simp] theorem bind_eq_ok_iff {x : Except ε α} {f : α → Except ε β} {b : β} :
    (x >>= f) = .ok b ↔ ∃ a, x = .ok a ∧ f a = .ok b := by
  cases x with
  | ok a => exact ⟨fun h => ⟨a, rfl, h⟩, fun ⟨_, ha, h⟩ => by cases ha; exact h⟩
  | error e => exact ⟨fun h => (nomatch h), fun ⟨_, ha, _⟩ => (nomatch ha)⟩

@[simp] theorem pure_eq_ok_iff {a b : α} : (pure a : Except ε α) = .ok b ↔ a = b :=
  ⟨fun h => Except.ok.inj h, fun h => congrArg Except.ok h⟩

/-- A checked step inside an evaluation succeeds with the same result. -/
@[simp] theorem lift_eq_ok_iff {x : Checked α} {a : α} :
    (liftM x : Outcome α) = .ok a ↔ x = .ok a := by
  cases x with
  | ok b => exact ⟨fun h => congrArg Except.ok (Except.ok.inj h), fun h => congrArg _ h⟩
  | error v => exact ⟨fun h => (nomatch h), fun h => (nomatch h)⟩

@[simp] theorem ofChecked_eq_ok_iff {x : Checked α} {a : α} :
    Outcome.ofChecked x = .ok a ↔ x = .ok a :=
  lift_eq_ok_iff

@[simp] theorem ofOption_eq_ok_iff {e : EvaluationError} {x : Option α} {a : α} :
    Outcome.ofOption e x = .ok a ↔ x = some a := by
  cases x with
  | none => exact ⟨fun h => (nomatch h), fun h => (nomatch h)⟩
  | some b =>
    exact ⟨fun h => congrArg some (Except.ok.inj h), fun h => congrArg _ (Option.some.inj h)⟩

@[simp] theorem require_eq_ok {contract : Prop} [Decidable contract] {v : Violation} {a b : α} :
    Checked.require contract v a = .ok b ↔ contract ∧ a = b :=
  Checked.require_eq_ok_iff

theorem componentAt_eq_ok_iff {K : Type} {ms : List (Mat K)} {k : Nat} {m : Mat K} :
    componentAt ms k = .ok m ↔ ms[k]? = some m := by
  unfold componentAt
  cases ms[k]? with
  | none => exact ⟨fun h => (nomatch h), fun h => (nomatch h)⟩
  | some n =>
    exact ⟨fun h => congrArg some (Except.ok.inj h), fun h => congrArg _ (Option.some.inj h)⟩

/-- A look-up among the items of a list finds what is known of the item at that place. -/
theorem componentAt_eq_ok {K : Type} {ms : List (Mat K)} {n k : Nat} {P : Nat → Mat K → Prop}
    (hl : ms.length = n) (h : ∀ k, k < n → ∃ m, ms[k]? = some m ∧ P k m) {m : Mat K}
    (hm : (liftM (componentAt ms k) : Outcome (Mat K)) = .ok m) : k < n ∧ P k m := by
  rw [lift_eq_ok_iff, componentAt_eq_ok_iff] at hm
  have hk : k < n := hl ▸ (List.getElem?_eq_some_iff.1 hm).1
  obtain ⟨m', hm', hP⟩ := h k hk
  obtain rfl := Option.some.inj (hm.symm.trans hm')
  exact ⟨hk, hP⟩

/-- A list is gone through successfully if every item is, and the results are those of the items. -/
theorem mapM_eq_ok {f : α → Except ε β} {l : List α} {results : List β}
    (h : l.mapM f = .ok results) :
    results.length = l.length ∧
      ∀ (i : Nat) (a : α), l[i]? = some a → ∃ b : β, results[i]? = some b ∧ f a = .ok b := by
  induction l generalizing results with
  | nil =>
    rw [List.mapM_nil, pure_eq_ok_iff] at h
    subst h
    exact ⟨rfl, fun i a ha => by simp at ha⟩
  | cons x rest ih =>
    rw [List.mapM_cons, bind_eq_ok_iff] at h
    obtain ⟨y, hy, h⟩ := h
    rw [bind_eq_ok_iff] at h
    obtain ⟨ys, hys, h⟩ := h
    rw [pure_eq_ok_iff] at h
    subst h
    obtain ⟨hl, hr⟩ := ih hys
    refine ⟨by rw [List.length_cons, List.length_cons, hl], ?_⟩
    intro i a ha
    cases i with
    | zero =>
      rw [List.getElem?_cons_zero] at ha
      cases ha
      exact ⟨y, List.getElem?_cons_zero, hy⟩
    | succ i =>
      rw [List.getElem?_cons_succ] at ha
      obtain ⟨b, hb, hf⟩ := hr i a ha
      exact ⟨b, by rw [List.getElem?_cons_succ]; exact hb, hf⟩

/-- If a list is gone through successfully, each of its items is. -/
theorem exists_of_mem_mapM {f : α → Except ε β} {l : List α} {results : List β}
    (h : l.mapM f = .ok results) {a : α} (ha : a ∈ l) : ∃ b, f a = .ok b := by
  obtain ⟨i, hi⟩ := List.getElem?_of_mem ha
  obtain ⟨b, -, hb⟩ := (mapM_eq_ok h).2 i a hi
  exact ⟨b, hb⟩

/-- A list is gone through successfully if every item is. -/
theorem exists_mapM {f : α → Except ε β} {l : List α} (h : ∀ a ∈ l, ∃ b, f a = .ok b) :
    ∃ results, l.mapM f = .ok results := by
  induction l with
  | nil => exact ⟨[], rfl⟩
  | cons a rest ih =>
    obtain ⟨b, hb⟩ := h a List.mem_cons_self
    obtain ⟨bs, hbs⟩ := ih fun a' ha' => h a' (List.mem_cons_of_mem a ha')
    refine ⟨b :: bs, ?_⟩
    rw [List.mapM_cons, hb]
    show (do return b :: (← rest.mapM f)) = _
    exact bind_eq_ok_iff.2 ⟨bs, hbs, rfl⟩

/-- What holds of the item at every index holds of every item. -/
theorem forall_mem_of_getElem? {l : List α} {n : Nat} {P : α → Prop} (hl : l.length = n)
    (h : ∀ i, i < n → ∃ a, l[i]? = some a ∧ P a) : ∀ a ∈ l, P a := by
  intro a ha
  obtain ⟨i, hi, rfl⟩ := List.getElem_of_mem ha
  obtain ⟨b, hb, hP⟩ := h i (hl ▸ hi)
  rw [List.getElem?_eq_getElem hi] at hb
  exact Option.some.inj hb ▸ hP

/-- A check of every item succeeds exactly when each of the checks does. -/
theorem forM_eq_ok_iff {f : α → Except ε Unit} {l : List α} {u : Unit} :
    l.forM f = .ok u ↔ ∀ a ∈ l, f a = .ok () := by
  induction l with
  | nil => exact ⟨fun _ a ha => absurd ha List.not_mem_nil, fun _ => rfl⟩
  | cons x rest ih =>
    show (f x >>= fun _ => rest.forM f) = .ok u ↔ _
    rw [bind_eq_ok_iff]
    constructor
    · rintro ⟨v, hv, h⟩ a ha
      rcases List.mem_cons.1 ha with rfl | ha
      · exact hv
      · exact ih.1 h a ha
    · intro h
      exact ⟨(), h x List.mem_cons_self, ih.2 fun a ha => h a (List.mem_cons_of_mem x ha)⟩

/-- What every step of a fold keeps holds of its result. -/
theorem foldlM_keeps {step : σ → α → Except ε σ} {l : List α} {start final : σ} (P : σ → Prop)
    (hstep : ∀ s a t, P s → step s a = .ok t → P t) (hs : P start)
    (h : l.foldlM step start = .ok final) : P final := by
  induction l generalizing start with
  | nil =>
    rw [List.foldlM_nil, pure_eq_ok_iff] at h
    exact h ▸ hs
  | cons a rest ih =>
    rw [List.foldlM_cons, bind_eq_ok_iff] at h
    obtain ⟨t, ht, h⟩ := h
    exact ih (hstep start a t hs ht) h

end Success

section Refinement

variable {ε α β σ : Type}

/-- Every answer of `x` is the answer of `y`. -/
def Refines (x y : Except ε α) : Prop := ∀ a, x = .ok a → y = .ok a

theorem Refines.rfl {x : Except ε α} : Refines x x := fun _ h => h

theorem Refines.trans {x y z : Except ε α} (h : Refines x y) (h' : Refines y z) : Refines x z :=
  fun a ha => h' a (h a ha)

theorem Refines.bind {x y : Except ε α} {f g : α → Except ε β} (h : Refines x y)
    (hf : ∀ a, x = .ok a → Refines (f a) (g a)) : Refines (x >>= f) (y >>= g) := by
  intro b hb
  obtain ⟨a, ha, hb⟩ := bind_eq_ok_iff.1 hb
  exact bind_eq_ok_iff.2 ⟨a, h a ha, hf a ha b hb⟩

end Refinement

end ElementFields
