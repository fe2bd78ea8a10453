import ElementFields.Field.Leaves

namespace ElementFields

variable {K : Type}

/-- The expression refers to leaves that exist, and the parts of each node fit: operands of one size
on elements of one dimension, functions of scalars, strains of displacements that are at most linear
in each block. -/
def Expr.Assembled (leaves : Array (Leaf K)) : Expr K → Prop
  | leaf slot signature => ∃ l, leaves[slot]? = some l ∧ l.signature = signature
  | constant _ => True
  | unary .negate a | unary (.scale _) a => a.Assembled leaves
  | unary (.map _) a => a.Assembled leaves ∧ a.valueSize = 1
  | unary .strain a => a.Assembled leaves ∧ a.gridDim = some a.valueSize ∧
      (1 ≤ a.valueSize ∧ a.valueSize ≤ 3) ∧ ∀ block, a.orderIn block ∈ [.constant, .linear]
  | binary _ a b => (a.Assembled leaves ∧ b.Assembled leaves) ∧ a.valueSize = b.valueSize ∧
      ∀ m n, a.gridDim = some m → b.gridDim = some n → m = n

/-- More leaves behind the ones there are do no harm. -/
theorem Expr.Assembled.push {leaves : Array (Leaf K)} {e : Expr K} (h : e.Assembled leaves)
    (l : Leaf K) : e.Assembled (leaves.push l) := by
  induction e with
  | leaf slot signature =>
    obtain ⟨m, hm, hs⟩ := h
    refine ⟨m, ?_, hs⟩
    have hlt : slot < leaves.size := (Array.getElem?_eq_some_iff.1 hm).1
    rw [Array.getElem?_push_lt hlt, ← hm, Array.getElem?_eq_getElem hlt]
  | constant x => trivial
  | unary op a ih =>
    cases op with
    | negate => exact ih h
    | scale factor => exact ih h
    | map f => exact ⟨ih h.1, h.2⟩
    | strain => exact ⟨ih h.1, h.2⟩
  | binary op a b iha ihb => exact ⟨⟨iha h.1.1, ihb h.1.2⟩, h.2⟩

namespace Builder

def Sound (b : Builder K) : Prop := ∀ e ∈ b.entries, e.expr.Assembled b.leaves

def Step.after {α : Type} (s : Step K α) (b : Builder K) : Except AssemblyError α × Builder K :=
  s.run.run b

/-- From a builder with `P`, the step reaches a result and a builder with `Q`, or it is refused and
leaves a sound builder. -/
def Step.Ensures {α : Type} (P : Builder K → Prop) (s : Step K α) (Q : α → Builder K → Prop) :
    Prop :=
  ∀ b, P b → (∀ a, (s.after b).1 = .ok a → Q a (s.after b).2) ∧
    ∀ e, (s.after b).1 = .error e → (s.after b).2.Sound

namespace Step

variable {α β : Type} {P : Builder K → Prop} {Q : α → Builder K → Prop}

theorem after_bind (s : Step K α) (f : α → Step K β) (b : Builder K) :
    (s >>= f).after b = match s.after b with
      | (.ok a, b') => (f a).after b'
      | (.error e, b') => (.error e, b') := by
  unfold Step.after
  rw [ExceptT.run_bind, StateT.run_bind]
  rcases StateT.run (ExceptT.run s) b with ⟨r, b'⟩
  cases r <;> rfl

theorem Ensures.bind {s : Step K α} {f : α → Step K β} {R : β → Builder K → Prop}
    (hs : s.Ensures P Q) (hf : ∀ a, (f a).Ensures (Q a) R) : (s >>= f).Ensures P R := by
  intro b hb
  rw [after_bind]
  obtain ⟨hok, herror⟩ := hs b hb
  rcases hr : s.after b with ⟨r, b'⟩
  rw [hr] at hok herror
  cases r with
  | ok a => exact hf a b' (hok a rfl)
  | error e => exact ⟨fun a h => (nomatch h), fun e' _ => herror e rfl⟩

theorem Ensures.refuse (e : AssemblyError) (hP : ∀ b, P b → b.Sound) :
    (throw e : Step K α).Ensures P Q :=
  fun b hb => ⟨fun _ h => (nomatch h), fun _ _ => hP b hb⟩

theorem Ensures.of_imp {P' : Builder K → Prop} {s : Step K α} (h : s.Ensures P Q)
    (hP : ∀ b, P' b → P b) : s.Ensures P' Q :=
  fun b hb => h b (hP b hb)

/-- After a check the step goes on only if the check was passed. -/
theorem Ensures.unless {c : Prop} [Decidable c] {e : AssemblyError} {s : Step K α}
    {f : β → Step K α} (hP : ∀ b, P b → b.Sound) (hs : c → s.Ensures P Q) :
    (if c then s else throw e >>= f).Ensures P Q := by
  split
  · exact hs ‹c›
  · exact Ensures.bind (Q := fun _ _ => False) (Ensures.refuse e hP) fun _ _ hb => hb.elim

/-- A look-up leaves the builder as it is. -/
theorem after_look (id : Nat) (b : Builder K) :
    (look id : Step K (Entry K)).after b = match b.entries[id]? with
      | some e => (.ok e, b)
      | none => (.error (.unknownNode id), b) := by
  unfold look
  rw [after_bind]
  show Step.after _ b = _
  cases b.entries[id]? <;> rfl

/-- A node that is looked up is a node of the builder, which stays as it is. -/
theorem ensures_look (id : Nat) (hP : ∀ b, P b → b.Sound) :
    (look id : Step K (Entry K)).Ensures P fun e b => P b ∧ e ∈ b.entries := by
  intro b hb
  rw [after_look]
  cases he : b.entries[id]? with
  | none => exact ⟨fun _ h => (nomatch h), fun _ _ => hP b hb⟩
  | some e =>
    refine ⟨fun a ha => ?_, fun _ h => (nomatch h)⟩
    cases ha
    exact ⟨hb, Array.mem_of_getElem? he⟩

theorem ensures_append (e : Entry K) :
    (append e).Ensures (fun b => b.Sound ∧ e.expr.Assembled b.leaves) fun _ b => b.Sound := by
  intro b hb
  refine ⟨?_, fun e h => (nomatch h)⟩
  intro a _ e' he'
  rcases Array.mem_push.1 he' with h | rfl
  · exact hb.1 e' h
  · exact hb.2

/-- A node on operands of the builder is sound if they fit. -/
theorem ensures_append_of {e : Entry K} (hP : ∀ b, P b → b.Sound)
    (he : ∀ b, P b → e.expr.Assembled b.leaves) :
    (append e).Ensures P fun _ b => b.Sound :=
  (ensures_append e).of_imp fun b hb => ⟨hP b hb, he b hb⟩

/-- A sound builder stays sound, whether the step succeeds or not. -/
theorem Ensures.sound {s : Step K α} (h : s.Ensures Sound fun _ b => b.Sound) {b : Builder K}
    (hb : b.Sound) : (s.after b).2.Sound := by
  obtain ⟨hok, herror⟩ := h b hb
  cases hr : (s.after b).1 with
  | ok a => exact hok a hr
  | error e => exact herror e hr

end Step

open Step

theorem ensures_leaf (l : Leaf K) : (leaf l).Ensures Sound fun _ b => b.Sound := by
  refine Ensures.bind (Q := fun slot b => b.Sound ∧ b.leaves[slot]? = some l) ?_ ?_
  · intro b hb
    refine ⟨fun slot hslot => ?_, fun _ h => (nomatch h)⟩
    cases hslot
    exact ⟨fun e he => (hb e he).push l, Array.getElem?_push_size⟩
  · intro slot
    exact ensures_append_of (fun b hb => hb.1) fun b hb => ⟨l, hb.2, rfl⟩

theorem ensures_constant (x : K) : (constant x).Ensures Sound fun _ b => b.Sound :=
  ensures_append_of (fun _ hb => hb) fun _ _ => trivial

theorem ensures_binary (op : BinaryOp) (i j : Nat) :
    (binary op i j : Step K Nat).Ensures Sound fun _ b => b.Sound := by
  refine Ensures.bind (ensures_look i fun _ hb => hb) fun e => ?_
  refine Ensures.bind (ensures_look j fun _ hb => hb.1) fun f => ?_
  have hsound : ∀ b : Builder K, (b.Sound ∧ e ∈ b.entries) ∧ f ∈ b.entries → b.Sound :=
    fun b hb => hb.1.1
  refine Ensures.unless hsound fun hsize => ?_
  rw [e.valueSize_eq, f.valueSize_eq] at hsize
  -- The operands live on elements of one dimension, as far as they have leaves.
  have happend (hdim : ∀ m n, e.gridDim = some m → f.gridDim = some n → m = n) :
      (append (.binary op i j e f)).Ensures
        (fun b => (b.Sound ∧ e ∈ b.entries) ∧ f ∈ b.entries) fun _ b => b.Sound := by
    refine ensures_append_of hsound fun b hb => ?_
    rw [e.gridDim_eq, f.gridDim_eq] at hdim
    exact ⟨⟨hb.1.1 e hb.1.2, hb.1.1 f hb.2⟩, hsize, hdim⟩
  split
  · rename_i expected found he hf
    refine Ensures.unless hsound fun hdim => happend fun m n hm hn => ?_
    rw [he] at hm
    rw [hf] at hn
    cases hm
    cases hn
    exact hdim
  · rename_i hnot
    exact happend fun m n hm hn => (hnot m n hm hn).elim

/-- An operation that keeps size and orders fits every operand. -/
theorem ensures_unary {op : UnaryOp K} (i : Nat)
    (hop : ∀ (leaves : Array (Leaf K)) (a : Expr K), a.Assembled leaves →
      (Expr.unary op a).Assembled leaves) :
    (do let e ← look i; append (.unary op i e) : Step K Nat).Ensures Sound
      fun _ b => b.Sound := by
  refine Ensures.bind (ensures_look i fun _ hb => hb) fun e => ?_
  exact ensures_append_of (fun b hb => hb.1) fun b hb => hop b.leaves e.expr (hb.1 e hb.2)

theorem ensures_negate (i : Nat) : (negate i : Step K Nat).Ensures Sound fun _ b => b.Sound :=
  ensures_unary i fun _ _ h => h

theorem ensures_scale (i : Nat) (factor : K) : (scale i factor).Ensures Sound fun _ b => b.Sound :=
  ensures_unary i fun _ _ h => h

theorem ensures_sub (i j : Nat) : (sub i j : Step K Nat).Ensures Sound fun _ b => b.Sound :=
  Ensures.bind (ensures_negate j) fun negated => ensures_binary .sum i negated

theorem ensures_scaleBy (i factor : Nat) :
    (scaleBy i factor : Step K Nat).Ensures Sound fun _ b => b.Sound := by
  refine Ensures.bind (ensures_look factor fun _ hb => hb) fun e => ?_
  split
  · exact (ensures_scale i _).of_imp fun b hb => hb.1
  · exact Ensures.refuse _ fun b hb => hb.1

theorem ensures_map (f : ScalarMap) (i : Nat) :
    (map f i : Step K Nat).Ensures Sound fun _ b => b.Sound := by
  refine Ensures.bind (ensures_look i fun _ hb => hb) fun e => ?_
  refine Ensures.unless (fun b hb => hb.1) fun hsize => ?_
  rw [e.valueSize_eq] at hsize
  exact ensures_append_of (fun b hb => hb.1) fun b hb => ⟨hb.1 e hb.2, hsize⟩

theorem ensures_strain (i : Nat) : (strain i : Step K Nat).Ensures Sound fun _ b => b.Sound := by
  refine Ensures.bind (ensures_look i fun _ hb => hb) fun e => ?_
  split
  · rename_i dim hdim
    refine Ensures.unless (fun b hb => hb.1) fun hsize => ?_
    obtain ⟨rfl, hrange⟩ := hsize
    rw [e.gridDim_eq, e.valueSize_eq] at hdim
    rw [e.valueSize_eq] at hrange
    cases hcurved : e.isCurved with
    | true =>
      exact Ensures.bind (Q := fun _ _ => False) (Ensures.refuse _ fun b hb => hb.1)
        fun _ _ hb => hb.elim
    | false =>
      rw [e.isCurved_eq_false_iff] at hcurved
      exact ensures_append_of (fun b hb => hb.1)
        fun b hb => ⟨hb.1 e hb.2, hdim, hrange, hcurved⟩
  · exact Ensures.refuse _ fun b hb => hb.1

inductive Command (K : Type) where
  | leaf (l : Leaf K)
  | constant (x : K)
  | sum (i j : Nat)
  | sub (i j : Nat)
  | dot (i j : Nat)
  | normSquared (i : Nat)
  | negate (i : Nat)
  | scale (i : Nat) (factor : K)
  | scaleBy (i factor : Nat)
  | map (f : ScalarMap) (i : Nat)
  | strain (i : Nat)

def Command.step : Command K → Step K Nat
  | leaf l => Builder.leaf l
  | constant x => Builder.constant x
  | sum i j => Builder.sum i j
  | sub i j => Builder.sub i j
  | dot i j => Builder.dot i j
  | normSquared i => Builder.normSquared i
  | negate i => Builder.negate i
  | scale i factor => Builder.scale i factor
  | scaleBy i factor => Builder.scaleBy i factor
  | map f i => Builder.map f i
  | strain i => Builder.strain i

/-- The builders that are reached from the empty one, by steps that succeed or are refused. -/
inductive Reachable : Builder K → Prop where
  | empty : Reachable {}
  | step {b : Builder K} (c : Command K) : Reachable b → Reachable (c.step.after b).2

theorem ensures_command (c : Command K) : c.step.Ensures Sound fun _ b => b.Sound := by
  cases c with
  | leaf l => exact ensures_leaf l
  | constant x => exact ensures_constant x
  | sum i j => exact ensures_binary .sum i j
  | sub i j => exact ensures_sub i j
  | dot i j => exact ensures_binary .dot i j
  | normSquared i => exact ensures_binary .dot i i
  | negate i => exact ensures_negate i
  | scale i factor => exact ensures_scale i factor
  | scaleBy i factor => exact ensures_scaleBy i factor
  | map f i => exact ensures_map f i
  | strain i => exact ensures_strain i

def after (commands : List (Command K)) : Builder K :=
  commands.foldl (fun b c => (c.step.after b).2) {}

theorem reachable_after (commands : List (Command K)) : (after commands).Reachable := by
  have hfold (b : Builder K) (hb : b.Reachable) :
      (commands.foldl (fun b c => (c.step.after b).2) b).Reachable := by
    induction commands generalizing b with
    | nil => exact hb
    | cons c rest ih => exact ih _ (hb.step c)
  exact hfold {} .empty

/-- Two leaves at the first two places. -/
theorem reachable_pair (l m : Leaf K) :
    Reachable { leaves := #[l, m], entries := #[.leaf 0 l.signature, .leaf 1 m.signature] } := by
  have hl : Reachable { leaves := #[l], entries := #[.leaf 0 l.signature] } :=
    Reachable.empty.step (.leaf l)
  exact hl.step (.leaf m)

/-- Every node of a builder stands for an assembled expression, whatever the steps before. -/
theorem Reachable.sound {b : Builder K} (h : b.Reachable) : b.Sound := by
  induction h with
  | empty => exact fun e he => absurd he (Array.not_mem_empty e)
  | step c _ ih => exact (ensures_command c).sound ih

end Builder

end ElementFields
