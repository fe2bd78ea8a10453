import Mathlib.Data.Rat.Defs
import ElementFields.Proofs.Assembly

namespace ElementFields.Builder

variable {K : Type}

namespace Step

variable {α β : Type} {places : List Nat}

/-- A look-up finds a node or is refused, and what follows it starts from the same builder. -/
theorem after_look_bind (i : Nat) (f : Entry K → Step K β) (b : Builder K) :
    (look i >>= f).after b = match b.entries[i]? with
      | some e => (f e).after b
      | none => (.error (.unknownNode i), b) := by
  rw [after_bind, after_look]
  cases b.entries[i]? <;> rfl

/-- From every builder, the step is refused and leaves the builder as it is, or it succeeds and the
given places are nodes of the builder it started from. -/
def Cautious (places : List Nat) (s : Step K α) : Prop :=
  ∀ b, (∃ e, s.after b = (.error e, b)) ∨
    (∃ a, (s.after b).1 = .ok a) ∧ ∀ i ∈ places, i < b.entries.size

theorem cautious_append (e : Entry K) : (append e).Cautious [] :=
  fun _ => .inr ⟨⟨_, rfl⟩, fun _ h => absurd h List.not_mem_nil⟩

theorem cautious_refuse (e : AssemblyError) : (throw e : Step K α).Cautious places :=
  fun _ => .inl ⟨e, rfl⟩

theorem Cautious.look_bind {i : Nat} {f : Entry K → Step K β} (h : ∀ e, (f e).Cautious places) :
    (look i >>= f).Cautious (i :: places) := by
  intro b
  rw [after_look_bind]
  cases hi : b.entries[i]? with
  | none => exact .inl ⟨_, rfl⟩
  | some e =>
    have hlt : i < b.entries.size := (Array.getElem?_eq_some_iff.1 hi).1
    apply (h e b).imp_right
    rintro ⟨hok, hplaces⟩
    refine ⟨hok, fun k hk => ?_⟩
    rcases List.mem_cons.1 hk with rfl | hk
    · exact hlt
    · exact hplaces k hk

/-- A check that is not passed refuses the step where it stands. -/
theorem Cautious.unless {c : Prop} [Decidable c] {e : AssemblyError} {s : Step K α}
    {f : β → Step K α} (h : s.Cautious places) :
    (if c then s else throw e >>= f).Cautious places := by
  split
  · exact h
  · exact fun b => .inl ⟨e, by rw [after_bind]; rfl⟩

theorem Cautious.of_subset {places' : List Nat} {s : Step K α} (h : s.Cautious places)
    (hsub : ∀ i ∈ places', i ∈ places) : s.Cautious places' :=
  fun b => (h b).imp_right fun hb => ⟨hb.1, fun i hi => hb.2 i (hsub i hi)⟩

/-- A refused step that is cautious leaves the builder as it is. -/
theorem Cautious.unchanged {s : Step K α} (h : s.Cautious places) {b : Builder K}
    {e : AssemblyError} (he : (s.after b).1 = .error e) : (s.after b).2 = b := by
  rcases h b with ⟨e', h'⟩ | ⟨⟨a, ha⟩, -⟩
  · rw [h']
  · rw [ha] at he
    nomatch he

/-- A cautious step is refused if one of its places is no node. -/
theorem Cautious.refused {s : Step K α} (h : s.Cautious places) {b : Builder K} {i : Nat}
    (hi : i ∈ places) (hb : b.entries.size ≤ i) : ∃ e, (s.after b).1 = .error e := by
  rcases h b with ⟨e, he⟩ | ⟨-, hplaces⟩
  · exact ⟨e, congrArg Prod.fst he⟩
  · have hlt := hplaces i hi
    omega

end Step

open Step

theorem cautious_binary (op : BinaryOp) (i j : Nat) :
    (binary op i j : Step K Nat).Cautious [i, j] := by
  refine Cautious.look_bind fun e => Cautious.look_bind fun f => Cautious.unless ?_
  split
  · exact Cautious.unless (cautious_append _)
  · exact cautious_append _

theorem cautious_unary (op : UnaryOp K) (i : Nat) :
    (do let e ← look i; append (.unary op i e) : Step K Nat).Cautious [i] :=
  Cautious.look_bind fun _ => cautious_append _

theorem cautious_scaleBy (i factor : Nat) :
    (scaleBy i factor : Step K Nat).Cautious [i, factor] := by
  -- The factor is looked up first, but which places are looked up is all that matters.
  have h : (scaleBy i factor : Step K Nat).Cautious [factor, i] := by
    refine Cautious.look_bind fun e => ?_
    split
    · exact cautious_unary _ i
    · exact cautious_refuse _
  exact h.of_subset fun k hk => (List.Perm.swap factor i []).mem_iff.1 hk

theorem cautious_map (f : ScalarMap) (i : Nat) : (map f i : Step K Nat).Cautious [i] :=
  Cautious.look_bind fun _ => Cautious.unless (cautious_append _)

theorem cautious_strain (i : Nat) : (strain i : Step K Nat).Cautious [i] := by
  refine Cautious.look_bind fun e => ?_
  split
  · refine Cautious.unless ?_
    cases e.isCurved with
    | true => exact fun b => .inl ⟨.nonlinearStrainInput, by rw [if_pos rfl, after_bind]; rfl⟩
    | false => exact cautious_append _
  · exact cautious_refuse _

def Command.operands : Command K → List Nat
  | leaf _ | constant _ => []
  | sum i j | sub i j | dot i j => [i, j]
  | normSquared i | negate i | scale i _ | map _ i | strain i => [i]
  | scaleBy i factor => [i, factor]

/-- The difference is the only step that is not cautious. -/
theorem cautious_command (c : Command K) (h : ∀ i j, c ≠ .sub i j) :
    c.step.Cautious c.operands := by
  cases c with
  | leaf l => exact fun b => .inr ⟨⟨_, rfl⟩, fun _ h => absurd h List.not_mem_nil⟩
  | constant x => exact cautious_append _
  | sum i j => exact cautious_binary .sum i j
  | sub i j => exact absurd rfl (h i j)
  | dot i j => exact cautious_binary .dot i j
  | normSquared i => exact (cautious_binary .dot i i).of_subset fun k hk => List.mem_cons_of_mem i hk
  | negate i => exact cautious_unary .negate i
  | scale i factor => exact cautious_unary (.scale factor) i
  | scaleBy i factor => exact cautious_scaleBy i factor
  | map f i => exact cautious_map f i
  | strain i => exact cautious_strain i

section Difference

variable (b : Builder K) (i j : Nat)

def withNegated (e : Entry K) : Builder K :=
  { b with entries := b.entries.push (.unary .negate j e) }

/-- The difference is the sum with the negated subtrahend, which has been appended by then. -/
theorem after_sub : (sub i j : Step K Nat).after b = match b.entries[j]? with
    | some e => (binary .sum i b.entries.size : Step K Nat).after (b.withNegated j e)
    | none => (.error (.unknownNode j), b) := by
  have hnegate : (negate j : Step K Nat).after b = match b.entries[j]? with
      | some e => (.ok b.entries.size, b.withNegated j e)
      | none => (.error (.unknownNode j), b) := by
    unfold negate
    rw [after_look_bind]
    rfl
  unfold sub
  rw [after_bind, hnegate]
  cases b.entries[j]? <;> rfl

/-- A difference from the first free place succeeds, since the negated subtrahend takes it. -/
theorem after_sub_size {e : Entry K} (he : b.entries[j]? = some e) :
    ((sub b.entries.size j : Step K Nat).after b).1 = .ok (b.entries.size + 1) := by
  have hlook : (b.withNegated j e).entries[b.entries.size]? = some (.unary .negate j e) :=
    Array.getElem?_push_size
  have hsize : (b.withNegated j e).entries.size = b.entries.size + 1 := Array.size_push ..
  rw [after_sub, he]
  dsimp only
  unfold binary
  -- Both look-ups find the negated node: the first one because it took the free place.
  rw [after_look_bind, hlook]
  dsimp only
  rw [after_look_bind, hlook]
  dsimp only
  rw [if_pos rfl]
  -- The operands are one and the same entry, so they live on elements of one dimension.
  cases hdim : (Entry.unary .negate j e).gridDim with
  | none => exact congrArg Except.ok hsize
  | some dim =>
    dsimp only
    rw [if_pos rfl]
    exact congrArg Except.ok hsize

variable {b i j}

/-- If one of the two places has no node, the difference is refused, except from the first free
place. -/
theorem sub_refused_iff (h : b.entries.size ≤ i ∨ b.entries.size ≤ j) :
    (∃ e, ((sub i j : Step K Nat).after b).1 = .error e) ↔
      ¬(i = b.entries.size ∧ j < b.entries.size) := by
  cases he : b.entries[j]? with
  | none =>
    have hj : b.entries.size ≤ j := Array.getElem?_eq_none_iff.1 he
    rw [after_sub, he]
    exact iff_of_true ⟨_, rfl⟩ (by omega)
  | some e =>
    have hj : j < b.entries.size := (Array.getElem?_eq_some_iff.1 he).1
    by_cases hi : i = b.entries.size
    · subst hi
      rw [after_sub_size b j he]
      refine iff_of_false ?_ (not_not_intro ⟨rfl, hj⟩)
      rintro ⟨e', h'⟩
      nomatch h'
    · -- Any place further on stays unknown when the negated node has been appended.
      have hsize : (b.withNegated j e).entries.size = b.entries.size + 1 := Array.size_push ..
      rw [after_sub, he]
      refine iff_of_true ?_ fun h' => hi h'.1
      apply (cautious_binary .sum i b.entries.size).refused List.mem_cons_self
      omega

/-- A refused difference leaves the builder with the negated node, if there is a subtrahend. -/
theorem sub_leaves_negated {e : AssemblyError} {f : Entry K}
    (he : ((sub i j : Step K Nat).after b).1 = .error e) (hf : b.entries[j]? = some f) :
    ((sub i j : Step K Nat).after b).2 = b.withNegated j f := by
  rw [after_sub, hf] at he ⊢
  exact (cautious_binary .sum i b.entries.size).unchanged he

theorem withNegated_ne (e : Entry K) : b.withNegated j e ≠ b := by
  intro h
  have hsize : b.entries.size + 1 = b.entries.size := by
    calc b.entries.size + 1
      _ = (b.withNegated j e).entries.size := (Array.size_push ..).symm
      _ = b.entries.size := by rw [h]
  omega

/-- A refused difference leaves the builder as it is if there is no subtrahend. -/
theorem sub_unchanged_iff {e : AssemblyError}
    (he : ((sub i j : Step K Nat).after b).1 = .error e) :
    ((sub i j : Step K Nat).after b).2 = b ↔ b.entries.size ≤ j := by
  cases hf : b.entries[j]? with
  | none =>
    rw [after_sub, hf]
    exact iff_of_true rfl (Array.getElem?_eq_none_iff.1 hf)
  | some f =>
    have hj : j < b.entries.size := (Array.getElem?_eq_some_iff.1 hf).1
    rw [sub_leaves_negated he hf]
    exact iff_of_false (withNegated_ne f) (by omega)

theorem leaves_of_refused_sub {e : AssemblyError}
    (he : ((sub i j : Step K Nat).after b).1 = .error e) :
    ((sub i j : Step K Nat).after b).2.leaves = b.leaves := by
  cases hf : b.entries[j]? with
  | none => rw [after_sub, hf]
  | some f =>
    rw [sub_leaves_negated he hf]
    rfl

end Difference

/-- A command that names a place without a node is refused, unless it subtracts a node from the
first free place. An expression with such a root is not finished either. -/
theorem refused_iff_of_unknown {b : Builder K} {i : Nat} (hi : b.entries.size ≤ i) :
    (∀ c : Command K, i ∈ c.operands →
      ((∃ e, (c.step.after b).1 = .error e) ↔
        ¬∃ j < b.entries.size, c = .sub b.entries.size j)) ∧
    b.build i = .error (.unknownNode i) := by
  constructor
  · intro c hc
    by_cases hsub : ∃ m j, c = .sub m j
    · obtain ⟨m, j, rfl⟩ := hsub
      have hplace : i = m ∨ i = j := by simpa [Command.operands] using hc
      have hunknown : b.entries.size ≤ m ∨ b.entries.size ≤ j := by omega
      have hcase : (∃ k < b.entries.size, (Command.sub m j : Command K) = .sub b.entries.size k) ↔
          m = b.entries.size ∧ j < b.entries.size := by
        constructor
        · rintro ⟨k, hk, h⟩
          injection h with hm hj
          exact ⟨hm, by omega⟩
        · rintro ⟨rfl, hj⟩
          exact ⟨j, hj, rfl⟩
      rw [hcase]
      exact sub_refused_iff hunknown
    · have hcautious := cautious_command c fun m j h => hsub ⟨m, j, h⟩
      refine iff_of_true (hcautious.refused hc hi) ?_
      rintro ⟨j, -, h⟩
      exact hsub ⟨_, j, h⟩
  · unfold build
    rw [Array.getElem?_eq_none hi]

/-- In a builder with two constants, place 5 is refused as the factor of a multiple and as the root,
while place 2 may be subtracted from. -/
theorem refused_iff_of_unknown_constants :
    (∃ e, ((Command.scaleBy 1 5).step.after (after [.constant (2 : ℚ), .constant 3])).1
      = .error e) ∧
    (¬∃ e, ((Command.sub 2 1).step.after (after [.constant (2 : ℚ), .constant 3])).1
      = .error e) ∧
    (after [.constant (2 : ℚ), .constant 3]).build 5 = .error (.unknownNode 5) := by
  have hsize : (after [.constant (2 : ℚ), .constant 3]).entries.size = 2 := rfl
  have hfive := refused_iff_of_unknown (b := after [.constant (2 : ℚ), .constant 3]) (i := 5)
    (by rw [hsize]; omega)
  have htwo := refused_iff_of_unknown (b := after [.constant (2 : ℚ), .constant 3]) (i := 2)
    (by rw [hsize])
  refine ⟨(hfive.1 (.scaleBy 1 5) (by decide)).2 ?_, fun h => ?_, hfive.2⟩
  · rintro ⟨j, -, h⟩
    nomatch h
  · exact (htwo.1 (.sub 2 1) (by decide)).1 h ⟨1, by decide, rfl⟩

/-- The builder of one constant has no node at place 1, and yet a difference from there succeeds:
it stands for the negated constant added to itself. -/
theorem sub_accepts_free_place :
    (after [.constant (2 : ℚ)]).entries.size = 1 ∧
    1 ∈ (Command.sub 1 0 : Command ℚ).operands ∧
    ((Command.sub 1 0).step.after (after [.constant (2 : ℚ)])).1 = .ok 2 ∧
    ((Command.sub 1 0).step.after (after [.constant (2 : ℚ)])).2.expr? 2 =
      some (.binary .sum (.unary .negate (.constant 2)) (.unary .negate (.constant 2))) :=
  ⟨rfl, by decide, rfl, rfl⟩

/-- A refused command leaves the builder as it is, unless it subtracts a node: then the negated node
stays behind. The leaves stay in either case. -/
theorem unchanged_iff_of_refused {b : Builder K} {c : Command K} {e : AssemblyError}
    (he : (c.step.after b).1 = .error e) :
    ((c.step.after b).2 = b ↔ ¬∃ i j, c = .sub i j ∧ j < b.entries.size) ∧
    (c.step.after b).2.leaves = b.leaves ∧
    ∀ i j f, c = .sub i j → b.entries[j]? = some f → (c.step.after b).2 = b.withNegated j f := by
  by_cases hsub : ∃ i j, c = .sub i j
  · obtain ⟨i, j, rfl⟩ := hsub
    have hnode : (∃ i' j', (Command.sub i j : Command K) = .sub i' j' ∧ j' < b.entries.size) ↔
        j < b.entries.size := by
      constructor
      · rintro ⟨_, _, h, hlt⟩
        injection h with _ hj
        exact hj ▸ hlt
      · exact fun h => ⟨i, j, rfl, h⟩
    refine ⟨?_, leaves_of_refused_sub he, ?_⟩
    · rw [hnode, Nat.not_lt]
      exact sub_unchanged_iff he
    · rintro i' j' f h hf
      injection h with hi hj
      subst hi hj
      exact sub_leaves_negated he hf
  · have hunchanged : (c.step.after b).2 = b :=
      (cautious_command c fun i j h => hsub ⟨i, j, h⟩).unchanged he
    refine ⟨iff_of_true hunchanged ?_, congrArg Builder.leaves hunchanged, ?_⟩
    · rintro ⟨i, j, h, -⟩
      exact hsub ⟨i, j, h⟩
    · intro i j f h
      exact absurd ⟨i, j, h⟩ hsub

/-- With one constant, the refused command "5 minus 0" leaves a second node, while the refused
command "5 plus 0" does not. -/
theorem unchanged_iff_of_refused_constant :
    ((Command.sub 5 0).step.after (after [.constant (2 : ℚ)])).2 ≠ after [.constant 2] ∧
    ((Command.sum 5 0).step.after (after [.constant (2 : ℚ)])).2 = after [.constant 2] := by
  have hsub := unchanged_iff_of_refused (b := after [.constant (2 : ℚ)]) (c := .sub 5 0)
    (e := .unknownNode 5) rfl
  have hsum := unchanged_iff_of_refused (b := after [.constant (2 : ℚ)]) (c := .sum 5 0)
    (e := .unknownNode 5) rfl
  refine ⟨fun h => hsub.1.1 h ⟨5, 0, rfl, by decide⟩, hsum.1.2 ?_⟩
  rintro ⟨i, j, h, -⟩
  nomatch h

/-- After the refused command "5 minus 0" the next constant is put one place further on than
without it. -/
theorem refused_difference_moves_later_nodes :
    ((Command.sub 5 0).step.after (after [.constant (2 : ℚ)])).1 = .error (.unknownNode 5) ∧
    ((Command.sub 5 0).step.after (after [.constant (2 : ℚ)])).2.entries.size = 2 ∧
    ((Command.constant 3).step.after (after [.constant (2 : ℚ), .sub 5 0])).1 = .ok 2 ∧
    ((Command.constant 3).step.after (after [.constant (2 : ℚ)])).1 = .ok 1 :=
  ⟨rfl, rfl, rfl, rfl⟩

end ElementFields.Builder
