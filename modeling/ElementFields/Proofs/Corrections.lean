import ElementFields.Proofs.Meets
import ElementFields.Proofs.Routing
import ElementFields.Proofs.RealScalar

namespace ElementFields

variable {K : Type}

/-- The ways to move coefficients: by corrections in their tangent spaces, or in the embedding space.
-/
inductive Motion where
  | tangent
  | embedding

namespace Motion

def width (M : Manifold) : Motion → ℕ
  | tangent => M.correctionSize
  | embedding => M.valueSize

def expected (κ : Motion) (l : Leaf K) : ℕ := l.numCoefficients * κ.width l.coefficients.manifold

variable [Scalar K]

def move {M : Manifold} (κ : Motion) (x : M.Point K) (d : Vec K) : Checked (M.Point K) :=
  match κ with
  | tangent => x.update d
  | embedding => x.addInEmbedding d

def change (κ : Motion) (d : Vec K) (l : Leaf K) : Checked (Leaf K) :=
  match κ with
  | tangent => l.update d
  | embedding => l.addInEmbedding d

def correct (κ : Motion) (f : ElementField K) (block : BlockId) (d : Vec K) :
    Outcome (ElementField K) :=
  match κ with
  | tangent => f.addToCoefficients block d
  | embedding => f.addInEmbedding block d

/-- The points that a stacked correction moves the coefficients of a leaf to: each of them is moved by
the part of the correction that stands at its place. -/
structure Moves (κ : Motion) (l : Leaf K) (d : Vec K)
    (points : List (l.coefficients.manifold.Point K)) : Prop where
  length_eq : points.length = l.numCoefficients
  point : ∀ (i : ℕ) (x : l.coefficients.manifold.Point K), l.coefficients.points[i]? = some x →
    let c := κ.width l.coefficients.manifold
    i * c + c ≤ d.size ∧ ∃ y, points[i]? = some y ∧ κ.move x (d.slice (i * c) c) = .ok y

variable {κ : Motion} {l l' : Leaf K} {d : Vec K}

theorem exists_move {M : Manifold} (κ : Motion) (x : M.Point K) {d : Vec K}
    (hd : d.size = κ.width M) : ∃ y, κ.move x d = .ok y := by
  cases κ with
  | tangent => exact ⟨_, require_eq_ok.2 ⟨hd, rfl⟩⟩
  | embedding => exact ⟨_, require_eq_ok.2 ⟨hd, rfl⟩⟩

/-- A correction of the length that the leaf takes is the same for both motions: all points are moved,
each by its part. -/
theorem change_eq_moveAll (hd : κ.expected l = d.size) :
    κ.change d l = do
      let coefficients ← l.coefficients.moveAll (κ.width l.coefficients.manifold) κ.move d
      return l.withCoefficients coefficients := by
  cases κ with
  | tangent =>
    have hu : l.coefficients.update d = l.coefficients.moveAll _ (·.update ·) d := if_pos hd.symm
    exact congrArg (fun x => do return l.withCoefficients (← x)) hu
  | embedding =>
    have hu : l.coefficients.addInEmbedding d = l.coefficients.moveAll _ (·.addInEmbedding ·) d :=
      if_pos hd.symm
    exact congrArg (fun x => do return l.withCoefficients (← x)) hu

/-- A correction of the length that the leaf takes moves each of its coefficients, and nothing else of
the leaf. -/
theorem change_eq_ok (hd : κ.expected l = d.size) : ∃ points, κ.Moves l d points ∧
    κ.change d l = .ok (l.withCoefficients { manifold := l.coefficients.manifold, points }) := by
  have hmove (p : l.coefficients.manifold.Point K × ℕ) (_ : p ∈ l.coefficients.points.zipIdx) :
      ∃ y, κ.move p.1 (d.slice (p.2 * κ.width l.coefficients.manifold)
        (κ.width l.coefficients.manifold)) = .ok y :=
    κ.exists_move p.1 (Vec.size_ofFn _ _)
  obtain ⟨points, hpoints⟩ := exists_mapM hmove
  obtain ⟨hlength, hpoint⟩ := mapM_eq_ok hpoints
  refine ⟨points, ⟨hlength.trans List.length_zipIdx, fun i x hx => ⟨?_, ?_⟩⟩, ?_⟩
  · have hi : i + 1 ≤ l.numCoefficients := (List.getElem?_eq_some_iff.1 hx).1
    calc i * _ + _ = (i + 1) * κ.width l.coefficients.manifold := (Nat.succ_mul i _).symm
      _ ≤ κ.expected l := Nat.mul_le_mul_right _ hi
      _ = d.size := hd
  · exact hpoint i (x, i) (by rw [List.getElem?_zipIdx, hx, Option.map_some, Nat.zero_add])
  · rw [change_eq_moveAll hd]
    exact bind_eq_ok_iff.2 ⟨_, bind_eq_ok_iff.2 ⟨points, hpoints, rfl⟩, rfl⟩

theorem sameKind_change (h : κ.change d l = .ok l') : l.SameKind l' := by
  cases κ with
  | tangent => exact Leaf.sameKind_update h
  | embedding => exact Leaf.sameKind_addInEmbedding h

omit [Scalar K] in
theorem expected_of_sameKind (κ : Motion) (h : l.SameKind l') : κ.expected l' = κ.expected l := by
  show l'.coefficients.size * _ = l.coefficients.size * _
  rw [h.size, h.manifold]

theorem correct_eq (κ : Motion) (f : ElementField K) (block : BlockId) (d : Vec K) :
    κ.correct f block d = f.correctOwners block d.size κ.expected (κ.change d) := by
  cases κ <;> rfl

end Motion

namespace ElementField

structure Owns (f : ElementField K) (block : BlockId) (slot : ℕ) (l : Leaf K) : Prop where
  slot_mem : slot ∈ f.expr.slots
  get : f.leaves[slot]? = some l
  block_eq : l.block = block

def checkOwners (f : ElementField K) (block : BlockId) (found : ℕ) (expected : Leaf K → ℕ) :
    Outcome Unit := do
  if (f.owners block).isEmpty then .refuse (.unknownBlock block)
  (f.owners block).forM fun l =>
    unless expected l = found do .refuse (.correctionSizeMismatch (expected l) found)

/-- Writes the changed owners among the leaves in the given slots. Returns the leaves reached and
whether all of them could be changed. -/
def writeOwners (block : BlockId) (change : Leaf K → Checked (Leaf K)) :
    List ℕ → Array (Leaf K) → Array (Leaf K) × Outcome Unit
  | [], leaves => (leaves, .ok ())
  | slot :: rest, leaves =>
    match changeOwner block change leaves slot with
    | .ok leaves => writeOwners block change rest leaves
    | .error v => (leaves, .error (.broken v))

/-- Corrects the owners of a block in place. Returns the field reached and whether the correction was
accepted. -/
def correctInPlace [Scalar K] (f : ElementField K) (κ : Motion) (block : BlockId) (d : Vec K) :
    ElementField K × Outcome Unit :=
  match f.checkOwners block d.size κ.expected with
  | .error e => (f, .error e)
  | .ok () =>
    let (leaves, result) := writeOwners block (κ.change d) f.slots f.leaves
    ({ f with leaves }, result)

/-- The second field is the first one with every owner of the block moved once, from where it was, and
everything else as it was: the other coefficients, all shape functions with what is cached of them,
and the leaves that the expression does not refer to. -/
structure Routed [Scalar K] (f : ElementField K) (κ : Motion) (block : BlockId) (d : Vec K)
    (f' : ElementField K) : Prop where
  rest : f' = { f with leaves := f'.leaves }
  owned : ∀ slot l, f.Owns block slot l → ∃ points, κ.Moves l d points ∧
    f'.leaves[slot]? = some (l.withCoefficients { manifold := l.coefficients.manifold, points })
  other : ∀ slot : ℕ, (∀ l, ¬f.Owns block slot l) → f'.leaves[slot]? = f.leaves[slot]?

variable {f f' : ElementField K} {block : BlockId}

theorem correctOwners_eq_check (found : ℕ) (expected : Leaf K → ℕ)
    (change : Leaf K → Checked (Leaf K)) :
    f.correctOwners block found expected change = do
      f.checkOwners block found expected
      let leaves ← Outcome.ofChecked (f.slots.foldlM (changeOwner block change) f.leaves)
      return { f with leaves } := by
  unfold correctOwners checkOwners
  split <;> rfl

theorem checkOwners_eq_ok_iff {found : ℕ} {expected : Leaf K → ℕ} {u : Unit} :
    f.checkOwners block found expected = .ok u ↔
      f.owners block ≠ [] ∧ ∀ l ∈ f.owners block, expected l = found := by
  have hcheck (l : Leaf K) : (unless expected l = found do
      Outcome.refuse (α := PUnit) (.correctionSizeMismatch (expected l) found)) = .ok () ↔
        expected l = found := by
    by_cases h : expected l = found <;> simp [h, Outcome.refuse, pure, Except.pure]
  unfold checkOwners
  split
  · rename_i hempty
    refine iff_of_false (fun h => nomatch h) fun h => h.1 ?_
    exact List.isEmpty_iff.1 hempty
  · rename_i hne
    have hforM := forM_eq_ok_iff (u := u) (l := f.owners block) (f := fun l =>
      (unless expected l = found do
        Outcome.refuse (α := PUnit) (.correctionSizeMismatch (expected l) found) : Outcome Unit))
    refine hforM.trans ⟨fun h => ⟨fun he => hne (List.isEmpty_iff.2 he), ?_⟩, fun h l hl => ?_⟩
    · exact fun l hl => (hcheck l).1 (h l hl)
    · exact (hcheck l).2 (h.2 l hl)

theorem Built.mem_owners_iff [Scalar K] (hf : f.Built) {l : Leaf K} :
    l ∈ f.owners block ↔ ∃ slot, f.Owns block slot l := by
  rw [owners, List.mem_filter, decide_eq_true_iff]
  constructor
  · rintro ⟨hl, hb⟩
    obtain ⟨slot, hs, hget⟩ := List.mem_filterMap.1 hl
    exact ⟨slot, hf.mem_slots_iff.1 hs, hget, hb⟩
  · rintro ⟨slot, hs, hget, hb⟩
    exact ⟨mem_reachableLeaves (hf.mem_slots_iff.2 hs) hget, hb⟩

section Writing

variable [Scalar K] {κ : Motion} {d : Vec K} {leaves leaves' : Array (Leaf K)}

def Suits (κ : Motion) (block : BlockId) (d : Vec K) (slots : List ℕ) (leaves : Array (Leaf K)) :
    Prop :=
  ∀ slot ∈ slots, ∀ l, leaves[slot]? = some l → l.block = block → κ.expected l = d.size

/-- A correction that suits a leaf can be written, and it still suits the leaves thereafter. -/
theorem exists_changeOwner {slots : List ℕ} (h : Suits κ block d slots leaves) {slot : ℕ}
    (hs : slot ∈ slots) : ∃ leaves', changeOwner block (κ.change d) leaves slot = .ok leaves' ∧
      Suits κ block d slots leaves' := by
  cases hget : leaves[slot]? with
  | none =>
    refine ⟨leaves, ?_, h⟩
    simp only [changeOwner, hget]
  | some l =>
    by_cases hb : l.block = block
    · obtain ⟨points, -, hchange⟩ := Motion.change_eq_ok (h slot hs l hget hb)
      have hk := Motion.sameKind_change hchange
      set l' := l.withCoefficients { manifold := l.coefficients.manifold, points }
      refine ⟨leaves.setIfInBounds slot l', ?_, ?_⟩
      · simp only [changeOwner, hget, if_pos hb, hchange]
        rfl
      · -- The length that a leaf expects depends on its kind, which the change keeps.
        intro s hs' m hm hmb
        by_cases heq : slot = s
        · subst heq
          rw [Array.getElem?_setIfInBounds_self_of_lt (Array.getElem?_eq_some_iff.1 hget).1] at hm
          obtain rfl := Option.some.inj hm
          rw [κ.expected_of_sameKind hk]
          exact h slot hs l hget hb
        · rw [Array.getElem?_setIfInBounds_ne heq] at hm
          exact h s hs' m hm hmb
    · refine ⟨leaves, ?_, h⟩
      simp only [changeOwner, hget, if_neg hb]

/-- A correction that suits all owners is written to the end. -/
theorem exists_foldlM_changeOwner {slots rest : List ℕ} (h : Suits κ block d slots leaves)
    (hrest : ∀ slot ∈ rest, slot ∈ slots) :
    ∃ leaves', rest.foldlM (changeOwner block (κ.change d)) leaves = .ok leaves' := by
  induction rest generalizing leaves with
  | nil => exact ⟨leaves, rfl⟩
  | cons slot rest ih =>
    obtain ⟨next, hnext, hsuits⟩ := exists_changeOwner h (hrest slot List.mem_cons_self)
    obtain ⟨final, hfinal⟩ := ih hsuits fun s hs => hrest s (List.mem_cons_of_mem slot hs)
    refine ⟨final, ?_⟩
    rw [List.foldlM_cons]
    exact bind_eq_ok_iff.2 ⟨next, hnext, hfinal⟩

omit [Scalar K] in
/-- Writing in place and writing into a new array agree where no change is refused. -/
theorem writeOwners_eq_of_foldlM {change : Leaf K → Checked (Leaf K)} {slots : List ℕ}
    (h : slots.foldlM (changeOwner block change) leaves = .ok leaves') :
    writeOwners block change slots leaves = (leaves', .ok ()) := by
  induction slots generalizing leaves with
  | nil =>
    rw [List.foldlM_nil, pure_eq_ok_iff] at h
    rw [writeOwners, h]
  | cons slot rest ih =>
    rw [List.foldlM_cons, bind_eq_ok_iff] at h
    obtain ⟨next, hnext, h⟩ := h
    rw [writeOwners, hnext]
    exact ih h

end Writing

section Routing

variable [Scalar K] {κ : Motion} {d : Vec K}

/-- The check passes exactly if the block has an owner and the length suits each of them. -/
theorem Built.checkOwners_eq_ok_iff (hf : f.Built) {u : Unit} :
    f.checkOwners block d.size κ.expected = .ok u ↔
      (∃ slot l, f.Owns block slot l) ∧ ∀ slot l, f.Owns block slot l → d.size = κ.expected l := by
  rw [ElementField.checkOwners_eq_ok_iff]
  refine and_congr ?_ ?_
  · rw [Ne, List.eq_nil_iff_forall_not_mem, not_forall_not]
    simp only [hf.mem_owners_iff]
    exact exists_comm
  · simp only [hf.mem_owners_iff]
    exact ⟨fun h slot l hl => (h l ⟨slot, hl⟩).symm, fun h l ⟨slot, hl⟩ => (h slot l hl).symm⟩

omit [Scalar K] in
theorem refused_of_checkOwners {found : ℕ} {expected : Leaf K → ℕ} {e : Failure}
    (h : f.checkOwners block found expected = .error e) : ∃ reason, e = .refused reason := by
  have hmeets : Meets (fun _ => True) (f.checkOwners block found expected) fun _ => True := by
    unfold checkOwners
    split
    · exact Meets.refuse trivial
    · refine Meets.forM fun l _ => ?_
      split
      · exact Meets.pure trivial
      · exact Meets.refuse trivial
  rw [h] at hmeets
  cases e with
  | refused reason => exact ⟨reason, rfl⟩
  | broken v => exact hmeets.elim

/-- Once the check has passed, the correction is written to every owner. -/
theorem Built.exists_correct (hf : f.Built) (h : f.checkOwners block d.size κ.expected = .ok ()) :
    ∃ f', κ.correct f block d = .ok f' ∧ f.correctInPlace κ block d = (f', .ok ()) ∧
      f.Routed κ block d f' := by
  have hsuits : Suits κ block d f.slots f.leaves := by
    intro slot hs l hget hb
    exact ((hf.checkOwners_eq_ok_iff.1 h).2 slot l ⟨hf.mem_slots_iff.1 hs, hget, hb⟩).symm
  obtain ⟨leaves, hleaves⟩ := exists_foldlM_changeOwner hsuits fun _ hs => hs
  refine ⟨{ f with leaves }, ?_, ?_, rfl, ?_, ?_⟩
  · rw [κ.correct_eq, correctOwners_eq_check, h, hleaves]
    rfl
  · rw [correctInPlace, h, writeOwners_eq_of_foldlM hleaves]
  · intro slot l hl
    have hs := hf.mem_slots_iff.2 hl.slot_mem
    obtain ⟨l', hget, hchange⟩ :=
      (foldlM_changeOwner hf.listed.nodup hleaves slot).1 hs l hl.get hl.block_eq
    obtain ⟨points, hmoves, hl'⟩ := Motion.change_eq_ok (hsuits slot hs l hl.get hl.block_eq)
    obtain rfl := Except.ok.inj (hchange.symm.trans hl')
    exact ⟨points, hmoves, hget⟩
  · intro slot hnone
    refine (foldlM_changeOwner hf.listed.nodup hleaves slot).2 fun hs l hget hb => ?_
    exact hnone l ⟨hf.mem_slots_iff.1 hs, hget, hb⟩

end Routing

end ElementField

end ElementFields
