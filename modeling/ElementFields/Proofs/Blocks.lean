import Mathlib.Data.List.Nodup
import Mathlib.Data.List.Perm.Basic
import ElementFields.Proofs.Assembly
import ElementFields.Proofs.Outcome

namespace ElementFields

variable {K : Type}

namespace BlockInfo

structure Registers (infos : List BlockInfo) (leaves : List (Leaf K)) : Prop where
  nodup : (infos.map block).Nodup
  covers : ∀ l ∈ leaves, ∃ info ∈ infos, info.block = l.block ∧
    info.correctionSize = l.correctionSize ∧ info.numCoefficients ≤ l.numCoefficients
  attained : ∀ info ∈ infos, ∃ l ∈ leaves, l.block = info.block ∧
    l.numCoefficients = info.numCoefficients

/-- Registering a leaf appends its block or changes the entry of its block. -/
theorem register_cases {infos infos' : List BlockInfo} {l : Leaf K}
    (h : register infos l = .ok infos') :
    (l.block ∉ infos.map block ∧ infos' = infos ++ [{
      block := l.block
      correctionSize := l.correctionSize
      numCoefficients := l.numCoefficients }]) ∨
    ∃ front info back, infos = front ++ info :: back ∧ info.block = l.block ∧
      info.correctionSize = l.correctionSize ∧
      infos' = front ++
        { info with numCoefficients := min info.numCoefficients l.numCoefficients } :: back := by
  induction infos generalizing infos' with
  | nil =>
    cases h
    exact Or.inl ⟨List.not_mem_nil, rfl⟩
  | cons info rest ih =>
    rw [register] at h
    split at h
    · rename_i hb
      split at h
      · rename_i hc
        cases h
        exact Or.inr ⟨[], info, rest, rfl, hb, hc, rfl⟩
      · nomatch h
    · rename_i hb
      obtain ⟨rest', hrest, h⟩ := bind_eq_ok_iff.1 h
      rw [pure_eq_ok_iff] at h
      subst h
      rcases ih hrest with ⟨hnot, rfl⟩ | ⟨front, info', back, rfl, hb', hc', rfl⟩
      · refine Or.inl ⟨?_, rfl⟩
        rw [List.map_cons, List.mem_cons, not_or]
        exact ⟨Ne.symm hb, hnot⟩
      · exact Or.inr ⟨info :: front, info', back, rfl, hb', hc', rfl⟩

/-- A block that is not listed is appended with the numbers of its leaf. -/
theorem Registers.append {infos : List BlockInfo} {leaves : List (Leaf K)} {l : Leaf K}
    (hr : Registers infos leaves) (hnot : l.block ∉ infos.map block) :
    Registers (infos ++ [{
      block := l.block
      correctionSize := l.correctionSize
      numCoefficients := l.numCoefficients }]) (leaves ++ [l]) := by
  refine ⟨?_, ?_, ?_⟩
  · rw [List.map_append, List.map_singleton, List.nodup_append]
    refine ⟨hr.nodup, List.nodup_singleton _, ?_⟩
    rintro b hb _ hb' rfl
    rw [List.mem_singleton] at hb'
    subst hb'
    exact hnot hb
  · intro m hm
    rcases List.mem_append.1 hm with hm | hm
    · obtain ⟨info, hinfo, hi⟩ := hr.covers m hm
      exact ⟨info, List.mem_append_left _ hinfo, hi⟩
    · obtain rfl := List.mem_singleton.1 hm
      exact ⟨_, List.mem_append_right _ (List.mem_singleton.2 rfl), rfl, rfl, Nat.le_refl _⟩
  · intro info hinfo
    rcases List.mem_append.1 hinfo with hinfo | hinfo
    · obtain ⟨m, hm, hi⟩ := hr.attained info hinfo
      exact ⟨m, List.mem_append_left _ hm, hi⟩
    · obtain rfl := List.mem_singleton.1 hinfo
      exact ⟨l, List.mem_append_right _ (List.mem_singleton.2 rfl), rfl, rfl⟩

/-- The entry of the block of a leaf keeps the smaller number of coefficients. -/
theorem Registers.update {front back : List BlockInfo} {info : BlockInfo} {leaves : List (Leaf K)}
    {l : Leaf K} (hr : Registers (front ++ info :: back) leaves) (hb : info.block = l.block)
    (hc : info.correctionSize = l.correctionSize) :
    Registers (front ++
      { info with numCoefficients := min info.numCoefficients l.numCoefficients } :: back)
      (leaves ++ [l]) := by
  -- Every other entry is still there, and the changed one stands for the same block.
  have hother : ∀ other ∈ front ++ info :: back, other = info ∨ other ∈ front ++ back := by
    intro other ho
    rcases List.mem_append.1 ho with ho | ho
    · exact Or.inr (List.mem_append_left _ ho)
    · rcases List.mem_cons.1 ho with rfl | ho
      · exact Or.inl rfl
      · exact Or.inr (List.mem_append_right _ ho)
  have hkeep (x : BlockInfo) : ∀ other ∈ front ++ back, other ∈ front ++ x :: back := by
    intro other ho
    rcases List.mem_append.1 ho with ho | ho
    · exact List.mem_append_left _ ho
    · exact List.mem_append_right _ (List.mem_cons_of_mem x ho)
  have hself (x : BlockInfo) : x ∈ front ++ x :: back :=
    List.mem_append_right _ List.mem_cons_self
  refine ⟨?_, ?_, ?_⟩
  · have := hr.nodup
    rwa [List.map_append, List.map_cons] at this ⊢
  · intro m hm
    rcases List.mem_append.1 hm with hm | hm
    · obtain ⟨other, ho, hi⟩ := hr.covers m hm
      rcases hother other ho with rfl | ho
      · exact ⟨_, hself _, hi.1, hi.2.1, Nat.le_trans (Nat.min_le_left _ _) hi.2.2⟩
      · exact ⟨other, hkeep _ other ho, hi⟩
    · obtain rfl := List.mem_singleton.1 hm
      exact ⟨_, hself _, hb, hc, Nat.min_le_right _ _⟩
  · intro other ho
    rcases List.mem_append.1 ho with hf | hf
    · obtain ⟨m, hm, hi⟩ := hr.attained other (hkeep info other (List.mem_append_left _ hf))
      exact ⟨m, List.mem_append_left _ hm, hi⟩
    · rcases List.mem_cons.1 hf with rfl | hf
      · -- The smaller number is attained by the leaf that had it.
        obtain ⟨m, hm, hi⟩ := hr.attained info (hself info)
        rcases Nat.le_total info.numCoefficients l.numCoefficients with hle | hle
        · exact ⟨m, List.mem_append_left _ hm, hi.1, by rw [hi.2, Nat.min_eq_left hle]⟩
        · exact ⟨l, List.mem_append_right _ (List.mem_singleton.2 rfl), hb.symm,
            (Nat.min_eq_right hle).symm⟩
      · obtain ⟨m, hm, hi⟩ := hr.attained other (hkeep info other (List.mem_append_right _ hf))
        exact ⟨m, List.mem_append_left _ hm, hi⟩

theorem Registers.register {infos infos' : List BlockInfo} {leaves : List (Leaf K)} {l : Leaf K}
    (hr : Registers infos leaves) (h : register infos l = .ok infos') :
    Registers infos' (leaves ++ [l]) := by
  rcases register_cases h with ⟨hnot, rfl⟩ | ⟨front, info, back, rfl, hb, hc, rfl⟩
  · exact hr.append hnot
  · exact hr.update hb hc

theorem Registers.foldlM {infos infos' : List BlockInfo} {leaves more : List (Leaf K)}
    (hr : Registers infos leaves) (h : more.foldlM BlockInfo.register infos = .ok infos') :
    Registers infos' (leaves ++ more) := by
  induction more generalizing infos leaves with
  | nil =>
    rw [List.foldlM_nil, pure_eq_ok_iff] at h
    rwa [List.append_nil, ← h]
  | cons l rest ih =>
    rw [List.foldlM_cons, bind_eq_ok_iff] at h
    obtain ⟨next, hn, h⟩ := h
    have := ih (hr.register hn) h
    rwa [List.append_assoc, List.singleton_append] at this

/-- The order of the list does not matter. -/
theorem Registers.perm {infos infos' : List BlockInfo} {leaves : List (Leaf K)}
    (hr : Registers infos leaves) (hp : infos'.Perm infos) : Registers infos' leaves := by
  refine ⟨(hp.map block).nodup_iff.2 hr.nodup, ?_, ?_⟩
  · intro l hl
    obtain ⟨info, hinfo, hi⟩ := hr.covers l hl
    exact ⟨info, hp.mem_iff.2 hinfo, hi⟩
  · intro info hinfo
    exact hr.attained info (hp.mem_iff.1 hinfo)

/-- An entry is found by its block. -/
theorem Registers.find?_eq {infos : List BlockInfo} {leaves : List (Leaf K)}
    (hr : Registers infos leaves) {info : BlockInfo} (hi : info ∈ infos) :
    (infos.find? fun i => i.block = info.block) = some info := by
  cases hf : infos.find? fun i => i.block = info.block with
  | none =>
    have := List.find?_eq_none.1 hf info hi
    simp at this
  | some found =>
    have hb := List.find?_some hf
    rw [decide_eq_true_eq] at hb
    rw [List.inj_on_of_nodup_map hr.nodup (List.mem_of_find?_eq_some hf) hi hb]

def Consistent (leaves : List (Leaf K)) : Prop :=
  ∀ l ∈ leaves, ∀ m ∈ leaves, l.block = m.block → l.correctionSize = m.correctionSize

section Sets

variable {infos infos' : List BlockInfo} {leaves leaves' : List (Leaf K)}

/-- A block has one entry. -/
theorem Registers.eq_of_block (hr : Registers infos leaves) {i j : BlockInfo} (hi : i ∈ infos)
    (hj : j ∈ infos) (h : i.block = j.block) : i = j :=
  List.inj_on_of_nodup_map hr.nodup hi hj h

theorem Registers.consistent (hr : Registers infos leaves) : Consistent leaves := by
  intro l hl m hm hb
  obtain ⟨i, hi, hib, hic, -⟩ := hr.covers l hl
  obtain ⟨j, hj, hjb, hjc, -⟩ := hr.covers m hm
  have hij : i = j := hr.eq_of_block hi hj (hib.trans (hb.trans hjb.symm))
  calc l.correctionSize = i.correctionSize := hic.symm
    _ = j.correctionSize := by rw [hij]
    _ = m.correctionSize := hjc

/-- An entry says what one of the leaves of its block says. -/
theorem Registers.exists_leaf (hr : Registers infos leaves) {info : BlockInfo} (hi : info ∈ infos) :
    ∃ l ∈ leaves, l.block = info.block ∧ l.correctionSize = info.correctionSize ∧
      l.numCoefficients = info.numCoefficients := by
  obtain ⟨l, hl, hb, hn⟩ := hr.attained info hi
  obtain ⟨other, ho, hob, hoc, -⟩ := hr.covers l hl
  obtain rfl : other = info := hr.eq_of_block ho hi (hob.trans hb)
  exact ⟨l, hl, hb, hoc.symm, hn⟩

/-- A leaf is registered unless it contradicts the entry of its block. -/
theorem exists_register {l : Leaf K}
    (h : ∀ info ∈ infos, info.block = l.block → info.correctionSize = l.correctionSize) :
    ∃ next, BlockInfo.register infos l = .ok next := by
  induction infos with
  | nil => exact ⟨_, rfl⟩
  | cons info rest ih =>
    rw [BlockInfo.register]
    split
    · rename_i hb
      rw [if_pos (h info List.mem_cons_self hb)]
      exact ⟨_, rfl⟩
    · obtain ⟨next, hnext⟩ := ih fun i hi => h i (List.mem_cons_of_mem info hi)
      exact ⟨info :: next, bind_eq_ok_iff.2 ⟨next, hnext, rfl⟩⟩

/-- Leaves that agree on the sizes are registered in any order. -/
theorem Registers.exists_foldlM (hr : Registers infos leaves) {more : List (Leaf K)}
    (hc : Consistent (leaves ++ more)) :
    ∃ final, more.foldlM BlockInfo.register infos = .ok final := by
  induction more generalizing infos leaves with
  | nil => exact ⟨infos, rfl⟩
  | cons l rest ih =>
    obtain ⟨next, hnext⟩ : ∃ next, BlockInfo.register infos l = .ok next := by
      apply exists_register
      intro info hi hb
      obtain ⟨m, hm, hmb, hmc, -⟩ := hr.exists_leaf hi
      have hl : l ∈ leaves ++ l :: rest := List.mem_append_right _ List.mem_cons_self
      exact hmc.symm.trans (hc m (List.mem_append_left _ hm) l hl (hmb.trans hb))
    have happend : leaves ++ [l] ++ rest = leaves ++ l :: rest := (List.append_cons leaves l rest).symm
    obtain ⟨final, hfinal⟩ := ih (hr.register hnext) (happend ▸ hc)
    refine ⟨final, ?_⟩
    rw [List.foldlM_cons]
    exact bind_eq_ok_iff.2 ⟨next, hnext, hfinal⟩

/-- What is known of a block depends on which leaves there are, not on their order or on how often they
come. -/
theorem Registers.mem_of_mem (hr : Registers infos leaves) (hr' : Registers infos' leaves')
    (h : ∀ l, l ∈ leaves' ↔ l ∈ leaves) {info : BlockInfo} (hi : info ∈ infos) : info ∈ infos' := by
  obtain ⟨l, hl, hb, hc, hn⟩ := hr.exists_leaf hi
  obtain ⟨info', hi', hb', hc', hn'⟩ := hr'.covers l ((h l).2 hl)
  -- The smaller number of each list is attained by a leaf of the other one.
  obtain ⟨m, hm, hmb, -, hmn⟩ := hr'.exists_leaf hi'
  obtain ⟨other, ho, hob, -, hon⟩ := hr.covers m ((h m).1 hm)
  obtain rfl : other = info := hr.eq_of_block ho hi (by rw [hob, hmb, hb', hb])
  have hsame : info' = other := by
    obtain ⟨block', size', n'⟩ := info'
    obtain ⟨block, size, n⟩ := other
    simp only at hb hc hn hb' hc' hn' hmb hmn hob hon ⊢
    rw [BlockInfo.mk.injEq]
    exact ⟨hb'.trans hb, hc'.trans hc, by omega⟩
  exact hsame ▸ hi'

/-- Sorted by block, the entries for the same leaves are the same list. -/
theorem Registers.eq_of_sorted (hr : Registers infos leaves) (hr' : Registers infos' leaves')
    (h : ∀ l, l ∈ leaves' ↔ l ∈ leaves)
    (hs : infos.Pairwise fun i j => i.block.index ≤ j.block.index)
    (hs' : infos'.Pairwise fun i j => i.block.index ≤ j.block.index) : infos' = infos := by
  have hmem (info : BlockInfo) : info ∈ infos' ↔ info ∈ infos :=
    ⟨hr'.mem_of_mem hr fun l => (h l).symm, hr.mem_of_mem hr' h⟩
  apply List.Perm.eq_of_pairwise _ hs' hs
  · exact (List.perm_ext_iff_of_nodup (hr'.nodup.of_map _) (hr.nodup.of_map _)).2 hmem
  · intro i j hi hj hij hji
    apply hr.eq_of_block ((hmem i).1 hi) hj
    exact congrArg BlockId.mk (Nat.le_antisymm hij hji)

end Sets

end BlockInfo

end ElementFields
