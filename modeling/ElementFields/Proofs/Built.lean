import ElementFields.Proofs.Blocks

namespace ElementFields

variable {K : Type}

/-- What binding and corrections leave alone: everything but what is cached and where the
coefficients lie. -/
structure Leaf.SameKind (l l' : Leaf K) : Prop where
  block : l'.block = l.block
  element : l'.shapes.element = l.shapes.element
  manifold : l'.coefficients.manifold = l.coefficients.manifold
  size : l'.coefficients.size = l.coefficients.size
  geometry : l'.geometry = l.geometry
  order : l'.order = l.order
  primitives : l'.primitives = l.primitives

namespace Leaf.SameKind

variable {l l' l'' : Leaf K}

theorem refl (l : Leaf K) : l.SameKind l := ⟨rfl, rfl, rfl, rfl, rfl, rfl, rfl⟩

theorem trans (h : l.SameKind l') (h' : l'.SameKind l'') : l.SameKind l'' :=
  ⟨h'.block.trans h.block, h'.element.trans h.element, h'.manifold.trans h.manifold,
    h'.size.trans h.size, h'.geometry.trans h.geometry, h'.order.trans h.order,
    h'.primitives.trans h.primitives⟩

theorem valueSize (h : l.SameKind l') : l'.valueSize = l.valueSize :=
  congrArg Manifold.valueSize h.manifold

theorem correctionSize (h : l.SameKind l') : l'.correctionSize = l.correctionSize :=
  congrArg Manifold.correctionSize h.manifold

theorem gridDim (h : l.SameKind l') : l'.gridDim = l.gridDim := congrArg Element.dim h.element

theorem signature (h : l.SameKind l') : l'.signature = l.signature := by
  simp only [Leaf.signature, h.block, h.valueSize, h.order, h.gridDim]

end Leaf.SameKind

section Changes

variable [Scalar K]

theorem Coefficients.moveAll_eq_ok {c c' : Coefficients K} {width : Nat}
    {move : c.manifold.Point K → Vec K → Checked (c.manifold.Point K)} {d : Vec K}
    (h : c.moveAll width move d = .ok c') : c'.manifold = c.manifold ∧ c'.size = c.size := by
  obtain ⟨points, hp, h⟩ := bind_eq_ok_iff.1 h
  rw [pure_eq_ok_iff] at h
  subst h
  refine ⟨rfl, ?_⟩
  rw [size, (mapM_eq_ok hp).1, List.length_zipIdx, size]

omit [Scalar K] in
theorem Leaf.sameKind_withCoefficients (l : Leaf K) {c : Coefficients K}
    (hm : c.manifold = l.coefficients.manifold) (hs : c.size = l.coefficients.size) :
    l.SameKind (l.withCoefficients c) :=
  ⟨rfl, rfl, hm, hs, rfl, rfl, rfl⟩

theorem Leaf.sameKind_update {l l' : Leaf K} {d : Vec K} (h : l.update d = .ok l') :
    l.SameKind l' := by
  obtain ⟨c, hc, h⟩ := bind_eq_ok_iff.1 h
  rw [pure_eq_ok_iff] at h
  subst h
  rw [Coefficients.update] at hc
  split at hc
  · obtain ⟨hm, hs⟩ := Coefficients.moveAll_eq_ok hc
    exact l.sameKind_withCoefficients hm hs
  · nomatch hc

theorem Leaf.sameKind_addInEmbedding {l l' : Leaf K} {d : Vec K}
    (h : l.addInEmbedding d = .ok l') : l.SameKind l' := by
  obtain ⟨c, hc, h⟩ := bind_eq_ok_iff.1 h
  rw [pure_eq_ok_iff] at h
  subst h
  rw [Coefficients.addInEmbedding] at hc
  split at hc
  · obtain ⟨hm, hs⟩ := Coefficients.moveAll_eq_ok hc
    exact l.sameKind_withCoefficients hm hs
  · nomatch hc

theorem Leaf.sameKind_bind (l : Leaf K) (rule : QuadratureRule K) (orders : List Nat) :
    l.SameKind (l.bind rule orders).1 := by
  have helement : (l.shapes.bind rule orders).1.element = l.shapes.element := by
    unfold CachedShapes.bind
    split
    · rfl
    · split
      · rfl
      · split
        · rfl
        · split <;> rfl
  exact ⟨rfl, helement, rfl, rfl, rfl, rfl, rfl⟩

end Changes

namespace ElementField

structure Alike (f f' : ElementField K) : Prop where
  rest : f' = { f with leaves := f'.leaves }
  leaves : ∀ (slot : Nat) (l : Leaf K), f.leaves[slot]? = some l →
    ∃ l', f'.leaves[slot]? = some l' ∧ l.SameKind l'

theorem Alike.refl (f : ElementField K) : f.Alike f :=
  ⟨rfl, fun _ l hl => ⟨l, hl, Leaf.SameKind.refl l⟩⟩

theorem Alike.trans {f f' f'' : ElementField K} (h : f.Alike f') (h' : f'.Alike f'') :
    f.Alike f'' := by
  refine ⟨?_, ?_⟩
  · rw [h'.rest, h.rest]
  · intro slot l hl
    obtain ⟨l', hl', hk⟩ := h.leaves slot l hl
    obtain ⟨l'', hl'', hk'⟩ := h'.leaves slot l' hl'
    exact ⟨l'', hl'', hk.trans hk'⟩

/-- One leaf is replaced by another one of its kind. -/
theorem alike_setIfInBounds (f : ElementField K) {slot : Nat} {l l' : Leaf K}
    (hl : f.leaves[slot]? = some l) (hk : l.SameKind l') :
    f.Alike { f with leaves := f.leaves.setIfInBounds slot l' } := by
  refine ⟨rfl, ?_⟩
  intro s m hm
  have hs : s < f.leaves.size := (Array.getElem?_eq_some_iff.1 hm).1
  by_cases h : slot = s
  · subst h
    obtain rfl := Option.some.inj (hl.symm.trans hm)
    exact ⟨l', by simp [hs], hk⟩
  · exact ⟨m, by simpa [h] using hm, Leaf.SameKind.refl m⟩

section Changes

variable [Scalar K]

theorem alike_bindSlots (f : ElementField K) (rule : QuadratureRule K) (orders slots : List Nat)
    {leaves : Array (Leaf K)} {result : Outcome Unit}
    (h : bindSlots rule orders slots f.leaves = (leaves, result)) :
    f.Alike { f with leaves } := by
  induction slots generalizing f with
  | nil =>
    cases h
    exact Alike.refl f
  | cons slot rest ih =>
    rw [bindSlots] at h
    split at h
    · cases h
      exact Alike.refl f
    · rename_i l hl
      have hk := l.sameKind_bind rule orders
      split at h
      · rename_i l' hb
        rw [hb] at hk
        exact (f.alike_setIfInBounds hl hk).trans
          (ih { f with leaves := f.leaves.setIfInBounds slot l' } h)
      · rename_i l' e hb
        rw [hb] at hk
        cases h
        exact f.alike_setIfInBounds hl hk

theorem alike_bind (f : ElementField K) (rule : QuadratureRule K) (orders : List Nat) :
    f.Alike (f.bind rule orders).1 :=
  f.alike_bindSlots rule orders f.slots rfl

omit [Scalar K] in
/-- The leaf in a slot is changed if it owns the block. -/
theorem changeOwner_cases {block : BlockId} {change : Leaf K → Checked (Leaf K)}
    {leaves leaves' : Array (Leaf K)} {slot : Nat}
    (h : changeOwner block change leaves slot = .ok leaves') :
    (∃ l l', leaves[slot]? = some l ∧ l.block = block ∧ change l = .ok l' ∧
      leaves' = leaves.setIfInBounds slot l') ∨
    (∀ l, leaves[slot]? = some l → l.block ≠ block) ∧ leaves' = leaves := by
  rw [changeOwner] at h
  split at h
  · rename_i hnone
    cases h
    exact Or.inr ⟨fun l hl => (nomatch hnone.symm.trans hl), rfl⟩
  · rename_i l hl
    split at h
    · rename_i hb
      obtain ⟨l', hl', h⟩ := bind_eq_ok_iff.1 h
      rw [pure_eq_ok_iff] at h
      exact Or.inl ⟨l, l', hl, hb, hl', h.symm⟩
    · rename_i hb
      cases h
      refine Or.inr ⟨fun m hm => ?_, rfl⟩
      obtain rfl := Option.some.inj (hl.symm.trans hm)
      exact hb

omit [Scalar K] in
theorem alike_changeOwners (f : ElementField K) {block : BlockId}
    {change : Leaf K → Checked (Leaf K)} (hc : ∀ l l', change l = .ok l' → l.SameKind l')
    {slots : List Nat} {leaves : Array (Leaf K)}
    (h : slots.foldlM (changeOwner block change) f.leaves = .ok leaves) :
    f.Alike { f with leaves } := by
  refine foldlM_keeps (fun leaves => f.Alike { f with leaves }) ?_ (Alike.refl f) h
  intro leaves slot leaves' hf hs
  apply hf.trans
  rcases changeOwner_cases hs with ⟨l, l', hl, -, hl', rfl⟩ | ⟨-, rfl⟩
  · exact alike_setIfInBounds { f with leaves } hl (hc l l' hl')
  · exact Alike.refl _

omit [Scalar K] in
/-- A correction is routed if the block has owners and its length suits all of them. -/
theorem correctOwners_eq_ok {f f' : ElementField K} {block : BlockId} {found : Nat}
    {expected : Leaf K → Nat} {change : Leaf K → Checked (Leaf K)}
    (h : f.correctOwners block found expected change = .ok f') :
    (f.owners block ≠ [] ∧ ∀ l ∈ f.owners block, expected l = found) ∧
      ∃ leaves, f.slots.foldlM (changeOwner block change) f.leaves = .ok leaves ∧
        f' = { f with leaves } := by
  unfold correctOwners at h
  split at h
  · nomatch h
  · rename_i hne
    obtain ⟨u, hu, h⟩ := bind_eq_ok_iff.1 h
    obtain ⟨leaves, hleaves, h⟩ := bind_eq_ok_iff.1 h
    rw [pure_eq_ok_iff] at h
    refine ⟨⟨?_, ?_⟩, leaves, ofChecked_eq_ok_iff.1 hleaves, h.symm⟩
    · intro he
      rw [he] at hne
      exact hne rfl
    · intro l hl
      have hc := forM_eq_ok_iff.1 hu l hl
      split at hc
      · assumption
      · nomatch hc

omit [Scalar K] in
theorem alike_correctOwners {f f' : ElementField K} {block : BlockId} {found : Nat}
    {expected : Leaf K → Nat} {change : Leaf K → Checked (Leaf K)}
    (hc : ∀ l l', change l = .ok l' → l.SameKind l')
    (h : f.correctOwners block found expected change = .ok f') : f.Alike f' := by
  obtain ⟨-, leaves, hleaves, rfl⟩ := correctOwners_eq_ok h
  exact f.alike_changeOwners hc hleaves

omit [Scalar K] in
theorem alike_modifyCoefficients {f f' : ElementField K} {block : BlockId}
    {change : Leaf K → Checked (Leaf K)} (hc : ∀ l l', change l = .ok l' → l.SameKind l')
    (h : f.modifyCoefficients block change = .ok f') : f.Alike f' := by
  obtain ⟨⟨slot, l⟩, hl, h⟩ := bind_eq_ok_iff.1 h
  obtain ⟨l', hl', h⟩ := bind_eq_ok_iff.1 h
  rw [pure_eq_ok_iff] at h
  subst h
  have hget : f.leaves[slot]? = some l := by
    unfold soleOwner at hl
    split at hl
    · nomatch hl
    · rename_i owner ho
      cases hl
      have hmem : (slot, l) ∈ [(slot, l)] := List.mem_singleton.2 rfl
      rw [← ho] at hmem
      obtain ⟨s, -, hs⟩ := List.mem_filterMap.1 hmem
      obtain ⟨m, hm, hs⟩ := Option.bind_eq_some_iff.1 hs
      split at hs
      · cases hs
        exact hm
      · nomatch hs
    · nomatch hl
  exact f.alike_setIfInBounds hget (hc l l' (lift_eq_ok_iff.1 hl'))

end Changes

end ElementField

section Built

variable [Scalar K]

/-- The fields that come out of the assembly, and what a solver turns them into. -/
inductive ElementField.Built : ElementField K → Prop where
  | build {b : Builder K} {root : Nat} {f : ElementField K} (hb : b.Reachable)
      (h : b.build root = .ok f) : Built f
  | bind {f : ElementField K} (rule : QuadratureRule K) (orders : List Nat) (hf : Built f) :
      Built (f.bind rule orders).1
  | update {f f' : ElementField K} {block : BlockId} {d : Vec K} (hf : Built f)
      (h : f.addToCoefficients block d = .ok f') : Built f'
  | embed {f f' : ElementField K} {block : BlockId} {d : Vec K} (hf : Built f)
      (h : f.addInEmbedding block d = .ok f') : Built f'
  | modify {f f' : ElementField K} {block : BlockId} {d : Vec K} (hf : Built f)
      (h : f.modifyCoefficients block (·.update d) = .ok f') : Built f'

end Built

inductive Expr.IsPart : Expr K → Expr K → Prop where
  | refl (e : Expr K) : IsPart e e
  | unary {p a : Expr K} (op : UnaryOp K) (h : IsPart p a) : IsPart p (.unary op a)
  | left {p a : Expr K} (op : BinaryOp) (b : Expr K) (h : IsPart p a) : IsPart p (.binary op a b)
  | right {p b : Expr K} (op : BinaryOp) (a : Expr K) (h : IsPart p b) : IsPart p (.binary op a b)

namespace ElementField

structure HostsLeaf (f : ElementField K) (slot : Nat) (signature : LeafSignature) (l : Leaf K) :
    Prop where
  slot_mem : slot ∈ f.slots
  get : f.leaves[slot]? = some l
  signature_eq : l.signature = signature
  gridDim : l.gridDim = f.gridDim
  info : ∃ info, f.blockInfo l.block = .ok info ∧ info.correctionSize = l.correctionSize ∧
    info.numCoefficients ≤ l.numCoefficients

def Hosts (f : ElementField K) : Expr K → Prop
  | .leaf slot signature => ∃ l, f.HostsLeaf slot signature l
  | .constant _ => True
  | .unary .negate a | .unary (.scale _) a => f.Hosts a
  | .unary (.map _) a => f.Hosts a ∧ a.valueSize = 1
  | .unary .strain a => f.Hosts a ∧ (a.valueSize = f.gridDim ∧ a.gridDim = some f.gridDim) ∧
      (1 ≤ f.gridDim ∧ f.gridDim ≤ 3) ∧ ∀ block, a.orderIn block ∈ [.constant, .linear]
  | .binary _ a b => (f.Hosts a ∧ f.Hosts b) ∧ a.valueSize = b.valueSize

theorem Hosts.part {f : ElementField K} {p e : Expr K} (h : f.Hosts e) (hp : p.IsPart e) :
    f.Hosts p := by
  induction hp with
  | refl => exact h
  | unary op _ ih =>
    cases op with
    | negate => exact ih h
    | scale factor => exact ih h
    | map g => exact ih h.1
    | strain => exact ih h.1
  | left op b _ ih => exact ih h.1.1
  | right op a _ ih => exact ih h.1.2

/-- A displacement whose strains are taken is at most linear in each block. -/
theorem Hosts.linear_of_strain {f : ElementField K} {a : Expr K} (h : f.Hosts (.unary .strain a))
    (block : BlockId) : (a.orderIn block).annihilatedBy 2 = true := by
  rcases List.mem_cons.1 (h.2.2.2 block) with ho | ho
  · exact ho ▸ rfl
  · exact List.mem_singleton.1 ho ▸ rfl

theorem mem_reachableLeaves {f : ElementField K} {slot : Nat} {l : Leaf K} (hs : slot ∈ f.slots)
    (hl : f.leaves[slot]? = some l) : l ∈ f.reachableLeaves :=
  List.mem_filterMap.2 ⟨slot, hs, hl⟩

theorem HostsLeaf.mem {f : ElementField K} {slot : Nat} {signature : LeafSignature} {l : Leaf K}
    (h : f.HostsLeaf slot signature l) : l ∈ f.reachableLeaves :=
  mem_reachableLeaves h.slot_mem h.get

/-- In an assembled expression whose leaves are those below the root, all parts are hosted. -/
theorem hosts_of_assembled {f : ElementField K} {e : Expr K} (h : e.Assembled f.leaves)
    (hdim : ∀ n, e.gridDim = some n → n = f.gridDim) (hslots : ∀ slot ∈ e.slots, slot ∈ f.slots)
    (hinfo : ∀ l ∈ f.reachableLeaves, ∃ info, f.blockInfo l.block = .ok info ∧
      info.correctionSize = l.correctionSize ∧ info.numCoefficients ≤ l.numCoefficients) :
    f.Hosts e := by
  induction e with
  | leaf slot signature =>
    obtain ⟨l, hl, rfl⟩ := h
    have hs : slot ∈ f.slots := hslots slot (List.mem_singleton.2 rfl)
    exact ⟨l, hs, hl, rfl, hdim _ rfl, hinfo l (mem_reachableLeaves hs hl)⟩
  | constant x => trivial
  | unary op a ih =>
    cases op with
    | negate => exact ih h hdim hslots
    | scale factor => exact ih h hdim hslots
    | map g => exact ⟨ih h.1 hdim hslots, h.2⟩
    | strain =>
      obtain ⟨ha, hn, hrange, horder⟩ := h
      have hV : a.valueSize = f.gridDim := hdim _ hn
      exact ⟨ih ha hdim hslots, ⟨hV, hV ▸ hn⟩, hV ▸ hrange, horder⟩
  | binary op a b iha ihb =>
    obtain ⟨⟨ha, hb⟩, hsize, hab⟩ := h
    have hda : ∀ n, a.gridDim = some n → n = f.gridDim := by
      intro n hn
      exact hdim n (by rw [Expr.gridDim, hn]; rfl)
    have hdb : ∀ n, b.gridDim = some n → n = f.gridDim := by
      intro n hn
      -- Where `a` has no leaf, the dimension of the sum or product is that of `b`.
      cases hna : a.gridDim with
      | none => exact hdim n (by rw [Expr.gridDim, hna, hn]; rfl)
      | some m => rw [← hab m n hna hn, hda m hna]
    exact ⟨⟨iha ha hda fun s hs => hslots s (List.mem_append_left _ hs),
      ihb hb hdb fun s hs => hslots s (List.mem_append_right _ hs)⟩, hsize⟩

/-- An expression whose slots and blocks come in increasing order is finished without sorting. -/
theorem build_eq_of_sorted {b : Builder K} {f : ElementField K}
    (htop : b.entries[f.root]? = some f.top)
    (hrest : b.leaves = f.leaves ∧ b.entries.toList.map Entry.node = f.nodes.toList)
    (hslots : f.top.summary.slots = f.slots) (hs : f.slots.Pairwise (· ≤ ·))
    (hblocks : f.reachableLeaves.foldlM BlockInfo.register [] = .ok f.blocks)
    (hb : f.blocks.Pairwise fun i j => i.block.index ≤ j.block.index) :
    b.build f.root = .ok f := by
  have hss : f.slots.mergeSort = f.slots := List.mergeSort_of_pairwise (hs.imp decide_eq_true)
  have hbs : f.blocks.mergeSort (fun i j => i.block.index ≤ j.block.index) = f.blocks :=
    List.mergeSort_of_pairwise (hb.imp decide_eq_true)
  have hnodes : b.entries.map Entry.node = f.nodes :=
    Array.toList_inj.1 (Array.toList_map.trans hrest.2)
  rw [reachableLeaves] at hblocks
  rw [Builder.build]
  simp only [htop, hslots, hss, hrest.1, hnodes, hblocks]
  show Except.ok _ = Except.ok f
  rw [hbs]

/-- What a finished expression knows of its blocks is true of its leaves. -/
theorem registers_of_build {b : Builder K} {root : Nat} {f : ElementField K}
    (h : b.build root = .ok f) : BlockInfo.Registers f.blocks f.reachableLeaves := by
  unfold Builder.build at h
  split at h
  · nomatch h
  · obtain ⟨infos, hinfos, h⟩ := bind_eq_ok_iff.1 h
    rw [pure_eq_ok_iff] at h
    subst h
    have hempty : BlockInfo.Registers ([] : List BlockInfo) ([] : List (Leaf K)) :=
      ⟨List.nodup_nil, fun l hl => absurd hl List.not_mem_nil,
        fun info hi => absurd hi List.not_mem_nil⟩
    have hr := hempty.foldlM hinfos
    rw [List.nil_append] at hr
    -- The table is sorted in the end, and what it registers does not depend on its order.
    exact hr.perm (List.mergeSort_perm _ _)

theorem hosts_of_build {b : Builder K} {root : Nat} {f : ElementField K} (hb : b.Reachable)
    (h : b.build root = .ok f) : f.Hosts f.expr := by
  have hr := registers_of_build h
  unfold Builder.build at h
  split at h
  · nomatch h
  · rename_i top htop
    obtain ⟨infos, hinfos, h⟩ := bind_eq_ok_iff.1 h
    rw [pure_eq_ok_iff] at h
    subst h
    refine hosts_of_assembled (hb.sound top (Array.mem_of_getElem? htop)) ?_ ?_ ?_
    · intro n hn
      have hn : top.expr.gridDim = some n := hn
      show n = top.gridDim.getD 0
      rw [top.gridDim_eq, hn, Option.getD_some]
    · intro slot hs
      rw [List.mem_mergeSort, top.summary_eq, Expr.slots_summary, List.mem_eraseDups]
      exact hs
    · intro l hl
      obtain ⟨info, hi, hblock, hsize, hn⟩ := hr.covers l hl
      refine ⟨info, ?_, hsize, hn⟩
      rw [blockInfo, ofOption_eq_ok_iff, ← hblock]
      exact hr.find?_eq hi

section Alike

variable {f f' : ElementField K}

theorem Alike.slots (h : f.Alike f') : f'.slots = f.slots := by rw [h.rest]

theorem Alike.expr (h : f.Alike f') : f'.expr = f.expr := by rw [h.rest]; rfl

theorem Alike.gridDim (h : f.Alike f') : f'.gridDim = f.gridDim := by rw [h.rest]; rfl

theorem Alike.blockInfo (h : f.Alike f') (block : BlockId) :
    f'.blockInfo block = f.blockInfo block := by
  rw [h.rest]
  rfl

theorem Alike.hostsLeaf (h : f.Alike f') {slot : Nat} {signature : LeafSignature} {l : Leaf K}
    (hl : f.HostsLeaf slot signature l) :
    ∃ l', f'.HostsLeaf slot signature l' ∧ l.SameKind l' := by
  obtain ⟨l', hl', hk⟩ := h.leaves slot l hl.get
  obtain ⟨info, hi, hc, hn⟩ := hl.info
  refine ⟨l', ⟨?_, hl', hk.signature.trans hl.signature_eq, ?_, info, ?_, ?_, ?_⟩, hk⟩
  · rw [h.slots]
    exact hl.slot_mem
  · rw [hk.gridDim, h.gridDim]
    exact hl.gridDim
  · rw [hk.block, h.blockInfo]
    exact hi
  · rw [hc, hk.correctionSize]
  · show info.numCoefficients ≤ l'.coefficients.size
    rw [hk.size]
    exact hn

theorem Alike.hosts (h : f.Alike f') {e : Expr K} (he : f.Hosts e) : f'.Hosts e := by
  induction e with
  | leaf slot signature =>
    obtain ⟨l, hl⟩ := he
    obtain ⟨l', hl', -⟩ := h.hostsLeaf hl
    exact ⟨l', hl'⟩
  | constant x => trivial
  | unary op a ih =>
    cases op with
    | negate => exact ih he
    | scale factor => exact ih he
    | map g => exact ⟨ih he.1, he.2⟩
    | strain =>
      obtain ⟨ha, hV, hrange, horder⟩ := he
      rw [← h.gridDim] at hV hrange
      exact ⟨ih ha, hV, hrange, horder⟩
  | binary op a b iha ihb => exact ⟨⟨iha he.1.1, ihb he.1.2⟩, he.2⟩

end Alike

variable [Scalar K]

theorem Built.hosts {f : ElementField K} (h : f.Built) : f.Hosts f.expr := by
  induction h with
  | build hb h => exact hosts_of_build hb h
  | @bind g rule orders _ ih =>
    have ha := g.alike_bind rule orders
    exact ha.expr ▸ ha.hosts ih
  | update _ h ih =>
    have ha := alike_correctOwners (fun _ _ => Leaf.sameKind_update) h
    exact ha.expr ▸ ha.hosts ih
  | embed _ h ih =>
    have ha := alike_correctOwners (fun _ _ => Leaf.sameKind_addInEmbedding) h
    exact ha.expr ▸ ha.hosts ih
  | modify _ h ih =>
    have ha := alike_modifyCoefficients (fun _ _ => Leaf.sameKind_update) h
    exact ha.expr ▸ ha.hosts ih

end ElementField

end ElementFields
