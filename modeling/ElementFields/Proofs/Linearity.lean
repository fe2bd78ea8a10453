import ElementFields.Proofs.Form

namespace ElementFields
open Scalar

variable {K : Type}

namespace Derivative

variable {D E S : Derivative K} {F : Form}

theorem HasForm.scale [Scalar K] (h : D.HasForm F) (s : K) : (D.scale s).HasForm F := by
  cases F with
  | matrix rows cols =>
    obtain ⟨m, rfl, hm⟩ := h.exists_matrix
    exact hm
  | perDirection count rows cols =>
    obtain ⟨ms, rfl, hl, hm⟩ := h.exists_perDirection
    refine ⟨by rw [List.length_map, hl], ?_⟩
    intro m hmem
    obtain ⟨n, hn, rfl⟩ := List.mem_map.1 hmem
    exact hm n hn

variable [ExactScalar K]

theorem toComponents_scale (D : Derivative K) (s : K) :
    (D.scale s).toComponents = D.toComponents.map (·.scale s) := by
  cases D <;> rfl

@[simp] theorem entry_scale (D : Derivative K) (s : K) (k i j : ℕ) :
    (D.scale s).entry k i j = D.entry k i j * s := by
  rw [entry, entry, toComponents_scale, List.getElem?_map]
  cases D.toComponents[k]? with
  | none => exact (zero_mul s).symm
  | some m => exact Mat.entry_scale m s i j

/-- A derivative of `count` matrices has no entries for further directions. -/
theorem entry_of_length_le {k : ℕ} (h : D.toComponents.length ≤ k) (i j : ℕ) :
    D.entry k i j = 0 := by
  rw [entry, List.getElem?_eq_none h]

/-- Answers of one form add up entry by entry. -/
theorem add_eq_ok (hD : D.HasForm F) (hE : E.HasForm F) (h : D.add E = .ok S) :
    S.HasForm F ∧ ∀ k i j, S.entry k i j = D.entry k i j + E.entry k i j := by
  cases F with
  | matrix rows cols =>
    obtain ⟨m, rfl, hm⟩ := hD.exists_matrix
    obtain ⟨n, rfl, hn⟩ := hE.exists_matrix
    obtain ⟨s, hs, h⟩ := bind_eq_ok_iff.1 h
    rw [pure_eq_ok_iff] at h
    subst h
    obtain ⟨-, hss, hse⟩ := Mat.add_eq_ok hs
    refine ⟨⟨hss.1.trans hm.1, hss.2.trans hm.2⟩, ?_⟩
    intro k i j
    cases k with
    | zero => exact hse i j
    | succ k => exact (add_zero 0).symm
  | perDirection count rows cols =>
    obtain ⟨ms, rfl, hml, hm⟩ := hD.exists_perDirection
    obtain ⟨ns, rfl, hnl, hn⟩ := hE.exists_perDirection
    obtain ⟨ss, hss, h⟩ := bind_eq_ok_iff.1 h
    rw [pure_eq_ok_iff] at h
    subst h
    obtain ⟨hsl, hse⟩ := mapM_eq_ok hss
    have hsl : ss.length = count := by
      rw [hsl, List.length_zip]
      show min ms.length ns.length = count
      rw [hml, hnl, Nat.min_self]
    have hcomp (k : ℕ) (hk : k < count) : ∃ s, ss[k]? = some s ∧ (s.rows = rows ∧ s.cols = cols) ∧
        ∀ i j, s.entry i j = (perDirection ms).entry k i j + (perDirection ns).entry k i j := by
      have hkm : ms[k]? = some _ := List.getElem?_eq_getElem (hml ▸ hk)
      have hkn : ns[k]? = some _ := List.getElem?_eq_getElem (hnl ▸ hk)
      obtain ⟨s, hs, hadd⟩ := hse k (ms[k], ns[k]) (List.getElem?_zip_eq_some.2 ⟨hkm, hkn⟩)
      obtain ⟨-, hss, hse⟩ := Mat.add_eq_ok hadd
      have hmk := hm _ (List.mem_of_getElem? hkm)
      refine ⟨s, hs, ⟨hss.1.trans hmk.1, hss.2.trans hmk.2⟩, ?_⟩
      intro i j
      rw [hse, entry_perDirection hkm, entry_perDirection hkn]
    refine ⟨⟨hsl, forall_mem_of_getElem? hsl fun k hk =>
      (hcomp k hk).imp fun s hs => ⟨hs.1, hs.2.1⟩⟩, ?_⟩
    intro k i j
    by_cases hk : k < count
    · obtain ⟨s, hs, -, he⟩ := hcomp k hk
      rw [entry_perDirection hs, he]
    · rw [entry_of_length_le (show ss.length ≤ k by omega),
        entry_of_length_le (show ms.length ≤ k by omega),
        entry_of_length_le (show ns.length ≤ k by omega), add_zero]

/-- Adding the zero tensor changes nothing. -/
theorem eq_of_add_zero (hD : D.HasForm F) (h : D.add F.zero = .ok S) : S = D := by
  obtain ⟨hS, he⟩ := add_eq_ok hD F.hasForm_zero h
  refine ext_of_hasForm hS hD fun k i j => ?_
  rw [he, Form.entry_zero, add_zero]

theorem eq_of_zero_add (hD : D.HasForm F) (h : F.zero.add D = .ok S) : S = D := by
  obtain ⟨hS, he⟩ := add_eq_ok F.hasForm_zero hD h
  refine ext_of_hasForm hS hD fun k i j => ?_
  rw [he, Form.entry_zero, zero_add]

end Derivative

end ElementFields
