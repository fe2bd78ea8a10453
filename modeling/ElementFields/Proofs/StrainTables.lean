import ElementFields.Proofs.Reading
import ElementFields.Proofs.StrainRule

namespace ElementFields
open Scalar
open scoped BigOperators

variable {K : Type} [ExactScalar K]

namespace Partials

open Strain

def variation (U : Partials K) (α : Variable) (d k : ℕ) : K := U.mixed k α d

/-- The strains in `dim` dimensions of a displacement with the table `U`, for reference tangents with
the components `A d k`. -/
def strains (dim : ℕ) (A : ℕ → ℕ → K) (U : Partials K) : Partials K where
  value q := pairing dim dim A (fun d k => U.slope k d) q +
    1 / 2 * pairing dim dim (fun d k => U.slope k d) (fun d k => U.slope k d) q
  slope _ _ := 0
  varied α q := pairing dim dim (fun d k => A d k + U.slope k d) (U.variation α) q
  mixed _ _ _ := 0
  twice α β q := pairing dim dim (U.variation α) (U.variation β) q
  thrice _ _ _ _ := 0

/-- Where the displacement does not vary with a variable, its strains do not either. -/
theorem strains_eq_zero {dim : ℕ} {A : ℕ → ℕ → K} {U : Partials K} {α : Variable}
    (h : ∀ d < dim, ∀ k, U.mixed k α d = 0) {q : ℕ}
    (hq : q < dim + (shearPairs dim).length) :
    (strains dim A U).varied α q = 0 ∧
      ∀ β, (strains dim A U).twice α β q = 0 ∧ (strains dim A U).twice β α q = 0 := by
  have hzero (x : ℕ → ℕ → K) : pairing dim dim x (U.variation α) q = 0 :=
    calc pairing dim dim x (U.variation α) q
        = pairing dim dim x (fun _ _ => 0) q :=
          pairing_congr (fun _ _ _ _ => rfl) (fun d hd k _ => h d hd k) hq
      _ = 0 := pairing_eq_zero (Or.inr fun _ _ => rfl)
  refine ⟨hzero fun d k => A d k + U.slope k d, fun β => ⟨?_, hzero (U.variation β)⟩⟩
  exact (pairing_comm (U.variation α) (U.variation β) q).trans (hzero (U.variation β))

/-- Strains are constant where the displacement is, and quadratic otherwise. -/
theorem Obeys.strains {dim : ℕ} {U : Partials K} {order : BlockId → PolynomialOrder}
    (h : U.Obeys dim order) (hdim : dim ≤ 3) (A : ℕ → ℕ → K) :
    (Partials.strains dim A U).Obeys (strainSize dim)
      fun block => (order block).unlessConstant .quadratic := by
  -- No derivative up to the second is annihilated by the quadratic order.
  have hconst {α : Variable} {n : ℕ} (hn : n < 3)
      (hα : ((order α.block).unlessConstant .quadratic).annihilatedBy n = true) :
      ∀ d < dim, ∀ k, U.mixed k α d = 0 := by
    have hquadratic : PolynomialOrder.quadratic.annihilatedBy n = false :=
      decide_eq_false (show ¬2 < n by omega)
    have hα := PolynomialOrder.constant_of_unlessConstant hquadratic hα
    exact fun d hd => (h.constant α hα d hd).2.1
  have hlt {q : ℕ} (hq : q < strainSize dim) : q < dim + (shearPairs dim).length :=
    (add_length_shearPairs hdim).symm ▸ hq
  refine ⟨?_, ?_⟩
  · intro α hα q hq
    have hα := hconst (n := 1) (by decide) (PolynomialOrder.annihilatedBy_one_iff.2 hα)
    obtain ⟨hvaried, htwice⟩ := strains_eq_zero (A := A) hα (hlt hq)
    exact ⟨hvaried, fun _ => rfl, fun β => ⟨htwice β, fun _ => ⟨rfl, rfl⟩⟩⟩
  · intro α β _ hα q hq
    have hα := hconst (n := 2) (by decide) hα
    exact ⟨((strains_eq_zero (A := A) hα (hlt hq)).2 β).1, fun _ => rfl⟩

end Partials

namespace Strain

variable {u : Operand K} {dim : ℕ} {C : BlockId → ℕ} {U : Partials K} {r : Request K}
  {reference : Site K → Outcome (Mat K)} {A : ℕ → ℕ → K}

theorem gradientOf_reads (hru : u.Reads dim dim C U r) (h : u.Answers (gradientRequest r.site))
    {d k : ℕ} (hd : d < dim) (hk : k < dim) : gradientOf u r.site d k = U.slope k d := by
  obtain ⟨D, hD⟩ := h
  have hread := (hru.derivative (gradientRequest r.site) D rfl
    ⟨Or.inr (Or.inr rfl), fun _ hc => absurd hc List.not_mem_nil⟩ (Request.fits_of_none rfl) hD).2
  rw [gradientOf, Operand.entry_of_ok hD]
  exact hread d hd k hk

theorem variationOf_reads (hru : u.Reads dim dim C U r) {c : Coefficient}
    (hc : c ∈ r.directions.coefficientList) (h : u.Answers (variationRequest r.site c)) {a d k : ℕ}
    (ha : a < C c.block) (hd : d < dim) (hk : k < dim) :
    variationOf u r.site c a d k = U.variation ⟨c, a⟩ d k := by
  obtain ⟨D, hD⟩ := h
  have hread := (hru.derivative (variationRequest r.site c) D rfl
    ⟨Or.inr (Or.inr rfl), fun _ hm => List.mem_singleton.1 hm ▸ hc⟩ (Request.fits_of_single rfl)
    hD).2
  rw [variationOf, Operand.entry_of_ok hD]
  exact hread k hk d hd a ha

variable (hu : u.Formed dim dim C r.directions) (hru : u.Reads dim dim C U r) (hdim : dim ≤ 3)
  (hA : ∀ m, reference r.site = .ok m → ∀ i j, m.entry i j = A i j)
include hu hru hdim hA

theorem value_reads {m : Mat K} (h : value dim reference u r.site = .ok m) :
    ∀ q < strainSize dim, m.entry q 0 = (Partials.strains dim A U).value q := by
  obtain ⟨T, hT, hans, -, -, he⟩ := value_eq_ok hu h
  have hgradient : ∀ d < dim, ∀ k < dim, gradientOf u r.site d k = U.slope k d :=
    fun d hd k hk => gradientOf_reads hru hans hd hk
  intro q hq
  rw [← add_length_shearPairs hdim] at hq
  rw [he q hq, pairing_congr (fun d _ k _ => hA T hT d k) hgradient hq,
    pairing_congr hgradient hgradient hq]
  rfl

/-- What the strain rule answers is read off the strains of the table. -/
theorem derivative_reads (hpos : 1 ≤ dim) (hfit : r.Fits (strainSize dim) dim) {D : Derivative K}
    (h : derivative dim reference u r = .ok D) :
    (Partials.strains dim A U).ReadBy (strainSize dim) dim C r D := by
  refine ⟨derivative_hasForm hu ⟨hpos, hdim⟩ h, ?_⟩
  rcases hs : r.directions.spatial with _ | s <;>
    rcases hc : r.directions.coefficients with _ | c | ⟨c₁, c₂⟩ <;>
    simp only [derivative, hs, hc] at h ⊢
  case none.none =>
    obtain ⟨m, hm, h⟩ := bind_eq_ok_iff.1 h
    rw [pure_eq_ok_iff] at h
    subst h
    exact value_reads hu hru hdim hA hm
  case none.single =>
    obtain ⟨T, hT, -, ⟨h₁, h₂⟩, -, he⟩ := coefficient_eq_ok hu hpos hs hc h
    intro q hq a ha
    rw [← add_length_shearPairs hdim] at hq
    rw [he q hq a ha]
    have hcurrent : ∀ d < dim, ∀ k < dim,
        T.entry d k + gradientOf u r.site d k = A d k + U.slope k d := fun d hd k hk => by
      rw [hA T hT, gradientOf_reads hru h₁ hd hk]
    have hvaried : ∀ d < dim, ∀ k < dim, variationOf u r.site c a d k = U.variation ⟨c, a⟩ d k :=
      fun d hd k hk => variationOf_reads hru (Directions.mem_coefficientList hc) h₂ ha hd hk
    exact pairing_congr hcurrent hvaried hq
  case none.two =>
    obtain ⟨hmem₁, hmem₂⟩ := Directions.mem_coefficientList_two hc
    obtain ⟨W, hW, ⟨h₁, h₂⟩, -, he⟩ := second_eq_ok hu hpos hc h
    obtain ⟨W', hW', -, hcols⟩ := hfit c₁ c₂ hc
    obtain rfl := Option.some.inj (hW.symm.trans hW')
    rw [hs, if_neg (by simp)] at hcols
    intro W' hW' a ha b hb
    obtain rfl := Option.some.inj (hW.symm.trans hW')
    rw [he, add_length_shearPairs hdim]
    refine Finset.sum_congr rfl fun q hq => ?_
    have hlt := lt_of_mem_strainSize hdim hq
    have hfirst : ∀ d < dim, ∀ k < dim, variationOf u r.site c₁ a d k = U.variation ⟨c₁, a⟩ d k :=
      fun d hd k hk => variationOf_reads hru hmem₁ h₁ ha hd hk
    have hsecond : ∀ d < dim, ∀ k < dim, variationOf u r.site c₂ b d k = U.variation ⟨c₂, b⟩ d k :=
      fun d hd k hk => variationOf_reads hru hmem₂ h₂ hb hd hk
    rw [Mat.entry_flatten_column hcols, pairing_congr hfirst hsecond hlt]
    rfl
  all_goals cases h

end Strain

namespace Expr

/-- The table of an expression, for given tables of its leaves, and with the reference tangents that
are given for the displacements below its strains. -/
def table (dim : ℕ) (A : Expr K → ℕ → ℕ → K) (T : ℕ → Partials K) : Expr K → Partials K
  | leaf slot _ => T slot
  | constant x => .const x
  | unary .negate a => (a.table dim A T).scale (-1)
  | unary (.scale s) a => (a.table dim A T).scale s
  | unary (.map g) a => .map (g.apply ((a.table dim A T).value 0))
    (g.derivatives ((a.table dim A T).value 0)) (a.table dim A T)
  | unary .strain a => .strains dim (A a) (a.table dim A T)
  | binary .sum a b => (a.table dim A T).add (b.table dim A T)
  | binary .dot a b => .inner a.valueSize (a.table dim A T) (b.table dim A T)

theorem table_eq_partials {dim : ℕ} {A : Expr K → ℕ → ℕ → K} {T : ℕ → Partials K} {e : Expr K}
    (h : e.StrainFree) : e.table dim A T = e.partials T := by
  induction e with
  | leaf slot signature => rfl
  | constant x => rfl
  | unary op a ih =>
    cases op with
    | strain => exact h.elim
    | _ => simp only [table, partials, ih h]
  | binary op a b iha ihb => cases op <;> simp only [table, partials, iha h.1, ihb h.2]

end Expr

end ElementFields
