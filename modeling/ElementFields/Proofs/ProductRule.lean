import Mathlib.Algebra.BigOperators.Pi
import ElementFields.Expression.Product
import ElementFields.Proofs.Form

namespace ElementFields
open Scalar
open scoped BigOperators

variable {K : Type} [ExactScalar K]

structure Operand.AnswersParts (o : Operand K) (r : Request K) (c₁ c₂ : Coefficient) : Prop where
  slope : o.Answers r.spatialPart
  first : o.Answers (r.coefficientPart c₁)
  second : o.Answers (r.coefficientPart c₂)
  mixedFirst : o.Answers (r.mixedPart c₁)
  mixedSecond : o.Answers (r.mixedPart c₂)

/-- What a rule of third order goes on with: the derivatives of an operand in each direction, in each of
two coefficients, and in a direction and a coefficient. -/
structure Operand.PartsAre (o : Operand K) (r : Request K) (V : ℕ) (C : BlockId → ℕ)
    (c₁ c₂ : Coefficient) (slopes : List (Mat K)) (first second : Mat K)
    (mixedFirst mixedSecond : List (Mat K)) : Prop where
  slope : ∀ {k m}, (liftM (componentAt slopes k) : Outcome (Mat K)) = .ok m →
    (m.rows = V ∧ m.cols = 1) ∧ ∀ i, m.entry i 0 = o.slope r i k
  first : (first.rows = V ∧ first.cols = C c₁.block) ∧ ∀ i j, first.entry i j = o.varied r c₁ i j
  second : (second.rows = V ∧ second.cols = C c₂.block) ∧
    ∀ i j, second.entry i j = o.varied r c₂ i j
  mixedFirst : ∀ {k m}, (liftM (componentAt mixedFirst k) : Outcome (Mat K)) = .ok m →
    (m.rows = V ∧ m.cols = C c₁.block) ∧ ∀ i j, m.entry i j = o.mixed r c₁ k i j
  mixedSecond : ∀ {k m}, (liftM (componentAt mixedSecond k) : Outcome (Mat K)) = .ok m →
    (m.rows = V ∧ m.cols = C c₂.block) ∧ ∀ i j, m.entry i j = o.mixed r c₂ k i j

theorem Operand.parts_eq_ok {o : Operand K} {V G : ℕ} {C : BlockId → ℕ} {r : Request K}
    (ho : o.Formed V G C r.directions) {s : SpatialDirection} {c₁ c₂ : Coefficient}
    (hs : r.directions.spatial = some s) (hc : r.directions.coefficients = .two c₁ c₂)
    {slopes mixedFirst mixedSecond : List (Mat K)} {first second : Mat K}
    (hslopes : o.spatialComponents r = .ok slopes) (hfirst : o.wrtCoefficient r c₁ = .ok first)
    (hsecond : o.wrtCoefficient r c₂ = .ok second)
    (hmixedFirst : o.mixedComponents r c₁ = .ok mixedFirst)
    (hmixedSecond : o.mixedComponents r c₂ = .ok mixedSecond) :
    o.AnswersParts r c₁ c₂ ∧ o.PartsAre r V C c₁ c₂ slopes first second mixedFirst mixedSecond := by
  obtain ⟨hmem₁, hmem₂⟩ := Directions.mem_coefficientList_two hc
  obtain ⟨h₁, hl, hslope⟩ := spatialComponents_eq_ok ho hs hslopes
  obtain ⟨h₂, hfirst⟩ := wrtCoefficient_eq_ok ho hmem₁ hfirst
  obtain ⟨h₃, hsecond⟩ := wrtCoefficient_eq_ok ho hmem₂ hsecond
  obtain ⟨h₄, hl₁, hmixed₁⟩ := mixedComponents_eq_ok ho hs hmem₁ hmixedFirst
  obtain ⟨h₅, hl₂, hmixed₂⟩ := mixedComponents_eq_ok ho hs hmem₂ hmixedSecond
  exact ⟨⟨h₁, h₂, h₃, h₄, h₅⟩, ⟨fun hm => (componentAt_eq_ok hl hslope hm).2, hfirst, hsecond,
    fun hm => (componentAt_eq_ok hl₁ hmixed₁ hm).2, fun hm => (componentAt_eq_ok hl₂ hmixed₂ hm).2⟩⟩

namespace Product

theorem crossSum_eq_ok {x m y n z : Mat K} (h : crossSum x m y n = .ok z) :
    (z.rows = x.cols ∧ z.cols = m.cols) ∧ ∀ i j, z.entry i j =
      ∑ d ∈ Finset.range x.rows, x.entry d i * m.entry d j +
        ∑ d ∈ Finset.range y.rows, y.entry d i * n.entry d j := by
  obtain ⟨p, hp, h⟩ := bind_eq_ok_iff.1 h
  obtain ⟨q, hq, h⟩ := bind_eq_ok_iff.1 h
  obtain ⟨-, hps, hpe⟩ := Mat.transposeMul_eq_ok hp
  obtain ⟨-, -, hqe⟩ := Mat.transposeMul_eq_ok hq
  obtain ⟨-, hs, he⟩ := Mat.add_eq_ok h
  refine ⟨⟨hs.1.trans hps.1, hs.2.trans hps.2⟩, ?_⟩
  intro i j
  rw [he, hpe, hqe]

theorem addProduct_eq_ok {sum x m z : Mat K} (h : addProduct sum x m = .ok z) :
    (z.rows = sum.rows ∧ z.cols = sum.cols) ∧ ∀ i j, z.entry i j =
      sum.entry i j + ∑ d ∈ Finset.range x.rows, x.entry d i * m.entry d j := by
  obtain ⟨p, hp, h⟩ := bind_eq_ok_iff.1 h
  obtain ⟨-, -, hpe⟩ := Mat.transposeMul_eq_ok hp
  obtain ⟨-, hs, he⟩ := Mat.add_eq_ok h
  refine ⟨hs, ?_⟩
  intro i j
  rw [he, hpe]

/-- The inner product of two columns. -/
theorem dot_column {x y : Mat K} {V : ℕ} {p : K} (hx : x.rows = V ∧ x.cols = 1)
    (h : x.dot y = .ok p) : p = ∑ d ∈ Finset.range V, x.entry d 0 * y.entry d 0 := by
  obtain ⟨-, he⟩ := Mat.dot_eq_ok h
  rw [he, hx.1, hx.2, Finset.sum_range_one]

variable {a b : Operand K} {V G : ℕ} {C : BlockId → ℕ} {r : Request K} {va vb : Mat K}
  {D : Derivative K} (ha : a.Formed V G C r.directions) (hb : b.Formed V G C r.directions)
  (hva : va.rows = V ∧ va.cols = 1) (hvb : vb.rows = V ∧ vb.cols = 1)

theorem value_eq_ok {site : Site K} {m : Mat K} (h : Product.value a b site = .ok m) :
    ∃ va vb, a.value site = .ok va ∧ b.value site = .ok vb ∧
      ∃ p, va.dot vb = .ok p ∧ m = .scalar p := by
  obtain ⟨va, hva, h⟩ := bind_eq_ok_iff.1 h
  obtain ⟨vb, hvb, h⟩ := bind_eq_ok_iff.1 h
  obtain ⟨p, hp, h⟩ := bind_eq_ok_iff.1 h
  exact ⟨va, vb, hva, hvb, p, lift_eq_ok_iff.1 hp, (pure_eq_ok_iff.1 h).symm⟩

include ha hb hva hvb

omit hvb in
theorem spatial_eq_ok {s : SpatialDirection} (hs : r.directions.spatial = some s)
    (hc : r.directions.coefficients = .none) (h : spatial a b r va vb = .ok D) :
    (a.Answers r.spatialPart ∧ b.Answers r.spatialPart) ∧
      D.HasForm (r.directions.form 1 G C) ∧
      ∀ k, k < s.count G → D.entry 0 0 k = ∑ d ∈ Finset.range V,
        (a.slope r d k * vb.entry d 0 + va.entry d 0 * b.slope r d k) := by
  obtain ⟨as, has, h⟩ := bind_eq_ok_iff.1 h
  obtain ⟨bs, hbs, h⟩ := bind_eq_ok_iff.1 h
  obtain ⟨ms, hms, h⟩ := bind_eq_ok_iff.1 h
  rw [lift_eq_ok_iff] at h
  obtain ⟨haa, hal, hae⟩ := Operand.spatialComponents_eq_ok ha hs has
  obtain ⟨hba, hbl, hbe⟩ := Operand.spatialComponents_eq_ok hb hs hbs
  obtain ⟨hml, hme⟩ := mapM_eq_ok hms
  rw [List.length_zip, hal, hbl, Nat.min_self] at hml
  -- Each component is the number that the two columns give.
  have hcomp (k : ℕ) (hk : k < s.count G) : ∃ p : K, ms[k]? = some (.scalar p) ∧
      p = ∑ d ∈ Finset.range V, (a.slope r d k * vb.entry d 0 + va.entry d 0 * b.slope r d k) := by
    obtain ⟨ak, hak, hak', hake⟩ := hae k hk
    obtain ⟨bk, hbk, -, hbke⟩ := hbe k hk
    obtain ⟨m, hm, hf⟩ := hme k (ak, bk) (List.getElem?_zip_eq_some.2 ⟨hak, hbk⟩)
    obtain ⟨p, hp, hf⟩ := bind_eq_ok_iff.1 hf
    obtain ⟨q, hq, hf⟩ := bind_eq_ok_iff.1 hf
    rw [pure_eq_ok_iff] at hf
    subst hf
    refine ⟨_, hm, ?_⟩
    rw [dot_column hak' (lift_eq_ok_iff.1 hp), dot_column hva (lift_eq_ok_iff.1 hq),
      ← Finset.sum_add_distrib]
    simp only [hake, hbke]
  have hshape : ∀ m ∈ ms, m.rows = 1 ∧ m.cols = 1 :=
    forall_mem_of_getElem? hml fun k hk =>
      (hcomp k hk).elim fun p hp => ⟨.scalar p, hp.1, rfl, rfl⟩
  obtain ⟨hF, he⟩ := Derivative.ofComponents_spatial (C := C) hs hc hml hshape h
  refine ⟨⟨haa, hba⟩, hF, ?_⟩
  intro k hk
  obtain ⟨p, hp, hpe⟩ := hcomp k hk
  rw [he k _ hp, Mat.entry_scalar, hpe]

/-- The slopes of a product are answered if those of the operands are. -/
theorem exists_spatial {s : SpatialDirection} (hs : r.directions.spatial = some s)
    (hc : r.directions.coefficients = .none) (h₁ : a.Answers r.spatialPart)
    (h₂ : b.Answers r.spatialPart) : ∃ D, spatial a b r va vb = .ok D := by
  have hcolumns {o : Operand K} (ho : o.Formed V G C r.directions) (h : o.Answers r.spatialPart) :
      ∃ ms, o.spatialComponents r = .ok ms ∧ ∀ m ∈ ms, m.rows = V ∧ m.cols = 1 := by
    obtain ⟨m, hm⟩ := Operand.exists_derivativeMatrix ho r.spatialPart_drawnFrom
      (Request.fits_of_none rfl) (Directions.form_spatial hs rfl) h
    have hms : o.spatialComponents r = .ok m.splitColumns := bind_eq_ok_iff.2 ⟨m, hm, rfl⟩
    obtain ⟨-, hl, he⟩ := Operand.spatialComponents_eq_ok ho hs hms
    exact ⟨_, hms, forall_mem_of_getElem? hl fun k hk => (he k hk).imp fun n hn => ⟨hn.1, hn.2.1⟩⟩
  obtain ⟨as, has, hashape⟩ := hcolumns ha h₁
  obtain ⟨bs, hbs, hbshape⟩ := hcolumns hb h₂
  have hitem : ∀ p ∈ as.zip bs, ∃ m : Mat K, (do
      return Mat.scalar ((← p.1.dot vb) + (← va.dot p.2)) : Outcome (Mat K)) = .ok m ∧
      m.rows = 1 := by
    intro p hp
    obtain ⟨hpa, hpb⟩ := List.of_mem_zip (a := p.1) (b := p.2) hp
    obtain ⟨x, hx⟩ := Mat.exists_dot ((hashape _ hpa).1.trans hvb.1.symm)
      ((hashape _ hpa).2.trans hvb.2.symm)
    obtain ⟨y, hy⟩ := Mat.exists_dot (hva.1.trans (hbshape _ hpb).1.symm)
      (hva.2.trans (hbshape _ hpb).2.symm)
    refine ⟨.scalar (x + y), ?_, rfl⟩
    exact bind_eq_ok_iff.2 ⟨x, lift_eq_ok_iff.2 hx, bind_eq_ok_iff.2 ⟨y, lift_eq_ok_iff.2 hy, rfl⟩⟩
  obtain ⟨ms, hms⟩ := exists_mapM fun p hp => (hitem p hp).imp fun m hm => hm.1
  have hrows : ∀ m ∈ ms, m.rows = 1 := by
    obtain ⟨hl, he⟩ := mapM_eq_ok hms
    refine forall_mem_of_getElem? rfl fun k hk => ?_
    have hk' : k < (as.zip bs).length := hl ▸ hk
    obtain ⟨m, hm, hf⟩ := he k _ (List.getElem?_eq_getElem hk')
    obtain ⟨m', hm', hr⟩ := hitem _ (List.getElem_mem hk')
    exact ⟨m, hm, (Except.ok.inj (hf.symm.trans hm')) ▸ hr⟩
  refine ⟨.matrix (.ofFn 1 (Mat.totalCols ms) (Mat.stackedEntry ms)), ?_⟩
  refine bind_eq_ok_iff.2 ⟨as, has, bind_eq_ok_iff.2 ⟨bs, hbs, bind_eq_ok_iff.2 ⟨ms, hms, ?_⟩⟩⟩
  rw [lift_eq_ok_iff]
  simp only [Derivative.ofComponents, hs, hc]
  exact bind_eq_ok_iff.2 ⟨_, Checked.require_eq_ok_iff.2 ⟨hrows, rfl⟩, rfl⟩

theorem coefficient_eq_ok {c : Coefficient} (hs : r.directions.spatial = none)
    (hc : r.directions.coefficients = .single c) (h : coefficient a b r va vb c = .ok D) :
    (a.Answers (r.coefficientPart c) ∧ b.Answers (r.coefficientPart c)) ∧
      D.HasForm (r.directions.form 1 G C) ∧
      ∀ j, D.entry 0 0 j = ∑ d ∈ Finset.range V,
        (vb.entry d 0 * a.varied r c d j + va.entry d 0 * b.varied r c d j) := by
  have hmem := Directions.mem_coefficientList hc
  obtain ⟨ac, hac, h⟩ := bind_eq_ok_iff.1 h
  obtain ⟨bc, hbc, h⟩ := bind_eq_ok_iff.1 h
  obtain ⟨m, hm, h⟩ := bind_eq_ok_iff.1 h
  rw [pure_eq_ok_iff] at h
  subst h
  obtain ⟨haa, has, hae⟩ := Operand.wrtCoefficient_eq_ok ha hmem hac
  obtain ⟨hba, hbs, hbe⟩ := Operand.wrtCoefficient_eq_ok hb hmem hbc
  obtain ⟨hms, hme⟩ := crossSum_eq_ok (lift_eq_ok_iff.1 hm)
  rw [Directions.form_single hs hc]
  refine ⟨⟨haa, hba⟩, ⟨hms.1.trans hvb.2, hms.2.trans has.2⟩, ?_⟩
  intro j
  rw [Derivative.entry_matrix, hme, hva.1, hvb.1, ← Finset.sum_add_distrib]
  simp only [hae, hbe]

theorem mixed_eq_ok {s : SpatialDirection} {c : Coefficient}
    (hs : r.directions.spatial = some s) (hc : r.directions.coefficients = .single c)
    (h : mixed a b r va vb c = .ok D) :
    ((a.Answers r.spatialPart ∧ b.Answers r.spatialPart) ∧
      (a.Answers (r.coefficientPart c) ∧ b.Answers (r.coefficientPart c)) ∧
      a.Answers (r.mixedPart c) ∧ b.Answers (r.mixedPart c)) ∧
      D.HasForm (r.directions.form 1 G C) ∧
      ∀ k, k < s.count G → ∀ j, D.entry k 0 j = ∑ d ∈ Finset.range V,
        (b.slope r d k * a.varied r c d j + vb.entry d 0 * a.mixed r c k d j +
          a.slope r d k * b.varied r c d j + va.entry d 0 * b.mixed r c k d j) := by
  have hmem := Directions.mem_coefficientList hc
  obtain ⟨as, has, h⟩ := bind_eq_ok_iff.1 h
  obtain ⟨bs, hbs, h⟩ := bind_eq_ok_iff.1 h
  obtain ⟨ac, hac, h⟩ := bind_eq_ok_iff.1 h
  obtain ⟨bc, hbc, h⟩ := bind_eq_ok_iff.1 h
  obtain ⟨asc, hasc, h⟩ := bind_eq_ok_iff.1 h
  obtain ⟨bsc, hbsc, h⟩ := bind_eq_ok_iff.1 h
  obtain ⟨ms, hms, h⟩ := bind_eq_ok_iff.1 h
  rw [lift_eq_ok_iff] at h
  obtain ⟨h1, hal, hae⟩ := Operand.spatialComponents_eq_ok ha hs has
  obtain ⟨h2, hbl, hbe⟩ := Operand.spatialComponents_eq_ok hb hs hbs
  obtain ⟨h3, hacs, hace⟩ := Operand.wrtCoefficient_eq_ok ha hmem hac
  obtain ⟨h4, -, hbce⟩ := Operand.wrtCoefficient_eq_ok hb hmem hbc
  obtain ⟨h5, hascl, hasce⟩ := Operand.mixedComponents_eq_ok ha hs hmem hasc
  obtain ⟨h6, hbscl, hbsce⟩ := Operand.mixedComponents_eq_ok hb hs hmem hbsc
  obtain ⟨hml, hme⟩ := mapM_eq_ok hms
  rw [List.length_zip, List.length_zip, List.length_zip, hal, hbl, hascl, hbscl, Nat.min_self,
    Nat.min_self] at hml
  -- In each direction, the four products of the rule.
  have hcomp (k : ℕ) (hk : k < s.count G) : ∃ m, ms[k]? = some m ∧
      (m.rows = 1 ∧ m.cols = C c.block) ∧ ∀ j, m.entry 0 j = ∑ d ∈ Finset.range V,
        (b.slope r d k * a.varied r c d j + vb.entry d 0 * a.mixed r c k d j +
          a.slope r d k * b.varied r c d j + va.entry d 0 * b.mixed r c k d j) := by
    obtain ⟨ak, hak, haks, hake⟩ := hae k hk
    obtain ⟨bk, hbk, hbks, hbke⟩ := hbe k hk
    obtain ⟨akc, hakc, hakcs, hakce⟩ := hasce k hk
    obtain ⟨bkc, hbkc, -, hbkce⟩ := hbsce k hk
    obtain ⟨m, hm, hf⟩ := hme k ((ak, bk), (akc, bkc))
      (List.getElem?_zip_eq_some.2 ⟨List.getElem?_zip_eq_some.2 ⟨hak, hbk⟩,
        List.getElem?_zip_eq_some.2 ⟨hakc, hbkc⟩⟩)
    obtain ⟨p, hp, hf⟩ := bind_eq_ok_iff.1 hf
    obtain ⟨q, hq, hf⟩ := bind_eq_ok_iff.1 hf
    obtain ⟨hps, hpe⟩ := crossSum_eq_ok (lift_eq_ok_iff.1 hp)
    obtain ⟨hqs, hqe⟩ := addProduct_eq_ok (lift_eq_ok_iff.1 hq)
    obtain ⟨hfs, hfe⟩ := addProduct_eq_ok (lift_eq_ok_iff.1 hf)
    refine ⟨m, hm, ⟨hfs.1.trans (hqs.1.trans (hps.1.trans hbks.2)),
      hfs.2.trans (hqs.2.trans (hps.2.trans hacs.2))⟩, ?_⟩
    intro j
    rw [hfe, hqe, hpe, hbks.1, hvb.1, haks.1, hva.1]
    simp only [hake, hbke, hace, hbce, hakce, hbkce, Finset.sum_add_distrib]
  have hshape : ∀ m ∈ ms, m.rows = 1 ∧ m.cols = C c.block :=
    forall_mem_of_getElem? hml fun k hk => (hcomp k hk).imp fun m hm => ⟨hm.1, hm.2.1⟩
  obtain ⟨hF, he⟩ := Derivative.ofComponents_mixed (C := C) hs hc hml hshape h
  refine ⟨⟨⟨h1, h2⟩, ⟨h3, h4⟩, h5, h6⟩, hF, ?_⟩
  intro k hk j
  obtain ⟨m, hm, -, hme⟩ := hcomp k hk
  rw [he k m hm, hme]

theorem second_eq_ok {c₁ c₂ : Coefficient} (hc : r.directions.coefficients = .two c₁ c₂)
    (h : second a b r va vb c₁ c₂ = .ok D) :
    ∃ W w, r.along = some W ∧ W.entryAt 0 0 = .ok w ∧
      ((a.Answers (r.coefficientPart c₁) ∧ a.Answers (r.coefficientPart c₂)) ∧
        (b.Answers (r.coefficientPart c₁) ∧ b.Answers (r.coefficientPart c₂)) ∧
        a.Answers (r.withoutSpatialAlong (some (vb.scale w))) ∧
        b.Answers (r.withoutSpatialAlong (some (va.scale w)))) ∧
      D.HasForm (r.directions.form 1 G C) ∧
      ∀ i j, D.entry 0 i j =
        (∑ d ∈ Finset.range V,
          (a.varied r c₁ d i * b.varied r c₂ d j + b.varied r c₁ d i * a.varied r c₂ d j)) * w +
        a.twice r (vb.scale w) i j + b.twice r (va.scale w) i j := by
  obtain ⟨hmem₁, hmem₂⟩ := Directions.mem_coefficientList_two hc
  obtain ⟨W, hW, h⟩ := bind_eq_ok_iff.1 h
  obtain ⟨w, hw, h⟩ := bind_eq_ok_iff.1 h
  obtain ⟨a₁, ha₁, h⟩ := bind_eq_ok_iff.1 h
  obtain ⟨a₂, ha₂, h⟩ := bind_eq_ok_iff.1 h
  obtain ⟨b₁, hb₁, h⟩ := bind_eq_ok_iff.1 h
  obtain ⟨b₂, hb₂, h⟩ := bind_eq_ok_iff.1 h
  obtain ⟨x, hx, h⟩ := bind_eq_ok_iff.1 h
  obtain ⟨aw, haw, h⟩ := bind_eq_ok_iff.1 h
  obtain ⟨y, hy, h⟩ := bind_eq_ok_iff.1 h
  obtain ⟨bw, hbw, h⟩ := bind_eq_ok_iff.1 h
  obtain ⟨z, hz, h⟩ := bind_eq_ok_iff.1 h
  rw [pure_eq_ok_iff] at h
  subst h
  obtain ⟨h1, ha₁s, ha₁e⟩ := Operand.wrtCoefficient_eq_ok ha hmem₁ ha₁
  obtain ⟨h2, ha₂s, ha₂e⟩ := Operand.wrtCoefficient_eq_ok ha hmem₂ ha₂
  obtain ⟨h3, hb₁s, hb₁e⟩ := Operand.wrtCoefficient_eq_ok hb hmem₁ hb₁
  obtain ⟨h4, hb₂s, hb₂e⟩ := Operand.wrtCoefficient_eq_ok hb hmem₂ hb₂
  obtain ⟨h5, -, hawe⟩ := Operand.secondAlong_eq_ok ha hc haw hvb
  obtain ⟨h6, -, hbwe⟩ := Operand.secondAlong_eq_ok hb hc hbw hva
  obtain ⟨hxs, hxe⟩ := crossSum_eq_ok (lift_eq_ok_iff.1 hx)
  obtain ⟨-, hys, hye⟩ := Mat.add_eq_ok (lift_eq_ok_iff.1 hy)
  obtain ⟨-, hzs, hze⟩ := Mat.add_eq_ok (lift_eq_ok_iff.1 hz)
  refine ⟨W, w, ofOption_eq_ok_iff.1 hW, lift_eq_ok_iff.1 hw, ⟨⟨h1, h2⟩, ⟨h3, h4⟩, h5, h6⟩, ?_, ?_⟩
  · rw [Directions.form_two hc]
    exact ⟨hzs.1.trans (hys.1.trans (hxs.1.trans ha₁s.2)),
      hzs.2.trans (hys.2.trans (hxs.2.trans hb₂s.2))⟩
  · intro i j
    rw [Derivative.entry_matrix, hze, hye, Mat.entry_scale, hxe, hawe, hbwe, ha₁s.1, hb₁s.1,
      ← Finset.sum_add_distrib]
    simp only [ha₁e, ha₂e, hb₁e, hb₂e]

def Weighted.HasShape (rows cols V : ℕ) (sums : Weighted K) : Prop :=
  (sums.products.rows = rows ∧ sums.products.cols = cols) ∧
    (sums.alongA.rows = V ∧ sums.alongA.cols = 1) ∧ sums.alongB.rows = V ∧ sums.alongB.cols = 1

def Weighted.totals (sums : Weighted K) : (ℕ → ℕ → K) × (ℕ → K) × (ℕ → K) :=
  (sums.products.entry, fun d => sums.alongA.entry d 0, fun d => sums.alongB.entry d 0)

def crossProducts (a b : Operand K) (r : Request K) (c₁ c₂ : Coefficient) (V k i j : ℕ) : K :=
  ∑ d ∈ Finset.range V,
    (a.mixed r c₁ k d i * b.varied r c₂ d j + a.varied r c₁ d i * b.mixed r c₂ k d j +
      b.mixed r c₁ k d i * a.varied r c₂ d j + b.varied r c₁ d i * a.mixed r c₂ k d j)

omit ha hb hva hvb in
/-- What direction `k` adds to the sums, with the component `w` of the argument. -/
theorem weigh_eq_ok {c₁ c₂ : Coefficient} {as as₁ as₂ bs bs₁ bs₂ : List (Mat K)}
    {a₁ a₂ b₁ b₂ : Mat K} (hA : a.PartsAre r V C c₁ c₂ as a₁ a₂ as₁ as₂)
    (hB : b.PartsAre r V C c₁ c₂ bs b₁ b₂ bs₁ bs₂) {sums t : Weighted K} {w : K} {k : ℕ}
    (hP : sums.HasShape (C c₁.block) (C c₂.block) V)
    (h : (do
      let sum ← crossSum (← componentAt as₁ k) b₂ a₁ (← componentAt bs₂ k)
      let sum ← addProduct sum (← componentAt bs₁ k) a₂
      let sum ← addProduct sum b₁ (← componentAt as₂ k)
      return {
        products := ← sums.products.add (sum.scale w)
        alongA := ← sums.alongA.add ((← componentAt bs k).scale w)
        alongB := ← sums.alongB.add ((← componentAt as k).scale w) } :
          Outcome (Weighted K)) = .ok t) :
    t.HasShape (C c₁.block) (C c₂.block) V ∧ t.totals = sums.totals +
      (fun i j => crossProducts a b r c₁ c₂ V k i j * w, fun d => b.slope r d k * w,
        fun d => a.slope r d k * w) := by
  obtain ⟨a₁k, ha₁k, h⟩ := bind_eq_ok_iff.1 h
  obtain ⟨b₂k, hb₂k, h⟩ := bind_eq_ok_iff.1 h
  obtain ⟨x, hx, h⟩ := bind_eq_ok_iff.1 h
  obtain ⟨b₁k, hb₁k, h⟩ := bind_eq_ok_iff.1 h
  obtain ⟨y, hy, h⟩ := bind_eq_ok_iff.1 h
  obtain ⟨a₂k, ha₂k, h⟩ := bind_eq_ok_iff.1 h
  obtain ⟨z, hz, h⟩ := bind_eq_ok_iff.1 h
  obtain ⟨p, hp, h⟩ := bind_eq_ok_iff.1 h
  obtain ⟨bk, hbk, h⟩ := bind_eq_ok_iff.1 h
  obtain ⟨la, hla, h⟩ := bind_eq_ok_iff.1 h
  obtain ⟨ak, hak, h⟩ := bind_eq_ok_iff.1 h
  obtain ⟨lb, hlb, h⟩ := bind_eq_ok_iff.1 h
  rw [pure_eq_ok_iff] at h
  subst h
  obtain ⟨ha₁ks, ha₁ke⟩ := hA.mixedFirst ha₁k
  obtain ⟨-, ha₂ke⟩ := hA.mixedSecond ha₂k
  obtain ⟨hb₁ks, hb₁ke⟩ := hB.mixedFirst hb₁k
  obtain ⟨-, hb₂ke⟩ := hB.mixedSecond hb₂k
  obtain ⟨-, hake⟩ := hA.slope hak
  obtain ⟨-, hbke⟩ := hB.slope hbk
  obtain ⟨-, hxe⟩ := crossSum_eq_ok (lift_eq_ok_iff.1 hx)
  obtain ⟨-, hye⟩ := addProduct_eq_ok (lift_eq_ok_iff.1 hy)
  obtain ⟨-, hze⟩ := addProduct_eq_ok (lift_eq_ok_iff.1 hz)
  obtain ⟨-, hps, hpe⟩ := Mat.add_eq_ok (lift_eq_ok_iff.1 hp)
  obtain ⟨-, hlas, hlae⟩ := Mat.add_eq_ok (lift_eq_ok_iff.1 hla)
  obtain ⟨-, hlbs, hlbe⟩ := Mat.add_eq_ok (lift_eq_ok_iff.1 hlb)
  obtain ⟨hP₁, hP₂, hP₃⟩ := hP
  refine ⟨⟨⟨hps.1.trans hP₁.1, hps.2.trans hP₁.2⟩, ⟨hlas.1.trans hP₂.1, hlas.2.trans hP₂.2⟩,
    hlbs.1.trans hP₃.1, hlbs.2.trans hP₃.2⟩, ?_⟩
  refine Prod.ext ?_ (Prod.ext ?_ ?_)
  · funext i j
    show p.entry i j = sums.products.entry i j + crossProducts a b r c₁ c₂ V k i j * w
    rw [hpe, Mat.entry_scale, hze, hye, hxe, ha₁ks.1, hA.first.1.1, hb₁ks.1, hB.first.1.1,
      crossProducts]
    simp only [hA.first.2, hA.second.2, hB.first.2, hB.second.2, ha₁ke, ha₂ke, hb₁ke, hb₂ke,
      Finset.sum_add_distrib]
  · funext d
    show la.entry d 0 = sums.alongA.entry d 0 + b.slope r d k * w
    rw [hlae, Mat.entry_scale, hbke]
  · funext d
    show lb.entry d 0 = sums.alongB.entry d 0 + a.slope r d k * w
    rw [hlbe, Mat.entry_scale, hake]

omit ha hb hva hvb in
/-- All three sums over the directions are followed at once, entry by entry. -/
theorem sums_eq_ok {c₁ c₂ : Coefficient} {W : Mat K} (hrow : W.rows = 1)
    {step : Weighted K → K × ℕ → Outcome (Weighted K)} {rows cols rowsA rowsB : ℕ}
    {sums : Weighted K}
    (hstart : Weighted.HasShape (K := K) (C c₁.block) (C c₂.block) V
      ⟨.zero rows cols, .zero rowsA 1, .zero rowsB 1⟩)
    (hstep : ∀ {s t : Weighted K} {w : K} {k : ℕ}, s.HasShape (C c₁.block) (C c₂.block) V →
      step s (w, k) = .ok t → t.HasShape (C c₁.block) (C c₂.block) V ∧ t.totals = s.totals +
        (fun i j => crossProducts a b r c₁ c₂ V k i j * w, fun d => b.slope r d k * w,
          fun d => a.slope r d k * w))
    (h : W.flatten.toList.zipIdx.foldlM step ⟨.zero rows cols, .zero rowsA 1, .zero rowsB 1⟩ =
      .ok sums) :
    sums.HasShape (C c₁.block) (C c₂.block) V ∧
      (∀ i j, sums.products.entry i j =
        ∑ k ∈ Finset.range W.cols, crossProducts a b r c₁ c₂ V k i j * W.entry 0 k) ∧
      (∀ d, sums.alongA.entry d 0 = ∑ k ∈ Finset.range W.cols, b.slope r d k * W.entry 0 k) ∧
      ∀ d, sums.alongB.entry d 0 = ∑ k ∈ Finset.range W.cols, a.slope r d k * W.entry 0 k := by
  obtain ⟨hshape, hμ⟩ := foldlM_zipIdx_adds (Weighted.HasShape (C c₁.block) (C c₂.block) V)
    Weighted.totals _ (fun s w k t hP ht => hstep hP ht) hstart h
  have hsize : W.flatten.size = W.cols := by
    rw [Mat.flatten, W.size_entries, hrow, Nat.one_mul]
  rw [hsize] at hμ
  refine ⟨hshape, fun i j => ?_, fun d => ?_, fun d => ?_⟩
  · have := congrFun (congrFun (congrArg Prod.fst hμ) i) j
    simpa [Weighted.totals, Prod.fst_sum, Finset.sum_apply, Mat.entry_flatten_row hrow] using this
  · have := congrFun (congrArg (fun p => p.2.1) hμ) d
    simpa [Weighted.totals, Prod.fst_sum, Prod.snd_sum, Finset.sum_apply, Mat.entry_flatten_row hrow]
      using this
  · have := congrFun (congrArg (fun p => p.2.2) hμ) d
    simpa [Weighted.totals, Prod.snd_sum, Finset.sum_apply, Mat.entry_flatten_row hrow] using this

/-- The arguments along which the rule of third order differentiates the operands again: the slopes
of the other operand weighted by directions, and the values of the other operand. -/
structure ThirdAlongs (a b : Operand K) (r : Request K) (va vb W : Mat K) (V : ℕ)
    (la lb ma mb : Mat K) : Prop where
  rows_la : la.rows = V ∧ la.cols = 1
  rows_lb : lb.rows = V ∧ lb.cols = 1
  rows_ma : ma.rows = V ∧ ma.cols = W.cols
  rows_mb : mb.rows = V ∧ mb.cols = W.cols
  la_eq : ∀ d, la.entry d 0 = ∑ k ∈ Finset.range W.cols, b.slope r d k * W.entry 0 k
  lb_eq : ∀ d, lb.entry d 0 = ∑ k ∈ Finset.range W.cols, a.slope r d k * W.entry 0 k
  ma_eq : ∀ d k, ma.entry d k = vb.entry d 0 * W.entry 0 k
  mb_eq : ∀ d k, mb.entry d k = va.entry d 0 * W.entry 0 k

theorem third_eq_ok {s : SpatialDirection} {c₁ c₂ : Coefficient}
    (hs : r.directions.spatial = some s) (hc : r.directions.coefficients = .two c₁ c₂)
    (hfit : r.Fits 1 G) (h : third a b r va vb c₁ c₂ = .ok D) :
    ∃ W la lb ma mb, r.along = some W ∧ (W.rows = 1 ∧ W.cols = s.count G) ∧
      ThirdAlongs a b r va vb W V la lb ma mb ∧
      ((a.AnswersParts r c₁ c₂ ∧ b.AnswersParts r c₁ c₂) ∧
        (a.Answers (r.withoutSpatialAlong (some la)) ∧
          b.Answers (r.withoutSpatialAlong (some lb))) ∧
        a.Answers (r.withAlong (some ma)) ∧ b.Answers (r.withAlong (some mb))) ∧
      D.HasForm (r.directions.form 1 G C) ∧
      ∀ i j, D.entry 0 i j =
        ∑ k ∈ Finset.range W.cols, crossProducts a b r c₁ c₂ V k i j * W.entry 0 k +
          a.twice r la i j + b.twice r lb i j + a.thrice r ma i j + b.thrice r mb i j := by
  obtain ⟨W, hW, h⟩ := bind_eq_ok_iff.1 h
  obtain ⟨aks, haks, h⟩ := bind_eq_ok_iff.1 h
  obtain ⟨bks, hbks, h⟩ := bind_eq_ok_iff.1 h
  obtain ⟨a₁, ha₁, h⟩ := bind_eq_ok_iff.1 h
  obtain ⟨a₂, ha₂, h⟩ := bind_eq_ok_iff.1 h
  obtain ⟨b₁, hb₁, h⟩ := bind_eq_ok_iff.1 h
  obtain ⟨b₂, hb₂, h⟩ := bind_eq_ok_iff.1 h
  obtain ⟨aks₁, haks₁, h⟩ := bind_eq_ok_iff.1 h
  obtain ⟨aks₂, haks₂, h⟩ := bind_eq_ok_iff.1 h
  obtain ⟨bks₁, hbks₁, h⟩ := bind_eq_ok_iff.1 h
  obtain ⟨bks₂, hbks₂, h⟩ := bind_eq_ok_iff.1 h
  obtain ⟨sums, hsums, h⟩ := bind_eq_ok_iff.1 h
  obtain ⟨la, hla, h⟩ := bind_eq_ok_iff.1 h
  obtain ⟨x, hx, h⟩ := bind_eq_ok_iff.1 h
  obtain ⟨lb, hlb, h⟩ := bind_eq_ok_iff.1 h
  obtain ⟨y, hy, h⟩ := bind_eq_ok_iff.1 h
  obtain ⟨ma, hma, h⟩ := bind_eq_ok_iff.1 h
  obtain ⟨ta, hta, h⟩ := bind_eq_ok_iff.1 h
  obtain ⟨z, hz, h⟩ := bind_eq_ok_iff.1 h
  obtain ⟨mb, hmb, h⟩ := bind_eq_ok_iff.1 h
  obtain ⟨tb, htb, h⟩ := bind_eq_ok_iff.1 h
  obtain ⟨w, hw, h⟩ := bind_eq_ok_iff.1 h
  rw [pure_eq_ok_iff] at h
  subst h
  -- What the operands have answered, the sums over the directions, and the arguments built of them.
  obtain ⟨hrow, hcol⟩ := hfit.rows_cols hs hc (ofOption_eq_ok_iff.1 hW)
  obtain ⟨h1, hA⟩ := Operand.parts_eq_ok ha hs hc haks ha₁ ha₂ haks₁ haks₂
  obtain ⟨h2, hB⟩ := Operand.parts_eq_ok hb hs hc hbks hb₁ hb₂ hbks₁ hbks₂
  obtain ⟨⟨hproductss, hlas, hlbs⟩, hproducts, halongA, halongB⟩ :=
    sums_eq_ok hrow ⟨⟨hA.first.1.2, hA.second.1.2⟩, ⟨hva.1, rfl⟩, hvb.1, rfl⟩
      (fun hP ht => weigh_eq_ok hA hB hP ht) hsums
  obtain ⟨-, hmas, hmae⟩ := Mat.mul_eq_ok (lift_eq_ok_iff.1 hma)
  obtain ⟨-, hmbs, hmbe⟩ := Mat.mul_eq_ok (lift_eq_ok_iff.1 hmb)
  obtain ⟨h3, -, hlae⟩ := Operand.secondAlong_eq_ok ha hc hla hlas
  obtain ⟨h4, -, hlbe⟩ := Operand.secondAlong_eq_ok hb hc hlb hlbs
  obtain ⟨h5, -, htae⟩ :=
    Operand.thirdAlong_eq_ok ha hs hc hta ⟨hmas.1.trans hvb.1, hmas.2.trans hcol⟩
  obtain ⟨h6, -, htbe⟩ :=
    Operand.thirdAlong_eq_ok hb hs hc htb ⟨hmbs.1.trans hva.1, hmbs.2.trans hcol⟩
  obtain ⟨-, hxs, hxe⟩ := Mat.add_eq_ok (lift_eq_ok_iff.1 hx)
  obtain ⟨-, hys, hye⟩ := Mat.add_eq_ok (lift_eq_ok_iff.1 hy)
  obtain ⟨-, hzs, hze⟩ := Mat.add_eq_ok (lift_eq_ok_iff.1 hz)
  obtain ⟨-, hws, hwe⟩ := Mat.add_eq_ok (lift_eq_ok_iff.1 hw)
  refine ⟨W, sums.alongA, sums.alongB, ma, mb, ofOption_eq_ok_iff.1 hW, ⟨hrow, hcol⟩,
    ⟨hlas, hlbs, ⟨hmas.1.trans hvb.1, hmas.2⟩, ⟨hmbs.1.trans hva.1, hmbs.2⟩, halongA, halongB,
      ?_, ?_⟩, ⟨⟨h1, h2⟩, ⟨h3, h4⟩, h5, h6⟩, ?_, ?_⟩
  · intro d k
    rw [hmae, hvb.2, Finset.sum_range_one]
  · intro d k
    rw [hmbe, hva.2, Finset.sum_range_one]
  · rw [Directions.form_two hc]
    exact ⟨hws.1.trans (hzs.1.trans (hys.1.trans (hxs.1.trans hproductss.1))),
      hws.2.trans (hzs.2.trans (hys.2.trans (hxs.2.trans hproductss.2)))⟩
  · intro i j
    rw [Derivative.entry_matrix, hwe, hze, hye, hxe, hproducts, hlae, hlbe, htae, htbe]

omit hva hvb in
theorem derivative_hasForm (hfit : r.Fits 1 G) (h : derivative a b r = .ok D) :
    D.HasForm (r.directions.form 1 G C) := by
  obtain ⟨va, hva, h⟩ := bind_eq_ok_iff.1 h
  obtain ⟨vb, hvb, h⟩ := bind_eq_ok_iff.1 h
  have hva := ha.value r.site va hva
  have hvb := hb.value r.site vb hvb
  rcases hs : r.directions.spatial with _ | s <;>
    rcases hc : r.directions.coefficients with _ | c | ⟨c₁, c₂⟩ <;> simp only [hs, hc] at h
  case none.none =>
    obtain ⟨p, -, h⟩ := bind_eq_ok_iff.1 h
    rw [pure_eq_ok_iff] at h
    subst h
    rw [Directions.form, hs, hc]
    exact ⟨rfl, rfl⟩
  case none.single => exact (coefficient_eq_ok ha hb hva hvb hs hc h).2.1
  case none.two =>
    obtain ⟨W, w, -, -, -, hF, -⟩ := second_eq_ok ha hb hva hvb hc h
    exact hF
  case some.none => exact (spatial_eq_ok ha hb hva hs hc h).2.1
  case some.single => exact (mixed_eq_ok ha hb hva hvb hs hc h).2.1
  case some.two =>
    obtain ⟨W, la, lb, ma, mb, -, -, -, -, hF, -⟩ := third_eq_ok ha hb hva hvb hs hc hfit h
    exact hF

end Product

end ElementFields
