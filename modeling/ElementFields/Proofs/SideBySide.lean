import Mathlib.Data.List.Forall2
import ElementFields.Expression.Operand
import ElementFields.Proofs.Outcome

/-! Two evaluations side by side. A comparison says which sites and axes of the first stand against
those of the second, which numbers and which failures count as the same, and whether the first may
fail alone. -/
namespace ElementFields
open Scalar

variable {K : Type} [Scalar K]

structure Scalar.Respected (S : K → K → Prop) : Prop where
  refl : ∀ x, S x x
  add : ∀ {x x' y y'}, S x x' → S y y' → S (x + y) (x' + y')
  sub : ∀ {x x' y y'}, S x x' → S y y' → S (x - y) (x' - y')
  neg : ∀ {x x'}, S x x' → S (-x) (-x')
  mul : ∀ {x x' y y'}, S x x' → S y y' → S (x * y) (x' * y')
  div : ∀ {x x' y y'}, S x x' → S y y' → S (x / y) (x' / y')
  sqrt : ∀ {x x'}, S x x' → S (sqrt x) (sqrt x')
  log : ∀ {x x'}, S x x' → S (log x) (log x')

theorem Scalar.respected_eq : Respected (fun x y : K => x = y) where
  refl _ := rfl
  add h h' := congrArg₂ (· + ·) h h'
  sub h h' := congrArg₂ (· - ·) h h'
  neg h := congrArg (-·) h
  mul h h' := congrArg₂ (· * ·) h h'
  div h h' := congrArg₂ (· / ·) h h'
  sqrt h := congrArg Scalar.sqrt h
  log h := congrArg Scalar.log h

theorem Scalar.respected_true : Respected (fun _ _ : K => True) where
  refl _ := trivial
  add _ _ := trivial
  sub _ _ := trivial
  neg _ := trivial
  mul _ _ := trivial
  div _ _ := trivial
  sqrt _ := trivial
  log _ := trivial

structure Comparison (K : Type) [Scalar K] where
  left : Site K
  right : Site K
  /-- The axes of the first evaluation that stand against those of the second. -/
  axis : ℕ → ℕ → Prop
  axis_self : ∀ k, axis k k
  /-- Numbers that count as the same. -/
  number : K → K → Prop
  respected : Respected number
  /-- Failures that count as the same. -/
  failure : Failure → Failure → Prop
  failure_self : ∀ e, failure e e
  /-- Whether the first evaluation may fail where the second one does not. -/
  lenient : Prop

namespace Comparison

variable (A : Comparison K)

inductive Beside : SpatialDirection → SpatialDirection → Prop
  | single {k k' : ℕ} (h : A.axis k k') : Beside (.single k) (.single k')
  | all : Beside .all .all

structure Directed (d d' : Directions) : Prop where
  spatial : Option.Rel A.Beside d.spatial d'.spatial
  coefficients : d'.coefficients = d.coefficients

/-- Failures that name directions count as the same if the directions stand against each other. -/
structure Names : Prop where
  missingAlong : ∀ d d', A.Directed d d' →
    A.failure (.refused (.missingAlong d)) (.refused (.missingAlong d'))
  notImplemented : ∀ operation d d', A.Directed d d' →
    A.failure (.refused (.notImplemented operation d)) (.refused (.notImplemented operation d'))

end Comparison

section Results

variable {α β γ δ : Type} {A : Comparison K} {R : α → β → Prop} {Q : γ → δ → Prop}

/-- Both computations succeed with related results, or both break the same contract. -/
def Agree (R : α → β → Prop) (x : Checked α) (y : Checked β) : Prop :=
  match x, y with
  | .ok a, .ok b => R a b
  | .error v, .error w => v = w
  | .ok _, .error _ | .error _, .ok _ => False

/-- Where the first evaluation succeeds, so does the second with a related result; where it fails, so
does the second in the same way, unless the first may fail alone. -/
def Paired (A : Comparison K) (R : α → β → Prop) (x : Outcome α) (y : Outcome β) : Prop :=
  match x, y with
  | .ok a, .ok b => R a b
  | .ok _, .error _ => False
  | .error _, .ok _ => A.lenient
  | .error e, .error e' => A.lenient ∨ A.failure e e'

namespace Agree

omit [Scalar K]

theorem pure {a : α} {b : β} (h : R a b) : Agree R (pure a) (pure b) := h

theorem refl {R : α → α → Prop} (hR : ∀ a, R a a) (x : Checked α) : Agree R x x := by
  cases x with
  | ok a => exact hR a
  | error v => exact rfl

theorem require {c c' : Prop} [Decidable c] [Decidable c'] {v : Violation} {a : α} {b : β}
    (hc : c ↔ c') (h : R a b) : Agree R (Checked.require c v a) (Checked.require c' v b) := by
  by_cases hcc : c
  · have hl : Checked.require c v a = .ok a := if_pos hcc
    have hr : Checked.require c' v b = .ok b := if_pos (hc.1 hcc)
    rw [hl, hr]
    exact h
  · have hl : Checked.require c v a = .error v := if_neg hcc
    have hr : Checked.require c' v b = .error v := if_neg fun h => hcc (hc.2 h)
    rw [hl, hr]
    exact rfl

theorem bind {x : Checked α} {y : Checked β} {f : α → Checked γ} {g : β → Checked δ}
    (hx : Agree R x y) (hf : ∀ a b, R a b → Agree Q (f a) (g b)) :
    Agree Q (x >>= f) (y >>= g) := by
  match x, y, hx with
  | .ok a, .ok b, h => exact hf a b h
  | .error v, .error _, rfl => exact rfl

theorem mapM {f : α → Checked γ} {g : β → Checked δ} {l : List α} {l' : List β}
    (hl : l.Forall₂ R l') (h : ∀ a b, R a b → Agree Q (f a) (g b)) :
    Agree (List.Forall₂ Q) (l.mapM f) (l'.mapM g) := by
  induction hl with
  | nil => exact List.Forall₂.nil
  | cons hab _ ih =>
    rw [List.mapM_cons, List.mapM_cons]
    exact bind (h _ _ hab) fun _ _ hc => bind ih fun _ _ hcs => pure (.cons hc hcs)

end Agree

namespace Paired

theorem pure {a : α} {b : β} (h : R a b) : Paired A R (pure a) (pure b) := h

theorem refl {R : α → α → Prop} (hR : ∀ a, R a a) (x : Outcome α) : Paired A R x x := by
  cases x with
  | ok a => exact hR a
  | error e => exact Or.inr (A.failure_self e)

theorem refused {e e' : Failure} (h : A.failure e e') :
    Paired A R (.error e) (.error e' : Outcome β) := Or.inr h

theorem of_lenient (h : A.lenient) {e : Failure} {y : Outcome β} :
    Paired A R (.error e) y := by
  cases y with
  | ok b => exact h
  | error e' => exact Or.inl h

theorem bind {x : Outcome α} {y : Outcome β} {f : α → Outcome γ} {g : β → Outcome δ}
    (hx : Paired A R x y) (hf : ∀ a b, R a b → Paired A Q (f a) (g b)) :
    Paired A Q (x >>= f) (y >>= g) := by
  match x, y, hx with
  | .ok a, .ok b, h => exact hf a b h
  | .error e, .error e', h => exact h
  | .error e, .ok b, h => exact of_lenient h

theorem lift {x : Checked α} {y : Checked β} (h : Agree R x y) :
    Paired A R (liftM x) (liftM y) := by
  match x, y, h with
  | .ok a, .ok b, h => exact h
  | .error v, .error _, rfl => exact Or.inr (A.failure_self _)

theorem mapM {f : α → Outcome γ} {g : β → Outcome δ} {l : List α} {l' : List β}
    (hl : l.Forall₂ R l') (h : ∀ a b, R a b → Paired A Q (f a) (g b)) :
    Paired A (List.Forall₂ Q) (l.mapM f) (l'.mapM g) := by
  induction hl with
  | nil => exact List.Forall₂.nil
  | cons hab _ ih =>
    rw [List.mapM_cons, List.mapM_cons]
    exact bind (h _ _ hab) fun _ _ hc => bind ih fun _ _ hcs => pure (.cons hc hcs)

/-- A fold whose steps keep two states related. -/
theorem foldlM {f : γ → α → Outcome γ} {g : δ → β → Outcome δ} {l : List α} {l' : List β}
    (hl : l.Forall₂ R l') {s : γ} {t : δ} (hs : Q s t)
    (h : ∀ s t a b, Q s t → R a b → Paired A Q (f s a) (g t b)) :
    Paired A Q (l.foldlM f s) (l'.foldlM g t) := by
  induction hl generalizing s t with
  | nil => exact hs
  | cons hab _ ih =>
    rw [List.foldlM_cons, List.foldlM_cons]
    exact bind (h s t _ _ hs hab) fun _ _ hst => ih hst

/-- Without leniency, one evaluation succeeds exactly if the other one does. -/
theorem exists_ok_iff {x : Outcome α} {y : Outcome β} (h : Paired A R x y) (hl : ¬A.lenient) :
    (∃ a, x = .ok a) ↔ ∃ b, y = .ok b := by
  match x, y, h with
  | .ok a, .ok b, _ => exact ⟨fun _ => ⟨b, rfl⟩, fun _ => ⟨a, rfl⟩⟩
  | .error _, .error _, _ => exact ⟨fun ⟨_, h⟩ => (nomatch h), fun ⟨_, h⟩ => (nomatch h)⟩
  | .error _, .ok _, h => exact absurd h hl

theorem ok_or_refused {x : Outcome α} {y : Outcome β} (h : Paired A R x y) (hl : ¬A.lenient) :
    (∃ a b, x = .ok a ∧ y = .ok b) ∨ (∃ e, x = .error e) ∧ ∃ e, y = .error e := by
  match x, y, h with
  | .ok a, .ok b, _ => exact .inl ⟨a, b, rfl, rfl⟩
  | .error e, .error e', _ => exact .inr ⟨⟨e, rfl⟩, e', rfl⟩
  | .error _, .ok _, h => exact absurd h hl

end Paired

omit [Scalar K] in
theorem forall₂_zip {l : List α} {l' : List β} {m : List γ} {m' : List δ} (hl : l.Forall₂ R l')
    (hm : m.Forall₂ Q m') :
    (l.zip m).Forall₂ (fun p q => R p.1 q.1 ∧ Q p.2 q.2) (l'.zip m') := by
  induction hl generalizing m m' with
  | nil => exact List.Forall₂.nil
  | cons h _ ih =>
    cases hm with
    | nil => exact List.Forall₂.nil
    | cons h' hm => exact .cons ⟨h, h'⟩ (ih hm)

omit [Scalar K] in
theorem forall₂_zipIdx {l : List α} {l' : List β} (hl : l.Forall₂ R l') (n : ℕ) :
    (l.zipIdx n).Forall₂ (fun p q => R p.1 q.1 ∧ p.2 = q.2) (l'.zipIdx n) := by
  induction hl generalizing n with
  | nil => exact List.Forall₂.nil
  | cons h _ ih => exact .cons ⟨h, rfl⟩ (ih (n + 1))

omit [Scalar K] in
/-- Lists of one length are related item by item if their items at every index are. -/
theorem forall₂_of_getElem? {l : List α} {l' : List β} (hl : l.length = l'.length)
    (h : ∀ (i : ℕ) (a : α) (b : β), l[i]? = some a → l'[i]? = some b → R a b) :
    l.Forall₂ R l' := by
  refine List.forall₂_iff_get.2 ⟨hl, fun i hi hi' => ?_⟩
  exact h i _ _ (List.getElem?_eq_getElem hi) (List.getElem?_eq_getElem hi')

end Results

section Sums

variable {S : K → K → Prop}

theorem Scalar.Respected.sumTo (hS : Respected S) {n : ℕ} {f g : ℕ → K}
    (h : ∀ k < n, S (f k) (g k)) : S (Scalar.sumTo n f) (Scalar.sumTo n g) := by
  induction n with
  | zero => exact hS.refl 0
  | succ n ih => exact hS.add (ih fun k hk => h k (by omega)) (h n (by omega))

structure Vec.Like (S : K → K → Prop) (v v' : Vec K) : Prop where
  size : v.size = v'.size
  entry : ∀ i, S (v.entry i) (v'.entry i)

structure Mat.Like (S : K → K → Prop) (m m' : Mat K) : Prop where
  rows : m.rows = m'.rows
  cols : m.cols = m'.cols
  entry : ∀ i j, S (m.entry i j) (m'.entry i j)

theorem Mat.like_eq {m m' : Mat K} (h : m.Like (fun x y => x = y) m') : m = m' :=
  Mat.ext_entry h.rows h.cols fun i j _ _ => h.entry i j

variable (hS : Respected S)
include hS

namespace Vec

theorem Like.refl (v : Vec K) : v.Like S v := ⟨rfl, fun _ => hS.refl _⟩

theorem like_ofFn {n : ℕ} {f g : ℕ → K} (h : ∀ i < n, S (f i) (g i)) :
    (Vec.ofFn n f).Like S (Vec.ofFn n g) := by
  refine ⟨by rw [size_ofFn, size_ofFn], fun i => ?_⟩
  by_cases hi : i < n
  · rw [entry_ofFn _ hi, entry_ofFn _ hi]
    exact h i hi
  · rw [entry_of_size_le (by rw [size_ofFn]; omega), entry_of_size_le (by rw [size_ofFn]; omega)]
    exact hS.refl 0

variable {u u' v v' : Vec K}

theorem Like.inner (hu : u.Like S u') (hv : v.Like S v') : S (u.inner v) (u'.inner v') := by
  rw [Vec.inner, Vec.inner, hu.size]
  exact hS.sumTo fun k _ => hS.mul (hu.entry k) (hv.entry k)

theorem Like.dot (hu : u.Like S u') (hv : v.Like S v') : Agree S (u.dot v) (u'.dot v') :=
  Agree.require (by rw [hu.size, hv.size]) (hu.inner hS hv)

theorem Like.norm (hv : v.Like S v') : S v.norm v'.norm := hS.sqrt (hv.inner hS hv)

theorem Like.divide (hv : v.Like S v') {s s' : K} (hs : S s s') :
    (v.divide s).Like S (v'.divide s') := by
  rw [Vec.divide, Vec.divide, hv.size]
  exact like_ofFn hS fun i _ => hS.div (hv.entry i) hs

omit hS in
theorem Like.component (hv : v.Like S v') (i : ℕ) : Agree S (v.component i) (v'.component i) :=
  Agree.require (by rw [hv.size]) (hv.entry i)

omit hS in
theorem Like.toList (hv : v.Like S v') : v.toList.Forall₂ S v'.toList := by
  refine forall₂_of_getElem? (by simpa using hv.size) fun i a b ha hb => ?_
  have he := hv.entry i
  rw [Array.getElem?_toList] at ha hb
  simpa [Vec.entry, Array.getD_eq_getD_getElem?, ha, hb] using he

theorem like_toArray {l l' : List K} (h : l.Forall₂ S l') :
    Vec.Like S (l.toArray : Vec K) (l'.toArray : Vec K) := by
  refine ⟨by simpa using h.length_eq, fun i => ?_⟩
  have hget := List.forall₂_iff_get.1 h
  by_cases hi : i < l.length
  · have hi' : i < l'.length := hget.1 ▸ hi
    simpa [Vec.entry, Array.getD, hi, hi'] using hget.2 i hi hi'
  · have hi' : ¬i < l'.length := hget.1 ▸ hi
    simpa [Vec.entry, Array.getD, hi, hi'] using hS.refl 0

end Vec

namespace Mat

theorem Like.refl (m : Mat K) : m.Like S m := ⟨rfl, rfl, fun _ _ => hS.refl _⟩

theorem like_ofFn {rows cols : ℕ} {f g : ℕ → ℕ → K}
    (h : ∀ i j, i < rows → j < cols → S (f i j) (g i j)) :
    (ofFn rows cols f).Like S (ofFn rows cols g) := by
  refine ⟨rfl, rfl, fun i j => ?_⟩
  by_cases hij : i < rows ∧ j < cols
  · rw [entry_ofFn _ hij.1 hij.2, entry_ofFn _ hij.1 hij.2]
    exact h i j hij.1 hij.2
  · rw [entry_outside (m := ofFn rows cols f) hij, entry_outside (m := ofFn rows cols g) hij]
    exact hS.refl 0

variable {a a' b b' m m' : Mat K} {s s' : K} {v v' : Vec K}

omit hS in
theorem Like.shape (hm : m.Like S m') : m.shape = m'.shape := Prod.ext hm.rows hm.cols

theorem Like.scale (hm : m.Like S m') (hs : S s s') : (m.scale s).Like S (m'.scale s') := by
  rw [Mat.scale, Mat.scale, hm.rows, hm.cols]
  exact like_ofFn hS fun i j _ _ => hS.mul (hm.entry i j) hs

theorem Like.transpose (hm : m.Like S m') : m.transpose.Like S m'.transpose := by
  rw [Mat.transpose, Mat.transpose, hm.rows, hm.cols]
  exact like_ofFn hS fun i j _ _ => hm.entry j i

theorem like_scalar (hs : S s s') : (scalar s).Like S (scalar s') :=
  like_ofFn hS fun _ _ _ _ => hs

theorem like_column (hv : v.Like S v') : (column v).Like S (column v') := by
  rw [column, column, hv.size]
  exact like_ofFn hS fun i _ _ _ => hv.entry i

theorem Like.add (ha : a.Like S a') (hb : b.Like S b') : Agree (Mat.Like S) (a.add b) (a'.add b') := by
  refine Agree.require (by rw [ha.shape, hb.shape]) ?_
  rw [ha.rows, ha.cols]
  exact like_ofFn hS fun i j _ _ => hS.add (ha.entry i j) (hb.entry i j)

theorem Like.mul (ha : a.Like S a') (hb : b.Like S b') : Agree (Mat.Like S) (a.mul b) (a'.mul b') := by
  refine Agree.require (by rw [ha.cols, hb.rows]) ?_
  rw [ha.rows, ha.cols, hb.cols]
  exact like_ofFn hS fun i j _ _ => hS.sumTo fun k _ => hS.mul (ha.entry i k) (hb.entry k j)

theorem Like.transposeMul (ha : a.Like S a') (hb : b.Like S b') :
    Agree (Mat.Like S) (a.transposeMul b) (a'.transposeMul b') := by
  refine Agree.require (by rw [ha.rows, hb.rows]) ?_
  rw [ha.rows, ha.cols, hb.cols]
  exact like_ofFn hS fun i j _ _ => hS.sumTo fun k _ => hS.mul (ha.entry k i) (hb.entry k j)

theorem Like.mulVec (ha : a.Like S a') (hv : v.Like S v') :
    Agree (Vec.Like S) (a.mulVec v) (a'.mulVec v') := by
  refine Agree.require (by rw [ha.cols, hv.size]) ?_
  rw [ha.rows, ha.cols]
  exact Vec.like_ofFn hS fun i _ => hS.sumTo fun k _ => hS.mul (ha.entry i k) (hv.entry k)

theorem Like.dot (ha : a.Like S a') (hb : b.Like S b') : Agree S (a.dot b) (a'.dot b') := by
  refine Agree.require (by rw [ha.shape, hb.shape]) ?_
  rw [ha.rows, ha.cols]
  exact hS.sumTo fun j _ => hS.sumTo fun i _ => hS.mul (ha.entry i j) (hb.entry i j)

theorem Like.columnVec (hm : m.Like S m') (j : ℕ) : (m.columnVec j).Like S (m'.columnVec j) := by
  rw [Mat.columnVec, Mat.columnVec, hm.rows]
  exact Vec.like_ofFn hS fun i _ => hm.entry i j

theorem Like.columnAt (hm : m.Like S m') (j : ℕ) :
    Agree (Vec.Like S) (m.columnAt j) (m'.columnAt j) :=
  Agree.require (by rw [hm.cols]) (hm.columnVec hS j)

omit hS in
theorem Like.entryAt (hm : m.Like S m') (i j : ℕ) : Agree S (m.entryAt i j) (m'.entryAt i j) :=
  Agree.require (by rw [hm.rows, hm.cols]) (hm.entry i j)

theorem Like.flatten (hm : m.Like S m') : m.flatten.Like S m'.flatten := by
  refine ⟨by rw [Mat.flatten, Mat.flatten, m.size_entries, m'.size_entries, hm.rows, hm.cols], ?_⟩
  intro k
  by_cases hk : k < m.rows * m.cols
  · -- The entry listed at place `k` stands in row `k % rows` and column `k / rows`.
    have hr : 0 < m.rows := Nat.pos_of_ne_zero fun h0 => by simp [h0] at hk
    have hi : k % m.rows < m.rows := Nat.mod_lt k hr
    have hj : k / m.rows < m.cols := Nat.div_lt_of_lt_mul hk
    have he := hm.entry (k % m.rows) (k / m.rows)
    have hplace : k % m.rows + m.rows * (k / m.rows) = k := Nat.mod_add_div k m.rows
    simp only [Mat.entry, ← hm.rows, ← hm.cols, if_pos (And.intro hi hj), hplace] at he
    exact he
  · have hk' : ¬k < m'.rows * m'.cols := by rwa [← hm.rows, ← hm.cols]
    rw [Vec.entry_of_size_le (by rw [Mat.flatten, m.size_entries]; omega),
      Vec.entry_of_size_le (by rw [Mat.flatten, m'.size_entries]; omega)]
    exact hS.refl 0

theorem Like.singleColumn (hm : m.Like S m') :
    Agree (Vec.Like S) m.singleColumn m'.singleColumn :=
  Agree.require (by rw [hm.cols]) (hm.flatten hS)

theorem Like.splitColumns (hm : m.Like S m') :
    m.splitColumns.Forall₂ (Mat.Like S) m'.splitColumns := by
  rw [Mat.splitColumns, Mat.splitColumns, hm.rows, hm.cols, List.forall₂_map_left_iff,
    List.forall₂_map_right_iff, List.forall₂_same]
  exact fun j _ => like_ofFn hS fun i _ _ _ => hm.entry i j

theorem like_stackedEntry {l l' : List (Mat K)} (h : l.Forall₂ (Mat.Like S) l') (i j : ℕ) :
    S (stackedEntry l i j) (stackedEntry l' i j) := by
  induction h generalizing j with
  | nil => exact hS.refl 0
  | cons hm _ ih =>
    rw [stackedEntry, stackedEntry, hm.cols]
    split
    · exact hm.entry i j
    · exact ih _

omit hS in
theorem totalCols_eq_of_forall₂ {l l' : List (Mat K)} (h : l.Forall₂ (Mat.Like S) l') :
    totalCols l = totalCols l' := by
  induction h with
  | nil => rfl
  | cons hm _ ih => rw [totalCols, totalCols, hm.cols, ih]

omit hS in
/-- A condition on shapes holds of all matrices of one list if it does of the other. -/
theorem forall_shape_iff {l l' : List (Mat K)} (h : l.Forall₂ (Mat.Like S) l') (p : ℕ × ℕ → Prop) :
    (∀ m ∈ l, p m.shape) ↔ ∀ m ∈ l', p m.shape := by
  induction h with
  | nil => exact Iff.rfl
  | cons hm _ ih => rw [List.forall_mem_cons, List.forall_mem_cons, hm.shape, ih]

theorem agree_hstack {l l' : List (Mat K)} (h : l.Forall₂ (Mat.Like S) l') (rows : ℕ) :
    Agree (Mat.Like S) (hstack rows l) (hstack rows l') := by
  have hrows : (∀ m ∈ l, m.rows = rows) ↔ ∀ m ∈ l', m.rows = rows :=
    forall_shape_iff h fun s => s.1 = rows
  rw [hstack, hstack, totalCols_eq_of_forall₂ h]
  exact Agree.require hrows (like_ofFn hS fun i j _ _ => like_stackedEntry hS h i j)

theorem agree_ofRows {l l' : List (Mat K)} (h : l.Forall₂ (Mat.Like S) l') {cols cols' : ℕ}
    (hc : cols = cols') : Agree (Mat.Like S) (ofRows cols l) (ofRows cols' l') := by
  subst hc
  have hshape : (∀ m ∈ l, m.shape = (1, cols)) ↔ ∀ m ∈ l', m.shape = (1, cols) :=
    forall_shape_iff h fun s => s = (1, cols)
  rw [ofRows, ofRows, h.length_eq]
  refine Agree.require hshape (like_ofFn hS fun i j _ _ => ?_)
  have hget := List.forall₂_iff_get.1 h
  by_cases hi : i < l.length
  · have hi' : i < l'.length := hget.1 ▸ hi
    rw [List.getElem?_eq_getElem hi, List.getElem?_eq_getElem hi']
    exact (hget.2 i hi hi').entry 0 j
  · rw [List.getElem?_eq_none (by omega), List.getElem?_eq_none (by rw [← hget.1]; omega)]
    exact hS.refl 0

end Mat

omit hS in
theorem agree_componentAt {l l' : List (Mat K)} (h : l.Forall₂ (Mat.Like S) l') (k : ℕ) :
    Agree (Mat.Like S) (componentAt l k) (componentAt l' k) := by
  unfold componentAt
  have hget := List.forall₂_iff_get.1 h
  by_cases hk : k < l.length
  · have hk' : k < l'.length := hget.1 ▸ hk
    rw [List.getElem?_eq_getElem hk, List.getElem?_eq_getElem hk']
    exact hget.2 k hk hk'
  · rw [List.getElem?_eq_none (by omega), List.getElem?_eq_none (by rw [← hget.1]; omega)]
    exact rfl

inductive Derivative.Like (S : K → K → Prop) : Derivative K → Derivative K → Prop
  | matrix {m m' : Mat K} (h : m.Like S m') : Like S (.matrix m) (.matrix m')
  | perDirection {ms ms' : List (Mat K)} (h : ms.Forall₂ (Mat.Like S) ms') :
    Like S (.perDirection ms) (.perDirection ms')

omit hS in
theorem Derivative.like_eq {D D' : Derivative K} (h : D.Like (fun x y => x = y) D') : D = D' := by
  cases h with
  | matrix h => rw [Mat.like_eq h]
  | perDirection h =>
    have hms := List.forall₂_eq_eq_eq ▸ h.imp fun _ _ => Mat.like_eq
    rw [hms]

namespace Derivative

variable {D D' E E' : Derivative K}

omit hS in
theorem Like.toComponents (h : D.Like S D') :
    D.toComponents.Forall₂ (Mat.Like S) D'.toComponents := by
  cases h with
  | matrix h => exact .cons h .nil
  | perDirection h => exact h

theorem Like.toMatrix (h : D.Like S D') : Agree (Mat.Like S) D.toMatrix D'.toMatrix := by
  cases h with
  | matrix h => exact h
  | perDirection h =>
    cases h with
    | nil => exact Mat.agree_hstack hS .nil 0
    | cons hm h =>
      show Agree (Mat.Like S) (Mat.hstack _ _) (Mat.hstack _ _)
      simp only [List.head?_cons, Option.map_some, Option.getD_some, hm.rows]
      exact Mat.agree_hstack hS (.cons hm h) _

theorem Like.scale (h : D.Like S D') {s s' : K} (hs : S s s') :
    (D.scale s).Like S (D'.scale s') := by
  cases h with
  | matrix h => exact .matrix (h.scale hS hs)
  | perDirection h =>
    refine .perDirection ?_
    rw [List.forall₂_map_left_iff, List.forall₂_map_right_iff]
    exact h.imp fun _ _ hm => hm.scale hS hs

theorem Like.add (hD : D.Like S D') (hE : E.Like S E') :
    Agree (Derivative.Like S) (D.add E) (D'.add E') := by
  have hitems := (Agree.mapM (f := fun p => p.1.add p.2) (g := fun p => p.1.add p.2)
    (forall₂_zip hD.toComponents hE.toComponents) fun _ _ h => h.1.add hS h.2).bind
    fun _ _ h => Agree.pure (Derivative.Like.perDirection h)
  cases hD with
  | matrix hm =>
    cases hE with
    | matrix hn => exact (hm.add hS hn).bind fun _ _ h => Agree.pure (.matrix h)
    | perDirection hn => exact hitems
  | perDirection hm =>
    cases hE with
    | matrix hn => exact hitems
    | perDirection hn => exact hitems

theorem agree_ofComponents {A : Comparison K} {d d' : Directions} (hd : A.Directed d d') (rows : ℕ)
    {l l' : List (Mat K)} (h : l.Forall₂ (Mat.Like S) l') :
    Agree (Derivative.Like S) (ofComponents d rows l) (ofComponents d' rows l') := by
  have hstacked : Agree (Derivative.Like S) (do return matrix (← Mat.hstack rows l))
      (do return matrix (← Mat.hstack rows l')) :=
    (Mat.agree_hstack hS h rows).bind fun _ _ h => Agree.pure (.matrix h)
  obtain ⟨s, c⟩ := d
  obtain ⟨s', c'⟩ := d'
  obtain ⟨hs, rfl⟩ := hd
  cases hs with
  | none => exact hstacked
  | some hs =>
    cases hs with
    | single hk => exact hstacked
    | all =>
      cases c' with
      | none => exact hstacked
      | single c => exact .perDirection h
      | two c₁ c₂ => exact hstacked

end Derivative

end Sums

end ElementFields
