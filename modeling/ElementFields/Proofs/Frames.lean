import ElementFields.Proofs.Partials
import ElementFields.Manifold.Normalization

namespace ElementFields
open Scalar
open scoped BigOperators

variable {K : Type} [ExactScalar K]

def Combines (n : ℕ) (w : ℕ → K) (x : K) (y : ℕ → K) : Prop :=
  x = ∑ m ∈ Finset.range n, w m * y m

namespace Combines

variable {n : ℕ} {w : ℕ → K} {x x' : K} {y y' : ℕ → K}

theorem zero : Combines n w 0 fun _ => 0 :=
  (Finset.sum_eq_zero fun _ _ => mul_zero _).symm

theorem congr (h : Combines n w x y) (hy : ∀ m < n, y' m = y m) : Combines n w x y' := by
  rw [Combines, h]
  exact Finset.sum_congr rfl fun m hm => by rw [hy m (Finset.mem_range.mp hm)]

theorem add (h : Combines n w x y) (h' : Combines n w x' y') :
    Combines n w (x + x') fun m => y m + y' m := by
  rw [Combines, h, h', ← Finset.sum_add_distrib]
  exact Finset.sum_congr rfl fun m _ => (mul_add _ _ _).symm

theorem mul_right (h : Combines n w x y) (s : K) : Combines n w (x * s) fun m => y m * s := by
  rw [Combines, h, Finset.sum_mul]
  exact Finset.sum_congr rfl fun m _ => mul_assoc _ _ _

theorem mul_left (h : Combines n w x y) (s : K) : Combines n w (s * x) fun m => s * y m := by
  simpa only [mul_comm s] using h.mul_right s

theorem sub (h : Combines n w x y) (h' : Combines n w x' y') :
    Combines n w (x - x') fun m => y m - y' m := by
  simpa only [sub_eq_add_neg, neg_one_mul] using h.add (h'.mul_left (-1))

theorem div (h : Combines n w x y) (s : K) : Combines n w (x / s) fun m => y m / s := by
  simpa only [div_eq_mul_inv] using h.mul_right s⁻¹

theorem sum {V : ℕ} {x : ℕ → K} {y : ℕ → ℕ → K}
    (h : ∀ d < V, Combines n w (x d) fun m => y m d) :
    Combines n w (∑ d ∈ Finset.range V, x d) fun m => ∑ d ∈ Finset.range V, y m d := by
  have hx : ∑ d ∈ Finset.range V, x d =
      ∑ d ∈ Finset.range V, ∑ m ∈ Finset.range n, w m * y m d :=
    Finset.sum_congr rfl fun d hd => h d (Finset.mem_range.mp hd)
  rw [Combines, hx, Finset.sum_comm]
  exact Finset.sum_congr rfl fun m _ => (Finset.mul_sum _ _ _).symm

/-- The weights of a combination may be combinations themselves. -/
theorem trans {V : ℕ} {u : ℕ → K} {v : ℕ → ℕ → K} (h : Combines V u x y)
    (hu : ∀ d < V, Combines n w (u d) fun m => v m d) :
    Combines n w x fun m => ∑ d ∈ Finset.range V, v m d * y d := by
  rw [h]
  exact .sum fun d hd => (hu d hd).mul_right (y d)

/-- A vector is the combination of the unit vectors with its components. -/
theorem unit (u : Vec K) (d : ℕ) : Combines u.size u.entry (u.entry d) fun i => delta i d := by
  rw [Combines]
  by_cases hd : d < u.size
  · rw [Finset.sum_eq_single_of_mem d (Finset.mem_range.mpr hd)]
    · rw [delta, if_pos rfl, mul_one]
    · intro i _ hi
      rw [delta, if_neg hi, mul_zero]
  · rw [Vec.entry_of_size_le (Nat.le_of_not_lt hd)]
    refine (Finset.sum_eq_zero fun i hi => ?_).symm
    have hne : i ≠ d := fun h => hd (h ▸ Finset.mem_range.mp hi)
    rw [delta, if_neg hne, mul_zero]

end Combines

def bilinear (V : ℕ) (x : ℕ → K) (m : ℕ → ℕ → K) (y : ℕ → K) : K :=
  ∑ d ∈ Finset.range V, ∑ e ∈ Finset.range V, x d * m d e * y e

theorem bilinear_mul (V : ℕ) (s t : K) (x : ℕ → K) (m : ℕ → ℕ → K) (y : ℕ → K) :
    bilinear V (fun d => s * x d) m (fun e => t * y e) = bilinear V x m y * (s * t) := by
  simp only [bilinear, Finset.sum_mul]
  refine Finset.sum_congr rfl fun d _ => Finset.sum_congr rfl fun e _ => ?_
  ring

namespace Combines

variable {n : ℕ} {w : ℕ → K} {u : ℕ → K} {v : ℕ → ℕ → K}

theorem bilinear_left (h : ∀ d, Combines n w (u d) fun m => v m d) (V : ℕ) (f : ℕ → ℕ → K)
    (y : ℕ → K) : Combines n w (bilinear V u f y) fun m => bilinear V (v m) f y :=
  .sum fun d _ => .sum fun e _ => ((h d).mul_right (f d e)).mul_right (y e)

theorem bilinear_right (h : ∀ d, Combines n w (u d) fun m => v m d) (V : ℕ) (x : ℕ → K)
    (f : ℕ → ℕ → K) : Combines n w (bilinear V x f u) fun m => bilinear V x f (v m) :=
  .sum fun d _ => .sum fun e _ => (h e).mul_left (x d * f d e)

theorem bilinear_form {f : ℕ → ℕ → K} {g : ℕ → ℕ → ℕ → K}
    (h : ∀ d e, Combines n w (f d e) fun m => g m d e) (V : ℕ) (x y : ℕ → K) :
    Combines n w (bilinear V x f y) fun m => bilinear V x (g m) y :=
  .sum fun d _ => .sum fun e _ => ((h d e).mul_left (x d)).mul_right (y e)

end Combines

def jacobianEntry (p : Vec K) (i j : ℕ) : K :=
  (delta i j - (normalized p).entry i * (normalized p).entry j) / p.norm

/-- The second derivative of the normalization at `p`, contracted with a vector that is given by its
components. -/
def hessianEntry (p : Vec K) (u : ℕ → K) (i j : ℕ) : K :=
  let n := (normalized p).entry
  ((n i * n j * (3 : ℕ) - delta i j) * (∑ d ∈ Finset.range p.size, n d * u d) - u i * n j -
    n i * u j) / (p.norm * p.norm)

theorem jacobianEntry_comm (p : Vec K) (i j : ℕ) : jacobianEntry p i j = jacobianEntry p j i := by
  rw [jacobianEntry, jacobianEntry, delta_comm, mul_comm (Vec.entry _ i)]

theorem hessianEntry_comm (p : Vec K) (u : ℕ → K) (i j : ℕ) :
    hessianEntry p u i j = hessianEntry p u j i := by
  simp only [hessianEntry, delta_comm i j]
  ring

def halfThird (p : Vec K) (u v : ℕ → K) (i j : ℕ) : K :=
  let n := (normalized p).entry
  let nu := ∑ d ∈ Finset.range p.size, n d * u d
  let nv := ∑ d ∈ Finset.range p.size, n d * v d
  let half : K := 1 / (2 : ℕ)
  let halfUv := half * ∑ d ∈ Finset.range p.size, u d * v d
  (u i * n j + (delta i j - n i * n j * (5 : ℕ)) * (nu * half)) * ((3 : ℕ) * nv) +
    (n i * n j * halfUv + v i * n j * nu) * (3 : ℕ) - u i * v j - delta i j * halfUv

/-- The third derivative of the normalization at `p`, contracted with `u` and taken in direction `v`.
-/
def thirdEntry (p : Vec K) (u v : ℕ → K) (i j : ℕ) : K :=
  (halfThird p u v i j + halfThird p u v j i) / (p.norm * p.norm * p.norm)

section Linear

variable {n : ℕ} {w : ℕ → K} {u : ℕ → K} {v : ℕ → ℕ → K}
  (h : ∀ d, Combines n w (u d) fun m => v m d)
include h

theorem combines_inner (p : Vec K) (x : ℕ → K) :
    Combines n w (∑ d ∈ Finset.range p.size, x d * u d)
      fun m => ∑ d ∈ Finset.range p.size, x d * v m d :=
  Combines.sum fun d _ => (h d).mul_left (x d)

theorem combines_hessianEntry (p : Vec K) (i j : ℕ) :
    Combines n w (hessianEntry p u i j) fun m => hessianEntry p (v m) i j :=
  ((((combines_inner h p _).mul_left _).sub ((h i).mul_right _)).sub ((h j).mul_left _)).div _

theorem combines_halfThird_left (p : Vec K) (t : ℕ → K) (i j : ℕ) :
    Combines n w (halfThird p u t i j) fun m => halfThird p (v m) t i j := by
  have hinner := combines_inner h p (normalized p).entry
  have hhalf : Combines n w (1 / (2 : ℕ) * ∑ d ∈ Finset.range p.size, u d * t d)
      fun m => 1 / (2 : ℕ) * ∑ d ∈ Finset.range p.size, v m d * t d :=
    (Combines.sum fun d _ => (h d).mul_right (t d)).mul_left _
  have hfirst := (((h i).mul_right ((normalized p).entry j)).add
    ((hinner.mul_right (1 / (2 : ℕ))).mul_left
      (delta i j - (normalized p).entry i * (normalized p).entry j * (5 : ℕ)))).mul_right
    ((3 : ℕ) * ∑ d ∈ Finset.range p.size, (normalized p).entry d * t d)
  have hsecond := ((hhalf.mul_left ((normalized p).entry i * (normalized p).entry j)).add
    (hinner.mul_left (t i * (normalized p).entry j))).mul_right (3 : ℕ)
  exact ((hfirst.add hsecond).sub ((h i).mul_right (t j))).sub (hhalf.mul_left (delta i j))

theorem combines_halfThird_right (p : Vec K) (t : ℕ → K) (i j : ℕ) :
    Combines n w (halfThird p t u i j) fun m => halfThird p t (v m) i j := by
  have hinner := combines_inner h p (normalized p).entry
  have hhalf : Combines n w (1 / (2 : ℕ) * ∑ d ∈ Finset.range p.size, t d * u d)
      fun m => 1 / (2 : ℕ) * ∑ d ∈ Finset.range p.size, t d * v m d :=
    (combines_inner h p t).mul_left _
  have hfirst := (hinner.mul_left (3 : ℕ)).mul_left (t i * (normalized p).entry j +
    (delta i j - (normalized p).entry i * (normalized p).entry j * (5 : ℕ)) *
      ((∑ d ∈ Finset.range p.size, (normalized p).entry d * t d) * (1 / (2 : ℕ))))
  have hsecond := ((hhalf.mul_left ((normalized p).entry i * (normalized p).entry j)).add
    (((h i).mul_right ((normalized p).entry j)).mul_right
      (∑ d ∈ Finset.range p.size, (normalized p).entry d * t d))).mul_right (3 : ℕ)
  exact ((hfirst.add hsecond).sub ((h j).mul_left (t i))).sub (hhalf.mul_left (delta i j))

theorem combines_thirdEntry_left (p : Vec K) (t : ℕ → K) (i j : ℕ) :
    Combines n w (thirdEntry p u t i j) fun m => thirdEntry p (v m) t i j :=
  ((combines_halfThird_left h p t i j).add (combines_halfThird_left h p t j i)).div _

theorem combines_thirdEntry_right (p : Vec K) (t : ℕ → K) (i j : ℕ) :
    Combines n w (thirdEntry p t u i j) fun m => thirdEntry p t (v m) i j :=
  ((combines_halfThird_right h p t i j).add (combines_halfThird_right h p t j i)).div _

end Linear

namespace Partials

def normalize (V : ℕ) (T : Partials K) : Partials K :=
  let p : Vec K := .ofFn V T.value
  { value := fun i => (normalized p).entry i
    slope := fun k i => ∑ d ∈ Finset.range V, jacobianEntry p i d * T.slope k d
    varied := fun α i => ∑ d ∈ Finset.range V, jacobianEntry p i d * T.varied α d
    mixed := fun k α i => ∑ d ∈ Finset.range V,
      (hessianEntry p (T.slope k) i d * T.varied α d + jacobianEntry p i d * T.mixed k α d)
    twice := fun α β i => bilinear V (T.varied α) (hessianEntry p (delta i)) (T.varied β) +
      ∑ d ∈ Finset.range V, jacobianEntry p d i * T.twice α β d
    thrice := fun k α β i => bilinear V (T.mixed k α) (hessianEntry p (delta i)) (T.varied β) +
      bilinear V (T.varied α) (hessianEntry p (delta i)) (T.mixed k β) +
      bilinear V (T.varied α) (thirdEntry p (delta i) (T.slope k)) (T.varied β) +
      ∑ d ∈ Finset.range V,
        (jacobianEntry p d i * T.thrice k α β d + hessianEntry p (T.slope k) d i * T.twice α β d) }

/-- The first table is the second one along other axes: axis `k` combines the first `G` axes with the
weights `J k`. -/
structure TurnsTo (G : ℕ) (J : ℕ → ℕ → K) (T T' : Partials K) : Prop where
  value : T.value = T'.value
  slope : ∀ k < G, ∀ i, Combines G (J k) (T.slope k i) fun m => T'.slope m i
  varied : T.varied = T'.varied
  mixed : ∀ k < G, ∀ α i, Combines G (J k) (T.mixed k α i) fun m => T'.mixed m α i
  twice : T.twice = T'.twice
  thrice : ∀ k < G, ∀ α β i, Combines G (J k) (T.thrice k α β i) fun m => T'.thrice m α β i

variable {G : ℕ} {J : ℕ → ℕ → K} {T T' A A' B B' : Partials K}

theorem turnsTo_const (c : K) : (const c).TurnsTo G J (const c) where
  value := rfl
  slope _ _ _ := .zero
  varied := rfl
  mixed _ _ _ _ := .zero
  twice := rfl
  thrice _ _ _ _ _ := .zero

theorem TurnsTo.scale (h : T.TurnsTo G J T') (s : K) : (T.scale s).TurnsTo G J (T'.scale s) where
  value := by rw [Partials.scale, Partials.scale, h.value]
  slope k hk i := (h.slope k hk i).mul_right s
  varied := by rw [Partials.scale, Partials.scale, h.varied]
  mixed k hk α i := (h.mixed k hk α i).mul_right s
  twice := by rw [Partials.scale, Partials.scale, h.twice]
  thrice k hk α β i := (h.thrice k hk α β i).mul_right s

theorem TurnsTo.add (hA : A.TurnsTo G J A') (hB : B.TurnsTo G J B') :
    (A.add B).TurnsTo G J (A'.add B') where
  value := by rw [Partials.add, Partials.add, hA.value, hB.value]
  slope k hk i := (hA.slope k hk i).add (hB.slope k hk i)
  varied := by rw [Partials.add, Partials.add, hA.varied, hB.varied]
  mixed k hk α i := (hA.mixed k hk α i).add (hB.mixed k hk α i)
  twice := by rw [Partials.add, Partials.add, hA.twice, hB.twice]
  thrice k hk α β i := (hA.thrice k hk α β i).add (hB.thrice k hk α β i)

theorem TurnsTo.inner (hA : A.TurnsTo G J A') (hB : B.TurnsTo G J B') (V : ℕ) :
    (Partials.inner V A B).TurnsTo G J (Partials.inner V A' B') where
  value := by simp only [Partials.inner, hA.value, hB.value]
  slope k hk i := by
    simp only [Partials.inner, hA.value, hB.value]
    exact .sum fun d _ => ((hA.slope k hk d).mul_right _).add ((hB.slope k hk d).mul_left _)
  varied := by simp only [Partials.inner, hA.value, hB.value, hA.varied, hB.varied]
  mixed k hk α i := by
    simp only [Partials.inner, hA.value, hB.value, hA.varied, hB.varied]
    exact .sum fun d _ => ((((hA.mixed k hk α d).mul_right _).add
      ((hA.slope k hk d).mul_right _)).add ((hB.slope k hk d).mul_left _)).add
      ((hB.mixed k hk α d).mul_left _)
  twice := by
    simp only [Partials.inner, hA.value, hB.value, hA.varied, hB.varied, hA.twice, hB.twice]
  thrice k hk α β i := by
    simp only [Partials.inner, hA.value, hB.value, hA.varied, hB.varied, hA.twice, hB.twice]
    exact .sum fun d _ => ((((((((hA.thrice k hk α β d).mul_right _).add
      ((hA.mixed k hk α d).mul_right _)).add ((hA.mixed k hk β d).mul_right _)).add
      ((hA.slope k hk d).mul_right _)).add ((hB.slope k hk d).mul_left _)).add
      ((hB.mixed k hk β d).mul_left _)).add ((hB.mixed k hk α d).mul_left _)).add
      ((hB.thrice k hk α β d).mul_left _)

theorem TurnsTo.map (h : T.TurnsTo G J T') (y : K) (t : Taylor K) :
    (Partials.map y t T).TurnsTo G J (Partials.map y t T') where
  value := rfl
  slope k hk _ := (h.slope k hk 0).mul_left _
  varied := by simp only [Partials.map, h.varied]
  mixed k hk α _ := by
    simp only [Partials.map, h.varied]
    exact (((h.slope k hk 0).mul_right _).mul_left _).add ((h.mixed k hk α 0).mul_left _)
  twice := by simp only [Partials.map, h.varied, h.twice]
  thrice k hk α β _ := by
    simp only [Partials.map, h.varied, h.twice]
    exact (((((h.slope k hk 0).mul_right _).mul_right _).mul_left _).add
      (((((h.slope k hk 0).mul_right _).add ((h.mixed k hk β 0).mul_left _)).add
        ((h.mixed k hk α 0).mul_left _)).mul_left _)).add ((h.thrice k hk α β 0).mul_left _)

theorem TurnsTo.normalize (h : T.TurnsTo G J T') (V : ℕ) :
    (T.normalize V).TurnsTo G J (T'.normalize V) where
  value := by simp only [Partials.normalize, h.value]
  slope k hk i := by
    simp only [Partials.normalize, h.value]
    exact .sum fun d _ => (h.slope k hk d).mul_left _
  varied := by simp only [Partials.normalize, h.value, h.varied]
  mixed k hk α i := by
    simp only [Partials.normalize, h.value, h.varied]
    exact .sum fun d _ => ((combines_hessianEntry (h.slope k hk) _ i d).mul_right _).add
      ((h.mixed k hk α d).mul_left _)
  twice := by simp only [Partials.normalize, h.value, h.varied, h.twice]
  thrice k hk α β i := by
    simp only [Partials.normalize, h.value, h.varied, h.twice]
    refine (((Combines.bilinear_left (h.mixed k hk α) V _ _).add
      (.bilinear_right (h.mixed k hk β) V _ _)).add
      (.bilinear_form (combines_thirdEntry_right (h.slope k hk) _ _) V _ _)).add
      (.sum fun d _ => ?_)
    exact ((h.thrice k hk α β d).mul_left _).add
      ((combines_hessianEntry (h.slope k hk) _ d i).mul_right _)

end Partials

/-- The table of an expression turns if those of its leaves do. -/
theorem Expr.turnsTo_partials {e : Expr K} {G : ℕ} {J : ℕ → ℕ → K} {T T' : ℕ → Partials K}
    (h : ∀ slot ∈ e.slots, (T slot).TurnsTo G J (T' slot)) (hfree : e.StrainFree) :
    (e.partials T).TurnsTo G J (e.partials T') := by
  induction e with
  | leaf slot _ => exact h slot List.mem_cons_self
  | constant x => exact Partials.turnsTo_const x
  | unary op a ih =>
    cases op with
    | negate => exact (ih h hfree).scale (-1)
    | scale s => exact (ih h hfree).scale s
    | map g =>
      have ha := ih h hfree
      rw [Expr.partials, Expr.partials, ha.value]
      exact ha.map _ _
    | strain => exact hfree.elim
  | binary op a b iha ihb =>
    have ha := iha (fun slot hs => h slot (List.mem_append_left _ hs)) hfree.1
    have hb := ihb (fun slot hs => h slot (List.mem_append_right _ hs)) hfree.2
    cases op with
    | sum => exact ha.add hb
    | dot => exact ha.inner hb _

end ElementFields
