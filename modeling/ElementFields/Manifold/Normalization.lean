import ElementFields.Linear.Mat

/-! The map that divides a vector by its length. With `r` the length of `p` and `n = p / r`, the
Jacobian is `(I - n nᵀ) / r`; the higher derivatives are contracted with `u` over the value index,
and the third also with a direction `w`. -/
namespace ElementFields

open Scalar

variable {K : Type} [Scalar K]

def normalized (p : Vec K) : Vec K := p.divide p.norm

def normalizationJacobian (p : Vec K) : Mat K :=
  let r := p.norm
  let n := normalized p
  .ofFn p.size p.size fun i j => (delta i j - n.entry i * n.entry j) / r

/-- The entries of the second derivative, for `n` of length one and `r` the length of the point. -/
def secondEntry (r : K) (n u : Vec K) (i j : Nat) : K :=
  let nᵢ := n.entry i
  let nⱼ := n.entry j
  ((nᵢ * nⱼ * (3 : Nat) - delta i j) * n.inner u - u.entry i * nⱼ - nᵢ * u.entry j) / (r * r)

def normalizationSecond (p u : Vec K) : Checked (Mat K) :=
  let r := p.norm
  let n := normalized p
  .require (u.size = p.size) .misfit (.ofFn p.size p.size (secondEntry r n u))

/-- The entries of half the third derivative before it is made symmetric. -/
def halfThirdEntry (n u w : Vec K) (i j : Nat) : K :=
  let nᵢ := n.entry i
  let nⱼ := n.entry j
  let nu := n.inner u
  let nw := n.inner w
  let half : K := 1 / (2 : Nat)
  let halfUw := half * u.inner w
  (u.entry i * nⱼ + (delta i j - nᵢ * nⱼ * (5 : Nat)) * (nu * half)) * ((3 : Nat) * nw) +
    (nᵢ * nⱼ * halfUw + w.entry i * nⱼ * nu) * (3 : Nat) - u.entry i * w.entry j -
    delta i j * halfUw

/-- The third derivative of the normalization at `p`, contracted with `u` and taken in direction
`w`. -/
def normalizationThird (p u w : Vec K) : Checked (Mat K) :=
  let r := p.norm
  let n := normalized p
  .require (u.size = p.size ∧ w.size = p.size) .misfit
    (.ofFn p.size p.size fun i j =>
      (halfThirdEntry n u w i j + halfThirdEntry n u w j i) / (r * r * r))

end ElementFields
