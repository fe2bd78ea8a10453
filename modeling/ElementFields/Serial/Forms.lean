import ElementFields.Manifold.Basic
import ElementFields.Quadrature.Rule
import ElementFields.Request.Basic
import ElementFields.Serial.Json

/-! The written forms of blocks, transforms, quadrature rules and points of manifolds. A rule is taken
as it stands, without the checks of `QuadratureRule.ofLists`, and a point of the sphere is
normalized. -/
namespace ElementFields

inductive ReadError where
  | malformed
  | broken (v : Violation)
deriving DecidableEq, Repr

abbrev Reading := Except ReadError

def Reading.ofOption {α : Type} : Option α → Reading α
  | some a => .ok a
  | none => .error .malformed

def Reading.ofChecked {α : Type} : Checked α → Reading α
  | .ok a => .ok a
  | .error v => .error (.broken v)

namespace Json

def array? : Json → Option (List Json)
  | array items => some items
  | _ => none

/-- The natural number below 2⁶⁴ that is written as an integer. -/
def word? : Json → Option Nat
  | number d => d.toNat?.filter (· < UInt64.size)
  | _ => none

def finite? : Json → Option Float
  | number d => some d.toFloat |>.filter Float.isFinite
  | _ => none

def finites? (j : Json) : Option (List Float) := do (← j.array?).mapM finite?

def tuple? (dim : Nat) (j : Json) : Option (Vec Float) := do
  let numbers ← j.finites?
  guard (numbers.length = dim)
  return numbers.toArray

/-- The only field with the given name. -/
def field? (fields : List (String × Json)) (name : String) : Option Json :=
  match fields.filter fun field => field.1 = name with
  | [field] => some field.2
  | _ => none

def record? (names : List String) : Json → Option (List Json)
  | object fields => do
    let fields ← fields.mapM fun (name, value) => name.map (·, value)
    names.mapM (field? fields)
  | array items => if items.length = names.length then some items else none
  | _ => none

def block? (j : Json) : Option BlockId := do return ⟨← j.word?⟩

def transformNamed? : String → Option Transform
  | "ReferenceElement" => some .referenceElement
  | "GridElement" => some .gridElement
  | _ => none

/-- A transform is written as its name, or as the name of an empty field. -/
def transform? : Json → Option Transform
  | string (some name) => transformNamed? name
  | object [(some name, null)] => transformNamed? name
  | _ => none

/-- A point of a rule is written as a matrix with one column: entries, number of rows, and no number
of columns. -/
def rulePoint? : Json → Option (Vec Float)
  | array [entries, rows, null] => do entries.tuple? (← rows.word?)
  | _ => none

def rule? (j : Json) : Option (QuadratureRule Float) := do
  match ← j.record? ["weights", "points"] with
  | [weights, points] =>
    let weights ← weights.finites?
    let points ← (← points.array?).mapM rulePoint?
    return { weights, points }
  | _ => none

/-- The coordinates of a point: a record of one field in Euclidean space, the bare numbers on the
sphere. -/
def coordinates? : Manifold → Json → Option (Vec Float)
  | .euclidean dim, j => do
    match ← j.record? ["var"] with
    | [coords] => coords.tuple? dim
    | _ => none
  | .sphere dim, j => j.tuple? dim

def point? (M : Manifold) (j : Json) : Reading (M.Point Float) := do
  Reading.ofChecked (M.ofVec (← Reading.ofOption (j.coordinates? M)))

end Json

def readText {α : Type} (form : Json → Reading α) (text : String) : Reading α := do
  let (json, rest) ← Reading.ofOption (Json.read? text.toList)
  let value ← form json
  if (Json.skipBlanks rest).isEmpty then return value else .error .malformed

end ElementFields
