import Mathlib.Data.Rat.Defs

/-! JSON values as `json.loads` builds them, with the equality of the language. -/
namespace TrainVla

/-- Floating-point numbers up to `==`: both zeros are `finite 0`. -/
inductive PyFloat
  | finite (q : ℚ)
  | infinity (negative : Bool)
  | nan
  deriving DecidableEq

def PyFloat.pyEq : PyFloat → PyFloat → Bool
  | .finite p, .finite q => p == q
  | .infinity s, .infinity t => s == t
  | _, _ => false

/-- An object lists the items of a dictionary, so its keys are distinct. -/
inductive Json
  | null
  | bool (b : Bool)
  | int (n : ℤ)
  | float (x : PyFloat)
  | str (s : String)
  | arr (xs : List Json)
  | obj (items : List (String × Json))

namespace Json

/-- Booleans, integers and floats compare by numeric value. -/
def number? : Json → Option PyFloat
  | .bool b => some (.finite (if b then 1 else 0))
  | .int n => some (.finite n)
  | .float x => some x
  | _ => none

mutual

def pyEq : Json → Json → Bool
  | .null, .null => true
  | .str s, .str t => s == t
  | .arr xs, .arr ys => pyEqAll xs ys
  | .obj xs, .obj ys => xs.length == ys.length && pyEqItems xs ys
  | .bool b, v => pyEqNumber (Json.bool b).number? v.number?
  | .int n, v => pyEqNumber (Json.int n).number? v.number?
  | .float x, v => pyEqNumber (Json.float x).number? v.number?
  | _, _ => false

def pyEqNumber : Option PyFloat → Option PyFloat → Bool
  | some x, some y => x.pyEq y
  | _, _ => false

def pyEqAll : List Json → List Json → Bool
  | [], [] => true
  | x :: xs, y :: ys => pyEq x y && pyEqAll xs ys
  | _, _ => false

def pyEqItems : List (String × Json) → List (String × Json) → Bool
  | [], _ => true
  | (k, v) :: xs, ys =>
    (match ys.lookup k with
      | some v' => pyEq v v'
      | none => false) && pyEqItems xs ys

end

/-- `value[key]` on a dictionary. -/
def item? (key : String) : List (String × Json) → Option Json := List.lookup key

end Json

end TrainVla
