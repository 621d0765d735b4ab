import SpaceVerifier.Foundation.PyStr

/-!
# Dynamically typed values and the exceptions their operations raise

The fragment of Python that a program meets when it computes with values read
from JSON: the seven JSON types, comparison with numbers, scaling by a power of
two, iteration, subscripting and `range`. An operation on a value of the wrong
type is an exception, not a missing case, so a program that checks its inputs
late can be followed up to the point where it fails.
-/

namespace Foundation

/-- A float: a finite value is taken as the rational number it denotes. -/
inductive PyFloat where
  | nan
  | negInf
  | posInf
  | fin (q : ℚ)

inductive PyVal where
  | none
  | bool (b : Bool)
  | int (z : Int)
  | float (x : PyFloat)
  | str (s : PyStr)
  | list (l : List PyVal)
  | dict (d : List (PyStr × PyVal))

inductive PyExc where
  | typeError
  | attributeError
  | keyError (key : String)
  /-- The message, with the values interpolated into it. -/
  | valueError (msg : String) (vals : List PyVal)
  | overflowError
  | unicodeEncodeError
  | fileNotFound (path : String)
  | osError (path : String)

namespace PyFloat

def lt : PyFloat → PyFloat → Bool
  | .nan, _ => false
  | _, .nan => false
  | .posInf, _ => false
  | _, .negInf => false
  | .negInf, _ => true
  | _, .posInf => true
  | .fin p, .fin q => decide (p < q)

def le : PyFloat → PyFloat → Bool
  | .nan, _ => false
  | _, .nan => false
  | .negInf, _ => true
  | _, .posInf => true
  | .posInf, _ => false
  | _, .negInf => false
  | .fin p, .fin q => decide (p ≤ q)

/-- `x * 2^k`: exact unless it leaves the range of doubles. -/
def mulPow2 (x : PyFloat) (k : Nat) : PyFloat :=
  match x with
  | .fin q =>
      let r := q * 2 ^ k
      if (2 : ℚ) ^ 1024 ≤ r then .posInf
      else if r ≤ -(2 : ℚ) ^ 1024 then .negInf
      else .fin r
  | x => x

end PyFloat

namespace PyVal

def isNone : PyVal → Bool
  | .none => true
  | _ => false

/-- The number a value stands for in a comparison with a number: `bool` is a
subtype of `int`, every other non-number raises. -/
def num : PyVal → Except PyExc PyFloat
  | .int z => .ok (.fin z)
  | .bool b => .ok (.fin (if b then 1 else 0))
  | .float x => .ok x
  | _ => .error .typeError

/-- `a < b`, one of the two being a number. -/
def lt (a b : PyVal) : Except PyExc Bool := do
  return (← a.num).lt (← b.num)

/-- `a <= b`, one of the two being a number. -/
def le (a b : PyVal) : Except PyExc Bool := do
  return (← a.num).le (← b.num)

/-- `v * 2^k`. -/
def mulPow2 (v : PyVal) (k : Nat) : Except PyExc PyVal :=
  match v with
  | .int z => .ok (.int (z * 2 ^ k))
  | .bool b => .ok (.int ((if b then 1 else 0) * 2 ^ k))
  | .float x => .ok (.float (x.mulPow2 k))
  | .str s => .ok (.str (.concat (List.replicate (2 ^ k) s)))
  | .list l => .ok (.list (List.replicate (2 ^ k) l).flatten)
  | _ => .error .typeError

/-- The operand of an operation that only integers have. -/
def asInt : PyVal → Except PyExc Int
  | .int z => .ok z
  | .bool b => .ok (if b then 1 else 0)
  | _ => .error .typeError

/-- The number of iterations of `range(v)`. -/
def range (v : PyVal) : Except PyExc Nat := do return (← v.asInt).toNat

/-- The elements met by `for x in v`. -/
def iter : PyVal → Except PyExc (List PyVal)
  | .list l => .ok l
  | .dict d => .ok (d.map fun kv => .str kv.1)
  | .str s => .ok (s.chars.map fun c => .str ⟨[c]⟩)
  | _ => .error .typeError

/-- `v[key]`. -/
def item (v : PyVal) (key : String) : Except PyExc PyVal :=
  match v with
  | .dict d =>
      match d.lookup (key : PyStr) with
      | some x => .ok x
      | .none => .error (.keyError key)
  | _ => .error .typeError

/-- `v.get(key, default)`. -/
def getD (v : PyVal) (key : String) (default : PyVal) : Except PyExc PyVal :=
  match v with
  | .dict d => .ok ((d.lookup (key : PyStr)).getD default)
  | _ => .error .attributeError

/-- `math.ceil(math.log2(v))` for a positive number `v`. The value on positive
finite numbers is the parameter `ceilLog2`. -/
def mathCeilLog2 (ceilLog2 : ℚ → Int) (v : PyVal) : Except PyExc Int := do
  match ← v.num with
  | .fin q => return ceilLog2 q
  | .nan => throw (.valueError "cannot convert float NaN to integer" [])
  | _ => throw .overflowError

/-! ## Comparisons of integers -/

@[simp] theorem lt_int (a b : Int) :
    PyVal.lt (.int a) (.int b) = .ok (decide (a < b)) := by
  show Except.ok (decide ((a : ℚ) < (b : ℚ))) = _
  simp only [Rat.intCast_lt_intCast]

@[simp] theorem le_int (a b : Int) :
    PyVal.le (.int a) (.int b) = .ok (decide (a ≤ b)) := by
  show Except.ok (decide ((a : ℚ) ≤ (b : ℚ))) = _
  simp only [Rat.intCast_le_intCast]

end PyVal

end Foundation
