import Pseudocode.Fault

/-!
Arithmetic on numbers and on values. Two integers give an integer whenever the exact
result is one, and a real number only for a quotient with a remainder; anything with
a real operand is computed in real numbers and must stay finite.
-/

namespace Pseudocode

namespace Number

def checked : Option Integer → Except Fault Number
  | some n => .ok (.integer n)
  | none => .error .overflow

def applySign : Sign → Number → Except Fault Number
  | .plus, number => .ok number
  | .minus, .integer n => checked n.neg?
  | .minus, .real x => .ok (.real x.neg)

def applyIntegers (op : Operator) (a b : Integer) : Except Fault Number :=
  match op with
  | .add => checked (a.add? b)
  | .sub => checked (a.sub? b)
  | .mul => checked (a.mul? b)
  | .div =>
      if b.val = 0 then .error .divisionByZero
      else if a.val.tmod b.val = 0 then checked (a.div? b)
      else .ok (.real ((Binary64.ofInt a.val).div (Binary64.ofInt b.val)))

def checkedReal (x : Binary64) : Except Fault Number :=
  if x.isFinite then .ok (.real x) else .error .overflow

def applyReals (op : Operator) (x y : Binary64) : Except Fault Number :=
  match op with
  | .add => checkedReal (x.add y)
  | .sub => checkedReal (x.sub y)
  | .mul => checkedReal (x.mul y)
  | .div => if y.isZero then .error .divisionByZero else checkedReal (x.div y)

def apply (op : Operator) : Number → Number → Except Fault Number
  | .integer a, .integer b => applyIntegers op a b
  | a, b => applyReals op a.toReal b.toReal

end Number

namespace Binary64

/-- The integer equal to a real number. Out of range is an overflow; a fraction and what is not
a finite number do not fit the type. The highest integer is not a real number: the bound is
what it is rounded to, which is the first number too large. -/
def toInteger (x : Binary64) : Except Fault Integer :=
  if !x.isFinite then .error (.mismatch (.notFinite x))
  else if x.lt (ofInt Integer.lowest.val) || (ofInt Integer.highest.val).le x then
    .error .overflow
  else if !x.isWhole then .error (.mismatch (.fractional x))
  else .ok x.wholePart

end Binary64

namespace Value

def toNumber : Value → Except Fault Number
  | .number n => .ok n
  | value => .error (.mismatch (.notNumber value.kind))

def toReal (value : Value) : Except Fault Binary64 := value.toNumber.map Number.toReal

def applySign (sign : Sign) (value : Value) : Except Fault Value :=
  value.toNumber.bind fun n => (n.applySign sign).map Value.number

def apply (op : Operator) : Value → Value → Except Fault Value
  | .number a, .number b => (Number.apply op a b).map Value.number
  | left, right => .error (.mismatch (.operands left op right))

end Value

def Number.convert : Kind → Number → Except Fault Number
  | .integer, .real x => x.toInteger.map .integer
  | .real, number => .ok (.real number.toReal)
  | _, number => .ok number

/-- Makes a value fit the variable `name` of type `target`. -/
def Value.coerce (value : Value) (target : Kind) (name : Text) : Except Fault Value :=
  if !target.isNumeric then .error (.notNumericTarget name target)
  else value.toNumber.bind fun n => (n.convert target).map Value.number

end Pseudocode
