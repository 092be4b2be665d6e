/-
  Scriptling.Arithmetic — operators on values.

  Operators take integers. The result of an arithmetic operator has to be a 64-bit integer
  again; division goes toward zero.
-/

import Scriptling.Fault

namespace Scriptling

def isWord (n : Int) : Bool := -9223372036854775808 ≤ n && n ≤ 9223372036854775807

namespace Value

def toInt (context : String) : Value → Except Fault Int
  | .int n => .ok n
  | v => .error (.kind .integer v.kind context)

def toBool (context : String) : Value → Except Fault Bool
  | .bool b => .ok b
  | v => .error (.kind .boolean v.kind context)

end Value

namespace Operator

def checked (op : Operator) (n : Int) : Except Fault Value :=
  if isWord n then .ok (.int n) else .error (.overflow op)

def onInts (op : Operator) (m n : Int) : Except Fault Value :=
  match op with
  | add => op.checked (m + n)
  | subtract => op.checked (m - n)
  | multiply => op.checked (m * n)
  | divide => if n = 0 then .error .divisionByZero else op.checked (m.tdiv n)
  | less => .ok (.bool (m < n))
  | lessOrEqual => .ok (.bool (m ≤ n))
  | greater => .ok (.bool (m > n))
  | greaterOrEqual => .ok (.bool (m ≥ n))
  | equal => .ok (.bool (m = n))
  | notEqual => .ok (.bool (m ≠ n))

/-- What the operator makes of two values. The left one is looked at first. -/
def apply (op : Operator) (left right : Value) : Except Fault Value :=
  let context := "operator '" ++ op.symbol ++ "'"
  match left, right with
  | .int m, .int n => op.onInts m n
  | .int _, v | v, _ => .error (.kind .integer v.kind context)

end Operator

end Scriptling
