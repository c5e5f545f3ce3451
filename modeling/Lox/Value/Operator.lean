import Lox.Fault
import Lox.Value.Basic

namespace Lox.Value

def unary (op : Kind) (v : Value) : Except FaultCause Value :=
  match op, v with
  | .mark .minus, number x => .ok (number (-x))
  | .mark .minus, _ => .error .operandNotNumber
  | .mark .bang, v => .ok (bool !v.isTruthy)
  | _, _ => .error .invalidUnary

/-- A number may be added behind a string, but not before one. -/
def plus : Value → Value → Except FaultCause Value
  | number a, number b => .ok (number (a + b))
  | string a, string b => .ok (string (a ++ b))
  | string a, number b => .ok (string (a ++ Number.display b))
  | _, _ => .error .operandsNotAddable

def arithmetic (op : Kind) (a b : Float) : Except FaultCause Value :=
  match op with
  | .mark .minus => .ok (number (a - b))
  | .mark .star => .ok (number (a * b))
  | .mark .slash => .ok (number (a / b))
  | .mark .greater => .ok (bool (decide (b < a)))
  | .mark .greaterEqual => .ok (bool (decide (b ≤ a)))
  | .mark .less => .ok (bool (decide (a < b)))
  | .mark .lessEqual => .ok (bool (decide (a ≤ b)))
  | _ => .error .invalidBinary

def binary (op : Kind) (left right : Value) : Except FaultCause Value :=
  match op with
  | .mark .equalEqual => .ok (bool (left.same right))
  | .mark .bangEqual => .ok (bool !left.same right)
  | .mark .plus => plus left right
  | op =>
    match left, right with
    | number a, number b => arithmetic op a b
    | _, _ => .error .operandsNotNumbers

def decides (op : Kind) (left : Value) : Bool :=
  match op with
  | .keyword .kOr => left.isTruthy
  | _ => !left.isTruthy

end Lox.Value
