import Lox.Machine.Basic

namespace Lox.HostFunction

def passOn : Except Fault Value → Action
  | .ok v => .done v
  | .error f => .fail f.text

def callBack (callee : Value) (arguments : List Value) (line : Nat) : Action :=
  match callee with
  | .callable c => .call c arguments line passOn
  | _ => .fail "not callable"

def double : HostFunction
  | .number x :: _ => .done (.number (x * 2))
  | _ => .fail "double expects a number."

def alwaysFail : HostFunction := fun _ ↦ .fail "native failure"

def second : HostFunction
  | _ :: v :: _ => .done v
  | _ => .done .nil

def call0 (line : Nat) : HostFunction
  | f :: _ => callBack f [] line
  | [] => .fail "not callable"

def call2 (line : Nat) : HostFunction
  | f :: a :: b :: _ => callBack f [a, b] line
  | f :: rest => callBack f rest line
  | [] => .fail "not callable"

end Lox.HostFunction
