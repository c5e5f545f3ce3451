import Lox.Fault
import Lox.Value.Basic

namespace Lox

/-- Where programs print. It takes what is printed until `room` is used up, and may fail to be
flushed. -/
structure Sink where
  output : String
  room : Option Nat
  writeError : String
  flushError : Option String

namespace Sink

def unbounded : Sink := ⟨"", none, "", none⟩

def isFull (k : Sink) : Bool := k.room == some 0

def print (k : Sink) (text : String) : Sink :=
  { k with output := k.output ++ text ++ "\n", room := k.room.map (· - 1) }

def clear (k : Sink) : Sink := { k with output := "" }

end Sink

structure Clock where
  reading : Nat → Float
  reads : Nat

namespace Clock

def ticking : Clock := ⟨fun n ↦ n.toFloat / 1000000, 0⟩

def now (c : Clock) : Float := c.reading c.reads

def advance (c : Clock) : Clock := { c with reads := c.reads + 1 }

end Clock

/-- What a host function does next. It may read the clock and call back before it ends with a value
or a failure. -/
inductive Action where
  | done (v : Value)
  | fail (text : String)
  | time (next : Float → Action)
  | call (callee : Callable) (arguments : List Value) (line : Nat) (next : Except Fault Value → Action)

abbrev HostFunction := List Value → Action

namespace HostFunction

def clock : HostFunction := fun _ ↦ .time fun seconds ↦ .done (.number seconds)

end HostFunction

end Lox
