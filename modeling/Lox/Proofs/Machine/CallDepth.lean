import Lox.Proofs.Machine.Control

namespace Lox

def Callable.isCounted : Callable → Bool
  | .native _ => false
  | .function _ _ | .cls _ => true

namespace Machine

def called? (f : Value) (arguments : List Value) : Option Callable :=
  match f with
  | .callable c => if arguments.length = c.arity then some c else none
  | _ => none

/-- The call that a machine is about to make, from a program or from a host function, and its line. -/
def calls? : Machine → Option (Callable × Nat)
  | ⟨.value f, .callee [] paren :: _, _⟩ => (called? f []).map (·, paren.line)
  | ⟨.value v, .argument f known [] paren :: _, _⟩ =>
    (called? f (v :: known).reverse).map (·, paren.line)
  | ⟨.act _ (.call c _ line _), _, _⟩ => some (c, line)
  | _ => none

end Machine

def Control.overflow? : Control → Option Nat
  | .fault ⟨.stackOverflow, line⟩ => some line
  | _ => none

namespace Machine

def overflowOf (depth : Nat) : Option (Callable × Nat) → Option Nat
  | some (c, line) => if c.isCounted ∧ maxCallDepth ≤ depth then some line else none
  | none => none

theorem overflow?_construct (i : Interpreter) (k : Stack) (c : Class) (arguments : List Value) :
    (construct i k c arguments).control.overflow? = none := by
  unfold construct
  cases c.initializer? <;> rfl

theorem overflow?_invoke (i : Interpreter) (k : Stack) (c : Callable) (arguments : List Value)
    (line : Nat) :
    (invoke i k c arguments line).control.overflow? = overflowOf i.depth (some (c, line)) := by
  cases c with
  | native f => rfl
  | function id c =>
    by_cases hd : maxCallDepth ≤ i.depth
    · simp [invoke, overflowOf, Callable.isCounted, hd, Control.overflow?]
    · simp [invoke, overflowOf, Callable.isCounted, hd, enterClosure, enterBlock, Control.overflow?]
  | cls c =>
    by_cases hd : maxCallDepth ≤ i.depth
    · simp [invoke, overflowOf, Callable.isCounted, hd, Control.overflow?]
    · simp [invoke, overflowOf, Callable.isCounted, hd, overflow?_construct]

theorem overflow?_apply (i : Interpreter) (k : Stack) (f : Value) (arguments : List Value)
    (paren : Token) : (apply i k f arguments paren).control.overflow? =
      overflowOf i.depth ((called? f arguments).map (·, paren.line)) := by
  cases f with
  | callable c =>
    rw [apply, called?]
    split
    · exact overflow?_invoke i k c arguments paren.line
    · rfl
  | _ => rfl

theorem overflow?_property (i : Interpreter) (k : Stack) (object : ObjectId) (name : Token) :
    (property i k object name).control.overflow? = none := by
  unfold property
  split
  · rfl
  · split
    · rfl
    · split <;> rfl

theorem overflow?_superMethod (i : Interpreter) (k : Stack) (ref : Ref) (name : Token) :
    (superMethod i k ref name).control.overflow? = none := by
  unfold superMethod
  split
  · rfl
  · split
    · rfl
    · split
      · rfl
      · split <;> rfl
      · rfl
    · rfl

theorem overflow?_lookup {i : Interpreter} {ref : Ref} {f : Fault} (h : i.lookup ref = .error f) :
    (Control.fault f).overflow? = none := by
  rw [Interpreter.lookup] at h
  split at h
  · cases h
  · cases h
    rfl

theorem overflow?_declareClass (i : Interpreter) (k : Stack) (name : Token) (superclass : Option Ref)
    (methods : List FunctionDecl) :
    (declareClass i k name superclass methods).control.overflow? = none := by
  unfold declareClass
  split
  · rfl
  · split
    · next h => exact overflow?_lookup h
    · rfl
    · rfl

theorem overflow?_eval (i : Interpreter) (k : Stack) (e : Expr) :
    (eval i k e).control.overflow? = none := by
  cases e with
  | var ref | this ref =>
    rw [eval]
    split
    · rfl
    · next h => exact overflow?_lookup h
  | super ref name => exact overflow?_superMethod i k ref name
  | _ => rfl

theorem overflow?_exec (i : Interpreter) (k : Stack) (s : Stmt) :
    (exec i k s).control.overflow? = none := by
  cases s with
  | classDecl name superclass methods => exact overflow?_declareClass i k name superclass methods
  | var _ value | ret _ value => cases value <;> rfl
  | _ => rfl

theorem overflow?_ofExcept (i : Interpreter) (k : Stack) (line : Nat) {o : Except FaultCause Value}
    (h : o ≠ .error .stackOverflow) : (ofExcept i k line o).control.overflow? = none := by
  cases o with
  | ok v => rfl
  | error cause =>
    cases cause with
    | stackOverflow => exact absurd rfl h
    | _ => rfl

theorem overflow?_unary (i : Interpreter) (k : Stack) (line : Nat) (op : Kind) (v : Value) :
    (ofExcept i k line (v.unary op)).control.overflow? = none := by
  apply overflow?_ofExcept
  unfold Value.unary
  split <;> nofun

theorem overflow?_binary (i : Interpreter) (k : Stack) (line : Nat) (op : Kind) (a b : Value) :
    (ofExcept i k line (Value.binary op a b)).control.overflow? = none := by
  apply overflow?_ofExcept
  unfold Value.binary
  split
  · nofun
  · nofun
  · unfold Value.plus
    split <;> nofun
  · split
    · unfold Value.arithmetic
      split <;> nofun
    · nofun

theorem overflow?_resume {i : Interpreter} {k : Stack} {v : Value} {frame : Frame} {m : Machine}
    (h : resume i k v frame = some m) :
    m.control.overflow? = overflowOf i.depth (calls? ⟨.value v, frame :: k, i⟩) := by
  cases resumed h with
  | callee paren => exact overflow?_apply i k v [] paren
  | lastArgument f known paren => exact overflow?_apply i k f _ paren
  | unary => exact overflow?_unary i k _ _ v
  | binaryRight left => exact overflow?_binary i k _ _ left v
  | get o name => exact overflow?_property i k o name
  | _ => rfl

theorem overflow?_finish {i : Interpreter} {k : Stack} {flow : Flow} {frame : Frame} {m : Machine}
    (h : finish i k flow frame = some m) : m.control.overflow? = none := by
  cases finished h <;> rfl

/-- A stack overflow comes up in a counted call at the greatest depth, and nowhere else. -/
theorem overflow?_step {m m' : Machine} (h : m.step = some m') (hm : ∀ f, m.control ≠ .fault f) :
    m'.control.overflow? = overflowOf m.state.depth m.calls? := by
  obtain ⟨c, k, i⟩ := m
  cases stepped h with
  | eval k e => exact overflow?_eval i k e
  | exec k s => exact overflow?_exec i k s
  | act _ _ action =>
    cases action with
    | call callee arguments callLine next => exact overflow?_invoke i _ callee arguments callLine
    | _ => rfl
  | value h => exact overflow?_resume h
  | done h => exact overflow?_finish h
  | fault _ f => exact absurd rfl (hm f)

theorem calls_invoke {i : Interpreter} {c : Callable} (hc : c.isCounted = true)
    (hd : i.depth < maxCallDepth) (k : Stack) (arguments : List Value) (line : Nat) :
    Stack.calls (invoke i k c arguments line).stack = Stack.calls k + 1 := by
  have hd : ¬maxCallDepth ≤ i.depth := by omega
  cases c with
  | native f => cases hc
  | function id c =>
    rw [invoke, if_neg hd]
    rfl
  | cls c =>
    rw [invoke, if_neg hd]
    unfold construct
    cases c.initializer? <;> rfl

theorem apply_eq_invoke {f : Value} {arguments : List Value} {c : Callable}
    (h : called? f arguments = some c) (i : Interpreter) (k : Stack) (paren : Token) :
    apply i k f arguments paren = invoke i k c arguments paren.line := by
  cases f with
  | callable c' =>
    rw [called?] at h
    split at h
    · next ha =>
      cases h
      exact if_pos ha
    · cases h
  | _ => cases h

/-- A counted call below the greatest depth is entered. -/
theorem calls_step {m : Machine} {c : Callable} {line : Nat} (h : m.calls? = some (c, line))
    (hc : c.isCounted = true) (hd : m.state.depth < maxCallDepth) :
    ∃ m', m.step = some m' ∧ Stack.calls m'.stack = Stack.calls m.stack + 1 := by
  unfold calls? at h
  split at h
  · next f paren k i =>
    obtain ⟨c', hf, heq⟩ := Option.map_eq_some_iff.1 h
    cases heq
    refine ⟨_, rfl, ?_⟩
    rw [apply_eq_invoke hf]
    exact calls_invoke hc hd k [] paren.line
  · next v f known paren k i =>
    obtain ⟨c', hf, heq⟩ := Option.map_eq_some_iff.1 h
    cases heq
    refine ⟨_, rfl, ?_⟩
    rw [apply_eq_invoke hf]
    exact calls_invoke hc hd k _ paren.line
  · next callLine c' arguments line' next k i =>
    cases h
    exact ⟨_, rfl, calls_invoke hc hd (.host callLine next :: k) arguments line⟩
  · cases h

/-- The scopes and the depth of a machine are those of the state that it was started in, but for the
blocks and calls on its stack. -/
structure Accounts (i : Interpreter) (out : Yield) (m : Machine) : Prop where
  yields : m.Yields out
  home : Stack.home m.state.env m.stack = i.env
  depth : m.state.depth = i.depth + Stack.calls m.stack
  limit : m.state.depth ≤ maxCallDepth
  distances : m.state.distances = i.distances
  globals : m.state.globals = i.globals
  sink : i.sink.Extends m.state.sink

theorem Accounts.step {i : Interpreter} {out : Yield} {m m' : Machine} (h : Accounts i out m)
    (hs : m.step = some m') : Accounts i out m' := by
  obtain ⟨⟨y, hy⟩, hhome, hdepth, hlimit, hD, hglobals, hsink⟩ := h
  have hc := step_continues (m := m) (by omega) hs y
  have hd := hc.depth
  exact ⟨hc.yields out hy, hc.home.trans hhome, by omega, hc.limit hlimit, hc.distances.trans hD,
    hc.globals.trans hglobals, hsink.trans hc.sink⟩

theorem Accounts.steps {i : Interpreter} {out : Yield} {m m' : Machine} (h : Accounts i out m)
    (hs : Steps m m') : Accounts i out m' := hs.invariant h fun _ _ ↦ Accounts.step

/-- When nothing is left to do, scopes and depth are the ones from the start. -/
theorem Accounts.restored {i : Interpreter} {out : Yield} {m : Machine} (h : Accounts i out m)
    (hs : m.step = none) : m.state.env = i.env ∧ m.state.depth = i.depth := by
  obtain ⟨hk, -⟩ := h.yields.of_step_eq_none hs
  have hhome := h.home
  have hdepth := h.depth
  rw [hk] at hhome hdepth
  exact ⟨hhome, hdepth⟩

theorem eval_accounts {i : Interpreter} (hi : i.depth ≤ maxCallDepth) (e : Expr) :
    Accounts i .value ⟨.eval e, [], i⟩ := ⟨⟨.value, rfl⟩, rfl, rfl, hi, rfl, rfl, .refl _⟩

theorem exec_accounts {i : Interpreter} (hi : i.depth ≤ maxCallDepth) (s : Stmt) :
    Accounts i .flow ⟨.exec s, [], i⟩ := ⟨⟨.flow, rfl⟩, rfl, rfl, hi, rfl, rfl, .refl _⟩

end Machine

end Lox
