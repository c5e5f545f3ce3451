import Lox.Proofs.Machine.Run
import Lox.Proofs.Machine.Transition

namespace Lox

/-- What an expression or a statement comes to, unless it faults. -/
inductive Yield where
  | value
  | flow

namespace Frame

def takes : Frame → Yield
  | .body _ _ | .block _ _ | .program _ | .result _ => .flow
  | _ => .value

def gives : Frame → Yield
  | .discard | .print _ | .define _ | .branch _ _ | .test _ _ | .ret => .flow
  | .body _ _ | .block _ _ | .program _ => .flow
  | _ => .value

end Frame

namespace Stack

def calls : Stack → Nat
  | [] => 0
  | .leave :: k => calls k + 1
  | _ :: k => calls k

/-- The scopes in which the bottom of a stack is reached from those of `env`. -/
def home (env : Env) : Stack → Env
  | [] => env
  | .block _ saved :: k => home saved k
  | _ :: k => home env k

def Turns (y out : Yield) : Stack → Prop
  | [] => y = out
  | frame :: k => frame.takes = y ∧ Turns frame.gives out k

/-- Stacks that count the same calls, come back to the same scopes and lead to the same yield. -/
structure Alike (k : Stack) (y : Yield) (k' : Stack) (y' : Yield) : Prop where
  calls : calls k' = calls k
  home : ∀ env, home env k' = home env k
  turns : ∀ out, Turns y out k → Turns y' out k'

theorem Alike.refl (k : Stack) (y : Yield) : Alike k y k y := ⟨rfl, fun _ ↦ rfl, fun _ h ↦ h⟩

end Stack

/-- A sink that has been printed to. -/
structure Sink.Extends (k k' : Sink) : Prop where
  output : ∃ text, k'.output = k.output ++ text
  room : k.room = none → k'.room = none
  flushError : k'.flushError = k.flushError

namespace Sink.Extends

theorem refl (k : Sink) : k.Extends k := ⟨⟨"", String.append_empty.symm⟩, id, rfl⟩

theorem trans {k₁ k₂ k₃ : Sink} (h : k₁.Extends k₂) (h' : k₂.Extends k₃) : k₁.Extends k₃ := by
  obtain ⟨text, ht⟩ := h.output
  obtain ⟨text', ht'⟩ := h'.output
  refine ⟨⟨text ++ text', ?_⟩, fun hr ↦ h'.room (h.room hr), h'.flushError.trans h.flushError⟩
  rw [ht', ht, String.append_assoc]

theorem print (k : Sink) (text : String) : k.Extends (k.print text) := by
  refine ⟨⟨text ++ "\n", String.append_assoc⟩, fun h ↦ ?_, rfl⟩
  show k.room.map (· - 1) = none
  rw [h, Option.map_none]

end Sink.Extends

/-- What the control comes to; a fault stands for whatever is waited for. -/
def Control.yield (y : Yield) : Control → Yield
  | .eval _ | .value _ | .act _ _ => .value
  | .exec _ | .done _ => .flow
  | .fault _ => y

namespace Machine

/-- Unless it faults, the machine ends with a value, or else with the end of a statement. -/
def Yields (m : Machine) (out : Yield) : Prop :=
  ∃ y, Stack.Turns (m.control.yield y) out m.stack

/-- What a step makes of a state and a stack that waits for a yield: scopes and depth are still those
that the stack accounts for, and only the store, the clock and the output have changed beside them. -/
structure Continues (i : Interpreter) (k : Stack) (y : Yield) (m : Machine) : Prop where
  yields : ∀ out, Stack.Turns y out k → m.Yields out
  home : Stack.home m.state.env m.stack = Stack.home i.env k
  depth : m.state.depth + Stack.calls k = i.depth + Stack.calls m.stack
  limit : i.depth ≤ maxCallDepth → m.state.depth ≤ maxCallDepth
  distances : m.state.distances = i.distances
  globals : m.state.globals = i.globals
  hosts : m.state.hosts = i.hosts
  sink : i.sink.Extends m.state.sink

section

variable {i : Interpreter} {k : Stack} {y : Yield} {m : Machine}

theorem Continues.of_store {k' : Stack} {y' : Yield} (hk : Stack.Alike k y k' y') {c : Control}
    (hc : c.yield y' = y') (σ : Store) : Continues i k y ⟨c, k', { i with store := σ }⟩ := by
  refine ⟨fun out h ↦ ⟨y', hc.symm ▸ hk.turns out h⟩, hk.home i.env, ?_, id, rfl, rfl, rfl, .refl _⟩
  show i.depth + Stack.calls k = i.depth + Stack.calls k'
  rw [hk.calls]

theorem value_continues (i : Interpreter) (k : Stack) (v : Value) :
    Continues i k .value ⟨.value v, k, i⟩ :=
  .of_store (.refl k _) rfl i.store

theorem done_continues (i : Interpreter) (k : Stack) (flow : Flow) :
    Continues i k .flow ⟨.done flow, k, i⟩ :=
  .of_store (.refl k _) rfl i.store

theorem fault_continues (i : Interpreter) (k : Stack) (y : Yield) (f : Fault) :
    Continues i k y ⟨.fault f, k, i⟩ :=
  .of_store (.refl k y) rfl i.store

theorem Continues.store {σ : Store} (h : Continues { i with store := σ } k y m) : Continues i k y m :=
  ⟨h.yields, h.home, h.depth, h.limit, h.distances, h.globals, h.hosts, h.sink⟩

theorem Continues.alike {k' : Stack} {y' : Yield} (h : Continues i k' y' m)
    (hk : Stack.Alike k y k' y') : Continues i k y m := by
  obtain ⟨hyields, hhome, hdepth, hlimit, hD, hglobals, hhosts, hsink⟩ := h
  refine ⟨fun out h ↦ hyields out (hk.turns out h), hhome.trans (hk.home i.env), ?_, hlimit, hD,
    hglobals, hhosts, hsink⟩
  rw [← hdepth, hk.calls]

theorem Continues.counted (h : Continues { i with depth := i.depth + 1 } (.leave :: k) .value m)
    (hi : ¬maxCallDepth ≤ i.depth) : Continues i k .value m := by
  obtain ⟨hyields, hhome, hdepth, hlimit, hD, hglobals, hhosts, hsink⟩ := h
  refine ⟨fun out h ↦ hyields out ⟨rfl, h⟩, hhome, ?_, fun _ ↦ hlimit ?_, hD, hglobals, hhosts, hsink⟩
  · simp only [Stack.calls] at hdepth
    omega
  · show i.depth + 1 ≤ maxCallDepth
    omega

end

theorem enterBlock_continues (i : Interpreter) (k : Stack) (env : Env) (b : Bindings Value)
    (body : List Stmt) : Continues i k .flow (enterBlock i k env b body) :=
  ⟨fun _ h ↦ ⟨.flow, rfl, h⟩, rfl, rfl, id, rfl, rfl, rfl, .refl _⟩

theorem enterClosure_continues (i : Interpreter) (k : Stack) (c : Closure) (arguments : List Value) :
    Continues i k .value (enterClosure i k c arguments) :=
  (enterBlock_continues i (.result c :: k) c.env _ c.decl.body).alike
    ⟨rfl, fun _ ↦ rfl, fun _ h ↦ ⟨rfl, h⟩⟩

theorem bindMethod_continues (i : Interpreter) (k : Stack) (method : Closure) (object : ObjectId) :
    Continues i k .value (bindMethod i k method object) :=
  (value_continues _ k _).store

theorem construct_continues (i : Interpreter) (k : Stack) (c : Class) (arguments : List Value) :
    Continues i k .value (construct i k c arguments) := by
  unfold construct
  cases c.initializer? with
  | none => exact (value_continues _ k _).store
  | some method =>
    have h := enterClosure_continues
      { i with store := (i.store.addObject c).addScope (thisScope i.store.nextObject) }
      (.construct i.store.nextObject :: k) (bound method (i.store.addObject c).nextScope) arguments
    exact h.store.alike ⟨rfl, fun _ ↦ rfl, fun _ h ↦ ⟨rfl, h⟩⟩

theorem invoke_continues (i : Interpreter) (k : Stack) (c : Callable) (arguments : List Value)
    (line : Nat) : Continues i k .value (invoke i k c arguments line) := by
  cases c with
  | native f => exact .of_store (.refl k _) rfl i.store
  | function id c =>
    rw [invoke]
    split
    · exact fault_continues i k _ _
    · next hi => exact (enterClosure_continues { i with depth := i.depth + 1 } _ c arguments).counted hi
  | cls c =>
    rw [invoke]
    split
    · exact fault_continues i k _ _
    · next hi => exact (construct_continues { i with depth := i.depth + 1 } _ c arguments).counted hi

theorem apply_continues (i : Interpreter) (k : Stack) (f : Value) (arguments : List Value)
    (paren : Token) : Continues i k .value (apply i k f arguments paren) := by
  cases f with
  | callable c =>
    rw [apply]
    split
    · exact invoke_continues i k c arguments paren.line
    · exact fault_continues i k _ _
  | _ => exact fault_continues i k _ _

theorem property_continues (i : Interpreter) (k : Stack) (object : ObjectId) (name : Token) :
    Continues i k .value (property i k object name) := by
  unfold property
  split
  · exact fault_continues i k _ _
  · split
    · exact value_continues i k _
    · split
      · exact bindMethod_continues i k _ object
      · exact fault_continues i k _ _

theorem superMethod_continues (i : Interpreter) (k : Stack) (ref : Ref) (name : Token) :
    Continues i k .value (superMethod i k ref name) := by
  unfold superMethod
  split
  · exact fault_continues i k _ _
  · split
    · exact fault_continues i k _ _
    · split
      · exact fault_continues i k _ _
      · split
        · exact bindMethod_continues i k _ _
        · exact fault_continues i k _ _
      · exact fault_continues i k _ _
    · exact fault_continues i k _ _

theorem declareClass_continues (i : Interpreter) (k : Stack) (name : Token) (superclass : Option Ref)
    (methods : List FunctionDecl) : Continues i k .flow (declareClass i k name superclass methods) := by
  unfold declareClass
  split
  · exact (done_continues _ k .normal).store
  · split
    · exact fault_continues i k _ _
    · exact (done_continues _ k .normal).store
    · exact fault_continues i k _ _

theorem ofExcept_continues (i : Interpreter) (k : Stack) (line : Nat) (o : Except FaultCause Value) :
    Continues i k .value (ofExcept i k line o) := by
  cases o with
  | ok v => exact value_continues i k v
  | error cause => exact fault_continues i k _ _

theorem eval_continues (i : Interpreter) (k : Stack) (e : Expr) : Continues i k .value (eval i k e) := by
  have part (e' : Expr) (frame : Frame) (h : Stack.Alike k .value (frame :: k) .value) :
      Continues i k .value ⟨.eval e', frame :: k, i⟩ := .of_store h rfl i.store
  cases e with
  | literal => exact value_continues i k _
  | var ref | this ref =>
    rw [eval]
    split
    · exact value_continues i k _
    · exact fault_continues i k _ _
  | super ref name => exact superMethod_continues i k ref name
  | grouping e => exact .of_store (.refl k _) rfl i.store
  | _ => exact part _ _ ⟨rfl, fun _ ↦ rfl, fun _ h ↦ ⟨rfl, h⟩⟩

theorem exec_continues (i : Interpreter) (k : Stack) (s : Stmt) : Continues i k .flow (exec i k s) := by
  have part (e : Expr) (frame : Frame) (h : Stack.Alike k .flow (frame :: k) .value) :
      Continues i k .flow ⟨.eval e, frame :: k, i⟩ := .of_store h rfl i.store
  cases s with
  | block body => exact enterBlock_continues i k i.env .empty body
  | classDecl name superclass methods => exact declareClass_continues i k name superclass methods
  | function decl => exact (done_continues _ k .normal).store
  | var name initial =>
    cases initial with
    | none => exact (done_continues _ k .normal).store
    | some e => exact part e _ ⟨rfl, fun _ ↦ rfl, fun _ h ↦ ⟨rfl, h⟩⟩
  | ret keyword value =>
    cases value with
    | none => exact done_continues i k _
    | some e => exact part e _ ⟨rfl, fun _ ↦ rfl, fun _ h ↦ ⟨rfl, h⟩⟩
  | _ => exact part _ _ ⟨rfl, fun _ ↦ rfl, fun _ h ↦ ⟨rfl, h⟩⟩

theorem Continues.taken {i : Interpreter} {k : Stack} {y : Yield} {m : Machine} {frame : Frame}
    (h : Continues i k frame.gives m) (hcalls : Stack.calls (frame :: k) = Stack.calls k)
    (hhome : Stack.home i.env (frame :: k) = Stack.home i.env k) : Continues i (frame :: k) y m := by
  obtain ⟨hyields, hhome', hdepth, hlimit, hD, hglobals, hhosts, hsink⟩ := h
  refine ⟨fun out h ↦ hyields out h.2, hhome'.trans hhome.symm, ?_, hlimit, hD, hglobals, hhosts, hsink⟩
  rw [hcalls, hdepth]

theorem leave_continues {i : Interpreter} {k : Stack} {y : Yield} (hd : Stack.calls (.leave :: k) ≤ i.depth)
    {c : Control} (hc : c.yield .value = .value) :
    Continues i (.leave :: k) y ⟨c, k, { i with depth := i.depth - 1 }⟩ := by
  simp only [Stack.calls] at hd
  refine ⟨fun out h ↦ ⟨.value, hc.symm ▸ h.2⟩, rfl, ?_, fun _ ↦ ?_, rfl, rfl, rfl, .refl _⟩
  · show i.depth - 1 + (Stack.calls k + 1) = i.depth + Stack.calls k
    omega
  · show i.depth - 1 ≤ maxCallDepth
    omega

theorem block_continues (i : Interpreter) (k : Stack) (y : Yield) (rest : List Stmt) (saved : Env)
    {c : Control} (hc : c.yield .flow = .flow) :
    Continues i (.block rest saved :: k) y ⟨c, k, { i with env := saved }⟩ :=
  ⟨fun _ h ↦ ⟨.flow, hc.symm ▸ h.2⟩, rfl, rfl, id, rfl, rfl, rfl, .refl _⟩

theorem resume_continues {i : Interpreter} {k : Stack} {v : Value} {frame : Frame} {m : Machine}
    (hd : Stack.calls (frame :: k) ≤ i.depth) (h : resume i k v frame = some m) :
    Continues i (frame :: k) .value m := by
  have part (e : Expr) (frame' : Frame) (h : Stack.Alike (frame :: k) .value (frame' :: k) .value) :
      Continues i (frame :: k) .value ⟨.eval e, frame' :: k, i⟩ := .of_store h rfl i.store
  cases resumed h with
  | leave => exact leave_continues hd rfl
  | unary | binaryRight => exact (ofExcept_continues i k _ _).taken rfl rfl
  | binaryLeft op right => exact part right _ ⟨rfl, fun _ ↦ rfl, fun _ h ↦ h⟩
  | firstArgument e | nextArgument _ _ e => exact part e _ ⟨rfl, fun _ ↦ rfl, fun _ h ↦ h⟩
  | setObject _ _ value => exact part value _ ⟨rfl, fun _ ↦ rfl, fun _ h ↦ h⟩
  | callee paren => exact (apply_continues i k v [] paren).taken rfl rfl
  | lastArgument f known paren => exact (apply_continues i k f _ paren).taken rfl rfl
  | get o name => exact (property_continues i k o name).taken rfl rfl
  | decided | construct => exact (value_continues i k _).taken rfl rfl
  | assign | setValue => exact (value_continues _ k v).store.taken rfl rfl
  | define => exact (done_continues _ k .normal).store.taken rfl rfl
  | unassignable | noProperties | noFields | notWritten => exact (fault_continues i k _ _).taken rfl rfl
  | discard | ret | neither | ended => exact (done_continues i k _).taken rfl rfl
  | print => exact ⟨fun _ h ↦ ⟨.flow, h.2⟩, rfl, rfl, id, rfl, rfl, rfl, .print _ _⟩
  | undecided | yes | no | host => exact Continues.taken (.of_store (.refl k _) rfl i.store) rfl rfl
  | again test body =>
    have hk : Stack.Alike k .flow (.body test body :: k) .flow := ⟨rfl, fun _ ↦ rfl, fun _ h ↦ ⟨rfl, h⟩⟩
    exact Continues.taken (.of_store hk rfl i.store) rfl rfl

theorem finish_continues {i : Interpreter} {k : Stack} {flow : Flow} {frame : Frame} {m : Machine}
    (h : finish i k flow frame = some m) : Continues i (frame :: k) .flow m := by
  have part (s : Stmt) (frame' : Frame) (h : Stack.Alike (frame :: k) .flow (frame' :: k) .flow) :
      Continues i (frame :: k) .flow ⟨.exec s, frame' :: k, i⟩ := .of_store h rfl i.store
  cases finished h with
  | again test body =>
    have hk : Stack.Alike k .flow (.test test body :: k) .value := ⟨rfl, fun _ ↦ rfl, fun _ h ↦ ⟨rfl, h⟩⟩
    exact Continues.taken (.of_store hk rfl i.store) rfl rfl
  | next s | nextOuter _ s => exact part s _ ⟨rfl, fun _ ↦ rfl, fun _ h ↦ h⟩
  | block _ _ saved => exact block_continues i k _ _ saved rfl
  | returned | program => exact (done_continues i k _).taken rfl rfl
  | initialized | result => exact (value_continues i k _).taken rfl rfl
  | noThis => exact (fault_continues i k _ _).taken rfl rfl

theorem unwind_continues {i : Interpreter} {k : Stack} {frame : Frame}
    (hd : Stack.calls (frame :: k) ≤ i.depth) (y : Yield) (f : Fault) :
    Continues i (frame :: k) y (unwind i k f frame) := by
  cases frame with
  | block rest saved => exact block_continues i k y rest saved rfl
  | leave => exact leave_continues hd rfl
  | host line next => exact Continues.taken (.of_store (.refl k _) rfl i.store) rfl rfl
  | _ => exact (fault_continues i k _ f).taken rfl rfl

theorem act_continues (i : Interpreter) (k : Stack) (line : Nat) (action : Action) :
    Continues i k .value (act i k line action) := by
  cases action with
  | done v => exact value_continues i k v
  | fail text => exact fault_continues i k _ _
  | time next => exact ⟨fun _ h ↦ ⟨.value, h⟩, rfl, rfl, id, rfl, rfl, rfl, .refl _⟩
  | call callee arguments callLine next =>
    exact (invoke_continues i (.host line next :: k) callee arguments callLine).alike
      ⟨rfl, fun _ ↦ rfl, fun _ h ↦ ⟨rfl, h⟩⟩

/-- One step, from a machine whose depth counts the calls on its stack at least. -/
theorem step_continues {m m' : Machine} (hd : Stack.calls m.stack ≤ m.state.depth) (h : m.step = some m')
    (y : Yield) : Continues m.state m.stack (m.control.yield y) m' := by
  obtain ⟨c, k, i⟩ := m
  cases stepped h with
  | eval k e => exact eval_continues i k e
  | exec k s => exact exec_continues i k s
  | act k line action => exact act_continues i k line action
  | value h => exact resume_continues hd h
  | done h => exact finish_continues h
  | fault k f => exact unwind_continues hd y f

theorem resume_ne_none (i : Interpreter) (k : Stack) (v : Value) {frame : Frame}
    (h : frame.takes = .value) : resume i k v frame ≠ none := by
  cases frame with
  | body | block | program | result => cases h
  | callee rest | argument _ _ rest => cases rest <;> exact Option.some_ne_none _
  | get | setObject => cases v <;> exact Option.some_ne_none _
  | branch yes no =>
    cases no <;>
    · rw [resume]
      split <;> exact Option.some_ne_none _
  | logical | assign | print | test =>
    rw [resume]
    split <;> exact Option.some_ne_none _
  | _ => exact Option.some_ne_none _

theorem finish_ne_none (i : Interpreter) (k : Stack) (flow : Flow) {frame : Frame}
    (h : frame.takes = .flow) : finish i k flow frame ≠ none := by
  cases frame with
  | body => cases flow <;> exact Option.some_ne_none _
  | block rest => cases flow <;> cases rest <;> exact Option.some_ne_none _
  | program rest => cases rest <;> exact Option.some_ne_none _
  | result c =>
    rw [finish]
    split
    · split <;> exact Option.some_ne_none _
    · exact Option.some_ne_none _
  | _ => cases h

/-- A machine that cannot go on has come to an outcome of its kind, or to a fault. -/
theorem Yields.of_step_eq_none {m : Machine} {out : Yield} (h : m.Yields out) (hs : m.step = none) :
    m.stack = [] ∧ m.isFinal = true ∧ ∃ y, m.control.yield y = out := by
  obtain ⟨c, k, i⟩ := m
  obtain ⟨y, h⟩ := h
  cases k with
  | nil =>
    cases c with
    | eval | exec | act => cases hs
    | _ => exact ⟨rfl, rfl, y, h⟩
  | cons frame k =>
    cases c with
    | eval | exec | act | fault => cases hs
    | value v => exact absurd hs (resume_ne_none i k v h.1)
    | done flow => exact absurd hs (finish_ne_none i k flow h.1)

end Machine

end Lox
