import Lox.Machine.Step

namespace Lox.Machine

/-- What a value comes to in the frame that takes it. -/
inductive Resumed (i : Interpreter) (k : Stack) : Value → Frame → Machine → Prop
  | unary {v : Value} (op : Token) : Resumed i k v (.unary op) (ofExcept i k op.line (v.unary op.kind))
  | binaryLeft {v : Value} (op : Token) (right : Expr) :
      Resumed i k v (.binaryLeft op right) ⟨.eval right, .binaryRight v op :: k, i⟩
  | binaryRight {v : Value} (left : Value) (op : Token) :
      Resumed i k v (.binaryRight left op) (ofExcept i k op.line (Value.binary op.kind left v))
  | decided {v : Value} (op : Token) (right : Expr) (h : v.decides op.kind = true) :
      Resumed i k v (.logical op right) ⟨.value v, k, i⟩
  | undecided {v : Value} (op : Token) (right : Expr) (h : v.decides op.kind = false) :
      Resumed i k v (.logical op right) ⟨.eval right, k, i⟩
  | assign {v : Value} (ref : Ref) (id : ScopeId) (h : i.target? ref = some id) :
      Resumed i k v (.assign ref) ⟨.value v, k, { i with store := i.store.define id ref.name.lexeme v }⟩
  | unassignable {v : Value} (ref : Ref) (h : i.target? ref = none) :
      Resumed i k v (.assign ref) ⟨.fault (Interpreter.undefined ref.name), k, i⟩
  | callee {v : Value} (paren : Token) : Resumed i k v (.callee [] paren) (apply i k v [] paren)
  | firstArgument {v : Value} (e : Expr) (rest : List Expr) (paren : Token) :
      Resumed i k v (.callee (e :: rest) paren) ⟨.eval e, .argument v [] rest paren :: k, i⟩
  | lastArgument {v : Value} (f : Value) (known : List Value) (paren : Token) :
      Resumed i k v (.argument f known [] paren) (apply i k f (v :: known).reverse paren)
  | nextArgument {v : Value} (f : Value) (known : List Value) (e : Expr) (rest : List Expr) (paren : Token) :
      Resumed i k v (.argument f known (e :: rest) paren) ⟨.eval e, .argument f (v :: known) rest paren :: k, i⟩
  | get (o : ObjectId) (name : Token) : Resumed i k (.object o) (.get name) (property i k o name)
  | noProperties {v : Value} (name : Token) (h : ∀ o, v ≠ .object o) :
      Resumed i k v (.get name) ⟨.fault ⟨.noProperties, name.line⟩, k, i⟩
  | setObject (o : ObjectId) (name : Token) (value : Expr) :
      Resumed i k (.object o) (.setObject name value) ⟨.eval value, .setValue o name :: k, i⟩
  | noFields {v : Value} (name : Token) (value : Expr) (h : ∀ o, v ≠ .object o) :
      Resumed i k v (.setObject name value) ⟨.fault ⟨.noFields, name.line⟩, k, i⟩
  | setValue {v : Value} (o : ObjectId) (name : Token) : Resumed i k v (.setValue o name)
      ⟨.value v, k, { i with store := i.store.setField o name.lexeme v }⟩
  | discard {v : Value} : Resumed i k v .discard ⟨.done .normal, k, i⟩
  | print {v : Value} (line : Nat) (h : i.sink.isFull = false) : Resumed i k v (.print line)
      ⟨.done .normal, k, { i with sink := i.sink.print (i.store.display v) }⟩
  | notWritten {v : Value} (line : Nat) (h : i.sink.isFull = true) :
      Resumed i k v (.print line) ⟨.fault ⟨.notWritten i.sink.writeError, line⟩, k, i⟩
  | define {v : Value} (name : Token) :
      Resumed i k v (.define name) ⟨.done .normal, k, i.define name.lexeme v⟩
  | yes {v : Value} (yes : Stmt) (no : Option Stmt) (h : v.isTruthy = true) :
      Resumed i k v (.branch yes no) ⟨.exec yes, k, i⟩
  | no {v : Value} (yes no : Stmt) (h : v.isTruthy = false) :
      Resumed i k v (.branch yes (some no)) ⟨.exec no, k, i⟩
  | neither {v : Value} (yes : Stmt) (h : v.isTruthy = false) :
      Resumed i k v (.branch yes none) ⟨.done .normal, k, i⟩
  | again {v : Value} (test : Expr) (body : Stmt) (h : v.isTruthy = true) :
      Resumed i k v (.test test body) ⟨.exec body, .body test body :: k, i⟩
  | ended {v : Value} (test : Expr) (body : Stmt) (h : v.isTruthy = false) :
      Resumed i k v (.test test body) ⟨.done .normal, k, i⟩
  | ret {v : Value} : Resumed i k v .ret ⟨.done (.returned v), k, i⟩
  | construct {v : Value} (o : ObjectId) : Resumed i k v (.construct o) ⟨.value (.object o), k, i⟩
  | leave {v : Value} : Resumed i k v .leave ⟨.value v, k, { i with depth := i.depth - 1 }⟩
  | host {v : Value} (line : Nat) (next : Except Fault Value → Action) :
      Resumed i k v (.host line next) ⟨.act line (next (.ok v)), k, i⟩

theorem resumed {i : Interpreter} {k : Stack} {v : Value} {frame : Frame} {m : Machine}
    (h : resume i k v frame = some m) : Resumed i k v frame m := by
  cases frame with
  | logical op right =>
    rw [resume] at h
    split at h
    · next hd =>
      cases h
      exact .decided op right hd
    · next hd =>
      cases h
      exact .undecided op right (eq_false_of_ne_true hd)
  | assign ref =>
    rw [resume] at h
    split at h
    · next hid =>
      cases h
      exact .assign ref _ hid
    · next hid =>
      cases h
      exact .unassignable ref hid
  | callee arguments paren =>
    cases arguments with
    | nil =>
      cases h
      exact .callee paren
    | cons e rest =>
      cases h
      exact .firstArgument e rest paren
  | argument f known rest paren =>
    cases rest with
    | nil =>
      cases h
      exact .lastArgument f known paren
    | cons e rest =>
      cases h
      exact .nextArgument f known e rest paren
  | get name =>
    cases v with
    | object o =>
      cases h
      exact .get o name
    | _ =>
      cases h
      exact .noProperties name (by simp)
  | setObject name value =>
    cases v with
    | object o =>
      cases h
      exact .setObject o name value
    | _ =>
      cases h
      exact .noFields name value (by simp)
  | print line =>
    rw [resume] at h
    split at h
    · next hfull =>
      cases h
      exact .notWritten line hfull
    · next hfull =>
      cases h
      exact .print line (eq_false_of_ne_true hfull)
  | branch yes no =>
    by_cases ht : v.isTruthy = true
    · simp only [resume, ht, if_true] at h
      cases h
      exact .yes yes no ht
    · have ht : v.isTruthy = false := eq_false_of_ne_true ht
      cases no with
      | some s =>
        simp only [resume, ht] at h
        cases h
        exact .no yes s ht
      | none =>
        simp only [resume, ht] at h
        cases h
        exact .neither yes ht
  | test test body =>
    rw [resume] at h
    split at h
    · next ht =>
      cases h
      exact .again test body ht
    · next ht =>
      cases h
      exact .ended test body (eq_false_of_ne_true ht)
  | body | block | program | result => cases h
  | _ =>
    cases h
    constructor

/-- What the end of a statement comes to in the frame that takes it. -/
inductive Finished (i : Interpreter) (k : Stack) : Flow → Frame → Machine → Prop
  | again (test : Expr) (body : Stmt) :
      Finished i k .normal (.body test body) ⟨.eval test, .test test body :: k, i⟩
  | returned (test : Expr) (body : Stmt) (v : Value) :
      Finished i k (.returned v) (.body test body) ⟨.done (.returned v), k, i⟩
  | next (s : Stmt) (rest : List Stmt) (saved : Env) :
      Finished i k .normal (.block (s :: rest) saved) ⟨.exec s, .block rest saved :: k, i⟩
  | block (flow : Flow) (rest : List Stmt) (saved : Env) (h : flow = .normal → rest = []) :
      Finished i k flow (.block rest saved) ⟨.done flow, k, { i with env := saved }⟩
  | nextOuter (flow : Flow) (s : Stmt) (rest : List Stmt) :
      Finished i k flow (.program (s :: rest)) ⟨.exec s, .program rest :: k, i⟩
  | program (flow : Flow) : Finished i k flow (.program []) ⟨.done .normal, k, i⟩
  | initialized (flow : Flow) {c : Closure} {v : Value} (hc : c.isInitializer = true)
      (h : i.store.getAt? c.env 0 "this" = some v) : Finished i k flow (.result c) ⟨.value v, k, i⟩
  | noThis (flow : Flow) {c : Closure} (hc : c.isInitializer = true)
      (h : i.store.getAt? c.env 0 "this" = none) :
      Finished i k flow (.result c) ⟨.fault ⟨.undefinedVariable "this", c.decl.name.line⟩, k, i⟩
  | result (flow : Flow) {c : Closure} (hc : c.isInitializer = false) :
      Finished i k flow (.result c) ⟨.value flow.value, k, i⟩

theorem finished {i : Interpreter} {k : Stack} {flow : Flow} {frame : Frame} {m : Machine}
    (h : finish i k flow frame = some m) : Finished i k flow frame m := by
  cases frame with
  | body test body =>
    cases flow with
    | normal =>
      cases h
      exact .again test body
    | returned v =>
      cases h
      exact .returned test body v
  | block rest saved =>
    cases flow with
    | returned v =>
      cases h
      exact .block _ rest saved (by simp)
    | normal =>
      cases rest with
      | nil =>
        cases h
        exact .block _ [] saved (fun _ ↦ rfl)
      | cons s rest =>
        cases h
        exact .next s rest saved
  | program rest =>
    cases rest with
    | nil =>
      cases h
      exact .program flow
    | cons s rest =>
      cases h
      exact .nextOuter flow s rest
  | result c =>
    rw [finish] at h
    split at h
    · next hc =>
      split at h
      · next hthis =>
        cases h
        exact .initialized flow hc hthis
      · next hthis =>
        cases h
        exact .noThis flow hc hthis
    · next hc =>
      cases h
      exact .result flow (eq_false_of_ne_true hc)
  | _ => cases h

/-- What one step comes to. -/
inductive Stepped (i : Interpreter) : Control → Stack → Machine → Prop
  | eval (k : Stack) (e : Expr) : Stepped i (.eval e) k (eval i k e)
  | exec (k : Stack) (s : Stmt) : Stepped i (.exec s) k (exec i k s)
  | act (k : Stack) (line : Nat) (action : Action) : Stepped i (.act line action) k (act i k line action)
  | value {k : Stack} {v : Value} {frame : Frame} {m : Machine} (h : resume i k v frame = some m) :
      Stepped i (.value v) (frame :: k) m
  | done {k : Stack} {flow : Flow} {frame : Frame} {m : Machine} (h : finish i k flow frame = some m) :
      Stepped i (.done flow) (frame :: k) m
  | fault (k : Stack) (f : Fault) (frame : Frame) : Stepped i (.fault f) (frame :: k) (unwind i k f frame)

theorem stepped {c : Control} {k : Stack} {i : Interpreter} {m : Machine} (h : step ⟨c, k, i⟩ = some m) :
    Stepped i c k m := by
  cases c with
  | eval e =>
    cases h
    exact .eval k e
  | exec s =>
    cases h
    exact .exec k s
  | act line action =>
    cases h
    exact .act k line action
  | value v =>
    cases k with
    | nil => cases h
    | cons frame k => exact .value h
  | done flow =>
    cases k with
    | nil => cases h
    | cons frame k => exact .done h
  | fault f =>
    cases k with
    | nil => cases h
    | cons frame k =>
      cases h
      exact .fault k f frame

end Lox.Machine
