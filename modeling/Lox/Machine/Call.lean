import Lox.Machine.Basic

namespace Lox.Machine

/-- A scope that gives arguments to parameters by position. Parameters left over stay unbound, and
arguments left over are dropped. -/
def parameterScope (params : List Token) (arguments : List Value) : Bindings Value :=
  (params.zip arguments).foldl (fun b (p, v) ↦ b.insert p.lexeme v) .empty

def enterBlock (i : Interpreter) (k : Stack) (env : Env) (bindings : Bindings Value)
    (body : List Stmt) : Machine :=
  let id := i.store.nextScope
  ⟨.done .normal, .block body i.env :: k,
    { i with store := i.store.addScope bindings, env := env.enclose id }⟩

def enterClosure (i : Interpreter) (k : Stack) (c : Closure) (arguments : List Value) : Machine :=
  enterBlock i (.result c :: k) c.env (parameterScope c.decl.params arguments) c.decl.body

def bound (method : Closure) (scope : ScopeId) : Closure :=
  { method with env := method.env.enclose scope }

def thisScope (object : ObjectId) : Bindings Value := Bindings.empty.insert "this" (.object object)

def bindMethod (i : Interpreter) (k : Stack) (method : Closure) (object : ObjectId) : Machine :=
  let scope := i.store.nextScope
  let id := i.store.nextIdentity
  ⟨.value (.callable (.function id (bound method scope))), k,
    { i with store := (i.store.addScope (thisScope object)).freshIdentity }⟩

def construct (i : Interpreter) (k : Stack) (c : Class) (arguments : List Value) : Machine :=
  let object := i.store.nextObject
  let i := { i with store := i.store.addObject c }
  match c.initializer? with
  | none => ⟨.value (.object object), k, i⟩
  | some method =>
    let scope := i.store.nextScope
    let i := { i with store := i.store.addScope (thisScope object) }
    enterClosure i (.construct object :: k) (bound method scope) arguments

/-- Calls without a check of the number of arguments. Calls of functions and classes are counted,
calls of native functions are not. -/
def invoke (i : Interpreter) (k : Stack) (c : Callable) (arguments : List Value) (line : Nat) :
    Machine :=
  match c with
  | .native f => ⟨.act line (i.host f arguments), k, i⟩
  | .function _ closure =>
    if maxCallDepth ≤ i.depth then ⟨.fault ⟨.stackOverflow, line⟩, k, i⟩
    else enterClosure { i with depth := i.depth + 1 } (.leave :: k) closure arguments
  | .cls c =>
    if maxCallDepth ≤ i.depth then ⟨.fault ⟨.stackOverflow, line⟩, k, i⟩
    else construct { i with depth := i.depth + 1 } (.leave :: k) c arguments

def apply (i : Interpreter) (k : Stack) (callee : Value) (arguments : List Value) (paren : Token) :
    Machine :=
  match callee with
  | .callable c =>
    if arguments.length = c.arity then invoke i k c arguments paren.line
    else ⟨.fault ⟨.wrongArity c.arity arguments.length, paren.line⟩, k, i⟩
  | _ => ⟨.fault ⟨.notCallable, paren.line⟩, k, i⟩

def noProperty (i : Interpreter) (k : Stack) (name : Token) : Machine :=
  ⟨.fault ⟨.undefinedProperty name.lexeme, name.line⟩, k, i⟩

def property (i : Interpreter) (k : Stack) (object : ObjectId) (name : Token) : Machine :=
  match i.store.object? object with
  | none => noProperty i k name
  | some o =>
    match o.fields.find? name.lexeme with
    | some v => ⟨.value v, k, i⟩
    | none =>
      match o.cls.findMethod? name.lexeme with
      | some method => bindMethod i k method object
      | none => noProperty i k name

/-- A method of the superclass, bound to the object whose method is running: the scope of `this` lies
one step inside the scope of `super`. -/
def superMethod (i : Interpreter) (k : Stack) (ref : Ref) (name : Token) : Machine :=
  let line := ref.name.line
  match i.distances.find? ref.id with
  | none => ⟨.fault ⟨.undefinedVariable "super", line⟩, k, i⟩
  | some distance =>
    match i.store.getAt? i.env distance ref.name.lexeme with
    | none => ⟨.fault (Interpreter.undefined ref.name), k, i⟩
    | some (.callable (.cls c)) =>
      match i.store.getAt? i.env (distance - 1) "this" with
      | none => ⟨.fault ⟨.undefinedVariable "this", line⟩, k, i⟩
      | some (.object object) =>
        match c.findMethod? name.lexeme with
        | some method => bindMethod i k method object
        | none => noProperty i k name
      | some _ => ⟨.fault ⟨.noProperties, line⟩, k, i⟩
    | some _ => ⟨.fault ⟨.superclassNotClass, line⟩, k, i⟩

def methodTable (methods : List FunctionDecl) (env : Env) : Bindings Closure :=
  methods.foldl
    (fun b d ↦ b.insert d.name.lexeme ⟨d, env, d.name.lexeme == "init"⟩) .empty

def defineClass (i : Interpreter) (k : Stack) (name : Token) (superclass : Option Class)
    (methods : List FunctionDecl) (env : Env) : Machine :=
  let c := Class.mk i.store.nextIdentity name.lexeme superclass (methodTable methods env)
  ⟨.done .normal, k,
    { i with store := i.store.freshIdentity.define i.env.inner name.lexeme (.callable (.cls c)) }⟩

/-- Declares a class. With a superclass, its methods lie in a scope of their own for `super`. -/
def declareClass (i : Interpreter) (k : Stack) (name : Token) (superclass : Option Ref)
    (methods : List FunctionDecl) : Machine :=
  match superclass with
  | none => defineClass i k name none methods i.env
  | some ref =>
    match i.lookup ref with
    | .error f => ⟨.fault f, k, i⟩
    | .ok (.callable (.cls c)) =>
      let scope := i.store.nextScope
      let bindings := Bindings.empty.insert "super" (.callable (.cls c))
      let i := { i with store := i.store.addScope bindings }
      defineClass i k name (some c) methods (i.env.enclose scope)
    | .ok _ => ⟨.fault ⟨.superclassNotClass, ref.name.line⟩, k, i⟩

end Lox.Machine
