import Lox.Diagnostic
import Lox.Machine.Basic
import Lox.Proofs.Lexical.Basic

namespace Lox.Lexical

inductive Flow where
  | normal
  | returned (v : Value)

def Flow.value : Flow → Value
  | normal => .nil
  | returned v => v

/-- What is done next. The clock is read in a step of its own, and what it showed handed on in another. -/
inductive Control where
  | eval (e : Expr)
  | exec (s : Stmt)
  | value (v : Value)
  | done (flow : Flow)
  | fault (f : Fault)
  | reading (seconds : Option Float)

inductive Frame where
  | unary (op : Token)
  | binaryLeft (op : Token) (right : Expr)
  | binaryRight (left : Value) (op : Token)
  | logical (op : Token) (right : Expr)
  | assign (name : Token)
  | callee (arguments : List Expr) (paren : Token)
  | argument (callee : Value) (known : List Value) (rest : List Expr) (paren : Token)
  | get (name : Token)
  | setObject (name : Token) (value : Expr)
  | setValue (object : ObjectId) (name : Token)
  | discard
  | print (line : Nat)
  | define (name : Token)
  | branch (yes : Stmt) (no : Option Stmt)
  | test (test : Expr) (body : Stmt)
  | body (test : Expr) (body : Stmt)
  | ret
  | block (rest : List Stmt) (saved : Env)
  | program (rest : List Stmt)
  | result (closure : Closure)
  | construct (object : ObjectId)
  | leave

abbrev Stack := List Frame

structure Machine where
  control : Control
  stack : Stack
  state : State

namespace Machine

def undefined (name : Token) : Fault := ⟨.undefinedVariable name.lexeme, name.line⟩

def ofExcept (s : State) (k : Stack) (line : Nat) : Except FaultCause Value → Machine
  | .ok v => ⟨.value v, k, s⟩
  | .error cause => ⟨.fault ⟨cause, line⟩, k, s⟩

/-- Runs the body of a closure: what was in sight at its declaration is in sight, and the parameters. -/
def enterClosure (s : State) (k : Stack) (c : Closure) (arguments : List Value) : Machine :=
  let inside := (c.decl.params.zip arguments).foldl (fun s (p, v) ↦ s.declare p.lexeme v)
    { s with env := c.env.inside }
  ⟨.done .normal, .block c.decl.body s.env :: .result c :: k, inside⟩

def bound (method : Closure) (c : Cell) : Closure := { method with env := method.env.extend "this" c }

def bindMethod (s : State) (k : Stack) (method : Closure) (object : ObjectId) : Machine :=
  ⟨.value (.callable (.function s.nextIdentity (bound method s.cells.size))), k,
    { s with cells := s.cells.push (.object object), nextIdentity := s.nextIdentity + 1 }⟩

def construct (s : State) (k : Stack) (c : Class) (arguments : List Value) : Machine :=
  let object := s.objects.size
  let s := { s with objects := s.objects.push ⟨c, .empty⟩ }
  match c.findMethod? "init" with
  | none => ⟨.value (.object object), k, s⟩
  | some method =>
    let cell := s.cells.size
    let s := { s with cells := s.cells.push (.object object) }
    enterClosure s (.construct object :: k) (bound method cell) arguments

def invoke (s : State) (k : Stack) (c : Callable) (arguments : List Value) (line : Nat) : Machine :=
  match c with
  | .clock => ⟨.reading none, k, s⟩
  | .function _ closure =>
    if maxCallDepth ≤ s.depth then ⟨.fault ⟨.stackOverflow, line⟩, k, s⟩
    else enterClosure { s with depth := s.depth + 1 } (.leave :: k) closure arguments
  | .cls c =>
    if maxCallDepth ≤ s.depth then ⟨.fault ⟨.stackOverflow, line⟩, k, s⟩
    else construct { s with depth := s.depth + 1 } (.leave :: k) c arguments

def apply (s : State) (k : Stack) (callee : Value) (arguments : List Value) (paren : Token) : Machine :=
  match callee with
  | .callable c =>
    if arguments.length = c.arity then invoke s k c arguments paren.line
    else ⟨.fault ⟨.wrongArity c.arity arguments.length, paren.line⟩, k, s⟩
  | _ => ⟨.fault ⟨.notCallable, paren.line⟩, k, s⟩

def noProperty (s : State) (k : Stack) (name : Token) : Machine :=
  ⟨.fault ⟨.undefinedProperty name.lexeme, name.line⟩, k, s⟩

def property (s : State) (k : Stack) (object : ObjectId) (name : Token) : Machine :=
  match s.objects[object]? with
  | none => noProperty s k name
  | some o =>
    match o.fields.find? name.lexeme with
    | some v => ⟨.value v, k, s⟩
    | none =>
      match o.cls.findMethod? name.lexeme with
      | some method => bindMethod s k method object
      | none => noProperty s k name

/-- A method of the class that `super` names in sight, bound to the object that `this` names. -/
def superMethod (s : State) (k : Stack) (keyword name : Token) : Machine :=
  match s.read? keyword.lexeme with
  | none => ⟨.fault (undefined keyword), k, s⟩
  | some (.callable (.cls c)) =>
    match s.read? "this" with
    | none => ⟨.fault ⟨.undefinedVariable "this", keyword.line⟩, k, s⟩
    | some (.object object) =>
      match c.findMethod? name.lexeme with
      | some method => bindMethod s k method object
      | none => noProperty s k name
    | some _ => ⟨.fault ⟨.noProperties, keyword.line⟩, k, s⟩
  | some _ => ⟨.fault ⟨.superclassNotClass, keyword.line⟩, k, s⟩

def methodTable (methods : List FunctionDecl) (env : Env) : Bindings Closure :=
  methods.foldl
    (fun b d ↦ b.insert d.name.lexeme ⟨d, env, d.name.lexeme == "init"⟩) .empty

def defineClass (s : State) (k : Stack) (name : Token) (superclass : Option Class)
    (methods : List FunctionDecl) (env : Env) : Machine :=
  let c := Class.mk s.nextIdentity name.lexeme superclass (methodTable methods env)
  ⟨.done .normal, k,
    { s with nextIdentity := s.nextIdentity + 1 }.declare name.lexeme (.callable (.cls c))⟩

/-- Declares a class. Its methods have the class itself in sight, and `super` if there is a superclass. -/
def declareClass (s : State) (k : Stack) (name : Token) (superclass : Option Ref)
    (methods : List FunctionDecl) : Machine :=
  match superclass with
  | none => defineClass s k name none methods (s.envAfter name.lexeme)
  | some ref =>
    match s.read? ref.name.lexeme with
    | none => ⟨.fault (undefined ref.name), k, s⟩
    | some (.callable (.cls c)) =>
      let cell := s.cells.size
      let s := { s with cells := s.cells.push (.callable (.cls c)) }
      defineClass s k name (some c) methods ((s.envAfter name.lexeme).extend "super" cell)
    | some _ => ⟨.fault ⟨.superclassNotClass, ref.name.line⟩, k, s⟩

def eval (s : State) (k : Stack) : Expr → Machine
  | .literal value _ => ⟨.value (.ofLiteral value), k, s⟩
  | .var ref | .this ref =>
    match s.read? ref.name.lexeme with
    | some v => ⟨.value v, k, s⟩
    | none => ⟨.fault (undefined ref.name), k, s⟩
  | .assign ref value => ⟨.eval value, .assign ref.name :: k, s⟩
  | .unary op operand => ⟨.eval operand, .unary op :: k, s⟩
  | .binary left op right => ⟨.eval left, .binaryLeft op right :: k, s⟩
  | .logical left op right => ⟨.eval left, .logical op right :: k, s⟩
  | .grouping inner => ⟨.eval inner, k, s⟩
  | .call callee arguments paren => ⟨.eval callee, .callee arguments paren :: k, s⟩
  | .get object name => ⟨.eval object, .get name :: k, s⟩
  | .set object name value => ⟨.eval object, .setObject name value :: k, s⟩
  | .super ref method => superMethod s k ref.name method

def exec (s : State) (k : Stack) : Stmt → Machine
  | .expr e => ⟨.eval e, .discard :: k, s⟩
  | .print e => ⟨.eval e, .print e.line :: k, s⟩
  | .var name none => ⟨.done .normal, k, s.declare name.lexeme .nil⟩
  | .var name (some e) => ⟨.eval e, .define name :: k, s⟩
  | .block body => ⟨.done .normal, .block body s.env :: k, { s with env := s.env.inside }⟩
  | .cond test yes no => ⟨.eval test, .branch yes no :: k, s⟩
  | .loop test body => ⟨.eval test, .test test body :: k, s⟩
  | .function decl =>
    let f := Callable.function s.nextIdentity ⟨decl, s.envAfter decl.name.lexeme, false⟩
    ⟨.done .normal, k,
      { s with nextIdentity := s.nextIdentity + 1 }.declare decl.name.lexeme (.callable f)⟩
  | .ret _ none => ⟨.done (.returned .nil), k, s⟩
  | .ret _ (some e) => ⟨.eval e, .ret :: k, s⟩
  | .classDecl name superclass methods => declareClass s k name superclass methods

def resume (s : State) (k : Stack) (v : Value) : Frame → Option Machine
  | .unary op => some (ofExcept s k op.line (v.unary op.kind))
  | .binaryLeft op right => some ⟨.eval right, .binaryRight v op :: k, s⟩
  | .binaryRight left op => some (ofExcept s k op.line (Value.binary op.kind left v))
  | .logical op right =>
    if v.decides op.kind then some ⟨.value v, k, s⟩ else some ⟨.eval right, k, s⟩
  | .assign name =>
    match s.assign? name.lexeme v with
    | some s => some ⟨.value v, k, s⟩
    | none => some ⟨.fault (undefined name), k, s⟩
  | .callee [] paren => some (apply s k v [] paren)
  | .callee (e :: rest) paren => some ⟨.eval e, .argument v [] rest paren :: k, s⟩
  | .argument callee known [] paren => some (apply s k callee (v :: known).reverse paren)
  | .argument callee known (e :: rest) paren =>
    some ⟨.eval e, .argument callee (v :: known) rest paren :: k, s⟩
  | .get name =>
    match v with
    | .object object => some (property s k object name)
    | _ => some ⟨.fault ⟨.noProperties, name.line⟩, k, s⟩
  | .setObject name value =>
    match v with
    | .object object => some ⟨.eval value, .setValue object name :: k, s⟩
    | _ => some ⟨.fault ⟨.noFields, name.line⟩, k, s⟩
  | .setValue object name => some ⟨.value v, k, s.setField object name.lexeme v⟩
  | .discard => some ⟨.done .normal, k, s⟩
  | .print line =>
    if s.sink.isFull then some ⟨.fault ⟨.notWritten s.sink.writeError, line⟩, k, s⟩
    else some ⟨.done .normal, k, { s with sink := s.sink.print (s.display v) }⟩
  | .define name => some ⟨.done .normal, k, s.declare name.lexeme v⟩
  | .branch yes no =>
    if v.isTruthy then some ⟨.exec yes, k, s⟩
    else
      match no with
      | some no => some ⟨.exec no, k, s⟩
      | none => some ⟨.done .normal, k, s⟩
  | .test test body =>
    if v.isTruthy then some ⟨.exec body, .body test body :: k, s⟩ else some ⟨.done .normal, k, s⟩
  | .ret => some ⟨.done (.returned v), k, s⟩
  | .construct object => some ⟨.value (.object object), k, s⟩
  | .leave => some ⟨.value v, k, { s with depth := s.depth - 1 }⟩
  | .body _ _ | .block _ _ | .program _ | .result _ => none

def finish (s : State) (k : Stack) (flow : Flow) : Frame → Option Machine
  | .body test body =>
    match flow with
    | .normal => some ⟨.eval test, .test test body :: k, s⟩
    | .returned v => some ⟨.done (.returned v), k, s⟩
  | .block rest saved =>
    match flow, rest with
    | .normal, next :: rest => some ⟨.exec next, .block rest saved :: k, s⟩
    | flow, _ => some ⟨.done flow, k, { s with env := saved }⟩
  | .program (next :: rest) => some ⟨.exec next, .program rest :: k, s⟩
  | .program [] => some ⟨.done .normal, k, s⟩
  | .result c =>
    if c.isInitializer then
      match (c.env.find? "this").bind (s.cells[·]?) with
      | some v => some ⟨.value v, k, s⟩
      | none => some ⟨.fault ⟨.undefinedVariable "this", c.decl.name.line⟩, k, s⟩
    else some ⟨.value flow.value, k, s⟩
  | _ => none

def unwind (s : State) (k : Stack) (f : Fault) : Frame → Machine
  | .block _ saved => ⟨.fault f, k, { s with env := saved }⟩
  | .leave => ⟨.fault f, k, { s with depth := s.depth - 1 }⟩
  | _ => ⟨.fault f, k, s⟩

def readClock (s : State) (k : Stack) : Option Float → Machine
  | none => ⟨.reading (some s.clock.now), k, { s with clock := s.clock.advance }⟩
  | some seconds => ⟨.value (.number seconds), k, s⟩

def step : Machine → Option Machine
  | ⟨.eval e, k, s⟩ => some (eval s k e)
  | ⟨.exec stmt, k, s⟩ => some (exec s k stmt)
  | ⟨.reading seconds, k, s⟩ => some (readClock s k seconds)
  | ⟨.value v, frame :: k, s⟩ => resume s k v frame
  | ⟨.done flow, frame :: k, s⟩ => finish s k flow frame
  | ⟨.fault f, frame :: k, s⟩ => some (unwind s k f frame)
  | ⟨_, [], _⟩ => none

def after : Nat → Machine → Option Machine
  | 0, m => some m
  | n + 1, m => m.step.bind (after n)

def isFinal : Machine → Bool
  | ⟨.value _, [], _⟩ | ⟨.done _, [], _⟩ | ⟨.fault _, [], _⟩ => true
  | _ => false

def run : Nat → Machine → Option Machine
  | 0, _ => none
  | fuel + 1, m =>
    if m.isFinal then some m
    else
      match m.step with
      | some m => run fuel m
      | none => none

/-- Whether the next step gives a value to a variable that has one. -/
def assigns : Machine → Bool
  | ⟨.value _, .assign _ :: _, _⟩ => true
  | _ => false

end Machine

def start (program : List Stmt) (sink : Sink) (clock : Clock) : Machine :=
  ⟨.done .normal, [.program program], .new sink clock⟩

def report (sink : Sink) (ds : List Diagnostic) : List Diagnostic :=
  match sink.flushError with
  | some reason => [.io reason]
  | none => ds

def conclude : Machine → Option (List Diagnostic × Sink)
  | ⟨.done _, _, s⟩ => some (report s.sink [], s.sink)
  | ⟨.fault f, _, s⟩ => some (report s.sink [.fault f], s.sink)
  | _ => none

def run (fuel : Nat) (program : List Stmt) (sink : Sink) (clock : Clock) :
    Option (List Diagnostic × Sink) :=
  ((start program sink clock).run fuel).bind conclude

end Lox.Lexical
