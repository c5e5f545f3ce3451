import Lox.Machine.Call
import Lox.Value.Operator

namespace Lox.Machine

def ofExcept (i : Interpreter) (k : Stack) (line : Nat) : Except FaultCause Value → Machine
  | .ok v => ⟨.value v, k, i⟩
  | .error cause => ⟨.fault ⟨cause, line⟩, k, i⟩

def eval (i : Interpreter) (k : Stack) : Expr → Machine
  | .literal value _ => ⟨.value (.ofLiteral value), k, i⟩
  | .var ref | .this ref =>
    match i.lookup ref with
    | .ok v => ⟨.value v, k, i⟩
    | .error f => ⟨.fault f, k, i⟩
  | .assign ref value => ⟨.eval value, .assign ref :: k, i⟩
  | .unary op operand => ⟨.eval operand, .unary op :: k, i⟩
  | .binary left op right => ⟨.eval left, .binaryLeft op right :: k, i⟩
  | .logical left op right => ⟨.eval left, .logical op right :: k, i⟩
  | .grouping inner => ⟨.eval inner, k, i⟩
  | .call callee arguments paren => ⟨.eval callee, .callee arguments paren :: k, i⟩
  | .get object name => ⟨.eval object, .get name :: k, i⟩
  | .set object name value => ⟨.eval object, .setObject name value :: k, i⟩
  | .super ref method => superMethod i k ref method

def exec (i : Interpreter) (k : Stack) : Stmt → Machine
  | .expr e => ⟨.eval e, .discard :: k, i⟩
  | .print e => ⟨.eval e, .print e.line :: k, i⟩
  | .var name none => ⟨.done .normal, k, i.define name.lexeme .nil⟩
  | .var name (some e) => ⟨.eval e, .define name :: k, i⟩
  | .block body => enterBlock i k i.env .empty body
  | .cond test yes no => ⟨.eval test, .branch yes no :: k, i⟩
  | .loop test body => ⟨.eval test, .test test body :: k, i⟩
  | .function decl =>
    let id := i.store.nextIdentity
    let f := Callable.function id ⟨decl, i.env, false⟩
    let i := { i with store := i.store.freshIdentity }
    ⟨.done .normal, k, i.define decl.name.lexeme (.callable f)⟩
  | .ret _ none => ⟨.done (.returned .nil), k, i⟩
  | .ret _ (some e) => ⟨.eval e, .ret :: k, i⟩
  | .classDecl name superclass methods => declareClass i k name superclass methods

def resume (i : Interpreter) (k : Stack) (v : Value) : Frame → Option Machine
  | .unary op => some (ofExcept i k op.line (v.unary op.kind))
  | .binaryLeft op right => some ⟨.eval right, .binaryRight v op :: k, i⟩
  | .binaryRight left op => some (ofExcept i k op.line (Value.binary op.kind left v))
  | .logical op right =>
    if v.decides op.kind then some ⟨.value v, k, i⟩ else some ⟨.eval right, k, i⟩
  | .assign ref =>
    match i.target? ref with
    | some id => some ⟨.value v, k, { i with store := i.store.define id ref.name.lexeme v }⟩
    | none => some ⟨.fault (Interpreter.undefined ref.name), k, i⟩
  | .callee [] paren => some (apply i k v [] paren)
  | .callee (e :: rest) paren => some ⟨.eval e, .argument v [] rest paren :: k, i⟩
  | .argument callee known [] paren => some (apply i k callee (v :: known).reverse paren)
  | .argument callee known (e :: rest) paren =>
    some ⟨.eval e, .argument callee (v :: known) rest paren :: k, i⟩
  | .get name =>
    match v with
    | .object object => some (property i k object name)
    | _ => some ⟨.fault ⟨.noProperties, name.line⟩, k, i⟩
  | .setObject name value =>
    match v with
    | .object object => some ⟨.eval value, .setValue object name :: k, i⟩
    | _ => some ⟨.fault ⟨.noFields, name.line⟩, k, i⟩
  | .setValue object name =>
    some ⟨.value v, k, { i with store := i.store.setField object name.lexeme v }⟩
  | .discard => some ⟨.done .normal, k, i⟩
  | .print line =>
    if i.sink.isFull then some ⟨.fault ⟨.notWritten i.sink.writeError, line⟩, k, i⟩
    else
      let text := i.store.display v
      some ⟨.done .normal, k, { i with sink := i.sink.print text }⟩
  | .define name => some ⟨.done .normal, k, i.define name.lexeme v⟩
  | .branch yes no =>
    if v.isTruthy then some ⟨.exec yes, k, i⟩
    else
      match no with
      | some s => some ⟨.exec s, k, i⟩
      | none => some ⟨.done .normal, k, i⟩
  | .test test body =>
    if v.isTruthy then some ⟨.exec body, .body test body :: k, i⟩ else some ⟨.done .normal, k, i⟩
  | .ret => some ⟨.done (.returned v), k, i⟩
  | .construct object => some ⟨.value (.object object), k, i⟩
  | .leave => some ⟨.value v, k, { i with depth := i.depth - 1 }⟩
  | .host line next => some ⟨.act line (next (.ok v)), k, i⟩
  | .body _ _ | .block _ _ | .program _ | .result _ => none

def finish (i : Interpreter) (k : Stack) (flow : Flow) : Frame → Option Machine
  | .body test body =>
    match flow with
    | .normal => some ⟨.eval test, .test test body :: k, i⟩
    | .returned v => some ⟨.done (.returned v), k, i⟩
  | .block rest saved =>
    match flow, rest with
    | .normal, s :: rest => some ⟨.exec s, .block rest saved :: k, i⟩
    | flow, _ => some ⟨.done flow, k, { i with env := saved }⟩
  | .program (s :: rest) => some ⟨.exec s, .program rest :: k, i⟩
  | .program [] => some ⟨.done .normal, k, i⟩
  | .result c =>
    if c.isInitializer then
      match i.store.getAt? c.env 0 "this" with
      | some v => some ⟨.value v, k, i⟩
      | none => some ⟨.fault ⟨.undefinedVariable "this", c.decl.name.line⟩, k, i⟩
    else some ⟨.value flow.value, k, i⟩
  | _ => none

/-- Hands a fault to the innermost frame. Only blocks, calls and host functions have a part in it. -/
def unwind (i : Interpreter) (k : Stack) (f : Fault) : Frame → Machine
  | .block _ saved => ⟨.fault f, k, { i with env := saved }⟩
  | .leave => ⟨.fault f, k, { i with depth := i.depth - 1 }⟩
  | .host line next => ⟨.act line (next (.error f)), k, i⟩
  | _ => ⟨.fault f, k, i⟩

def act (i : Interpreter) (k : Stack) (line : Nat) : Action → Machine
  | .done v => ⟨.value v, k, i⟩
  | .fail text => ⟨.fault ⟨.native text, line⟩, k, i⟩
  | .time next =>
    let seconds := i.clock.now
    ⟨.act line (next seconds), k, { i with clock := i.clock.advance }⟩
  | .call callee arguments callLine next => invoke i (.host line next :: k) callee arguments callLine

/-- One step of the machine; none once an outcome has no frame left to go to. -/
def step : Machine → Option Machine
  | ⟨.eval e, k, i⟩ => some (eval i k e)
  | ⟨.exec s, k, i⟩ => some (exec i k s)
  | ⟨.act line action, k, i⟩ => some (act i k line action)
  | ⟨.value v, frame :: k, i⟩ => resume i k v frame
  | ⟨.done flow, frame :: k, i⟩ => finish i k flow frame
  | ⟨.fault f, frame :: k, i⟩ => some (unwind i k f frame)
  | ⟨_, [], _⟩ => none

def isFinal : Machine → Bool
  | ⟨.value _, [], _⟩ | ⟨.done _, [], _⟩ | ⟨.fault _, [], _⟩ => true
  | _ => false

/-- The machine at its end, if it comes there in fewer than `fuel` steps. -/
def run : Nat → Machine → Option Machine
  | 0, _ => none
  | fuel + 1, m =>
    if m.isFinal then some m
    else
      match m.step with
      | some m => run fuel m
      | none => none

end Lox.Machine
