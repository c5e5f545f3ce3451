import Lox.Machine.Step
import Lox.Proofs.Value.Relabel

namespace Lox

/-- Another setting for the same run: with relabeled code, more frames under the stack, and a table of
distances of its own. -/
structure Variant where
  labels : Relabeling
  below : Stack
  distances : Distances

section

variable (v : Variant)

def Frame.vary : Frame → Frame
  | .unary op => .unary (op.relabel v.labels)
  | .binaryLeft op right => .binaryLeft (op.relabel v.labels) (right.relabel v.labels)
  | .binaryRight left op => .binaryRight (left.relabel v.labels) (op.relabel v.labels)
  | .logical op right => .logical (op.relabel v.labels) (right.relabel v.labels)
  | .assign ref => .assign (ref.relabel v.labels)
  | .callee arguments paren => .callee (Expr.relabelAll v.labels arguments) (paren.relabel v.labels)
  | .argument f known rest paren =>
    .argument (f.relabel v.labels) (known.map (·.relabel v.labels)) (Expr.relabelAll v.labels rest)
      (paren.relabel v.labels)
  | .get name => .get (name.relabel v.labels)
  | .setObject name value => .setObject (name.relabel v.labels) (value.relabel v.labels)
  | .setValue object name => .setValue object (name.relabel v.labels)
  | .discard => .discard
  | .print line => .print (v.labels.line line)
  | .define name => .define (name.relabel v.labels)
  | .branch yes no => .branch (yes.relabel v.labels) (no.map (·.relabel v.labels))
  | .test e s => .test (e.relabel v.labels) (s.relabel v.labels)
  | .body e s => .body (e.relabel v.labels) (s.relabel v.labels)
  | .ret => .ret
  | .block rest saved => .block (Stmt.relabelAll v.labels rest) saved
  | .program rest => .program (Stmt.relabelAll v.labels rest)
  | .result closure => .result (closure.relabel v.labels)
  | .construct object => .construct object
  | .leave => .leave
  | .host line next => .host (v.labels.line line) next

def Stack.vary (k : Stack) : Stack := k.map (Frame.vary v) ++ v.below

def Fault.relabel (r : Relabeling) (f : Fault) : Fault := { f with line := r.line f.line }

def Flow.relabel (r : Relabeling) : Flow → Flow
  | .normal => .normal
  | .returned u => .returned (u.relabel r)

def Control.relabel (r : Relabeling) : Control → Control
  | .eval e => .eval (e.relabel r)
  | .exec s => .exec (s.relabel r)
  | .value u => .value (u.relabel r)
  | .done flow => .done (flow.relabel r)
  | .fault f => .fault (f.relabel r)
  | .act line action => .act (r.line line) action

def Interpreter.vary (i : Interpreter) : Interpreter :=
  { i with store := i.store.relabel v.labels, distances := v.distances }

def Machine.vary (m : Machine) : Machine :=
  ⟨m.control.relabel v.labels, Stack.vary v m.stack, m.state.vary v⟩

end

namespace Machine

variable (v : Variant) (i : Interpreter) (k : Stack)

theorem map_parameterScope (r : Relabeling) (params : List Token) (arguments : List Value) :
    (parameterScope params arguments).map (·.relabel r) =
      parameterScope (params.map (·.relabel r)) (arguments.map (·.relabel r)) := by
  have hfold (l : List (Token × Value)) (b : Bindings Value) :
      (l.foldl (fun b p ↦ b.insert p.1.lexeme p.2) b).map (·.relabel r) =
        (l.map (Prod.map (·.relabel r) (·.relabel r))).foldl (fun b p ↦ b.insert p.1.lexeme p.2)
          (b.map (·.relabel r)) := by
    induction l generalizing b with
    | nil => rfl
    | cons p l ih =>
      rw [List.foldl_cons, ih, Bindings.map_insert]
      rfl
  unfold parameterScope
  rw [List.zip_map]
  exact hfold _ _

theorem vary_enterBlock (env : Env) (b : Bindings Value) (body : List Stmt) :
    (enterBlock i k env b body).vary v =
      enterBlock (i.vary v) (k.vary v) env (b.map (·.relabel v.labels)) (Stmt.relabelAll v.labels body) := by
  simp [enterBlock, Machine.vary, Interpreter.vary, Control.relabel, Flow.relabel, Stack.vary, Frame.vary]

theorem vary_enterClosure (c : Closure) (arguments : List Value) :
    (enterClosure i k c arguments).vary v =
      enterClosure (i.vary v) (k.vary v) (c.relabel v.labels) (arguments.map (·.relabel v.labels)) := by
  unfold enterClosure
  rw [vary_enterBlock, map_parameterScope]
  simp [Stack.vary, Frame.vary, Closure.relabel]

theorem relabel_bound (r : Relabeling) (method : Closure) (scope : ScopeId) :
    (bound method scope).relabel r = bound (method.relabel r) scope := rfl

theorem map_thisScope (r : Relabeling) (object : ObjectId) :
    (thisScope object).map (·.relabel r) = thisScope object := rfl

theorem vary_bindMethod (method : Closure) (object : ObjectId) :
    (bindMethod i k method object).vary v =
      bindMethod (i.vary v) (k.vary v) (method.relabel v.labels) object := by
  simp [bindMethod, Machine.vary, Interpreter.vary, Control.relabel, relabel_bound, map_thisScope]

theorem vary_construct (c : Class) (arguments : List Value) :
    (construct i k c arguments).vary v =
      construct (i.vary v) (k.vary v) (c.relabel v.labels) (arguments.map (·.relabel v.labels)) := by
  unfold construct
  rw [Class.initializer?_relabel]
  cases c.initializer? with
  | none => simp [Machine.vary, Interpreter.vary, Control.relabel]
  | some method =>
    have hscope : (i.store.addObject c).nextScope = i.store.nextScope := rfl
    have hscope' : ((i.store.relabel v.labels).addObject (c.relabel v.labels)).nextScope =
        i.store.nextScope := i.store.nextScope_relabel v.labels
    simp only [Option.map_some]
    rw [vary_enterClosure]
    simp [Interpreter.vary, Stack.vary, Frame.vary, relabel_bound, map_thisScope, hscope, hscope']

theorem host_eq {i : Interpreter} (h : i.hosts = #[HostFunction.clock]) (f : Native)
    (arguments arguments' : List Value) : i.host f arguments = i.host f arguments' := by
  unfold Interpreter.host
  rw [h]
  cases f.id <;> rfl

theorem vary_invoke {i : Interpreter} (h : i.hosts = #[HostFunction.clock]) (c : Callable)
    (arguments : List Value) (line : Nat) :
    (invoke i k c arguments line).vary v =
      invoke (i.vary v) (k.vary v) (c.relabel v.labels) (arguments.map (·.relabel v.labels))
        (v.labels.line line) := by
  cases c with
  | native f =>
    have hhost := host_eq h f (arguments.map (·.relabel v.labels)) arguments
    have hhost' : (i.vary v).host f = i.host f := rfl
    simp only [invoke, Callable.relabel, hhost', hhost]
    rfl
  | function id c =>
    have hdepth : (i.vary v).depth = i.depth := rfl
    simp only [invoke, Callable.relabel, hdepth]
    split
    · rfl
    · exact vary_enterClosure v _ (.leave :: k) c arguments
  | cls c =>
    have hdepth : (i.vary v).depth = i.depth := rfl
    simp only [invoke, Callable.relabel, hdepth]
    split
    · rfl
    · exact vary_construct v _ (.leave :: k) c arguments

theorem vary_apply {i : Interpreter} (h : i.hosts = #[HostFunction.clock]) (f : Value)
    (arguments : List Value) (paren : Token) :
    (apply i k f arguments paren).vary v =
      apply (i.vary v) (k.vary v) (f.relabel v.labels) (arguments.map (·.relabel v.labels))
        (paren.relabel v.labels) := by
  cases f with
  | callable c =>
    simp only [apply, Value.relabel, Callable.arity_relabel, List.length_map]
    split
    · exact vary_invoke v k h c arguments paren.line
    · rfl
  | _ => rfl

theorem vary_property (object : ObjectId) (name : Token) :
    (property i k object name).vary v =
      property (i.vary v) (k.vary v) object (name.relabel v.labels) := by
  have hobject : (i.vary v).store.object? object = (i.store.object? object).map (·.relabel v.labels) :=
    i.store.object?_relabel v.labels object
  unfold property
  rw [hobject]
  cases i.store.object? object with
  | none => rfl
  | some o =>
    simp only [Option.map_some, Object.relabel, Bindings.find?_map, Token.lexeme_relabel,
      Class.findMethod?_relabel]
    cases o.fields.find? name.lexeme with
    | some u => rfl
    | none =>
      simp only [Option.map_none]
      cases o.cls.findMethod? name.lexeme with
      | some method => exact vary_bindMethod v i k method object
      | none => rfl

theorem map_methodTable (r : Relabeling) (methods : List FunctionDecl) (env : Env) :
    (methodTable methods env).map (·.relabel r) = methodTable (FunctionDecl.relabelAll r methods) env := by
  have hfold (ds : List FunctionDecl) (b : Bindings Closure) :
      (ds.foldl (fun b d ↦ b.insert d.name.lexeme ⟨d, env, d.name.lexeme == "init"⟩) b).map (·.relabel r) =
        (FunctionDecl.relabelAll r ds).foldl
          (fun b d ↦ b.insert d.name.lexeme ⟨d, env, d.name.lexeme == "init"⟩) (b.map (·.relabel r)) := by
    induction ds generalizing b with
    | nil => rfl
    | cons d ds ih =>
      rw [List.foldl_cons, ih, Bindings.map_insert, FunctionDecl.relabelAll, List.foldl_cons,
        FunctionDecl.name_relabel]
      rfl
  exact hfold methods .empty

theorem vary_defineClass (name : Token) (superclass : Option Class) (methods : List FunctionDecl)
    (env : Env) : (defineClass i k name superclass methods env).vary v =
      defineClass (i.vary v) (k.vary v) (name.relabel v.labels) (superclass.map (·.relabel v.labels))
        (FunctionDecl.relabelAll v.labels methods) env := by
  have hclass (id : Nat) (x : String) (b : Bindings Closure) : (Class.mk id x superclass b).relabel v.labels =
      .mk id x (superclass.map (·.relabel v.labels)) (b.map (·.relabel v.labels)) := by
    cases superclass <;> rfl
  simp [defineClass, Machine.vary, Interpreter.vary, Control.relabel, Flow.relabel, hclass, map_methodTable]

section

variable {v} {i} {ref : Ref} (hr : v.distances.find? (v.labels.id ref.id) = i.distances.find? ref.id)
include hr

theorem target?_vary : (i.vary v).target? (ref.relabel v.labels) = i.target? ref := by
  have hr : (i.vary v).distances.find? (ref.relabel v.labels).id = i.distances.find? ref.id := hr
  unfold Interpreter.target?
  rw [hr]
  split
  · exact i.store.locateAt?_relabel v.labels _ _ _
  · exact i.store.locate?_relabel v.labels _ _

theorem lookup_vary : (i.vary v).lookup (ref.relabel v.labels) =
    match i.lookup ref with
    | .ok u => .ok (u.relabel v.labels)
    | .error f => .error (f.relabel v.labels) := by
  have hread (id : ScopeId) : (i.vary v).store.read? id ref.name.lexeme =
      (i.store.read? id ref.name.lexeme).map (·.relabel v.labels) := i.store.read?_relabel v.labels id _
  have hname : (ref.relabel v.labels).name.lexeme = ref.name.lexeme := rfl
  unfold Interpreter.lookup
  rw [target?_vary hr, hname]
  cases i.target? ref with
  | none => rfl
  | some id =>
    simp only [Option.bind_some, hread]
    cases i.store.read? id ref.name.lexeme <;> rfl

theorem vary_superMethod (name : Token) :
    (superMethod i k ref name).vary v =
      superMethod (i.vary v) (k.vary v) (ref.relabel v.labels) (name.relabel v.labels) := by
  have hr : (i.vary v).distances.find? (ref.relabel v.labels).id = i.distances.find? ref.id := hr
  have hget (d : Nat) (x : String) : (i.vary v).store.getAt? (i.vary v).env d x =
      (i.store.getAt? i.env d x).map (·.relabel v.labels) := i.store.getAt?_relabel v.labels i.env d x
  have hname : (ref.relabel v.labels).name.lexeme = ref.name.lexeme := rfl
  unfold superMethod
  rw [hr]
  cases i.distances.find? ref.id with
  | none => rfl
  | some d =>
    simp only [hget, hname]
    cases i.store.getAt? i.env d ref.name.lexeme with
    | none => rfl
    | some u =>
      cases u with
      | callable c =>
        cases c with
        | cls c =>
          simp only [Option.map_some, Value.relabel_cls]
          cases i.store.getAt? i.env (d - 1) "this" with
          | none => rfl
          | some u =>
            cases u with
            | object o =>
              simp only [Option.map_some, Value.relabel_object, Class.findMethod?_relabel,
                Token.lexeme_relabel]
              cases c.findMethod? name.lexeme with
              | some method => exact vary_bindMethod v i k method o
              | none => rfl
            | _ => rfl
        | _ => rfl
      | _ => rfl

end

theorem vary_declareClass {i : Interpreter} {superclass : Option Ref} (name : Token)
    (methods : List FunctionDecl) (hr : ∀ ref ∈ superclass,
      v.distances.find? (v.labels.id ref.id) = i.distances.find? ref.id) :
    (declareClass i k name superclass methods).vary v =
      declareClass (i.vary v) (k.vary v) (name.relabel v.labels) (superclass.map (·.relabel v.labels))
        (FunctionDecl.relabelAll v.labels methods) := by
  cases superclass with
  | none => exact vary_defineClass v i k name none methods i.env
  | some ref =>
    simp only [declareClass, Option.map_some, lookup_vary (hr ref rfl)]
    cases i.lookup ref with
    | error f => rfl
    | ok u =>
      cases u with
      | callable c =>
        cases c with
        | cls c =>
          have hscope : (i.vary v).store.nextScope = i.store.nextScope := i.store.nextScope_relabel v.labels
          simp only [Value.relabel_cls, hscope]
          rw [vary_defineClass]
          simp [Interpreter.vary]
        | _ => rfl
      | _ => rfl

end Machine

end Lox
