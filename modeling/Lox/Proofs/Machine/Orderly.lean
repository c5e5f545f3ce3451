import Lox.Proofs.Heap.Step
import Lox.Proofs.Machine.Transition
import Lox.Proofs.Scope.Returning

namespace Lox

open Scope

def Stack.running? : Stack → Option Bool
  | [] => none
  | .result c :: _ => some c.isInitializer
  | _ :: k => running? k

def Closure.Orderly (c : Closure) : Prop := Obeys (some c.isInitializer) (.stmts c.decl.body)

/-- The methods of the class and of its superclasses are as they should be, and just those called `init` are taken
for initializers. -/
def Class.Orderly (c : Class) : Prop := ∀ d ∈ c.lineage, ∀ x m, d.methods.find? x = some m →
  m.Orderly ∧ m.decl.name.lexeme = x ∧ m.isInitializer = (x == "init")

def Value.Orderly : Value → Prop
  | .callable (.function _ c) => c.Orderly
  | .callable (.cls c) => c.Orderly
  | _ => True

def Flow.Orderly (inside : Option Bool) : Flow → Prop
  | .normal => True
  | .returned v => v.Orderly ∧ inside.isSome ∧ (inside = some true → v = .nil)

/-- What is left to do in a frame that stands on top of the given stack. -/
def Frame.Orderly (k : Stack) : Frame → Prop
  | .binaryRight left _ => left.Orderly
  | .argument f known _ _ => f.Orderly ∧ ∀ v ∈ known, v.Orderly
  | .branch yes no => Obeys (Stack.running? k) (.stmt yes) ∧ ∀ s ∈ no, Obeys (Stack.running? k) (.stmt s)
  | .test _ s | .body _ s => Obeys (Stack.running? k) (.stmt s)
  | .ret => Stack.running? k = some false
  | .block rest _ => ∀ s ∈ rest, Obeys (Stack.running? k) (.stmt s)
  | .program rest => k = [] ∧ ∀ s ∈ rest, Obeys none (.stmt s)
  | .result c => c.isInitializer = false → ∃ l, k = .leave :: l
  | .host _ next => ∃ given, (∀ v ∈ given, Value.Orderly v) ∧ (∀ v, (next (.ok v)).Uses (v :: given)) ∧
      ∀ f, (next (.error f)).Uses given
  | _ => True

def Stack.Orderly : Stack → Prop
  | [] => True
  | frame :: k => frame.Orderly k ∧ Stack.Orderly k

theorem Stack.Orderly.of_append {pushed k : Stack} (h : Stack.Orderly (pushed ++ k)) : Stack.Orderly k := by
  induction pushed with
  | nil => exact h
  | cons frame pushed ih => exact ih h.2

def Control.Orderly (inside : Option Bool) : Control → Prop
  | .exec s => Obeys inside (.stmt s)
  | .value v => v.Orderly
  | .done flow => flow.Orderly inside
  | .act _ action => ∃ given, (∀ v ∈ given, Value.Orderly v) ∧ action.Uses given
  | .eval _ | .fault _ => True

structure Interpreter.Orderly (i : Interpreter) : Prop where
  store : i.store.All Value.Orderly Class.Orderly
  hosts : ∀ f ∈ i.hosts, f.Honest

structure Machine.Orderly (m : Machine) : Prop where
  state : m.state.Orderly
  control : m.control.Orderly (Stack.running? m.stack)
  stack : Stack.Orderly m.stack

theorem Value.IsData.orderly {v : Value} (h : v.IsData) : v.Orderly := by
  cases v with
  | callable c =>
    cases c with
    | native => trivial
    | _ => exact h.elim
  | _ => trivial

theorem Class.Orderly.findMethod? {c : Class} (h : c.Orderly) {x : String} {m : Closure}
    (hm : c.findMethod? x = some m) : m.Orderly ∧ m.isInitializer = (x == "init") := by
  obtain ⟨d, hd, hx⟩ := exists_of_findMethod? hm
  exact ⟨(h d hd x m hx).1, (h d hd x m hx).2.2⟩

namespace Machine

variable {i : Interpreter} {k : Stack}

theorem thisScope_orderly {o : ObjectId} {x : String} {v : Value} (h : (thisScope o).find? x = some v) :
    v.Orderly := by
  rw [find?_thisScope h]
  trivial

theorem orderly_of_lookup (hi : i.Orderly) {ref : Ref} {v : Value} (h : i.lookup ref = .ok v) : v.Orderly := by
  obtain ⟨id, hv⟩ := Interpreter.read?_of_lookup h
  exact hi.store.scopes id _ v hv

section

variable (hi : i.Orderly) (hk : Stack.Orderly k)
include hi hk

theorem value_orderly {v : Value} (hv : v.Orderly) : Orderly ⟨.value v, k, i⟩ := ⟨hi, hv, hk⟩

theorem normal_orderly : Orderly ⟨.done .normal, k, i⟩ := ⟨hi, trivial, hk⟩

theorem fault_orderly (f : Fault) : Orderly ⟨.fault f, k, i⟩ := ⟨hi, trivial, hk⟩

theorem eval_push_orderly (e : Expr) {frame : Frame} (hf : frame.Orderly k) : Orderly ⟨.eval e, frame :: k, i⟩ :=
  ⟨hi, trivial, hf, hk⟩

theorem enterBlock_orderly (env : Env) {b : Bindings Value} (hb : ∀ x v, b.find? x = some v → v.Orderly)
    {body : List Stmt} (hbody : ∀ s ∈ body, Obeys (Stack.running? k) (.stmt s)) :
    (enterBlock i k env b body).Orderly := ⟨⟨hi.store.addScope hb, hi.hosts⟩, trivial, hbody, hk⟩

theorem enterClosure_orderly {c : Closure} (hc : c.Orderly) (hleave : c.isInitializer = false → ∃ l, k = .leave :: l)
    {vs : List Value} (hvs : ∀ v ∈ vs, v.Orderly) : (enterClosure i k c vs).Orderly := by
  have hk' : Stack.Orderly (.result c :: k) := ⟨hleave, hk⟩
  exact enterBlock_orderly hi hk' c.env (fun _ v hv ↦ hvs v (find?_parameterScope hv)) hc.of_stmts

theorem bindMethod_orderly {m : Closure} (hm : m.Orderly) (o : ObjectId) : (bindMethod i k m o).Orderly :=
  ⟨⟨(hi.store.addScope fun _ _ ↦ thisScope_orderly).freshIdentity, hi.hosts⟩, hm, hk⟩

theorem construct_orderly {c : Class} (hc : c.Orderly) {vs : List Value} (hvs : ∀ v ∈ vs, v.Orderly) :
    (construct i k c vs).Orderly := by
  have hobject := hi.store.addObject hc
  unfold construct
  cases hinit : c.initializer? with
  | none => exact ⟨⟨hobject, hi.hosts⟩, trivial, hk⟩
  | some m =>
    obtain ⟨hm, hmarked⟩ := hc.findMethod? hinit
    have hj : Interpreter.Orderly
        { i with store := (i.store.addObject c).addScope (thisScope i.store.nextObject) } :=
      ⟨hobject.addScope fun _ _ ↦ thisScope_orderly, hi.hosts⟩
    have hk' : Stack.Orderly (.construct i.store.nextObject :: k) := ⟨trivial, hk⟩
    have hbound : (bound m (i.store.addObject c).nextScope).Orderly := hm
    refine enterClosure_orderly hj hk' hbound (fun hplain ↦ ?_) hvs
    cases hplain.symm.trans hmarked

theorem invoke_orderly {c : Callable} (hc : (Value.callable c).Orderly) {vs : List Value}
    (hvs : ∀ v ∈ vs, v.Orderly) (line : Nat) : (invoke i k c vs line).Orderly := by
  have hdeeper : Interpreter.Orderly { i with depth := i.depth + 1 } := ⟨hi.store, hi.hosts⟩
  have hk' : Stack.Orderly (.leave :: k) := ⟨trivial, hk⟩
  cases c with
  | native f =>
    refine ⟨hi, ⟨vs, hvs, ?_⟩, hk⟩
    exact host_uses hi.hosts f vs
  | function id c =>
    rw [invoke]
    split
    · exact fault_orderly hi hk _
    · exact enterClosure_orderly hdeeper hk' hc (fun _ ↦ ⟨k, rfl⟩) hvs
  | cls c =>
    rw [invoke]
    split
    · exact fault_orderly hi hk _
    · exact construct_orderly hdeeper hk' hc hvs

theorem apply_orderly {f : Value} (hf : f.Orderly) {vs : List Value} (hvs : ∀ v ∈ vs, v.Orderly) (paren : Token) :
    (apply i k f vs paren).Orderly := by
  unfold apply
  split
  · split
    · exact invoke_orderly hi hk hf hvs _
    · exact fault_orderly hi hk _
  · exact fault_orderly hi hk _

theorem property_orderly (o : ObjectId) (name : Token) : (property i k o name).Orderly := by
  unfold property
  split
  · exact fault_orderly hi hk _
  · next ob ho =>
    split
    · next v hv => exact value_orderly hi hk (hi.store.fields o ob ho _ v hv)
    · split
      · next m hm => exact bindMethod_orderly hi hk ((hi.store.classes o ob ho).findMethod? hm).1 o
      · exact fault_orderly hi hk _

theorem superMethod_orderly (ref : Ref) (name : Token) : (superMethod i k ref name).Orderly := by
  unfold superMethod
  split
  · exact fault_orderly hi hk _
  split
  · exact fault_orderly hi hk _
  · next c hc =>
    obtain ⟨id, hread⟩ := Store.read?_of_getAt? hc
    have hclass : c.Orderly := hi.store.scopes id _ _ hread
    split
    · exact fault_orderly hi hk _
    · split
      · next m hm => exact bindMethod_orderly hi hk (hclass.findMethod? hm).1 _
      · exact fault_orderly hi hk _
    · exact fault_orderly hi hk _
  · exact fault_orderly hi hk _

theorem defineClass_orderly (name : Token) {superclass : Option Class} (hs : ∀ c ∈ superclass, c.Orderly)
    {ds : List FunctionDecl} (hds : ∀ d ∈ ds, Obeys (some (d.name.lexeme == "init")) (.stmts d.body)) (env : Env) :
    (defineClass i k name superclass ds env).Orderly := by
  have hmethods (x : String) (m : Closure) (hx : (methodTable ds env).find? x = some m) :
      m.Orderly ∧ m.decl.name.lexeme = x ∧ m.isInitializer = (x == "init") := by
    have hmarked := isInitializer_of_methodTable hx
    rw [find?_methodTable_eq] at hx
    obtain ⟨d, hd, rfl⟩ := Option.map_eq_some_iff.1 hx
    have hname := List.find?_some hd
    exact ⟨hds d (List.mem_reverse.1 (List.mem_of_find?_eq_some hd)), eq_of_beq hname, hmarked⟩
  have hclass : Class.Orderly (.mk i.store.nextIdentity name.lexeme superclass (methodTable ds env)) := by
    cases superclass with
    | none => exact List.forall_mem_singleton.2 hmethods
    | some c => exact List.forall_mem_cons.2 ⟨hmethods, hs c rfl⟩
  have hvalue : Value.Orderly (.callable (.cls (.mk i.store.nextIdentity name.lexeme superclass
    (methodTable ds env)))) := hclass
  exact ⟨⟨hi.store.freshIdentity.define hvalue, hi.hosts⟩, trivial, hk⟩

theorem declareClass_orderly (name : Token) (o : Option Ref) {ds : List FunctionDecl}
    (hds : ∀ d ∈ ds, Obeys (some (d.name.lexeme == "init")) (.stmts d.body)) :
    (declareClass i k name o ds).Orderly := by
  cases o with
  | none => exact defineClass_orderly hi hk name (by simp) hds i.env
  | some ref =>
    rw [declareClass]
    split
    · exact fault_orderly hi hk _
    · next c hl =>
      have hc : c.Orderly := orderly_of_lookup hi hl
      have hsuper (x : String) (v : Value) (h : (superScope c).find? x = some v) : v.Orderly := by
        rw [find?_superScope h]
        exact hc
      have hj : Interpreter.Orderly { i with store := i.store.addScope (superScope c) } :=
        ⟨hi.store.addScope hsuper, hi.hosts⟩
      refine defineClass_orderly hj hk name ?_ hds _
      rintro _ ⟨⟩
      exact hc
    · exact fault_orderly hi hk _

theorem eval_orderly (e : Expr) : (eval i k e).Orderly := by
  have hlookup (ref : Ref) : (eval i k (.var ref)).Orderly := by
    rw [eval]
    split
    · next hl => exact value_orderly hi hk (orderly_of_lookup hi hl)
    · exact fault_orderly hi hk _
  cases e with
  | literal value line => cases value <;> exact value_orderly hi hk trivial
  | var ref => exact hlookup ref
  | this ref => exact hlookup ref
  | super ref method => exact superMethod_orderly hi hk ref method
  | grouping inner => exact ⟨hi, trivial, hk⟩
  | _ => exact eval_push_orderly hi hk _ trivial

theorem define_orderly (x : String) {v : Value} (hv : v.Orderly) : Orderly ⟨.done .normal, k, i.define x v⟩ :=
  ⟨⟨hi.store.define hv, hi.hosts⟩, trivial, hk⟩

theorem exec_orderly {s : Stmt} (hs : Obeys (Stack.running? k) (.stmt s)) : (exec i k s).Orderly := by
  cases s with
  | expr e | print e => exact eval_push_orderly hi hk e trivial
  | var name initial =>
    cases initial with
    | none => exact define_orderly hi hk name.lexeme trivial
    | some e => exact eval_push_orderly hi hk e trivial
  | block body => exact enterBlock_orderly hi hk i.env (b := .empty) nofun hs.of_block.of_stmts
  | cond test yes no => exact eval_push_orderly hi hk test hs.of_cond
  | loop test body => exact eval_push_orderly hi hk test hs.of_loop
  | function decl =>
    have hj : Interpreter.Orderly { i with store := i.store.freshIdentity } :=
      ⟨hi.store.freshIdentity, hi.hosts⟩
    exact define_orderly hj hk decl.name.lexeme hs.of_function
  | ret keyword value =>
    obtain ⟨hinside, hbare⟩ := hs.of_ret
    cases value with
    | none => exact ⟨hi, ⟨trivial, hinside, fun _ ↦ rfl⟩, hk⟩
    | some e =>
      refine eval_push_orderly hi hk e ?_
      obtain ⟨isInitializer, hrunning⟩ := Option.isSome_iff_exists.1 hinside
      cases isInitializer with
      | false => exact hrunning
      | true => cases hbare hrunning
  | classDecl name superclass methods => exact declareClass_orderly hi hk name superclass hs.of_classDecl

theorem ofExcept_orderly (line : Nat) {r : Except FaultCause Value} (hr : ∀ v, r = .ok v → v.IsData) :
    (ofExcept i k line r).Orderly := by
  cases r with
  | ok v => exact value_orderly hi hk (hr v rfl).orderly
  | error cause => exact fault_orderly hi hk _

theorem resume_orderly {v : Value} (hv : v.Orderly) {frame : Frame} (hf : frame.Orderly k) {m : Machine}
    (h : resume i k v frame = some m) : m.Orderly := by
  have htold {known : List Value} (h : ∀ u ∈ known, u.Orderly) : ∀ u ∈ v :: known, u.Orderly :=
    List.forall_mem_cons.2 ⟨hv, h⟩
  cases resumed h with
  | unary op => exact ofExcept_orderly hi hk _ fun _ ↦ Value.isData_of_unary
  | binaryRight left op => exact ofExcept_orderly hi hk _ fun _ ↦ Value.isData_of_binary
  | binaryLeft op right => exact eval_push_orderly hi hk right hv
  | decided => exact value_orderly hi hk hv
  | undecided => exact ⟨hi, trivial, hk⟩
  | assign => exact ⟨⟨hi.store.define hv, hi.hosts⟩, hv, hk⟩
  | callee paren => exact apply_orderly hi hk hv (List.forall_mem_nil _) paren
  | firstArgument e => exact eval_push_orderly hi hk e ⟨hv, List.forall_mem_nil _⟩
  | lastArgument f known paren =>
    exact apply_orderly hi hk hf.1 (fun u hu ↦ htold hf.2 u (List.mem_reverse.1 hu)) paren
  | nextArgument f known e => exact eval_push_orderly hi hk e ⟨hf.1, htold hf.2⟩
  | get o name => exact property_orderly hi hk o name
  | setObject o name value => exact eval_push_orderly hi hk value trivial
  | setValue => exact ⟨⟨hi.store.setField hv, hi.hosts⟩, hv, hk⟩
  | unassignable | noProperties | noFields | notWritten => exact fault_orderly hi hk _
  | discard | neither | ended => exact normal_orderly hi hk
  | print => exact ⟨⟨hi.store, hi.hosts⟩, trivial, hk⟩
  | define name => exact define_orderly hi hk name.lexeme hv
  | yes => exact ⟨hi, hf.1, hk⟩
  | no => exact ⟨hi, hf.2 _ rfl, hk⟩
  | again => exact ⟨hi, hf, hf, hk⟩
  | ret =>
    have hf : Stack.running? k = some false := hf
    refine ⟨hi, ⟨hv, ?_, fun hinit ↦ ?_⟩, hk⟩
    · rw [hf]
      rfl
    · cases hf.symm.trans hinit
  | construct => exact value_orderly hi hk trivial
  | leave => exact ⟨⟨hi.store, hi.hosts⟩, hv, hk⟩
  | host =>
    obtain ⟨given, hgiven, hok, -⟩ := hf
    exact ⟨hi, ⟨v :: given, htold hgiven, hok v⟩, hk⟩

theorem finish_orderly {flow : Flow} {frame : Frame} (hflow : flow.Orderly (Stack.running? (frame :: k)))
    (hf : frame.Orderly k) {m : Machine} (h : finish i k flow frame = some m) : m.Orderly := by
  cases finished h with
  | again test body => exact eval_push_orderly hi hk test hf
  | returned => exact ⟨hi, hflow, hk⟩
  | next s rest =>
    obtain ⟨hs, hrest⟩ := List.forall_mem_cons.1 hf
    exact ⟨hi, hs, hrest, hk⟩
  | block => exact ⟨⟨hi.store, hi.hosts⟩, hflow, hk⟩
  | nextOuter _ s rest =>
    obtain ⟨rfl, hf⟩ := hf
    obtain ⟨hs, hrest⟩ := List.forall_mem_cons.1 hf
    exact ⟨hi, hs, ⟨rfl, hrest⟩, hk⟩
  | program => exact normal_orderly hi hk
  | initialized _ _ hthis =>
    obtain ⟨id, hread⟩ := Store.read?_of_getAt? hthis
    exact value_orderly hi hk (hi.store.scopes id _ _ hread)
  | noThis => exact fault_orderly hi hk _
  | result =>
    cases flow with
    | normal => exact value_orderly hi hk trivial
    | returned v => exact value_orderly hi hk hflow.1

theorem unwind_orderly {frame : Frame} (hf : frame.Orderly k) (f : Fault) : (unwind i k f frame).Orderly := by
  cases frame with
  | block rest saved | leave => exact ⟨⟨hi.store, hi.hosts⟩, trivial, hk⟩
  | host line next =>
    obtain ⟨given, hgiven, -, herror⟩ := hf
    exact ⟨hi, ⟨given, hgiven, herror f⟩, hk⟩
  | _ => exact fault_orderly hi hk f

theorem act_orderly {given : List Value} (hgiven : ∀ v ∈ given, v.Orderly) {action : Action}
    (ha : action.Uses given) (line : Nat) : (act i k line action).Orderly := by
  have hvalue {v : Value} (hv : v.IsData ∨ v ∈ given) : v.Orderly := by
    obtain hv | hv := hv
    · exact hv.orderly
    · exact hgiven v hv
  cases ha with
  | done hv => exact value_orderly hi hk (hvalue hv)
  | fail text => exact fault_orderly hi hk _
  | time h => exact ⟨⟨hi.store, hi.hosts⟩, ⟨given, hgiven, h _⟩, hk⟩
  | @call _ c vs callLine next hc hvs hok herror =>
    have hk' : Stack.Orderly (.host line next :: k) := ⟨⟨given, hgiven, hok, herror⟩, hk⟩
    exact invoke_orderly hi hk' (hvalue hc) (fun v hv ↦ hvalue (hvs v hv)) callLine

end

theorem step_orderly {m m' : Machine} (hm : m.Orderly) (h : m.step = some m') : m'.Orderly := by
  obtain ⟨control, k, i⟩ := m
  obtain ⟨hi, hc, hk⟩ := hm
  cases stepped h with
  | eval _ e => exact eval_orderly hi hk e
  | exec _ s => exact exec_orderly hi hk hc
  | value h => exact resume_orderly hi hk.2 hc hk.1 h
  | done h => exact finish_orderly hi hk.2 hc hk.1 h
  | fault _ f => exact unwind_orderly hi hk.2 hk.1 f
  | act _ line =>
    obtain ⟨given, hgiven, ha⟩ := hc
    exact act_orderly hi hk hgiven ha line

end Machine

end Lox
