import Lox.Proofs.Heap.Basic
import Lox.Proofs.Machine.Transition

namespace Lox

/-- A host function that calls and hands on no values but data and those that it has been given. Calls
give it their results. -/
inductive Action.Uses : List Value → Action → Prop
  | done {given : List Value} {v : Value} (hv : v.IsData ∨ v ∈ given) : Uses given (.done v)
  | fail {given : List Value} (text : String) : Uses given (.fail text)
  | time {given : List Value} {next : Float → Action} (h : ∀ x, Uses given (next x)) : Uses given (.time next)
  | call {given : List Value} {c : Callable} {vs : List Value} {line : Nat}
      {next : Except Fault Value → Action} (hc : (Value.callable c).IsData ∨ .callable c ∈ given)
      (hvs : ∀ v ∈ vs, v.IsData ∨ v ∈ given) (hok : ∀ v, Uses (v :: given) (next (.ok v)))
      (herror : ∀ f, Uses given (next (.error f))) : Uses given (.call c vs line next)

def HostFunction.Honest (f : HostFunction) : Prop := ∀ vs, (f vs).Uses vs

def Interpreter.heap (G : Layout) (i : Interpreter) : Heap :=
  { G with store := i.store, globals := i.globals }

section

variable (E : Heap)

def Frame.In : Frame → Prop
  | .binaryRight left _ => E.HasValue left
  | .argument f known _ _ => E.HasValue f ∧ ∀ v ∈ known, E.HasValue v
  | .block _ saved => E.HasEnv saved
  | .result c => E.HasEnv c.env
  | .host _ next => ∃ given, (∀ v ∈ given, E.HasValue v) ∧ (∀ v, (next (.ok v)).Uses (v :: given)) ∧
      ∀ f, (next (.error f)).Uses given
  | _ => True

def Stack.In (k : Stack) : Prop := ∀ frame ∈ k, frame.In E

def Control.In : Control → Prop
  | .value v => E.HasValue v
  | .done flow => E.HasValue flow.value
  | .act _ action => ∃ given, (∀ v ∈ given, E.HasValue v) ∧ action.Uses given
  | _ => True

end

structure Interpreter.In (G : Layout) (i : Interpreter) : Prop where
  valid : (i.heap G).Valid
  env : (i.heap G).HasEnv i.env
  hosts : ∀ f ∈ i.hosts, f.Honest

/-- All scopes and classes that a machine refers to are in a layout. -/
structure Machine.In (G : Layout) (m : Machine) : Prop where
  state : m.state.In G
  control : m.control.In (m.state.heap G)
  stack : m.stack.In (m.state.heap G)

theorem Frame.In.mono {E E' : Heap} (hE : E.Le E') {frame : Frame} (h : frame.In E) : frame.In E' := by
  cases frame with
  | binaryRight => exact Heap.HasValue.mono hE h
  | argument => exact ⟨h.1.mono hE, fun v hv ↦ (h.2 v hv).mono hE⟩
  | block | result => exact Heap.HasEnv.mono hE h
  | host =>
    obtain ⟨given, hgiven, hnext⟩ := h
    exact ⟨given, fun v hv ↦ (hgiven v hv).mono hE, hnext⟩
  | _ => trivial

theorem Stack.In.mono {E E' : Heap} (hE : E.Le E') {k : Stack} (h : k.In E) : k.In E' :=
  fun frame hf ↦ (h frame hf).mono hE

theorem Stack.In.cons {E : Heap} {k : Stack} (h : k.In E) {frame : Frame} (hf : frame.In E) :
    Stack.In E (frame :: k) := List.forall_mem_cons.2 ⟨hf, h⟩

namespace Machine

def Grows (E : Heap) (m : Machine) : Prop := ∃ G, E.Le (m.state.heap G) ∧ m.In G

theorem Grows.of_le {E E' : Heap} {m : Machine} (hE : E.Le E') (h : m.Grows E') : m.Grows E := by
  obtain ⟨G, hle, hm⟩ := h
  exact ⟨G, hE.trans hle, hm⟩

section

variable {G : Layout} {i : Interpreter} {k : Stack}

theorem value_grows (hi : i.In G) (hk : k.In (i.heap G)) {v : Value}
    (hv : (i.heap G).HasValue v) : Grows (i.heap G) ⟨.value v, k, i⟩ := ⟨G, .refl _, hi, hv, hk⟩

theorem normal_grows (hi : i.In G) (hk : k.In (i.heap G)) :
    Grows (i.heap G) ⟨.done .normal, k, i⟩ := ⟨G, .refl _, hi, trivial, hk⟩

theorem fault_grows (hi : i.In G) (hk : k.In (i.heap G)) (f : Fault) :
    Grows (i.heap G) ⟨.fault f, k, i⟩ := ⟨G, .refl _, hi, trivial, hk⟩

theorem eval_push_grows (hi : i.In G) (hk : k.In (i.heap G)) (e : Expr) {frame : Frame}
    (hf : frame.In (i.heap G)) : Grows (i.heap G) ⟨.eval e, frame :: k, i⟩ :=
  ⟨G, .refl _, hi, trivial, hk.cons hf⟩

theorem enterBlock_grows (hi : i.In G) (hk : k.In (i.heap G)) {env : Env}
    (henv : (i.heap G).HasEnv env) {b : Bindings Value}
    (hb : ∀ x v, b.find? x = some v → (i.heap G).HasValue v) (body : List Stmt) :
    Grows (i.heap G) (enterBlock i k env b body) := by
  have hle := (i.heap G).le_addScope env b
  refine ⟨((i.heap G).addScope env b).toLayout, hle, ⟨hi.valid.addScope henv hb, ?_, hi.hosts⟩, trivial, ?_⟩
  · exact Heap.Valid.hasEnv_enclose env b
  · exact (hk.mono hle).cons (hi.env.mono hle)

theorem enterClosure_grows (hi : i.In G) (hk : k.In (i.heap G)) {c : Closure}
    (hc : (i.heap G).HasEnv c.env) {vs : List Value} (hvs : ∀ v ∈ vs, (i.heap G).HasValue v) :
    Grows (i.heap G) (enterClosure i k c vs) := by
  have hk' : Stack.In (i.heap G) (.result c :: k) := hk.cons hc
  exact enterBlock_grows hi hk' hc (fun _ v hv ↦ hvs v (find?_parameterScope hv)) c.decl.body

theorem thisScope_in {E : Heap} (o : ObjectId) (x : String) (v : Value)
    (h : (thisScope o).find? x = some v) : E.HasValue v := by
  rw [find?_thisScope h]
  trivial

theorem bindMethod_grows (hi : i.In G) (hk : k.In (i.heap G)) {m : Closure}
    (hm : (i.heap G).HasEnv m.env) (o : ObjectId) : Grows (i.heap G) (bindMethod i k m o) := by
  let E := (i.heap G).addScope m.env (thisScope o)
  have hle : (i.heap G).Le E.freshIdentity := (Heap.le_addScope ..).trans E.le_freshIdentity
  have hvalid := (hi.valid.addScope hm (thisScope_in o)).freshIdentity
  refine ⟨E.toLayout, hle, ⟨hvalid, hi.env.mono hle, hi.hosts⟩, ?_, hk.mono hle⟩
  exact (Heap.Valid.hasEnv_enclose m.env (thisScope o)).mono E.le_freshIdentity

end

end Machine

theorem Heap.Valid.hasEnv_findMethod? {E : Heap} (h : E.Valid) {c : Class} (hc : E.HasClass c) {x : String}
    {m : Closure} (hm : c.findMethod? x = some m) : E.HasEnv m.env := by
  obtain ⟨d, hd, hx⟩ := Class.exists_of_findMethod? hm
  exact h.methods _ d x m ((h.lineage hc).2 d hd).1 hx

namespace Machine

variable {G : Layout} {i : Interpreter} {k : Stack}

theorem construct_grows (hi : i.In G) (hk : k.In (i.heap G)) {c : Class}
    (hc : (i.heap G).HasClass c) {vs : List Value} (hvs : ∀ v ∈ vs, (i.heap G).HasValue v) :
    Grows (i.heap G) (construct i k c vs) := by
  have hle := (i.heap G).le_addObject c
  have hvalid := hi.valid.addObject hc
  unfold construct
  cases hinit : c.initializer? with
  | none =>
    exact ⟨G, hle, ⟨hvalid, hi.env.mono hle, hi.hosts⟩, trivial, hk.mono hle⟩
  | some m =>
    let o := i.store.nextObject
    have hm := (hi.valid.hasEnv_findMethod? hc hinit).mono hle
    have hle' := hle.trans (Heap.le_addScope _ m.env (thisScope o))
    let j : Interpreter := { i with store := (i.store.addObject c).addScope (thisScope o) }
    have hj : j.In (((i.heap G).addObject c).addScope m.env (thisScope o)).toLayout :=
      ⟨hvalid.addScope hm (thisScope_in o), hi.env.mono hle', hi.hosts⟩
    refine Grows.of_le hle' (enterClosure_grows hj ?_ ?_ fun v hv ↦ (hvs v hv).mono hle')
    · exact (hk.mono hle').cons trivial
    · exact Heap.Valid.hasEnv_enclose m.env (thisScope o)

theorem host_uses (hi : ∀ f ∈ i.hosts, f.Honest) (f : Native) (vs : List Value) : (i.host f vs).Uses vs := by
  unfold Interpreter.host
  rw [Array.getD_eq_getD_getElem?]
  cases hf : i.hosts[f.id]? with
  | none => exact .done (.inl trivial)
  | some g => exact hi g (Array.mem_of_getElem? hf) vs

theorem invoke_grows (hi : i.In G) (hk : k.In (i.heap G)) {c : Callable}
    (hc : (i.heap G).HasValue (.callable c)) {vs : List Value} (hvs : ∀ v ∈ vs, (i.heap G).HasValue v)
    (line : Nat) : Grows (i.heap G) (invoke i k c vs line) := by
  have hdeeper : Interpreter.In G { i with depth := i.depth + 1 } := ⟨hi.valid, hi.env, hi.hosts⟩
  have hk' : Stack.In (i.heap G) (.leave :: k) := hk.cons trivial
  cases c with
  | native f => exact ⟨G, .refl _, hi, ⟨vs, hvs, host_uses hi.hosts f vs⟩, hk⟩
  | function id c =>
    rw [invoke]
    split
    · exact fault_grows hi hk _
    · exact enterClosure_grows hdeeper hk' hc hvs
  | cls c =>
    rw [invoke]
    split
    · exact fault_grows hi hk _
    · exact construct_grows hdeeper hk' hc hvs

theorem apply_grows (hi : i.In G) (hk : k.In (i.heap G)) {f : Value}
    (hf : (i.heap G).HasValue f) {vs : List Value} (hvs : ∀ v ∈ vs, (i.heap G).HasValue v) (paren : Token) :
    Grows (i.heap G) (apply i k f vs paren) := by
  unfold apply
  split
  · split
    · exact invoke_grows hi hk hf hvs _
    · exact fault_grows hi hk _
  · exact fault_grows hi hk _

theorem property_grows (hi : i.In G) (hk : k.In (i.heap G)) (o : ObjectId) (name : Token) :
    Grows (i.heap G) (property i k o name) := by
  unfold property
  split
  · exact fault_grows hi hk _
  · next ob ho =>
    split
    · next v hv => exact value_grows hi hk (hi.valid.values.fields o ob ho _ v hv)
    · split
      · next m hm =>
        exact bindMethod_grows hi hk (hi.valid.hasEnv_findMethod? (hi.valid.values.classes o ob ho) hm) o
      · exact fault_grows hi hk _

theorem hasValue_getAt? (hi : i.In G) {env : Env} {d : Nat} {x : String} {v : Value}
    (h : i.store.getAt? env d x = some v) : (i.heap G).HasValue v := by
  obtain ⟨id, hv⟩ := Store.read?_of_getAt? h
  exact hi.valid.values.scopes id x v hv

theorem hasValue_lookup (hi : i.In G) {ref : Ref} {v : Value} (h : i.lookup ref = .ok v) :
    (i.heap G).HasValue v := by
  obtain ⟨id, hv⟩ := Interpreter.read?_of_lookup h
  exact hi.valid.values.scopes id _ v hv

theorem superMethod_grows (hi : i.In G) (hk : k.In (i.heap G)) (ref : Ref) (name : Token) :
    Grows (i.heap G) (superMethod i k ref name) := by
  unfold superMethod
  split
  · exact fault_grows hi hk _
  split
  · exact fault_grows hi hk _
  · next c hc =>
    have hc : (i.heap G).HasClass c := hasValue_getAt? hi hc
    split
    · exact fault_grows hi hk _
    · split
      · next m hm => exact bindMethod_grows hi hk (hi.valid.hasEnv_findMethod? hc hm) _
      · exact fault_grows hi hk _
    · exact fault_grows hi hk _
  · exact fault_grows hi hk _

theorem defineClass_grows (hi : i.In G) (hk : k.In (i.heap G)) (name : Token)
    {superclass : Option Class} (hs : ∀ c, superclass = some c → (i.heap G).HasClass c)
    (ds : List FunctionDecl) {env : Env} (henv : (i.heap G).HasEnv env) :
    Grows (i.heap G) (defineClass i k name superclass ds env) := by
  let c := Class.mk i.store.nextIdentity name.lexeme superclass (methodTable ds env)
  have hm (x : String) (m : Closure) (hx : (methodTable ds env).find? x = some m) :
      (i.heap G).HasEnv m.env := by
    obtain ⟨d, -, rfl⟩ := find?_methodTable hx
    exact henv
  let E := (i.heap G).addClass c
  have hclass : E.HasValue (.callable (.cls c)) := Heap.Valid.hasClass_addClass rfl
  have hle : (i.heap G).Le (E.define i.env.inner name.lexeme (.callable (.cls c))) :=
    (hi.valid.le_addClass c).trans (E.le_define ..)
  have hvalid := (hi.valid.addClass hs hm fun _ _ ↦ isInitializer_of_methodTable).define i.env.inner name.lexeme hclass
  exact ⟨E.toLayout, hle, ⟨hvalid, hi.env.mono hle, hi.hosts⟩, trivial, hk.mono hle⟩

theorem superScope_in {E : Heap} {c : Class} (hc : E.HasClass c) (x : String) (v : Value)
    (h : (superScope c).find? x = some v) : E.HasValue v := by
  rw [find?_superScope h]
  exact hc

theorem declareClass_grows (hi : i.In G) (hk : k.In (i.heap G)) (name : Token)
    (o : Option Ref) (ds : List FunctionDecl) : Grows (i.heap G) (declareClass i k name o ds) := by
  cases o with
  | none =>
    have hnone : ∀ c, none = some c → (i.heap G).HasClass c := nofun
    exact defineClass_grows hi hk name hnone ds hi.env
  | some ref =>
    rw [declareClass]
    split
    · exact fault_grows hi hk _
    · next c hl =>
      have hc : (i.heap G).HasClass c := hasValue_lookup hi hl
      have hle := (i.heap G).le_addScope i.env (superScope c)
      let j : Interpreter := { i with store := i.store.addScope (superScope c) }
      have hj : j.In ((i.heap G).addScope i.env (superScope c)).toLayout :=
        ⟨hi.valid.addScope hi.env (superScope_in hc), hi.env.mono hle, hi.hosts⟩
      refine Grows.of_le hle (defineClass_grows hj (hk.mono hle) name ?_ ds ?_)
      · rintro _ ⟨⟩
        exact hc.mono hle
      · exact Heap.Valid.hasEnv_enclose i.env (superScope c)
    · exact fault_grows hi hk _

theorem eval_grows (hi : i.In G) (hk : k.In (i.heap G)) (e : Expr) :
    Grows (i.heap G) (eval i k e) := by
  have hlookup (ref : Ref) : Grows (i.heap G) (eval i k (.var ref)) := by
    rw [eval]
    split
    · next hl => exact value_grows hi hk (hasValue_lookup hi hl)
    · exact fault_grows hi hk _
  cases e with
  | literal value line => cases value <;> exact value_grows hi hk trivial
  | var ref => exact hlookup ref
  | this ref => exact hlookup ref
  | super ref method => exact superMethod_grows hi hk ref method
  | grouping inner => exact ⟨G, .refl _, hi, trivial, hk⟩
  | _ => exact eval_push_grows hi hk _ trivial

theorem define_grows (hi : i.In G) (hk : k.In (i.heap G)) (x : String) {v : Value}
    (hv : (i.heap G).HasValue v) : Grows (i.heap G) ⟨.done .normal, k, i.define x v⟩ := by
  have hle := (i.heap G).le_define i.env.inner x v
  exact ⟨G, hle, ⟨hi.valid.define _ x hv, hi.env.mono hle, hi.hosts⟩, trivial, hk.mono hle⟩

theorem exec_grows (hi : i.In G) (hk : k.In (i.heap G)) (s : Stmt) :
    Grows (i.heap G) (exec i k s) := by
  cases s with
  | var name initial =>
    cases initial with
    | none => exact define_grows hi hk name.lexeme trivial
    | some e => exact eval_push_grows hi hk e trivial
  | block body => exact enterBlock_grows hi hk hi.env (b := .empty) nofun body
  | function decl =>
    have hle := (i.heap G).le_freshIdentity
    have hj : Interpreter.In G { i with store := i.store.freshIdentity } :=
      ⟨hi.valid.freshIdentity, hi.env.mono hle, hi.hosts⟩
    exact Grows.of_le hle (define_grows hj (hk.mono hle) decl.name.lexeme hj.env)
  | ret keyword value =>
    cases value with
    | none => exact ⟨G, .refl _, hi, trivial, hk⟩
    | some e => exact eval_push_grows hi hk e trivial
  | classDecl name superclass methods => exact declareClass_grows hi hk name superclass methods
  | _ => exact eval_push_grows hi hk _ trivial

theorem isData_in {E : Heap} {v : Value} (h : v.IsData) : E.HasValue v := by
  cases v with
  | callable c =>
    cases c with
    | native => trivial
    | _ => exact h.elim
  | _ => trivial

theorem ofExcept_grows (hi : i.In G) (hk : k.In (i.heap G)) (line : Nat) {r : Except FaultCause Value}
    (hr : ∀ v, r = .ok v → (i.heap G).HasValue v) : Grows (i.heap G) (ofExcept i k line r) := by
  cases r with
  | ok v => exact value_grows hi hk (hr v rfl)
  | error cause => exact fault_grows hi hk _

theorem resume_grows (hi : i.In G) {v : Value} (hv : (i.heap G).HasValue v) {frame : Frame}
    (hf : frame.In (i.heap G)) (hk : k.In (i.heap G)) {m : Machine} (h : resume i k v frame = some m) :
    m.Grows (i.heap G) := by
  have htold {known : List Value} (h : ∀ u ∈ known, (i.heap G).HasValue u) :
      ∀ u ∈ v :: known, (i.heap G).HasValue u := List.forall_mem_cons.2 ⟨hv, h⟩
  cases resumed h with
  | unary => exact ofExcept_grows hi hk _ fun _ h ↦ isData_in (Value.isData_of_unary h)
  | binaryRight => exact ofExcept_grows hi hk _ fun _ h ↦ isData_in (Value.isData_of_binary h)
  | binaryLeft op right => exact eval_push_grows hi hk right hv
  | decided => exact value_grows hi hk hv
  | assign ref id =>
    have hle := (i.heap G).le_define id ref.name.lexeme v
    exact ⟨G, hle, ⟨hi.valid.define id _ hv, hi.env.mono hle, hi.hosts⟩, hv.mono hle, hk.mono hle⟩
  | callee paren => exact apply_grows hi hk hv (List.forall_mem_nil _) paren
  | firstArgument e => exact eval_push_grows hi hk e ⟨hv, List.forall_mem_nil _⟩
  | lastArgument f known paren =>
    exact apply_grows hi hk hf.1 (fun u hu ↦ htold hf.2 u (List.mem_reverse.1 hu)) paren
  | nextArgument f known e => exact eval_push_grows hi hk e ⟨hf.1, htold hf.2⟩
  | get o name => exact property_grows hi hk o name
  | setObject o name value => exact eval_push_grows hi hk value trivial
  | setValue o name =>
    have hle := (i.heap G).le_setField o name.lexeme v
    exact ⟨G, hle, ⟨hi.valid.setField o _ hv, hi.env.mono hle, hi.hosts⟩, hv.mono hle, hk.mono hle⟩
  | unassignable | noProperties | noFields | notWritten => exact fault_grows hi hk _
  | discard | neither | ended => exact normal_grows hi hk
  | print => exact ⟨G, .refl _, ⟨hi.valid, hi.env, hi.hosts⟩, trivial, hk⟩
  | define name => exact define_grows hi hk name.lexeme hv
  | undecided | yes | no => exact ⟨G, .refl _, hi, trivial, hk⟩
  | again => exact ⟨G, .refl _, hi, trivial, hk.cons trivial⟩
  | ret => exact ⟨G, .refl _, hi, hv, hk⟩
  | construct => exact value_grows hi hk trivial
  | leave => exact ⟨G, .refl _, ⟨hi.valid, hi.env, hi.hosts⟩, hv, hk⟩
  | host =>
    obtain ⟨given, hgiven, hok, -⟩ := hf
    exact ⟨G, .refl _, hi, ⟨v :: given, htold hgiven, hok v⟩, hk⟩

theorem finish_grows (hi : i.In G) {flow : Flow} (hv : (i.heap G).HasValue flow.value) {frame : Frame}
    (hf : frame.In (i.heap G)) (hk : k.In (i.heap G)) {m : Machine} (h : finish i k flow frame = some m) :
    m.Grows (i.heap G) := by
  cases finished h with
  | again test => exact eval_push_grows hi hk test trivial
  | returned => exact ⟨G, .refl _, hi, hv, hk⟩
  | next => exact ⟨G, .refl _, hi, trivial, hk.cons hf⟩
  | block => exact ⟨G, .refl _, ⟨hi.valid, hf, hi.hosts⟩, hv, hk⟩
  | nextOuter => exact ⟨G, .refl _, hi, trivial, hk.cons trivial⟩
  | program => exact normal_grows hi hk
  | initialized _ _ hthis => exact value_grows hi hk (hasValue_getAt? hi hthis)
  | noThis => exact fault_grows hi hk _
  | result => exact value_grows hi hk hv

theorem unwind_grows (hi : i.In G) {frame : Frame} (hf : frame.In (i.heap G)) (hk : k.In (i.heap G))
    (f : Fault) : Grows (i.heap G) (unwind i k f frame) := by
  cases frame with
  | block rest saved => exact ⟨G, .refl _, ⟨hi.valid, hf, hi.hosts⟩, trivial, hk⟩
  | leave => exact ⟨G, .refl _, ⟨hi.valid, hi.env, hi.hosts⟩, trivial, hk⟩
  | host line next =>
    obtain ⟨given, hgiven, -, herror⟩ := hf
    exact ⟨G, .refl _, hi, ⟨given, hgiven, herror f⟩, hk⟩
  | _ => exact fault_grows hi hk f

/-- What a host function has been given is in the layout, and so is all that it can hand on. -/
theorem act_grows (hi : i.In G) (hk : k.In (i.heap G)) {given : List Value}
    (hgiven : ∀ v ∈ given, (i.heap G).HasValue v) {action : Action} (ha : action.Uses given) (line : Nat) :
    Grows (i.heap G) (act i k line action) := by
  have hvalue {v : Value} (hv : v.IsData ∨ v ∈ given) : (i.heap G).HasValue v := by
    obtain hv | hv := hv
    · exact isData_in hv
    · exact hgiven v hv
  cases ha with
  | done hv => exact value_grows hi hk (hvalue hv)
  | fail text => exact fault_grows hi hk _
  | time h => exact ⟨G, .refl _, ⟨hi.valid, hi.env, hi.hosts⟩, ⟨given, hgiven, h _⟩, hk⟩
  | @call _ c vs callLine next hc hvs hok herror =>
    have hk' : Stack.In (i.heap G) (.host line next :: k) := hk.cons ⟨given, hgiven, hok, herror⟩
    exact invoke_grows hi hk' (hvalue hc) (fun v hv ↦ hvalue (hvs v hv)) callLine

theorem step_grows {m m' : Machine} (hm : m.In G) (h : m.step = some m') : m'.Grows (m.state.heap G) := by
  obtain ⟨control, k, i⟩ := m
  obtain ⟨hi, hc, hk⟩ := hm
  cases stepped h with
  | eval _ e => exact eval_grows hi hk e
  | exec _ s => exact exec_grows hi hk s
  | value h =>
    obtain ⟨hf, hk⟩ := List.forall_mem_cons.1 hk
    exact resume_grows hi hc hf hk h
  | done h =>
    obtain ⟨hf, hk⟩ := List.forall_mem_cons.1 hk
    exact finish_grows hi hc hf hk h
  | fault _ f =>
    obtain ⟨hf, hk⟩ := List.forall_mem_cons.1 hk
    exact unwind_grows hi hf hk f
  | act _ line =>
    obtain ⟨given, hgiven, ha⟩ := hc
    exact act_grows hi hk hgiven ha line

end Machine

end Lox
