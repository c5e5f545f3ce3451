import Lox.Interpreter
import Lox.Proofs.Scope.Place
import Lox.Proofs.Store

namespace Lox

open Scope

/-- A chain of scopes agrees with the scopes of a walk: it has one scope for each of them, in which the
names that may be read are bound, and ends in the globals. -/
inductive Agrees (σ : Store) (g : ScopeId) : List ScopeId → List Names → Prop
  | globals : Agrees σ g [g] []
  | scope {id : ScopeId} {ids : List ScopeId} {s : Names} {S : List Names} (hid : id < σ.scopes.size)
      (hs : ∀ x, s.find? x = some true → (σ.read? id x).isSome) (h : Agrees σ g ids S) :
      Agrees σ g (id :: ids) (s :: S)

namespace Agrees

variable {σ σ' : Store} {g : ScopeId} {ids : List ScopeId} {env : Env} {s : Names} {S : List Names}

theorem mono (h : Agrees σ g ids S) (hσ : σ.Le σ') : Agrees σ' g ids S := by
  induction h with
  | globals => exact .globals
  | scope hid hs _ ih =>
    exact .scope (Nat.lt_of_lt_of_le hid hσ.size) (fun x hx ↦ hσ.bound _ x (hs x hx)) ih

theorem length_eq (h : Agrees σ g ids S) : ids.length = S.length + 1 := by
  induction h with
  | globals => rfl
  | scope _ _ _ ih => simp [ih]

theorem getLast?_eq (h : Agrees σ g ids S) : ids.getLast? = some g := by
  induction h with
  | globals => rfl
  | scope _ _ h ih =>
    cases h <;> simp [List.getLast?_cons_cons, ih]

theorem bound (h : Agrees σ g ids S) {d : Nat} {x : String} (hd : Readable S d x) :
    ∃ id, ids[d]? = some id ∧ (σ.read? id x).isSome := by
  obtain ⟨s, hs, hx⟩ := hd
  induction h generalizing d with
  | globals => cases hs
  | @scope id _ _ _ _ hbound _ ih =>
    cases d with
    | zero =>
      cases hs
      exact ⟨id, rfl, hbound x hx⟩
    | succ d => exact ih hs

theorem declareIn (h : Agrees σ g ids S) (x : String) : Agrees σ g ids (declareIn x S) := by
  cases h with
  | globals => exact .globals
  | scope hid hs h =>
    rw [Scope.declareIn]
    split
    · exact .scope hid hs h
    · refine .scope hid (fun y hy ↦ hs y ?_) h
      rw [Bindings.find?_insert] at hy
      split at hy
      · cases hy
      · exact hy

theorem bindIn (h : Agrees σ g env.chain S) (x : String) (v : Value) :
    Agrees (σ.define env.inner x v) g env.chain (bindIn x S) := by
  obtain ⟨inner, outer⟩ := env
  have hσ := σ.le_define inner x v
  cases h with
  | globals => exact .globals
  | scope hid hs h =>
    refine .scope (Nat.lt_of_lt_of_le hid hσ.size) (fun y hy ↦ ?_) (h.mono hσ)
    rw [Bindings.find?_insert] at hy
    split at hy
    · next heq =>
      rw [Store.read?_define, if_pos ⟨rfl, heq, hid⟩]
      rfl
    · exact hσ.bound _ y (hs y hy)

theorem enclose (h : Agrees σ g env.chain S) {b : Bindings Value}
    (hs : ∀ x, s.find? x = some true → (b.find? x).isSome) :
    Agrees (σ.addScope b) g (env.enclose σ.nextScope).chain (s :: S) := by
  refine .scope ?_ (fun x hx ↦ ?_) (h.mono (σ.le_addScope b))
  · rw [Store.size_addScope]
    exact Nat.lt_succ_self _
  · show ((σ.addScope b).read? σ.nextScope x).isSome
    rw [Store.read?_addScope, if_pos rfl]
    exact hs x hx

end Agrees

/-- What code and values can refer to: accepted programs, and the store with its globals. -/
structure World where
  programs : List Accepted
  store : Store
  globals : ScopeId

namespace World

structure Le (W W' : World) : Prop where
  programs : ∀ a ∈ W.programs, a ∈ W'.programs
  store : W.store.Le W'.store
  globals : W'.globals = W.globals

def At (W : World) (node : Node) (S : List Names) : Prop := Scope.At W.programs node S

def Agrees (W : World) (env : Env) (S : List Names) : Prop :=
  Lox.Agrees W.store W.globals env.chain S

variable {W W' : World}

theorem At.mono {node : Node} {S : List Names} (h : W.At node S) (hW : W.Le W') : W'.At node S :=
  Scope.At.mono h hW.programs

theorem Agrees.mono {env : Env} {S : List Names} (h : W.Agrees env S) (hW : W.Le W') :
    W'.Agrees env S := by
  unfold World.Agrees
  rw [hW.globals]
  exact Lox.Agrees.mono h hW.store

end World

def thisNames : Names := Bindings.empty.insert "this" true

section

variable (W : World)

/-- A function lies at a place of a program with whose scopes its environment agrees. -/
structure Closure.Fits (c : Closure) : Prop where
  place : ∃ S, W.At (.function c.decl) S ∧ W.Agrees c.env S
  this : c.isInitializer = true → (W.store.read? c.env.inner "this").isSome

def Closure.FitsMethod (c : Closure) : Prop :=
  ∃ S, W.At (.function c.decl) (thisNames :: S) ∧ W.Agrees c.env S

inductive Class.Fits : Class → Prop
  | mk {id : Nat} {name : String} {superclass : Option Class} {methods : Bindings Closure}
      (hm : ∀ x m, methods.find? x = some m → m.FitsMethod W)
      (hs : ∀ c, superclass = some c → Class.Fits c) : Class.Fits (.mk id name superclass methods)

def Value.Fits : Value → Prop
  | .callable (.function _ c) => c.Fits W
  | .callable (.cls c) => c.Fits W
  | _ => True

structure Object.Fits (o : Object) : Prop where
  cls : o.cls.Fits W
  fields : ∀ x v, o.fields.find? x = some v → v.Fits W

structure World.Fits : Prop where
  scopes : ∀ id x v, W.store.read? id x = some v → v.Fits W
  objects : ∀ id o, W.store.object? id = some o → o.Fits W

def Frame.Fits (S : List Names) : Frame → Prop
  | .unary _ | .get _ | .setValue _ _ | .discard | .print _ | .ret | .construct _ | .leave => True
  | .binaryLeft _ right | .logical _ right => W.At (.expr right) S
  | .binaryRight left _ => left.Fits W
  | .assign ref => ∃ e, W.At (.expr (.assign ref e)) S
  | .callee arguments _ => W.At (.exprs arguments) S
  | .argument f known rest _ => f.Fits W ∧ (∀ v ∈ known, v.Fits W) ∧ W.At (.exprs rest) S
  | .setObject _ value => W.At (.expr value) S
  | .branch yes no => (W.At (.stmt yes) S ∧ yes.declared? = none) ∧
      ∀ s, no = some s → W.At (.stmt s) S ∧ s.declared? = none
  | .test e s | .body e s => W.At (.stmt (.loop e s)) S
  | .result c => c.isInitializer = true → (W.store.read? c.env.inner "this").isSome
  | .define _ | .block _ _ | .program _ | .host _ _ => False

/-- A stack to which an outcome can be handed in an environment and with scopes that agree with it. -/
inductive Stack.Fits : Env → List Names → Stack → Prop
  | nil {env : Env} (he : env = ⟨W.globals, []⟩) : Stack.Fits env [] []
  | keep {env : Env} {S : List Names} {frame : Frame} {k : Stack} (hf : frame.Fits W S)
      (hk : Stack.Fits env S k) : Stack.Fits env S (frame :: k)
  | define {env : Env} {S : List Names} {name : Token} {k : Stack}
      (hk : Stack.Fits env (bindIn name.lexeme S) k) : Stack.Fits env S (.define name :: k)
  | block {env saved : Env} {S S' : List Names} {rest : List Stmt} {k : Stack}
      (hr : W.At (.stmts rest) S) (hs : W.Agrees saved S') (hk : Stack.Fits saved S' k) :
      Stack.Fits env S (.block rest saved :: k)
  | program {env : Env} {rest : List Stmt} {k : Stack} (hr : W.At (.stmts rest) [])
      (hk : Stack.Fits env [] k) : Stack.Fits env [] (.program rest :: k)

end

section

variable {W W' : World} (hW : W.Le W')
include hW

theorem Closure.Fits.mono {c : Closure} (h : c.Fits W) : c.Fits W' := by
  obtain ⟨⟨S, hp, ha⟩, ht⟩ := h
  exact ⟨⟨S, hp.mono hW, ha.mono hW⟩, fun hi ↦ hW.store.bound _ _ (ht hi)⟩

theorem Closure.FitsMethod.mono {c : Closure} (h : c.FitsMethod W) : c.FitsMethod W' := by
  obtain ⟨S, hp, ha⟩ := h
  exact ⟨S, hp.mono hW, ha.mono hW⟩

theorem Class.Fits.mono {c : Class} (h : c.Fits W) : c.Fits W' := by
  induction h with
  | mk hm _ ih => exact .mk (fun x m hx ↦ (hm x m hx).mono hW) ih

theorem Value.Fits.mono {v : Value} (h : v.Fits W) : v.Fits W' := by
  cases v with
  | callable c =>
    cases c with
    | native f => trivial
    | function id c => exact Closure.Fits.mono hW h
    | cls c => exact Class.Fits.mono hW h
  | _ => trivial

theorem Object.Fits.mono {o : Object} (h : o.Fits W) : o.Fits W' :=
  ⟨h.cls.mono hW, fun x v hx ↦ (h.fields x v hx).mono hW⟩

theorem Frame.Fits.mono {S : List Names} {frame : Frame} (h : frame.Fits W S) : frame.Fits W' S := by
  cases frame with
  | binaryLeft | logical | callee | setObject | test | body => exact World.At.mono h hW
  | binaryRight => exact Value.Fits.mono hW h
  | assign =>
    obtain ⟨e, he⟩ := h
    exact ⟨e, he.mono hW⟩
  | argument =>
    obtain ⟨hf, hk, hr⟩ := h
    exact ⟨hf.mono hW, fun v hv ↦ (hk v hv).mono hW, hr.mono hW⟩
  | branch =>
    obtain ⟨⟨hy, hd⟩, hn⟩ := h
    exact ⟨⟨hy.mono hW, hd⟩, fun s hs ↦ ⟨(hn s hs).1.mono hW, (hn s hs).2⟩⟩
  | result => exact fun hi ↦ hW.store.bound _ _ (h hi)
  | define | block | program | host => exact h.elim
  | _ => trivial

theorem Stack.Fits.mono {env : Env} {S : List Names} {k : Stack} (h : Stack.Fits W env S k) :
    Stack.Fits W' env S k := by
  induction h with
  | nil he => exact .nil (hW.globals ▸ he)
  | keep hf _ ih => exact .keep (hf.mono hW) ih
  | define _ ih => exact .define ih
  | block hr hs _ ih => exact .block (hr.mono hW) (hs.mono hW) ih
  | program hr _ ih => exact .program (hr.mono hW) ih

end

namespace World

variable {W : World}

def addScope (W : World) (b : Bindings Value) : World := { W with store := W.store.addScope b }

def define (W : World) (id : ScopeId) (x : String) (v : Value) : World :=
  { W with store := W.store.define id x v }

def addObject (W : World) (c : Class) : World := { W with store := W.store.addObject c }

def setField (W : World) (o : ObjectId) (f : String) (v : Value) : World :=
  { W with store := W.store.setField o f v }

def freshIdentity (W : World) : World := { W with store := W.store.freshIdentity }

theorem le_of_store {σ : Store} (h : W.store.Le σ) : W.Le { W with store := σ } := ⟨fun _ ↦ id, h, rfl⟩

theorem Agrees.define {env : Env} {S : List Names} (h : W.Agrees env S) (x : String) (v : Value) :
    (W.define env.inner x v).Agrees env (bindIn x S) := Lox.Agrees.bindIn h x v

theorem Agrees.freshIdentity {env : Env} {S : List Names} (h : W.Agrees env S) :
    W.freshIdentity.Agrees env S := h.mono (le_of_store W.store.le_freshIdentity)

theorem Agrees.enclose {env : Env} {s : Names} {S : List Names} (h : W.Agrees env S)
    {b : Bindings Value} (hs : ∀ x, s.find? x = some true → (b.find? x).isSome) :
    (W.addScope b).Agrees (env.enclose W.store.nextScope) (s :: S) := Lox.Agrees.enclose h hs

/-- A name bound just outside the innermost scope. -/
theorem Agrees.define_outer {env : Env} {id : ScopeId} {s : Names} {S : List Names}
    (h : W.Agrees (env.enclose id) (s :: S)) (x : String) (v : Value) :
    (W.define env.inner x v).Agrees (env.enclose id) (s :: bindIn x S) := by
  have hle := W.store.le_define env.inner x v
  cases h with
  | scope hid hs h =>
    exact .scope (Nat.lt_of_lt_of_le hid hle.size) (fun y hy ↦ hle.bound _ y (hs y hy)) (h.bindIn x v)

/-- Another accepted program. -/
theorem Fits.accept (h : W.Fits) (a : Accepted) : World.Fits { W with programs := a :: W.programs } := by
  have hW : W.Le { W with programs := a :: W.programs } := ⟨fun _ ↦ List.mem_cons_of_mem a, .refl _, rfl⟩
  exact ⟨fun id x v hv ↦ (h.scopes id x v hv).mono hW, fun id o ho ↦ (h.objects id o ho).mono hW⟩

theorem Fits.addScope (h : W.Fits) {b : Bindings Value} (hb : ∀ x v, b.find? x = some v → v.Fits W) :
    (W.addScope b).Fits := by
  have hW : W.Le (W.addScope b) := le_of_store (W.store.le_addScope b)
  refine ⟨fun id x v hv ↦ ?_, fun id o ho ↦ (h.objects id o ho).mono hW⟩
  have hv : (W.store.addScope b).read? id x = some v := hv
  rw [Store.read?_addScope] at hv
  split at hv
  · exact (hb x v hv).mono hW
  · exact (h.scopes id x v hv).mono hW

theorem Fits.define (h : W.Fits) {id : ScopeId} {x : String} {v : Value}
    (hv : v.Fits (W.define id x v)) : (W.define id x v).Fits := by
  have hW : W.Le (W.define id x v) := le_of_store (W.store.le_define id x v)
  refine ⟨fun id' y u hu ↦ ?_, fun o ob ho ↦ (h.objects o ob ho).mono hW⟩
  have hu : (W.store.define id x v).read? id' y = some u := hu
  rw [Store.read?_define] at hu
  split at hu
  · cases hu
    exact hv
  · exact (h.scopes id' y u hu).mono hW

theorem Fits.addObject (h : W.Fits) {c : Class} (hc : c.Fits W) : (W.addObject c).Fits := by
  have hW : W.Le (W.addObject c) := le_of_store (W.store.le_addObject c)
  refine ⟨fun id x v hv ↦ (h.scopes id x v hv).mono hW, fun id o ho ↦ ?_⟩
  have ho : (W.store.addObject c).object? id = some o := ho
  rw [Store.object?_addObject] at ho
  split at ho
  · cases ho
    exact ⟨hc.mono hW, nofun⟩
  · exact (h.objects id o ho).mono hW

theorem Fits.setField (h : W.Fits) {id : ObjectId} {f : String} {v : Value} (hv : v.Fits W) :
    (W.setField id f v).Fits := by
  have hW : W.Le (W.setField id f v) := le_of_store (W.store.le_setField id f v)
  refine ⟨fun id x v hv ↦ (h.scopes id x v hv).mono hW, fun o ob ho ↦ ?_⟩
  have ho : (W.store.setField id f v).object? o = some ob := ho
  rw [Store.object?_setField] at ho
  split at ho
  · obtain ⟨ob', hob, rfl⟩ := Option.map_eq_some_iff.1 ho
    obtain ⟨hc, hf⟩ := h.objects o ob' hob
    refine ⟨hc.mono hW, fun x u hu ↦ ?_⟩
    rw [Bindings.find?_insert] at hu
    split at hu
    · cases hu
      exact hv.mono hW
    · exact (hf x u hu).mono hW
  · exact (h.objects o ob ho).mono hW

theorem Fits.freshIdentity (h : W.Fits) : W.freshIdentity.Fits := by
  have hW : W.Le W.freshIdentity := le_of_store W.store.le_freshIdentity
  exact ⟨fun id x v hv ↦ (h.scopes id x v hv).mono hW, fun id o ho ↦ (h.objects id o ho).mono hW⟩

end World

/-- Host functions that do no more than read the clock. -/
inductive Action.Plain : Action → Prop
  | number (x : Float) : Plain (.done (.number x))
  | nil : Plain (.done .nil)
  | time {next : Float → Action} (h : ∀ x, Plain (next x)) : Plain (.time next)

/-- An environment and a stack that fit each other. -/
def World.Ready (W : World) (env : Env) (S : List Names) (k : Stack) : Prop :=
  W.Agrees env S ∧ Stack.Fits W env S k

def Control.Fits (W : World) (env : Env) (k : Stack) : Control → Prop
  | .eval e => ∃ S, W.At (.expr e) S ∧ W.Ready env S k
  | .exec s => ∃ S, W.At (.stmt s) S ∧ W.Agrees env S ∧ Stack.Fits W env (afterDeclaring s.declared? S) k
  | .value v => v.Fits W ∧ ∃ S, W.Ready env S k
  | .done flow => flow.value.Fits W ∧ ∃ S, W.Ready env S k
  | .fault _ => ∃ env S, Stack.Fits W env S k
  | .act _ action => action.Plain ∧ ∃ S, W.Ready env S k

def Interpreter.world (H : List Accepted) (i : Interpreter) : World := ⟨H, i.store, i.globals⟩

structure Interpreter.Fits (H : List Accepted) (i : Interpreter) : Prop where
  distances : Holds H i.distances
  hosts : i.hosts = #[HostFunction.clock]
  world : (i.world H).Fits

structure Machine.Fits (H : List Accepted) (m : Machine) : Prop where
  state : m.state.Fits H
  control : m.control.Fits (m.state.world H) m.state.env m.stack

end Lox
