import Lox.Proofs.Machine.Origin
import Lox.Proofs.Machine.Scoped
import Lox.Proofs.Machine.Transition

namespace Lox

open Scope

section

variable {W : World}

theorem Class.Fits.findMethod? {c : Class} (h : c.Fits W) {x : String} {m : Closure}
    (hm : c.findMethod? x = some m) : m.FitsMethod W := by
  induction h with
  | @mk _ _ superclass methods hms hs ih =>
    cases superclass with
    | none => exact hms x m hm
    | some c =>
      rw [Class.findMethod?] at hm
      split at hm
      · next hx => exact hms x m (hx.trans hm)
      · exact ih c rfl hm

end

namespace Machine

def parameterNames (ts : List Token) : Names :=
  ts.foldl (fun s t ↦ s.insert t.lexeme true) .empty

theorem foldl_bindIn (ts : List Token) (s : Names) (S : List Names) :
    ts.foldl (fun S t ↦ bindIn t.lexeme S) (s :: S) =
      ts.foldl (fun s t ↦ s.insert t.lexeme true) s :: S := by
  induction ts generalizing s with
  | nil => rfl
  | cons t ts ih => exact ih _

theorem foldl_parameters_bound {ts : List Token} {vs : List Value} (hlen : vs.length = ts.length)
    {s : Names} {b : Bindings Value} (hs : ∀ x, s.find? x = some true → (b.find? x).isSome) {x : String}
    (hx : (ts.foldl (fun s t ↦ s.insert t.lexeme true) s).find? x = some true) :
    (((ts.zip vs).foldl (fun b (p, v) ↦ b.insert p.lexeme v) b).find? x).isSome := by
  induction ts generalizing vs s b with
  | nil => exact hs x hx
  | cons t ts ih =>
    cases vs with
    | nil => cases hlen
    | cons v vs =>
      refine ih (Nat.succ.inj hlen) (fun y hy ↦ ?_) hx
      rw [Bindings.find?_insert] at hy ⊢
      split at hy
      · next heq => rw [if_pos heq]; rfl
      · next hne => rw [if_neg hne]; exact hs y hy

theorem parameterScope_bound {ts : List Token} {vs : List Value} (hlen : vs.length = ts.length)
    {x : String} (hx : (parameterNames ts).find? x = some true) :
    ((parameterScope ts vs).find? x).isSome := foldl_parameters_bound hlen (s := .empty) nofun hx

section

variable {H : List Accepted} {i : Interpreter} {k : Stack} {S : List Names}

theorem value_fits (hi : i.Fits H) {v : Value} (hv : v.Fits (i.world H))
    (hk : (i.world H).Ready i.env S k) : Fits H ⟨.value v, k, i⟩ := ⟨hi, hv, S, hk⟩

theorem normal_fits (hi : i.Fits H) (hk : (i.world H).Ready i.env S k) :
    Fits H ⟨.done .normal, k, i⟩ := ⟨hi, trivial, S, hk⟩

theorem fault_fits (hi : i.Fits H) (hk : (i.world H).Ready i.env S k) (f : Fault) :
    Fits H ⟨.fault f, k, i⟩ := ⟨hi, i.env, S, hk.2⟩

theorem eval_fits_of_at (hi : i.Fits H) {e : Expr} (he : (i.world H).At (.expr e) S)
    (hk : (i.world H).Ready i.env S k) : Fits H ⟨.eval e, k, i⟩ := ⟨hi, S, he, hk⟩

theorem Ready.keep {W : World} {env : Env} {frame : Frame} (hk : W.Ready env S k)
    (hf : frame.Fits W S) : W.Ready env S (frame :: k) := ⟨hk.1, .keep hf hk.2⟩

theorem enterBlock_fits (hi : i.Fits H) (hk : (i.world H).Ready i.env S k) {env : Env} {s : Names}
    {S' : List Names} {b : Bindings Value} {body : List Stmt}
    (hbody : (i.world H).At (.stmts body) (s :: S')) (henv : (i.world H).Agrees env S')
    (hb : ∀ x v, b.find? x = some v → v.Fits (i.world H))
    (hs : ∀ x, s.find? x = some true → (b.find? x).isSome) : Fits H (enterBlock i k env b body) := by
  have hW : (i.world H).Le ((i.world H).addScope b) := World.le_of_store (Store.le_addScope _ b)
  refine ⟨⟨hi.distances, hi.hosts, hi.world.addScope hb⟩, trivial, s :: S', henv.enclose hs, ?_⟩
  exact .block (hbody.mono hW) (hk.1.mono hW) (hk.2.mono hW)

theorem enterClosure_fits (hi : i.Fits H) (hk : (i.world H).Ready i.env S k) {c : Closure}
    (hc : c.Fits (i.world H)) {vs : List Value} (hvs : ∀ v ∈ vs, v.Fits (i.world H))
    (hlen : vs.length = c.arity) : Fits H (enterClosure i k c vs) := by
  obtain ⟨⟨S', hplace, henv⟩, hthis⟩ := hc
  have hbody := hplace.body
  rw [foldl_bindIn] at hbody
  have hk' : (i.world H).Ready i.env S (.result c :: k) := Ready.keep hk hthis
  exact enterBlock_fits hi hk' hbody henv (fun x v hx ↦ hvs v (find?_parameterScope hx))
    fun x hx ↦ parameterScope_bound hlen hx

theorem bound_fits {W : World} {m : Closure} (hm : m.FitsMethod W) (o : ObjectId) :
    (bound m W.store.nextScope).Fits (W.addScope (thisScope o)) := by
  obtain ⟨S, hplace, henv⟩ := hm
  have hW : W.Le (W.addScope (thisScope o)) := World.le_of_store (Store.le_addScope ..)
  have hthis {x : String} (hx : thisNames.find? x = some true) : ((thisScope o).find? x).isSome := by
    unfold thisScope
    rw [thisNames, Bindings.find?_insert] at hx
    rw [Bindings.find?_insert]
    split at hx
    · next heq => rw [if_pos heq]; rfl
    · cases hx
  refine ⟨⟨thisNames :: S, hplace.mono hW, henv.enclose fun x ↦ hthis⟩, fun _ ↦ ?_⟩
  show ((W.store.addScope (thisScope o)).read? W.store.nextScope "this").isSome
  rw [Store.read?_addScope, if_pos rfl]
  rfl

theorem thisScope_fits {W : World} (o : ObjectId) (x : String) (v : Value)
    (h : (thisScope o).find? x = some v) : v.Fits W := by
  rw [find?_thisScope h]
  trivial

theorem bindMethod_fits (hi : i.Fits H) (hk : (i.world H).Ready i.env S k) {m : Closure}
    (hm : m.FitsMethod (i.world H)) (o : ObjectId) : Fits H (bindMethod i k m o) := by
  have hW : (i.world H).Le ((i.world H).addScope (thisScope o)) :=
    World.le_of_store (Store.le_addScope ..)
  have hW' : ((i.world H).addScope (thisScope o)).Le ((i.world H).addScope (thisScope o)).freshIdentity :=
    World.le_of_store (Store.le_freshIdentity _)
  have hworld := (hi.world.addScope (thisScope_fits o)).freshIdentity
  refine ⟨⟨hi.distances, hi.hosts, hworld⟩, (bound_fits hm o).mono hW', S, ?_, ?_⟩
  · exact (hk.1.mono hW).mono hW'
  · exact (hk.2.mono hW).mono hW'

theorem construct_fits (hi : i.Fits H) (hk : (i.world H).Ready i.env S k) {c : Class}
    (hc : c.Fits (i.world H)) {vs : List Value} (hvs : ∀ v ∈ vs, v.Fits (i.world H))
    (hlen : vs.length = c.arity) : Fits H (construct i k c vs) := by
  have hW : (i.world H).Le ((i.world H).addObject c) := World.le_of_store (Store.le_addObject ..)
  have hworld := hi.world.addObject hc
  unfold construct
  cases hinit : c.initializer? with
  | none => exact ⟨⟨hi.distances, hi.hosts, hworld⟩, trivial, S, hk.1.mono hW, hk.2.mono hW⟩
  | some m =>
    let o := i.store.nextObject
    let j : Interpreter := { i with store := (i.store.addObject c).addScope (thisScope o) }
    have hj : j.Fits H := ⟨hi.distances, hi.hosts, hworld.addScope (thisScope_fits o)⟩
    have hW' : ((i.world H).addObject c).Le (j.world H) := World.le_of_store (Store.le_addScope ..)
    have hk' : (j.world H).Ready j.env S (.construct o :: k) :=
      Ready.keep ⟨(hk.1.mono hW).mono hW', (hk.2.mono hW).mono hW'⟩ trivial
    have hlen' : vs.length = m.arity := by
      rw [hlen, Class.arity, hinit]
      rfl
    exact enterClosure_fits hj hk' (bound_fits ((hc.findMethod? hinit).mono hW) o)
      (fun v hv ↦ ((hvs v hv).mono hW).mono hW') hlen'

theorem plain_host (hi : i.Fits H) (f : Native) (vs : List Value) : (i.host f vs).Plain := by
  unfold Interpreter.host
  rw [hi.hosts]
  cases f.id with
  | zero => exact .time .number
  | succ n => exact .nil

theorem invoke_fits (hi : i.Fits H) (hk : (i.world H).Ready i.env S k) {c : Callable}
    (hc : (Value.callable c).Fits (i.world H)) {vs : List Value} (hvs : ∀ v ∈ vs, v.Fits (i.world H))
    (hlen : vs.length = c.arity) (line : Nat) : Fits H (invoke i k c vs line) := by
  have hdeeper : Interpreter.Fits H { i with depth := i.depth + 1 } := ⟨hi.distances, hi.hosts, hi.world⟩
  have hk' : (i.world H).Ready i.env S (.leave :: k) := Ready.keep hk trivial
  cases c with
  | native f => exact ⟨hi, plain_host hi f vs, S, hk⟩
  | function id c =>
    rw [invoke]
    split
    · exact fault_fits hi hk _
    · exact enterClosure_fits hdeeper hk' hc hvs hlen
  | cls c =>
    rw [invoke]
    split
    · exact fault_fits hi hk _
    · exact construct_fits hdeeper hk' hc hvs hlen

theorem apply_fits (hi : i.Fits H) (hk : (i.world H).Ready i.env S k) {f : Value}
    (hf : f.Fits (i.world H)) {vs : List Value} (hvs : ∀ v ∈ vs, v.Fits (i.world H)) (paren : Token) :
    Fits H (apply i k f vs paren) := by
  unfold apply
  split
  · split
    · next hlen => exact invoke_fits hi hk hf hvs hlen _
    · exact fault_fits hi hk _
  · exact fault_fits hi hk _

theorem property_fits (hi : i.Fits H) (hk : (i.world H).Ready i.env S k) (o : ObjectId) (name : Token) :
    Fits H (property i k o name) := by
  unfold property
  split
  · exact fault_fits hi hk _
  · next ob ho =>
    have hob := hi.world.objects o ob ho
    split
    · next v hv => exact value_fits hi (hob.fields _ v hv) hk
    · split
      · next m hm => exact bindMethod_fits hi hk (hob.cls.findMethod? hm) o
      · exact fault_fits hi hk _

theorem getAt?_fits (hi : i.Fits H) {env : Env} {d : Nat} {x : String} {v : Value}
    (h : i.store.getAt? env d x = some v) : v.Fits (i.world H) := by
  obtain ⟨id, hv⟩ := Store.read?_of_getAt? h
  exact hi.world.scopes id x v hv

theorem lookup_fits (hi : i.Fits H) {ref : Ref} {v : Value} (h : i.lookup ref = .ok v) :
    v.Fits (i.world H) := by
  obtain ⟨id, hv⟩ := Interpreter.read?_of_lookup h
  exact hi.world.scopes id _ v hv

theorem superMethod_fits (hi : i.Fits H) (hk : (i.world H).Ready i.env S k) (ref : Ref) (name : Token) :
    Fits H (superMethod i k ref name) := by
  unfold superMethod
  split
  · exact fault_fits hi hk _
  split
  · exact fault_fits hi hk _
  · next c hc =>
    have hc : c.Fits (i.world H) := getAt?_fits hi hc
    split
    · exact fault_fits hi hk _
    · split
      · next m hm => exact bindMethod_fits hi hk (hc.findMethod? hm) _
      · exact fault_fits hi hk _
    · exact fault_fits hi hk _
  · exact fault_fits hi hk _

theorem defineClass_fits (hi : i.Fits H) {name : Token} (ha : (i.world H).Agrees i.env S)
    (hk : Stack.Fits (i.world H) i.env (bindIn name.lexeme S) k) {superclass : Option Class}
    (hs : ∀ c, superclass = some c → c.Fits (i.world H)) {ds : List FunctionDecl} {env : Env}
    (hm : ∀ v, ∀ d ∈ ds, ∃ S', (i.world H).At (.function d) (thisNames :: S') ∧
      ((i.world H).freshIdentity.define i.env.inner name.lexeme v).Agrees env S') :
    Fits H (defineClass i k name superclass ds env) := by
  let c := Class.mk i.store.nextIdentity name.lexeme superclass (methodTable ds env)
  let W := (i.world H).freshIdentity.define i.env.inner name.lexeme (.callable (.cls c))
  have hW : (i.world H).Le W :=
    World.le_of_store ((Store.le_freshIdentity _).trans (Store.le_define ..))
  have hc : c.Fits W := by
    refine .mk (fun x m hx ↦ ?_) fun c hc ↦ (hs c hc).mono hW
    obtain ⟨d, hd, rfl⟩ := find?_methodTable hx
    obtain ⟨S', hplace, henv⟩ := hm (.callable (.cls c)) d hd
    exact ⟨S', hplace.mono hW, henv⟩
  refine ⟨⟨hi.distances, hi.hosts, hi.world.freshIdentity.define hc⟩, trivial, _, ?_, hk.mono hW⟩
  exact ha.freshIdentity.define name.lexeme _

def superNames : Names := Bindings.empty.insert "super" true

theorem superScope_bound (c : Class) {x : String} (hx : superNames.find? x = some true) :
    ((superScope c).find? x).isSome := by
  rw [superNames, Bindings.find?_insert] at hx
  rw [superScope, Bindings.find?_insert]
  split at hx
  · next heq => rw [if_pos heq]; rfl
  · cases hx

theorem superScope_fits {W : World} {c : Class} (hc : c.Fits W) (x : String) (v : Value)
    (h : (superScope c).find? x = some v) : v.Fits W := by
  rw [find?_superScope h]
  exact hc

theorem declareClass_fits (hi : i.Fits H) {name : Token} {o : Option Ref} {ds : List FunctionDecl}
    (hc : (i.world H).At (.stmt (.classDecl name o ds)) S) (ha : (i.world H).Agrees i.env S)
    (hk : Stack.Fits (i.world H) i.env (bindIn name.lexeme S) k) :
    Fits H (declareClass i k name o ds) := by
  cases o with
  | none =>
    refine defineClass_fits hi ha hk ?_ fun v d hd ↦ ?_
    · exact nofun
    · exact ⟨_, hc.methods d hd, ha.freshIdentity.define name.lexeme v⟩
  | some ref =>
    have hfault (f : Fault) : Fits H ⟨.fault f, k, i⟩ := ⟨hi, _, _, hk⟩
    rw [declareClass]
    split
    · exact hfault _
    · next c hl =>
      have hsuper : c.Fits (i.world H) := lookup_fits hi hl
      let j : Interpreter := { i with store := i.store.addScope (superScope c) }
      have hW : (i.world H).Le (j.world H) := World.le_of_store (Store.le_addScope ..)
      have hj : j.Fits H := ⟨hi.distances, hi.hosts, hi.world.addScope (superScope_fits hsuper)⟩
      refine defineClass_fits hj (ha.mono hW) (hk.mono hW) ?_ fun v d hd ↦ ?_
      · rintro _ ⟨⟩
        exact hsuper.mono hW
      · have hsuper := (ha.enclose fun x ↦ superScope_bound c).freshIdentity
        exact ⟨_, (hc.methods d hd).mono hW.programs, hsuper.define_outer name.lexeme v⟩
    · exact hfault _

theorem eval_fits (hi : i.Fits H) {e : Expr} (he : (i.world H).At (.expr e) S)
    (hk : (i.world H).Ready i.env S k) : Fits H (eval i k e) := by
  have hlookup (ref : Ref) : Fits H (eval i k (.var ref)) := by
    rw [eval]
    split
    · next hl => exact value_fits hi (lookup_fits hi hl) hk
    · exact fault_fits hi hk _
  cases e with
  | literal value line => cases value <;> exact value_fits hi trivial hk
  | var ref => exact hlookup ref
  | this ref => exact hlookup ref
  | assign ref value => exact eval_fits_of_at hi he.assign (Ready.keep hk ⟨value, he⟩)
  | unary op operand => exact eval_fits_of_at hi he.unary (Ready.keep hk trivial)
  | binary left op right =>
    exact eval_fits_of_at hi he.binary.1 (Ready.keep hk he.binary.2)
  | logical left op right =>
    exact eval_fits_of_at hi he.logical.1 (Ready.keep hk he.logical.2)
  | grouping inner => exact eval_fits_of_at hi he.grouping hk
  | call callee arguments paren =>
    exact eval_fits_of_at hi he.call.1 (Ready.keep hk he.call.2)
  | get object name => exact eval_fits_of_at hi he.get (Ready.keep hk trivial)
  | set object name value =>
    exact eval_fits_of_at hi he.set.1 (Ready.keep hk he.set.2)
  | super ref method => exact superMethod_fits hi hk ref method

theorem exec_fits (hi : i.Fits H) {s : Stmt} (hs : (i.world H).At (.stmt s) S)
    (ha : (i.world H).Agrees i.env S)
    (hk : Stack.Fits (i.world H) i.env (afterDeclaring s.declared? S) k) : Fits H (exec i k s) := by
  cases s with
  | expr e => exact eval_fits_of_at hi hs.expr (Ready.keep ⟨ha, hk⟩ trivial)
  | print e => exact eval_fits_of_at hi hs.print (Ready.keep ⟨ha, hk⟩ trivial)
  | var name initial =>
    cases initial with
    | none =>
      have hW : (i.world H).Le ((i.world H).define i.env.inner name.lexeme .nil) :=
        World.le_of_store (Store.le_define ..)
      have hworld : ((i.world H).define i.env.inner name.lexeme .nil).Fits := hi.world.define trivial
      exact ⟨⟨hi.distances, hi.hosts, hworld⟩, trivial, _, ha.define name.lexeme .nil, hk.mono hW⟩
    | some e =>
      refine eval_fits_of_at hi hs.initial ⟨ha.declareIn name.lexeme, .define ?_⟩
      rw [bindIn_declareIn]
      exact hk
  | block body => exact enterBlock_fits hi ⟨ha, hk⟩ hs.block ha nofun nofun
  | cond test yes no =>
    refine eval_fits_of_at hi hs.condTest (Ready.keep ⟨ha, hk⟩ ⟨⟨hs.condYes, ?_⟩, ?_⟩)
    · have hp : (Stmt.cond test yes no).All proper := hs.all
      cases no with
      | none => exact hp.1
      | some no => exact hp.1.1
    · rintro no rfl
      have hp : (Stmt.cond test yes (some no)).All proper := hs.all
      exact ⟨hs.condNo, hp.1.2⟩
  | loop test body => exact eval_fits_of_at hi hs.loop.1 (Ready.keep ⟨ha, hk⟩ hs)
  | function decl =>
    let f := Callable.function i.store.nextIdentity ⟨decl, i.env, false⟩
    let W := (i.world H).freshIdentity.define i.env.inner decl.name.lexeme (.callable f)
    have hW : (i.world H).Le W :=
      World.le_of_store ((Store.le_freshIdentity _).trans (Store.le_define ..))
    have henv : W.Agrees i.env (bindIn decl.name.lexeme S) := ha.freshIdentity.define _ _
    have hf : (Value.callable f).Fits W := ⟨⟨_, hs.function.mono hW.programs, henv⟩, nofun⟩
    exact ⟨⟨hi.distances, hi.hosts, hi.world.freshIdentity.define hf⟩, trivial, _, henv, hk.mono hW⟩
  | ret keyword value =>
    cases value with
    | none => exact ⟨hi, trivial, S, ha, hk⟩
    | some e => exact eval_fits_of_at hi hs.ret (Ready.keep ⟨ha, hk⟩ trivial)
  | classDecl name superclass methods => exact declareClass_fits hi hs ha hk

theorem isData_fits {W : World} {v : Value} (h : v.IsData) : v.Fits W := by
  cases v with
  | callable c =>
    cases c with
    | native => trivial
    | _ => exact h.elim
  | _ => trivial

theorem ofExcept_fits (hi : i.Fits H) (hk : (i.world H).Ready i.env S k) (line : Nat)
    {r : Except FaultCause Value} (hr : ∀ v, r = .ok v → v.Fits (i.world H)) :
    Fits H (ofExcept i k line r) := by
  cases r with
  | ok v => exact value_fits hi (hr v rfl) hk
  | error cause => exact fault_fits hi hk _

theorem resume_fits (hi : i.Fits H) {v : Value} (hv : v.Fits (i.world H))
    (ha : (i.world H).Agrees i.env S) {frame : Frame}
    (hs : Stack.Fits (i.world H) i.env S (frame :: k)) {m : Machine}
    (h : resume i k v frame = some m) : Fits H m := by
  cases hs with
  | keep hf hk =>
    have hk : (i.world H).Ready i.env S k := ⟨ha, hk⟩
    have htold {known : List Value} (h : ∀ u ∈ known, u.Fits (i.world H)) :
        ∀ u ∈ v :: known, u.Fits (i.world H) := List.forall_mem_cons.2 ⟨hv, h⟩
    cases resumed h with
    | unary => exact ofExcept_fits hi hk _ fun _ h ↦ isData_fits (Value.isData_of_unary h)
    | binaryRight => exact ofExcept_fits hi hk _ fun _ h ↦ isData_fits (Value.isData_of_binary h)
    | binaryLeft => exact eval_fits_of_at hi hf (Ready.keep hk hv)
    | decided => exact value_fits hi hv hk
    | undecided => exact eval_fits_of_at hi hf hk
    | assign ref id =>
      have hW : (i.world H).Le ((i.world H).define id ref.name.lexeme v) :=
        World.le_of_store (Store.le_define ..)
      have hworld : ((i.world H).define id ref.name.lexeme v).Fits := hi.world.define (hv.mono hW)
      exact ⟨⟨hi.distances, hi.hosts, hworld⟩, hv.mono hW, S, ha.mono hW, hk.2.mono hW⟩
    | callee paren => exact apply_fits hi hk hv (by simp) paren
    | firstArgument => exact eval_fits_of_at hi hf.exprs.1 (Ready.keep hk ⟨hv, by simp, hf.exprs.2⟩)
    | lastArgument f known paren =>
      exact apply_fits hi hk hf.1 (fun u hu ↦ htold hf.2.1 u (List.mem_reverse.1 hu)) paren
    | nextArgument =>
      obtain ⟨hf, hknown, hrest⟩ := hf
      exact eval_fits_of_at hi hrest.exprs.1 (Ready.keep hk ⟨hf, htold hknown, hrest.exprs.2⟩)
    | get o name => exact property_fits hi hk o name
    | setObject => exact eval_fits_of_at hi hf (Ready.keep hk trivial)
    | setValue o name =>
      have hW : (i.world H).Le ((i.world H).setField o name.lexeme v) :=
        World.le_of_store (Store.le_setField ..)
      exact ⟨⟨hi.distances, hi.hosts, hi.world.setField hv⟩, hv.mono hW, S, ha.mono hW, hk.2.mono hW⟩
    | unassignable | noProperties | noFields | notWritten => exact fault_fits hi hk _
    | discard | neither | ended => exact normal_fits hi hk
    | print => exact ⟨⟨hi.distances, hi.hosts, hi.world⟩, trivial, S, hk⟩
    | yes =>
      obtain ⟨⟨hyes, hd⟩, -⟩ := hf
      exact ⟨hi, S, hyes, ha, hd ▸ hk.2⟩
    | no yes no =>
      obtain ⟨hno, hd⟩ := hf.2 no rfl
      exact ⟨hi, S, hno, ha, hd ▸ hk.2⟩
    | again test body =>
      have hp : (Stmt.loop test body).All proper := hf.all
      have hd : body.declared? = none := hp.1
      exact ⟨hi, S, hf.loop.2, ha, hd ▸ .keep hf hk.2⟩
    | ret => exact ⟨hi, hv, S, hk⟩
    | construct => exact value_fits hi trivial hk
    | leave => exact ⟨⟨hi.distances, hi.hosts, hi.world⟩, hv, S, hk⟩
    | define | host => exact hf.elim
  | @define _ _ name _ hk =>
    cases h
    have hW : (i.world H).Le ((i.world H).define i.env.inner name.lexeme v) :=
      World.le_of_store (Store.le_define ..)
    have hworld : ((i.world H).define i.env.inner name.lexeme v).Fits := hi.world.define (hv.mono hW)
    exact ⟨⟨hi.distances, hi.hosts, hworld⟩, trivial, _, ha.define name.lexeme v, hk.mono hW⟩
  | block => cases h
  | program => cases h

theorem finish_fits (hi : i.Fits H) {flow : Flow} (hv : flow.value.Fits (i.world H))
    (ha : (i.world H).Agrees i.env S) {frame : Frame}
    (hs : Stack.Fits (i.world H) i.env S (frame :: k)) {m : Machine}
    (h : finish i k flow frame = some m) : Fits H m := by
  cases hs with
  | keep hf hk =>
    have hk : (i.world H).Ready i.env S k := ⟨ha, hk⟩
    cases finished h with
    | again => exact eval_fits_of_at hi hf.loop.1 (Ready.keep hk hf)
    | returned => exact ⟨hi, hv, S, hk⟩
    | initialized _ _ hthis => exact value_fits hi (getAt?_fits hi hthis) hk
    | noThis => exact fault_fits hi hk _
    | result => exact value_fits hi hv hk
    | next | block | nextOuter | program => exact hf.elim
  | define => cases h
  | block hr hsaved hk =>
    cases finished h with
    | next => exact ⟨hi, S, hr.stmts.1, ha, .block hr.stmts.2 hsaved hk⟩
    | block => exact ⟨⟨hi.distances, hi.hosts, hi.world⟩, hv, _, hsaved, hk⟩
  | program hr hk =>
    cases finished h with
    | program => exact normal_fits hi ⟨ha, hk⟩
    | nextOuter _ s =>
      have hglobal : afterDeclaring s.declared? [] = [] := by cases s.declared? <;> rfl
      have hrest := hr.stmts.2
      refine ⟨hi, [], hr.stmts.1, ha, ?_⟩
      rw [hglobal] at hrest ⊢
      exact .program hrest hk

theorem unwind_fits (hi : i.Fits H) {env : Env} {frame : Frame}
    (hs : Stack.Fits (i.world H) env S (frame :: k)) (f : Fault) : Fits H (unwind i k f frame) := by
  cases hs with
  | keep hf hk =>
    cases frame with
    | leave => exact ⟨⟨hi.distances, hi.hosts, hi.world⟩, env, S, hk⟩
    | define | block | program | host => exact hf.elim
    | _ => exact ⟨hi, env, S, hk⟩
  | define hk => exact ⟨hi, env, _, hk⟩
  | block _ _ hk => exact ⟨⟨hi.distances, hi.hosts, hi.world⟩, _, _, hk⟩
  | program _ hk => exact ⟨hi, env, [], hk⟩

theorem act_fits (hi : i.Fits H) {action : Action} (hp : action.Plain)
    (hk : (i.world H).Ready i.env S k) (line : Nat) : Fits H (act i k line action) := by
  cases hp with
  | number x => exact value_fits hi trivial hk
  | nil => exact value_fits hi trivial hk
  | time h => exact ⟨⟨hi.distances, hi.hosts, hi.world⟩, h _, S, hk⟩

/-- The environment keeps agreeing with the scopes of the code that runs. -/
theorem step_fits {m m' : Machine} (hm : m.Fits H) (h : m.step = some m') : m'.Fits H := by
  obtain ⟨control, k, i⟩ := m
  obtain ⟨hi, hc⟩ := hm
  cases stepped h with
  | eval =>
    obtain ⟨S, he, hk⟩ := hc
    exact eval_fits hi he hk
  | exec =>
    obtain ⟨S, hs, ha, hk⟩ := hc
    exact exec_fits hi hs ha hk
  | value h =>
    obtain ⟨hv, S, ha, hk⟩ := hc
    exact resume_fits hi hv ha hk h
  | done h =>
    obtain ⟨hv, S, ha, hk⟩ := hc
    exact finish_fits hi hv ha hk h
  | fault _ f =>
    obtain ⟨env, S, hk⟩ := hc
    exact unwind_fits hi hk f
  | act _ line =>
    obtain ⟨hp, S, hk⟩ := hc
    exact act_fits hi hp hk line

end

end Machine

end Lox
