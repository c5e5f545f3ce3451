import Lox.Proofs.Dispatch.Place

namespace Lox

open Scope

theorem FunctionDecl.own_eq (d : FunctionDecl) : d.own = Stmt.ownOf d.body := by
  cases d
  rfl

theorem Class.mem_lineage_mk {id : Nat} {name : String} {o : Option Class} {methods : Bindings Closure}
    {d : Class} (h : d ∈ (mk id name o methods).lineage) :
    d = mk id name o methods ∨ ∃ s, o = some s ∧ d ∈ s.lineage := by
  cases o with
  | none => exact .inl (List.mem_singleton.1 h)
  | some s => exact (List.mem_cons.1 h).imp_right fun hd ↦ ⟨s, rfl, hd⟩

theorem Class.Sound.of_mem_lineage {σ : Store} {c d : Class} (h : c.Sound σ) (hd : d ∈ c.lineage) :
    d.Sound σ := fun e he ↦ h e (mem_lineage_trans hd he)

theorem valid_enclose {σ : Store} {env : Env} (h : ∀ id ∈ env.chain, id < σ.scopes.size) (b : Bindings Value) :
    ∀ id ∈ (env.enclose σ.nextScope).chain, id < (σ.addScope b).scopes.size := by
  intro id hid
  rw [Store.size_addScope]
  obtain rfl | hid := List.mem_cons.1 hid
  · exact Nat.lt_succ_self _
  · exact Nat.lt_succ_of_lt (h id hid)

namespace Tied

variable {σ : Store} {env : Env} {own own' : List Ref}

theorem subset (h : Tied σ env own) (hs : own' ⊆ own) : Tied σ env own' :=
  ⟨h.valid, h.this, h.super, h.anchored.subset hs⟩

theorem left (h : Tied σ env (own ++ own')) : Tied σ env own := h.subset (List.subset_append_left ..)

theorem right (h : Tied σ env (own ++ own')) : Tied σ env own' := h.subset (List.subset_append_right ..)

theorem enclose (hv : ∀ id ∈ env.chain, id < σ.scopes.size) (ha : Anchored σ env.chain own)
    {b : Bindings Value} (hthis : b.find? "this" = none) (hsuper : b.find? "super" = none) :
    Tied (σ.addScope b) (env.enclose σ.nextScope) own := by
  have hσ := Store.Preserves.addScope σ b
  have hnew (x : String) (hx : b.find? x = none) : (σ.addScope b).read? σ.nextScope x = none := by
    rw [Store.read?_addScope, if_pos rfl, hx]
  have hthis := hnew "this" hthis
  exact ⟨valid_enclose hv b, hthis, hnew "super" hsuper, (ha.mono hσ hv).cons hthis⟩

end Tied

namespace Machine

theorem isData_sound {σ : Store} {v : Value} (h : v.IsData) : v.Sound σ := by
  cases v with
  | callable c =>
    cases c with
    | native => trivial
    | _ => exact h.elim
  | _ => trivial

theorem expected_of_unary {op : Kind} (hop : op ∈ unaryOperators) {v : Value} {c : FaultCause}
    (h : v.unary op = .error c) : c ≠ .invalidUnary ∧ c ≠ .invalidBinary := by
  simp only [unaryOperators, List.mem_cons, List.not_mem_nil, or_false] at hop
  obtain rfl | rfl := hop
  · cases h
  · cases v <;> cases h <;> simp

theorem expected_of_binary {op : Kind} (hop : op ∈ binaryOperators) {left right : Value} {c : FaultCause}
    (h : Value.binary op left right = .error c) : c ≠ .invalidUnary ∧ c ≠ .invalidBinary := by
  unfold Value.binary at h
  split at h
  · cases h
  · cases h
  · unfold Value.plus at h
    split at h <;> cases h
    simp
  · next hne hne' hplus =>
    split at h
    · simp only [binaryOperators, List.mem_cons, List.not_mem_nil, or_false] at hop
      obtain rfl | rfl | rfl | rfl | rfl | rfl | rfl | rfl | rfl | rfl := hop
      · exact absurd rfl hne'
      · exact absurd rfl hne
      · cases h
      · cases h
      · cases h
      · cases h
      · cases h
      · exact absurd rfl hplus
      · cases h
      · cases h
    · cases h
      simp

theorem bound_sound {σ : Store} (hσ : σ.Sound) {o : ObjectId} {ob : Object} (ho : σ.object? o = some ob)
    {d : Class} (hd : d ∈ ob.cls.lineage) {x : String} {m : Closure} (hm : d.methods.find? x = some m) :
    (bound m σ.nextScope).Sound (σ.addScope (thisScope o)) := by
  have hmethod := hσ.classes o ob ho d hd x m hm
  have hthis : (σ.addScope (thisScope o)).read? σ.nextScope "this" = some (.object o) := by
    rw [Store.read?_addScope, if_pos rfl]
    rfl
  have hseat : Seat (σ.addScope (thisScope o)) σ.nextScope d m o := ⟨⟨x, hm⟩, hthis, ob, ho, hd⟩
  exact ⟨valid_enclose hmethod.valid _, .of_seat hseat, fun _ ↦ ⟨d, m, o, hseat, rfl⟩⟩

theorem thisScope_sound {σ : Store} (o : ObjectId) (x : String) (v : Value)
    (h : (thisScope o).find? x = some v) : v.Sound σ := by
  rw [find?_thisScope h]
  trivial

theorem superScope_sound {σ : Store} {c : Class} (hc : c.Sound σ) (x : String) (v : Value)
    (h : (superScope c).find? x = some v) : v.Sound σ := by
  rw [find?_superScope h]
  exact hc

theorem lookup_sound {i : Interpreter} (hσ : i.store.Sound) {ref : Ref} {v : Value}
    (h : i.lookup ref = .ok v) : v.Sound i.store := by
  obtain ⟨id, hv⟩ := Interpreter.read?_of_lookup h
  exact hσ.scopes id _ v hv

theorem expected_of_lookup {i : Interpreter} {ref : Ref} {f : Fault} (h : i.lookup ref = .error f) :
    f.Expected := by
  unfold Interpreter.lookup at h
  split at h <;> cases h
  simp [Fault.Expected, Interpreter.undefined]

section

variable {A : List Accepted} {i : Interpreter} {k : Stack} (hσ : i.store.Sound)
  (hk : Stack.Sound i.store i.env k)
include hσ hk

theorem value_sound {v : Value} (hv : v.Sound i.store) : Sound i.store ⟨.value v, k, i⟩ :=
  ⟨.refl _, hσ, hv, hk⟩

theorem normal_sound : Sound i.store ⟨.done .normal, k, i⟩ := ⟨.refl _, hσ, trivial, hk⟩

theorem fault_sound {f : Fault} (hf : f.Expected) : Sound i.store ⟨.fault f, k, i⟩ :=
  ⟨.refl _, hσ, hf, i.env, hk⟩

theorem eval_sound_of_tied {e : Expr} (he : Tied i.store i.env e.own) {frame : Frame}
    (hf : frame.Sound i.store i.env) : Sound i.store ⟨.eval e, frame :: k, i⟩ :=
  ⟨.refl _, hσ, he, .keep hf hk⟩

theorem enterBlock_sound {env : Env} (hv : ∀ id ∈ env.chain, id < i.store.scopes.size) {body : List Stmt}
    (ha : Anchored i.store env.chain (Stmt.ownOf body)) {b : Bindings Value}
    (hb : ∀ x v, b.find? x = some v → v.Sound i.store) (hthis : b.find? "this" = none)
    (hsuper : b.find? "super" = none) : Sound i.store (enterBlock i k env b body) := by
  have hle := Store.Preserves.addScope i.store b
  refine ⟨hle, (hσ.mono hle).addScope fun x v hx ↦ (hb x v hx).mono hle, trivial, ?_⟩
  exact .block (.enclose hv ha hthis hsuper) (hk.mono hle)

theorem enterClosure_sound {c : Closure} (hc : c.Sound i.store) (hparams : ∀ p ∈ c.decl.params, p.Ordinary)
    {vs : List Value} (hvs : ∀ v ∈ vs, v.Sound i.store) : Sound i.store (enterClosure i k c vs) := by
  have hown := c.decl.own_eq ▸ hc.anchored
  have hk' : Stack.Sound i.store i.env (.result c :: k) := .keep hc hk
  refine enterBlock_sound hσ hk' hc.valid hown (fun x v hx ↦ hvs v (find?_parameterScope hx)) ?_ ?_
  · exact find?_parameterScope_eq_none fun p hp ↦ (hparams p hp).1
  · exact find?_parameterScope_eq_none fun p hp ↦ (hparams p hp).2

theorem bindMethod_sound {o : ObjectId} {ob : Object} (ho : i.store.object? o = some ob) {d : Class}
    (hd : d ∈ ob.cls.lineage) {x : String} {m : Closure} (hm : d.findMethod? x = some m) :
    Sound i.store (bindMethod i k m o) := by
  obtain ⟨d', hd', hm⟩ := Class.exists_of_findMethod? hm
  have hadd := Store.Preserves.addScope i.store (thisScope o)
  have hfresh := Store.Preserves.freshIdentity (i.store.addScope (thisScope o))
  have hle := hadd.trans hfresh
  have hbound := bound_sound hσ ho (Class.mem_lineage_trans hd hd') hm
  refine ⟨hle, ((hσ.mono hle).addScope (thisScope_sound o)).freshIdentity, hbound.mono hfresh, hk.mono hle⟩

theorem construct_sound {c : Class} (hc : c.Sound i.store)
    (hparams : ∀ m, c.initializer? = some m → ∀ p ∈ m.decl.params, p.Ordinary) {vs : List Value}
    (hvs : ∀ v ∈ vs, v.Sound i.store) : Sound i.store (construct i k c vs) := by
  have hadd := Store.Preserves.addObject i.store c
  have hstore : (i.store.addObject c).Sound := (hσ.mono hadd).addObject (hc.mono hadd)
  have hobject : (i.store.addObject c).object? i.store.nextObject = some ⟨c, .empty⟩ := by
    rw [Store.object?_addObject, if_pos rfl]
  unfold construct
  cases hinit : c.initializer? with
  | none => exact ⟨hadd, hstore, trivial, hk.mono hadd⟩
  | some m =>
    let o := i.store.nextObject
    let j : Interpreter := { i with store := (i.store.addObject c).addScope (thisScope o) }
    have hscope : (i.store.addObject c).Preserves j.store := .addScope _ _
    have hle := hadd.trans hscope
    have hj : j.store.Sound := (hstore.mono hscope).addScope (thisScope_sound o)
    obtain ⟨d, hd, hm⟩ := Class.exists_of_findMethod? hinit
    have hbound : (bound m (i.store.addObject c).nextScope).Sound j.store := bound_sound hstore hobject hd hm
    have hk' : Stack.Sound j.store j.env (.construct o :: k) := .keep trivial (hk.mono hle)
    have henter := enterClosure_sound hj hk' hbound (hparams m hinit) fun v hv ↦ (hvs v hv).mono hle
    exact ⟨hle.trans henter.since, henter.store, henter.control⟩

theorem invoke_sound {c : Callable} (hc : (Value.callable c).Sound i.store)
    (hfits : (Value.callable c).Fits (i.world A)) {vs : List Value} (hvs : ∀ v ∈ vs, v.Sound i.store)
    (line : Nat) : Sound i.store (invoke i k c vs line) := by
  have hk' : Stack.Sound i.store i.env (.leave :: k) := .keep trivial hk
  have hoverflow : Fault.Expected ⟨.stackOverflow, line⟩ := by simp [Fault.Expected]
  have hordinary {d : FunctionDecl} {S : List Names} (hd : (i.world A).At (.function d) S) :
      ∀ p ∈ d.params, p.Ordinary := by
    have hall : d.All proper := hd.all
    cases d
    exact hall.1
  cases c with
  | native f => exact ⟨.refl _, hσ, hk⟩
  | function id c =>
    obtain ⟨⟨S, hplace, -⟩, -⟩ := hfits
    rw [invoke]
    split
    · exact fault_sound hσ hk hoverflow
    · exact enterClosure_sound (i := { i with depth := i.depth + 1 }) hσ hk' hc (hordinary hplace) hvs
  | cls c =>
    rw [invoke]
    split
    · exact fault_sound hσ hk hoverflow
    · refine construct_sound (i := { i with depth := i.depth + 1 }) hσ hk' hc (fun m hm ↦ ?_) hvs
      obtain ⟨S, hplace, -⟩ := Class.Fits.findMethod? hfits hm
      exact hordinary hplace

theorem apply_sound {f : Value} (hf : f.Sound i.store) (hfits : f.Fits (i.world A))
    {vs : List Value} (hvs : ∀ v ∈ vs, v.Sound i.store) (paren : Token) :
    Sound i.store (apply i k f vs paren) := by
  unfold apply
  split
  · split
    · exact invoke_sound hσ hk hf hfits hvs _
    · exact fault_sound hσ hk (by simp [Fault.Expected])
  · exact fault_sound hσ hk (by simp [Fault.Expected])

theorem property_sound (o : ObjectId) (name : Token) : Sound i.store (property i k o name) := by
  unfold property
  split
  · exact fault_sound hσ hk (by simp [Fault.Expected])
  · next ob ho =>
    split
    · next v hv => exact value_sound hσ hk (hσ.fields o ob ho _ v hv)
    · split
      · next m hm => exact bindMethod_sound hσ hk ho (Class.mem_lineage_self _) hm
      · exact fault_sound hσ hk (by simp [Fault.Expected])

theorem superMethod_sound (hA : Separate A) (hi : i.Fits A) {ref : Ref} {name : Token} {S : List Names}
    (ht : Tied i.store i.env [ref]) (ha : (i.world A).Agrees i.env S)
    (hat : At A (.expr (.super ref name)) S) : Sound i.store (superMethod i k ref name) := by
  obtain ⟨d, m, o, c, ⟨-, -, id, -, hseat⟩, hc, heq⟩ := ht.superMethod_eq hA hi ha hσ k hat
  obtain ⟨ob, ho, hd⟩ := hseat.object
  rw [heq]
  split
  · next hm => exact bindMethod_sound hσ hk ho (Class.mem_lineage_of_superclass hd hc) hm
  · exact fault_sound hσ hk (by simp [Fault.Expected])

theorem defineClass_sound {name : Token} (hn : name.Ordinary) {superclass : Option Class}
    (hs : ∀ c, superclass = some c → c.Sound i.store) {ds : List FunctionDecl} {env : Env}
    (hv : ∀ id ∈ env.chain, id < i.store.scopes.size)
    (hsuper : i.store.read? env.inner "super" = superclass.map fun c ↦ .callable (.cls c)) :
    Sound i.store (defineClass i k name superclass ds env) := by
  let c := Class.mk i.store.nextIdentity name.lexeme superclass (methodTable ds env)
  have hle := (Store.Preserves.freshIdentity i.store).trans
    (.define _ i.env.inner hn (.callable (.cls c)))
  have hc : c.Sound i.store := by
    intro d hd x m hm
    obtain rfl | ⟨s, hsome, hd⟩ := Class.mem_lineage_mk hd
    · obtain ⟨_, -, rfl⟩ := find?_methodTable hm
      exact ⟨hv, hsuper⟩
    · exact hs s hsome d hd x m hm
  exact ⟨hle, (hσ.mono hle).freshIdentity.define (hc.mono hle), trivial, hk.mono hle⟩

theorem declareClass_sound {own : List Ref} (ht : Tied i.store i.env own) {name : Token} (hn : name.Ordinary)
    (o : Option Ref) (ds : List FunctionDecl) : Sound i.store (declareClass i k name o ds) := by
  cases o with
  | none =>
    refine defineClass_sound hσ hk hn (fun c hc ↦ ?_) ht.valid ht.super
    cases hc
  | some ref =>
    rw [declareClass]
    split
    · next hl => exact fault_sound hσ hk (expected_of_lookup hl)
    · next c hl =>
      have hsuper : c.Sound i.store := lookup_sound hσ hl
      let j : Interpreter := { i with store := i.store.addScope (superScope c) }
      have hle : i.store.Preserves j.store := .addScope _ _
      have hj : j.store.Sound := (hσ.mono hle).addScope (superScope_sound (hsuper.mono hle))
      have hbinding : j.store.read? i.store.nextScope "super" = some (.callable (.cls c)) := by
        rw [Store.read?_addScope, if_pos rfl]
        rfl
      have hsound : ∀ c', some c = some c' → c'.Sound j.store := by
        intro c' hc'
        cases hc'
        exact hsuper.mono hle
      have hdefine : Sound j.store (defineClass j k name (some c) ds (j.env.enclose i.store.nextScope)) :=
        defineClass_sound hj (hk.mono hle) hn hsound (valid_enclose ht.valid _) hbinding
      exact ⟨hle.trans hdefine.since, hdefine.store, hdefine.control⟩
    · exact fault_sound hσ hk (by simp [Fault.Expected])

theorem eval_sound (hA : Separate A) (hi : i.Fits A) {e : Expr} {S : List Names} (hat : At A (.expr e) S)
    (ha : (i.world A).Agrees i.env S) (ht : Tied i.store i.env e.own) : Sound i.store (eval i k e) := by
  have hlookup (ref : Ref) : Sound i.store (eval i k (.var ref)) := by
    rw [eval]
    split
    · next hl => exact value_sound hσ hk (lookup_sound hσ hl)
    · next hl => exact fault_sound hσ hk (expected_of_lookup hl)
  cases e with
  | literal value line => cases value <;> exact value_sound hσ hk trivial
  | var ref => exact hlookup ref
  | this ref => exact hlookup ref
  | assign ref value =>
    have ht : Tied i.store i.env value.own := ht
    apply eval_sound_of_tied hσ hk ht
    exact hat.all.1
  | unary op operand =>
    have ht : Tied i.store i.env operand.own := ht
    apply eval_sound_of_tied hσ hk ht
    exact hat.all.1
  | binary left op right => exact eval_sound_of_tied hσ hk ht.left ⟨hat.all.1, ht.right⟩
  | logical left op right => exact eval_sound_of_tied hσ hk ht.left ht.right
  | grouping inner => exact ⟨.refl _, hσ, ht, hk⟩
  | call callee arguments paren => exact eval_sound_of_tied hσ hk ht.left ht.right
  | get object name =>
    have ht : Tied i.store i.env object.own := ht
    apply eval_sound_of_tied hσ hk ht
    trivial
  | set object name value => exact eval_sound_of_tied hσ hk ht.left ht.right
  | super ref method => exact superMethod_sound hσ hk hA hi ht ha hat

theorem define_sound {x : Token} (hx : x.Ordinary) {v : Value} (hv : v.Sound i.store) :
    Sound i.store ⟨.done .normal, k, i.define x.lexeme v⟩ := by
  have hle : i.store.Preserves (i.define x.lexeme v).store := .define _ _ hx v
  exact ⟨hle, (hσ.mono hle).define (hv.mono hle), trivial, hk.mono hle⟩

theorem exec_sound {s : Stmt} {S : List Names} (hat : At A (.stmt s) S) (ht : Tied i.store i.env s.own) :
    Sound i.store (exec i k s) := by
  cases s with
  | expr e => exact eval_sound_of_tied hσ hk ht trivial
  | print e => exact eval_sound_of_tied hσ hk ht trivial
  | var name initial =>
    have hname : name.Ordinary := hat.all.1 _ rfl
    cases initial with
    | none => exact define_sound hσ hk hname trivial
    | some e => exact eval_sound_of_tied hσ hk ht hname
  | block body => exact enterBlock_sound hσ hk ht.valid ht.anchored nofun rfl rfl
  | cond test yes no =>
    cases no with
    | none => exact eval_sound_of_tied hσ hk ht.left ⟨ht.right, nofun⟩
    | some no =>
      refine eval_sound_of_tied hσ hk ht.left ⟨ht.right.left, fun s hs ↦ ?_⟩
      cases hs
      exact ht.right.right
  | loop test body => exact eval_sound_of_tied hσ hk ht.left ht
  | function decl =>
    let f := Callable.function i.store.nextIdentity ⟨decl, i.env, false⟩
    have hname : decl.name.Ordinary := hat.all.1 _ rfl
    have hfresh := Store.Preserves.freshIdentity i.store
    have hle := hfresh.trans (.define _ i.env.inner hname (.callable f))
    have hf : (Value.callable f).Sound i.store := by
      refine ⟨ht.valid, ht.anchored, fun hthis ↦ ?_⟩
      rw [ht.this] at hthis
      cases hthis
    exact ⟨hle, (hσ.mono hle).freshIdentity.define (hf.mono hle), trivial, hk.mono hle⟩
  | ret keyword value =>
    cases value with
    | none => exact ⟨.refl _, hσ, trivial, hk⟩
    | some e => exact eval_sound_of_tied hσ hk ht trivial
  | classDecl name superclass methods => exact declareClass_sound hσ hk ht (hat.all.1 _ rfl) _ _

theorem ofExcept_sound (line : Nat) {r : Except FaultCause Value} (hr : ∀ v, r = .ok v → v.Sound i.store)
    (he : ∀ c, r = .error c → c ≠ .invalidUnary ∧ c ≠ .invalidBinary) :
    Sound i.store (ofExcept i k line r) := by
  cases r with
  | ok v => exact value_sound hσ hk (hr v rfl)
  | error cause => exact fault_sound hσ hk (he cause rfl)

theorem resume_sound {v : Value} (hv : v.Sound i.store) (hfits : v.Fits (i.world A))
    {S : List Names} {frame : Frame} (hs : Stack.Fits (i.world A) i.env S (frame :: k))
    (hf : frame.Sound i.store i.env) {m : Machine} (h : resume i k v frame = some m) : Sound i.store m := by
  have htold {known : List Value} (h : ∀ u ∈ known, u.Sound i.store) : ∀ u ∈ v :: known, u.Sound i.store :=
    List.forall_mem_cons.2 ⟨hv, h⟩
  cases resumed h with
  | unary =>
    exact ofExcept_sound hσ hk _ (fun _ h ↦ isData_sound (Value.isData_of_unary h)) fun _ ↦ expected_of_unary hf
  | binaryRight =>
    exact ofExcept_sound hσ hk _ (fun _ h ↦ isData_sound (Value.isData_of_binary h))
      fun _ ↦ expected_of_binary hf.1
  | binaryLeft => exact eval_sound_of_tied hσ hk hf.2 ⟨hf.1, hv⟩
  | decided => exact value_sound hσ hk hv
  | undecided => exact ⟨.refl _, hσ, hf, hk⟩
  | assign ref id =>
    have hle : i.store.Preserves (i.store.define id ref.name.lexeme v) := .define _ _ hf v
    exact ⟨hle, (hσ.mono hle).define (hv.mono hle), hv.mono hle, hk.mono hle⟩
  | unassignable => exact fault_sound hσ hk (by simp [Fault.Expected, Interpreter.undefined])
  | callee paren => exact apply_sound hσ hk hv hfits (by simp) paren
  | firstArgument => exact eval_sound_of_tied hσ hk hf.left ⟨hv, by simp, hf.right⟩
  | lastArgument f known paren =>
    obtain ⟨hfits, -, -⟩ : f.Fits (i.world A) ∧ _ := by
      cases hs with
      | keep hf _ => exact hf
    exact apply_sound hσ hk hf.1 hfits (fun u hu ↦ htold hf.2.1 u (List.mem_reverse.1 hu)) paren
  | nextArgument =>
    obtain ⟨hf, hknown, hrest⟩ := hf
    exact eval_sound_of_tied hσ hk hrest.left ⟨hf, htold hknown, hrest.right⟩
  | get o name => exact property_sound hσ hk o name
  | setObject =>
    apply eval_sound_of_tied hσ hk hf
    trivial
  | setValue o name =>
    have hle : i.store.Preserves (i.store.setField o name.lexeme v) := .setField _ _ _ _
    exact ⟨hle, (hσ.mono hle).setField (hv.mono hle), hv.mono hle, hk.mono hle⟩
  | noProperties | noFields | notWritten => exact fault_sound hσ hk (by simp [Fault.Expected])
  | discard | neither | ended => exact normal_sound hσ hk
  | print => exact ⟨.refl _, hσ, trivial, hk⟩
  | define => exact define_sound hσ hk hf hv
  | yes => exact ⟨.refl _, hσ, hf.1, hk⟩
  | no => exact ⟨.refl _, hσ, hf.2 _ rfl, hk⟩
  | again => exact ⟨.refl _, hσ, hf.right, .keep hf hk⟩
  | ret | leave => exact ⟨.refl _, hσ, hv, hk⟩
  | construct => exact value_sound hσ hk trivial
  | host => exact hf.elim

theorem finish_sound {flow : Flow} (hv : flow.value.Sound i.store) {frame : Frame}
    (hf : frame.Sound i.store i.env) {m : Machine} (h : finish i k flow frame = some m) :
    Sound i.store m := by
  cases finished h with
  | again => exact ⟨.refl _, hσ, hf.left, .keep hf hk⟩
  | returned => exact ⟨.refl _, hσ, hv, hk⟩
  | nextOuter => exact ⟨.refl _, hσ, hf.left, .keep hf.right hk⟩
  | program => exact normal_sound hσ hk
  | initialized _ _ hthis =>
    obtain ⟨id, -, hthis⟩ := Option.bind_eq_some_iff.1 hthis
    exact value_sound hσ hk (hσ.scopes id _ _ hthis)
  | noThis => exact fault_sound hσ hk (by simp [Fault.Expected])
  | result => exact value_sound hσ hk hv
  | next | block => exact hf.elim

end

variable {A : List Accepted} {i : Interpreter} {k : Stack}

theorem finish_block_sound (hσ : i.store.Sound) {flow : Flow} (hv : flow.value.Sound i.store)
    {rest : List Stmt} {saved : Env} (hr : Tied i.store i.env (Stmt.ownOf rest))
    (hk : Stack.Sound i.store saved k) {m : Machine} (h : finish i k flow (.block rest saved) = some m) :
    Sound i.store m := by
  cases finished h with
  | next => exact ⟨.refl _, hσ, hr.left, .block hr.right hk⟩
  | block => exact ⟨.refl _, hσ, hv, hk⟩

theorem unwind_sound (hσ : i.store.Sound) {f : Fault} (hf : f.Expected) {env : Env} {frame : Frame}
    (hs : Stack.Sound i.store env (frame :: k)) : Sound i.store (unwind i k f frame) := by
  cases hs with
  | block _ hk => exact ⟨.refl _, hσ, hf, _, hk⟩
  | keep hframe hk =>
    cases frame with
    | block | host => exact hframe.elim
    | _ => exact ⟨.refl _, hσ, hf, env, hk⟩

theorem act_sound (hσ : i.store.Sound) (hk : Stack.Sound i.store i.env k) {action : Action}
    (hp : action.Plain) (line : Nat) : Sound i.store (act i k line action) := by
  cases hp with
  | number x => exact value_sound hσ hk trivial
  | nil => exact value_sound hσ hk trivial
  | time h => exact ⟨.refl _, hσ, hk⟩

/-- Methods stay bound as they should be, and no step changes what they rely on. -/
theorem step_sound (hA : Separate A) {σ : Store} {m m' : Machine} (hf : m.Fits A) (hm : m.Sound σ)
    (h : m.step = some m') : m'.Sound σ := by
  suffices hs : m'.Sound m.state.store from ⟨hm.since.trans hs.since, hs.store, hs.control⟩
  obtain ⟨control, k, i⟩ := m
  obtain ⟨hi, hc⟩ := hf
  obtain ⟨-, hσ, hcontrol⟩ := hm
  cases stepped h with
  | eval =>
    obtain ⟨S, hat, ha, -⟩ := hc
    exact eval_sound hσ hcontrol.2 hA hi hat ha hcontrol.1
  | exec =>
    obtain ⟨S, hat, -, -⟩ := hc
    exact exec_sound hσ hcontrol.2 hat hcontrol.1
  | value h =>
    obtain ⟨hv, hk⟩ := hcontrol
    obtain ⟨hfits, S, -, hstack⟩ := hc
    cases hk with
    | keep hf hk => exact resume_sound hσ hk hv hfits hstack hf h
    | block => cases h
  | done h =>
    obtain ⟨hv, hk⟩ := hcontrol
    cases hk with
    | keep hf hk => exact finish_sound hσ hk hv hf h
    | block hr hk => exact finish_block_sound hσ hv hr hk h
  | fault =>
    obtain ⟨hf, env, hk⟩ := hcontrol
    exact unwind_sound hσ hf hk
  | act _ line => exact act_sound hσ hcontrol hc.1 line

end Machine

end Lox
