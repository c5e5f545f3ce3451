import Lox.Machine.Call
import Lox.Proofs.Skip.State

namespace Lox.Skip

open Machine

variable {D : Distances} {L : Link} {B : Bottom} {g : Gap} {i i' : Interpreter} {k k' : Stack}

theorem StoreLinked.next_rel {σ σ' : Store} (h : StoreLinked D L σ σ') :
    L.add.rel σ.nextScope σ'.nextScope := by
  rw [show σ.nextScope = L.left from h.left, show σ'.nextScope = L.right from h.right]
  exact L.add_rel

theorem insert_linked {b b' : Bindings Value}
    (hb : ∀ x, Option.Rel (ValueLinked D L) (b.find? x) (b'.find? x)) (y : String) {v v' : Value}
    (hv : ValueLinked D L v v') (x : String) :
    Option.Rel (ValueLinked D L) ((b.insert y v).find? x) ((b'.insert y v').find? x) := by
  rw [Bindings.find?_insert, Bindings.find?_insert]
  split
  · exact .some hv
  · exact hb x

theorem parameterScope_linked (ps : List Token) {vs vs' : List Value}
    (hvs : List.Forall₂ (ValueLinked D L) vs vs') (x : String) :
    Option.Rel (ValueLinked D L) ((parameterScope ps vs).find? x) ((parameterScope ps vs').find? x) := by
  suffices hfold : ∀ b b' : Bindings Value, (∀ x, Option.Rel (ValueLinked D L) (b.find? x) (b'.find? x)) →
      Option.Rel (ValueLinked D L)
        (((ps.zip vs).foldl (fun b p ↦ b.insert p.1.lexeme p.2) b).find? x)
        (((ps.zip vs').foldl (fun b p ↦ b.insert p.1.lexeme p.2) b').find? x) from
    hfold .empty .empty fun _ ↦ .none
  induction ps generalizing vs vs' with
  | nil => exact fun _ _ hb ↦ hb x
  | cons p ps ih =>
    intro b b' hb
    cases hvs with
    | nil => exact hb x
    | cons hv hvs => exact ih hvs _ _ (insert_linked hb p.lexeme hv)

theorem enterBlock_linked (h : Ready D L B g i i' k k') {g₁ : Gap} {env env' : Env}
    (henv : EnvLinked L g₁ env env') {b b' : Bindings Value}
    (hb : ∀ x, Option.Rel (ValueLinked D L) (b.find? x) (b'.find? x)) {ss ss' : List Stmt}
    (hs : StmtsLinked D g₁.inside ss ss') :
    Later D B L (enterBlock i k env b ss) (enterBlock i' k' env' b' ss') := by
  have hL := L.le_add
  have hstate := h.scene.toStateLinked.withStore hL (h.scene.store.addScope hb)
  have hinner : EnvLinked L.add g₁.inside (env.enclose i.store.nextScope)
      (env'.enclose i'.store.nextScope) := (ChainLinked.mono henv hL).cons h.scene.store.next_rel
  exact ⟨_, hL, .done .normal ⟨⟨hstate.withEnv _ _, hinner⟩,
    .block hs (ChainLinked.mono h.scene.env hL) (h.stack.mono hL)⟩⟩

theorem enterClosure_linked (h : Ready D L B g i i' k k') {c c' : Closure} (hc : ClosureLinked D L c c')
    {vs vs' : List Value} (hvs : List.Forall₂ (ValueLinked D L) vs vs') :
    Later D B L (enterClosure i k c vs) (enterClosure i' k' c' vs') := by
  obtain ⟨g₁, -, hd, henv⟩ := hc.place
  rw [enterClosure, enterClosure, hd.params_eq]
  exact enterBlock_linked (h.push (.result hc)) henv (parameterScope_linked _ hvs) hd.body

theorem bound_linked {m m' : Closure} (hm : MethodLinked D L m m') {a a' : ScopeId} (ha : L.rel a a') :
    ClosureLinked D L (bound m a) (bound m' a') := by
  obtain ⟨g₁, hd, henv⟩ := hm.place
  exact ⟨hm.isInitializer, g₁.inside, g₁.inside_ne, hd, ChainLinked.cons henv ha⟩

theorem thisScope_linked (o : ObjectId) (x : String) :
    Option.Rel (ValueLinked D L) ((thisScope o).find? x) ((thisScope o).find? x) :=
  insert_linked (fun _ ↦ .none) "this" (.object o) x

theorem bindMethod_linked (h : Ready D L B g i i' k k') {m m' : Closure} (hm : MethodLinked D L m m')
    (o : ObjectId) : Later D B L (bindMethod i k m o) (bindMethod i' k' m' o) := by
  have hstore := h.scene.store
  have hbound := bound_linked (hm.mono L.le_add) hstore.next_rel
  have hready := h.withStore L.le_add (hstore.addScope (thisScope_linked o)).freshIdentity
  rw [bindMethod, bindMethod, hstore.nextIdentity]
  exact ⟨_, L.le_add, .value (.callable (.function _ hbound)) hready⟩

theorem construct_linked (h : Ready D L B g i i' k k') {c c' : Class} (hc : ClassLinked D L c c')
    {vs vs' : List Value} (hvs : List.Forall₂ (ValueLinked D L) vs vs') :
    Later D B L (construct i k c vs) (construct i' k' c' vs') := by
  have hready := h.withStore (.refl L) (h.scene.store.addObject hc)
  have hinit := hc.findMethod? "init"
  rw [construct, construct, Class.initializer?, Class.initializer?, h.scene.store.nextObject]
  generalize c.findMethod? "init" = m at hinit ⊢
  generalize c'.findMethod? "init" = m' at hinit ⊢
  cases hinit with
  | none => exact (MachineLinked.value (.object _) hready).now
  | some hm =>
    have hstore := hready.scene.store
    have hbound := bound_linked (hm.mono L.le_add) hstore.next_rel
    have hready' := hready.withStore L.le_add (hstore.addScope (thisScope_linked i.store.nextObject))
    exact (enterClosure_linked (hready'.push (.construct _)) hbound
      (hvs.imp fun _ _ ↦ .mono L.le_add)).of_le L.le_add

theorem invoke_linked (h : Ready D L B g i i' k k') {c c' : Callable} (hc : CallableLinked D L c c')
    {vs vs' : List Value} (hvs : List.Forall₂ (ValueLinked D L) vs vs') (line : Nat) :
    Later D B L (invoke i k c vs line) (invoke i' k' c' vs' line) := by
  have hdeeper := (h.withDepth (i.depth + 1)).push .leave
  cases hc with
  | native f =>
    have hhost : i'.host f = i.host f := by rw [Interpreter.host, Interpreter.host, h.scene.hosts]
    rw [invoke, invoke, hhost]
    exact (MachineLinked.act line (h.scene.uniform_host f hvs) h).now
  | function id hc =>
    rw [invoke, invoke, h.scene.depth]
    split
    · exact (MachineLinked.fault _ h).now
    · exact enterClosure_linked hdeeper hc hvs
  | cls hc =>
    rw [invoke, invoke, h.scene.depth]
    split
    · exact (MachineLinked.fault _ h).now
    · exact construct_linked hdeeper hc hvs

theorem ClosureLinked.arity_eq {c c' : Closure} (h : ClosureLinked D L c c') : c'.arity = c.arity := by
  obtain ⟨_, -, hd, -⟩ := h.place
  exact congrArg List.length hd.params_eq

theorem MethodLinked.arity_eq {c c' : Closure} (h : MethodLinked D L c c') : c'.arity = c.arity := by
  obtain ⟨_, hd, -⟩ := h.place
  exact congrArg List.length hd.params_eq

theorem CallableLinked.arity_eq {c c' : Callable} (h : CallableLinked D L c c') : c'.arity = c.arity := by
  cases h with
  | native f => rfl
  | function id h => exact h.arity_eq
  | @cls c c' h =>
    have hinit := h.findMethod? "init"
    rw [Callable.arity, Callable.arity, Class.arity, Class.arity, Class.initializer?, Class.initializer?]
    generalize c.findMethod? "init" = m at hinit ⊢
    generalize c'.findMethod? "init" = m' at hinit ⊢
    cases hinit with
    | none => rfl
    | some hm => exact hm.arity_eq

theorem apply_linked (h : Ready D L B g i i' k k') {f f' : Value} (hf : ValueLinked D L f f')
    {vs vs' : List Value} (hvs : List.Forall₂ (ValueLinked D L) vs vs') (paren : Token) :
    Later D B L (apply i k f vs paren) (apply i' k' f' vs' paren) := by
  cases hf with
  | callable hc =>
    rw [apply, apply, hc.arity_eq, ← hvs.length_eq]
    split
    · exact invoke_linked h hc hvs paren.line
    · exact (MachineLinked.fault _ h).now
  | _ => exact (MachineLinked.fault _ h).now

theorem property_linked (h : Ready D L B g i i' k k') (o : ObjectId) (name : Token) :
    Later D B L (property i k o name) (property i' k' o name) := by
  have ho := h.scene.store.objects o
  rw [property, property]
  generalize i.store.object? o = a at ho ⊢
  generalize i'.store.object? o = a' at ho ⊢
  cases ho with
  | none => exact (MachineLinked.fault _ h).now
  | @some a a' ho =>
    have hfield := ho.fields name.lexeme
    have hmethod := ho.cls.findMethod? name.lexeme
    dsimp only
    generalize a.fields.find? name.lexeme = v at hfield ⊢
    generalize a'.fields.find? name.lexeme = v' at hfield ⊢
    cases hfield with
    | some hv => exact (MachineLinked.value hv h).now
    | none =>
      dsimp only
      generalize a.cls.findMethod? name.lexeme = m at hmethod ⊢
      generalize a'.cls.findMethod? name.lexeme = m' at hmethod ⊢
      cases hmethod with
      | some hm => exact bindMethod_linked h hm o
      | none => exact (MachineLinked.fault _ h).now

theorem superMethod_linked (h : Ready D L B g i i' k k') {ref ref' : Ref} (hr : SuperLinked D g ref ref')
    (name : Token) : Later D B L (superMethod i k ref name) (superMethod i' k' ref' name) := by
  have hfault (f : Fault) : Later D B L ⟨.fault f, k, i⟩ ⟨.fault f, k', i'⟩ :=
    (MachineLinked.fault f h).now
  have hd := hr.distance
  have hd' := hr.this
  rw [superMethod, superMethod, h.scene.distances.1, h.scene.distances.2, hr.name]
  generalize D.find? ref.id = o at hd hd' ⊢
  generalize D.find? ref'.id = o' at hd hd' ⊢
  cases hd with
  | none => exact hfault _
  | @some d d' hd =>
    cases hd' with
    | some hd' =>
      have hclass := h.scene.store.getAt? h.scene.env hd ref.name.lexeme
      have hobject := h.scene.store.getAt? h.scene.env hd' "this"
      dsimp only
      generalize i.store.getAt? i.env d ref.name.lexeme = c at hclass ⊢
      generalize i'.store.getAt? i'.env d' ref.name.lexeme = c' at hclass ⊢
      generalize i.store.getAt? i.env (d - 1) "this" = o at hobject ⊢
      generalize i'.store.getAt? i'.env (d' - 1) "this" = o' at hobject ⊢
      cases hclass with
      | none => exact hfault _
      | some hc =>
        cases hc with
        | callable hc =>
          cases hc with
          | @cls c c' hc =>
            cases hobject with
            | none => exact hfault _
            | some ho =>
              cases ho with
              | object o =>
                have hmethod := hc.findMethod? name.lexeme
                dsimp only
                generalize c.findMethod? name.lexeme = m at hmethod ⊢
                generalize c'.findMethod? name.lexeme = m' at hmethod ⊢
                cases hmethod with
                | some hm => exact bindMethod_linked h hm o
                | none => exact hfault _
              | _ => exact hfault _
          | _ => exact hfault _
        | _ => exact hfault _

theorem methodTable_linked {g₁ : Gap} {env env' : Env} (henv : EnvLinked L g₁ env env')
    {ds ds' : List FunctionDecl} (hds : FunctionsLinked D g₁.inside ds ds') (x : String) :
    Option.Rel (MethodLinked D L) ((methodTable ds env).find? x) ((methodTable ds' env').find? x) := by
  suffices hfold : ∀ b b' : Bindings Closure, Option.Rel (MethodLinked D L) (b.find? x) (b'.find? x) →
      Option.Rel (MethodLinked D L)
        ((ds.foldl (fun b d ↦ b.insert d.name.lexeme ⟨d, env, d.name.lexeme == "init"⟩) b).find? x)
        ((ds'.foldl (fun b d ↦ b.insert d.name.lexeme ⟨d, env', d.name.lexeme == "init"⟩) b').find? x) from
    hfold .empty .empty .none
  induction ds generalizing ds' with
  | nil =>
    cases hds
    exact fun _ _ hb ↦ hb
  | cons d ds ih =>
    cases hds with
    | @cons _ _ d' _ ds' hd hds =>
      intro b b' hb
      refine ih hds _ _ ?_
      rw [Bindings.find?_insert, Bindings.find?_insert, hd.name_eq]
      split
      · exact .some ⟨rfl, g₁, hd, henv⟩
      · exact hb

theorem defineClass_linked (h : Ready D L B g i i' k k') (hg : g ≠ .out 0) (name : Token)
    {c c' : Option Class} (hc : Option.Rel (ClassLinked D L) c c') {g₁ : Gap} {env env' : Env}
    (henv : EnvLinked L g₁ env env') {ds ds' : List FunctionDecl}
    (hds : FunctionsLinked D g₁.inside ds ds') :
    MachineLinked D B L (defineClass i k name c ds env) (defineClass i' k' name c' ds' env') := by
  have htable := methodTable_linked henv hds
  have hclass (id : Nat) : ClassLinked D L (.mk id name.lexeme c (methodTable ds env))
      (.mk id name.lexeme c' (methodTable ds' env')) := by
    cases hc with
    | none => exact .base htable
    | some hc => exact .derived hc htable
  have hready := h.withStore (.refl L) h.scene.store.freshIdentity
  rw [defineClass, defineClass, h.scene.store.nextIdentity]
  exact .done .normal (hready.define hg name.lexeme (.callable (.cls (hclass _))))

theorem declareClass_linked (h : Ready D L B g i i' k k') (hg : g ≠ .out 0) (name : Token)
    {ds ds' : List FunctionDecl} (hds : FunctionsLinked D g.inside ds ds') :
    Later D B L (declareClass i k name none ds) (declareClass i' k' name none ds') :=
  (defineClass_linked h hg name .none h.scene.env hds).now

theorem declareSubclass_linked (h : Ready D L B g i i' k k') (hg : g ≠ .out 0) (name : Token)
    {ref ref' : Ref} (hr : RefLinked D g ref ref') {ds ds' : List FunctionDecl}
    (hds : FunctionsLinked D g.inside.inside ds ds') :
    Later D B L (declareClass i k name (some ref) ds) (declareClass i' k' name (some ref') ds') := by
  have hfault (f : Fault) : Later D B L ⟨.fault f, k, i⟩ ⟨.fault f, k', i'⟩ :=
    (MachineLinked.fault f h).now
  have hread := h.scene.read? hr
  rw [declareClass, declareClass, Interpreter.lookup, Interpreter.lookup, hr.name] at *
  dsimp only
  generalize (i.target? ref).bind _ = v at hread ⊢
  generalize (i'.target? ref').bind _ = v' at hread ⊢
  cases hread with
  | none => exact hfault _
  | some hv =>
    cases hv with
    | callable hc =>
      cases hc with
      | @cls c c' hc =>
        have hstore := h.scene.store
        have hsuper (x : String) : Option.Rel (ValueLinked D L)
            ((Bindings.empty.insert "super" (.callable (.cls c))).find? x)
            ((Bindings.empty.insert "super" (.callable (.cls c'))).find? x) :=
          insert_linked (fun _ ↦ .none) "super" (.callable (.cls hc)) x
        have hready := h.withStore L.le_add (hstore.addScope hsuper)
        have henv : EnvLinked L.add g.inside (i.env.enclose i.store.nextScope)
            (i'.env.enclose i'.store.nextScope) :=
          (ChainLinked.mono h.scene.env L.le_add).cons hstore.next_rel
        exact ⟨_, L.le_add, defineClass_linked hready hg name (.some (hc.mono L.le_add)) henv hds⟩
      | _ => exact hfault _
    | _ => exact hfault _

end Lox.Skip
