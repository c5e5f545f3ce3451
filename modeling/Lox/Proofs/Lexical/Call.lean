import Lox.Proofs.Lexical.Simulation

namespace Lox.Lexical

open Scope

theorem define_parameters {i : Interpreter} {σ : Store} {env : Lox.Env} (hinner : env.inner = σ.nextScope)
    (b : Bindings Lox.Value) (l : List (Token × Lox.Value)) :
    l.foldl (fun i (p, v) ↦ i.define p.lexeme v) { i with store := σ.addScope b, env := env } =
      { i with store := σ.addScope (l.foldl (fun b (p, v) ↦ b.insert p.lexeme v) b), env := env } := by
  induction l generalizing b with
  | nil => rfl
  | cons pv l ih =>
    obtain ⟨p, v⟩ := pv
    rw [List.foldl_cons, List.foldl_cons, ← ih, σ.addScope_insert, ← hinner]
    rfl

theorem Scene.declareAll {L : Link} {S : List Names} {i : Interpreter} {s : State} (h : Scene L S i s)
    {ps : List Token} (hps : FreshAll S ps) {vs : List Lox.Value} {vs' : List Value}
    (hvs : List.Forall₂ (ValueLinked L) vs vs') (hlen : vs.length = ps.length) :
    ∃ L', L.Le L' ∧ (∀ id, id ≠ i.env.inner → ∀ x, L'.cell id x = L.cell id x) ∧
      Scene L' (ps.foldl (fun S t ↦ bindIn t.lexeme S) S)
        ((ps.zip vs).foldl (fun i (p, v) ↦ i.define p.lexeme v) i)
        ((ps.zip vs').foldl (fun s (p, v) ↦ s.declare p.lexeme v) s) := by
  induction ps generalizing L S i s vs vs' with
  | nil => exact ⟨L, .refl L, fun _ _ _ ↦ rfl, h⟩
  | cons p ps ih =>
    cases hvs with
    | nil => cases hlen
    | cons hv hvs =>
      have hx := hps.1.not_readable
      have hL := L.le_bind i.env.inner p.lexeme
      have hscene := h.declare hx (hv.mono hL)
      obtain ⟨L', hL', hcell, hscene'⟩ :=
        ih hscene hps.2 (hvs.imp fun _ _ hv ↦ hv.mono hL) (Nat.succ.inj hlen)
      refine ⟨L', hL.trans hL', fun id hid x ↦ (hcell id hid x).trans ?_, hscene'⟩
      exact L.cell_bind_of_ne fun h' ↦ hid h'.1

section

variable {L : Link} {S : List Names} {k : Lox.Stack} {k' : Stack} {i : Interpreter} {s : State}

theorem block_linked (h : Ready L S i s k k') {L' : Link} (hL : L.Beside L') {S₁ : List Names}
    {i' : Interpreter} {s' : State} (hscene : Scene L' S₁ i' s') (hinner : i'.env.inner = i.store.nextScope)
    {body : List Stmt} (hbody : At [L.program] (.stmts body) S₁) :
    Linked ⟨.done .normal, .block body i.env :: k, i'⟩ ⟨.done .normal, .block body s.env :: k', s'⟩ := by
  have hlt := h.scene.env.inner_lt
  have hnext : i.store.nextScope = L.scopes := h.scene.store.scopes
  refine .done .normal ⟨hscene, ?_, .block (hL.program ▸ hbody) (h.scene.env.mono hL.toLe)
    (h.scene.exact.beside hlt hL) h.inner (h.stack.beside hL)⟩
  rw [hinner, hnext]
  intro hmem
  obtain heq | hmem := List.mem_cons.1 hmem
  · exact Nat.ne_of_gt hlt heq
  · exact Nat.lt_irrefl _ (h.stack.inners_lt _ hmem)

theorem enterClosure_linked (h : Ready L S i s k k') {c : Lox.Closure} {c' : Closure}
    (hc : ClosureLinked L c c') {vs : List Lox.Value} {vs' : List Value}
    (hvs : List.Forall₂ (ValueLinked L) vs vs') (hlen : vs.length = c.decl.params.length) :
    Linked (Lox.Machine.enterClosure i k c vs) (Machine.enterClosure s k' c' vs') := by
  obtain ⟨S₁, hat, henv⟩ := hc.place
  have hnext : i.store.nextScope = L.scopes := h.scene.store.scopes
  have hold := L.beside_addScope.toLe
  have hscene := h.scene.toStateLinked.enter henv hat.settled_function
  obtain ⟨L', hL', hcell, hscene'⟩ :=
    hscene.declareAll hat.freshAll (hvs.imp fun _ _ hv ↦ hv.mono hold) hlen
  rw [define_parameters rfl] at hscene'
  have hbeside : L.Beside L' :=
    ⟨hold.trans hL', fun {id} hid x ↦ hcell id (Nat.ne_of_lt (hnext.symm ▸ hid)) x⟩
  rw [Machine.enterClosure, hc.decl]
  exact block_linked (h.keep (.result hc)) hbeside hscene' rfl hat.body

theorem bound_linked (h : StoreLinked L i.store s) {m : Lox.Closure} {m' : Closure}
    (hm : MethodLinked L m m') : ClosureLinked (L.addCell "this")
      (Lox.Machine.bound m i.store.nextScope) (Machine.bound m' s.cells.size) := by
  obtain ⟨S₁, hat, henv⟩ := hm.place
  have hL := (L.beside_addCell "this").toLe
  have hcell := L.cell_addCell "this"
  have hsettled : Settled S₁ := hat.settled_function.tail
  rw [show i.store.nextScope = L.scopes from h.scopes, h.cells]
  refine ⟨hm.decl, hm.isInitializer, ⟨thisNames :: S₁, ?_, (henv.mono hL).extend hsettled hcell⟩, fun _ ↦ ?_⟩
  · rw [hL.program]
    exact hat
  · exact ⟨L.cells, hcell, (m'.env.find?_extend ..).trans (if_pos rfl)⟩

theorem bindMethod_linked (h : Ready L S i s k k') {m : Lox.Closure} {m' : Closure}
    (hm : MethodLinked L m m') (o : ObjectId) :
    Linked (Lox.Machine.bindMethod i k m o) (Machine.bindMethod s k' m' o) := by
  have hstore := h.scene.store
  have hvalue : ValueLinked (L.addCell "this")
      (.callable (.function i.store.nextIdentity (Lox.Machine.bound m i.store.nextScope)))
      (.callable (.function s.nextIdentity (Machine.bound m' s.cells.size))) := by
    rw [hstore.nextIdentity]
    exact .function _ (bound_linked hstore hm)
  exact .value hvalue (h.withStore (L.beside_addCell "this")
    (hstore.addCell "this" (.object o)).freshIdentity rfl rfl rfl rfl)

theorem construct_linked (h : Ready L S i s k k') {c : Lox.Class} {c' : Class} (hc : ClassLinked L c c')
    {vs : List Lox.Value} {vs' : List Value} (hvs : List.Forall₂ (ValueLinked L) vs vs')
    (hlen : vs.length = c.arity) :
    Linked (Lox.Machine.construct i k c vs) (Machine.construct s k' c' vs') := by
  have hready := h.withStore (.refl L) (h.scene.store.addObject hc) rfl rfl rfl rfl
  have hnext := h.scene.store.nextObject
  have hinit := hc.findMethod? "init"
  rw [Lox.Class.arity, Lox.Class.initializer?] at hlen
  rw [Lox.Machine.construct, Machine.construct, Lox.Class.initializer?]
  generalize c.findMethod? "init" = m at hinit hlen ⊢
  generalize c'.findMethod? "init" = m' at hinit ⊢
  rw [hnext]
  cases hinit with
  | none => exact .value (.object _) hready
  | some hm =>
    have hL := L.beside_addCell "this"
    have hstore := hready.scene.store
    have hready' := hready.withStore hL (hstore.addCell "this" (.object s.objects.size)) rfl rfl rfl rfl
    refine enterClosure_linked (hready'.keep (.construct _)) (bound_linked hstore hm) ?_ hlen
    exact hvs.imp fun _ _ hv ↦ hv.mono hL.toLe

theorem invoke_linked (h : Ready L S i s k k') {c : Lox.Callable} {c' : Callable}
    (hc : ValueLinked L (.callable c) (.callable c')) {vs : List Lox.Value} {vs' : List Value}
    (hvs : List.Forall₂ (ValueLinked L) vs vs') (hlen : vs.length = c.arity) (line : Nat) :
    Linked (Lox.Machine.invoke i k c vs line) (Machine.invoke s k' c' vs' line) := by
  have hdepth := h.scene.depth
  have hdeeper : Ready L S { i with depth := i.depth + 1 } { s with depth := i.depth + 1 } k k' :=
    h.update (.refl L) (h.scene.withDepth (i.depth + 1)) rfl rfl
  cases hc with
  | clock =>
    have hhost : i.host ⟨0, "clock", 0⟩ = HostFunction.clock := by rw [Interpreter.host, h.scene.hosts]; rfl
    rw [Lox.Machine.invoke, hhost]
    exact .clock h
  | function id hc =>
    rw [Lox.Machine.invoke, Machine.invoke, hdepth]
    split
    · exact .fault h.scene.toStateLinked h.stack
    · exact enterClosure_linked (hdeeper.keep .leave) hc hvs hlen
  | cls hc =>
    rw [Lox.Machine.invoke, Machine.invoke, hdepth]
    split
    · exact .fault h.scene.toStateLinked h.stack
    · exact construct_linked (hdeeper.keep .leave) hc hvs hlen

theorem arity_eq {c : Lox.Callable} {c' : Callable} (h : ValueLinked L (.callable c) (.callable c')) :
    c'.arity = c.arity := by
  cases h with
  | clock => rfl
  | function id h => exact congrArg (·.params.length) h.decl
  | cls h =>
    have hinit := h.findMethod? "init"
    rw [Callable.arity, Lox.Callable.arity, Lox.Class.arity, Lox.Class.initializer?]
    generalize Lox.Class.findMethod? "init" _ = m at hinit ⊢
    generalize Class.findMethod? "init" _ = m' at hinit ⊢
    cases hinit with
    | none => rfl
    | some hm => exact congrArg (·.params.length) hm.decl

theorem apply_linked (h : Ready L S i s k k') {f : Lox.Value} {f' : Value} (hf : ValueLinked L f f')
    {vs : List Lox.Value} {vs' : List Value} (hvs : List.Forall₂ (ValueLinked L) vs vs') (paren : Token) :
    Linked (Lox.Machine.apply i k f vs paren) (Machine.apply s k' f' vs' paren) := by
  have hcall {c : Lox.Callable} {c' : Callable} (hc : ValueLinked L (.callable c) (.callable c')) :
      Linked (Lox.Machine.apply i k (.callable c) vs paren)
        (Machine.apply s k' (.callable c') vs' paren) := by
    rw [Lox.Machine.apply, Machine.apply, arity_eq hc, ← hvs.length_eq]
    split
    · next hlen => exact invoke_linked h hc hvs hlen paren.line
    · exact .fault h.scene.toStateLinked h.stack
  cases hf with
  | clock => exact hcall .clock
  | function id hc => exact hcall (.function id hc)
  | cls hc => exact hcall (.cls hc)
  | _ => exact .fault h.scene.toStateLinked h.stack

theorem property_linked (h : Ready L S i s k k') (o : ObjectId) (name : Token) :
    Linked (Lox.Machine.property i k o name) (Machine.property s k' o name) := by
  have ho := h.scene.store.objects o
  rw [Lox.Machine.property, Machine.property]
  generalize i.store.object? o = a at ho ⊢
  generalize s.objects[o]? = a' at ho ⊢
  cases ho with
  | none => exact .fault h.scene.toStateLinked h.stack
  | @some a a' ho =>
    have hfield := ho.fields name.lexeme
    have hmethod := ho.cls.findMethod? name.lexeme
    dsimp only
    generalize a.fields.find? name.lexeme = v at hfield ⊢
    generalize a'.fields.find? name.lexeme = v' at hfield ⊢
    cases hfield with
    | some hv => exact .value hv h
    | none =>
      dsimp only
      generalize a.cls.findMethod? name.lexeme = m at hmethod ⊢
      generalize a'.cls.findMethod? name.lexeme = m' at hmethod ⊢
      cases hmethod with
      | some hm => exact bindMethod_linked h hm o
      | none => exact .fault h.scene.toStateLinked h.stack

theorem superMethod_linked (h : Ready L S i s k k') {ref : Ref} {name : Token}
    (he : At [L.program] (.expr (.super ref name)) S) :
    Linked (Lox.Machine.superMethod i k ref name) (Machine.superMethod s k' ref.name name) := by
  have hlexeme : ref.name.lexeme = "super" := he.all
  obtain ⟨j, hthis, hsuper⟩ := he.seated
  have hpending := he.not_pending rfl
  rw [hlexeme] at hpending
  have hclass := h.scene.getAt? hsuper hpending
  have hobject := h.scene.getAt? hthis he.this_not_pending
  have hfault {f : Fault} : Linked ⟨.fault f, k, i⟩ ⟨.fault f, k', s⟩ :=
    .fault h.scene.toStateLinked h.stack
  rw [Lox.Machine.superMethod, h.scene.distances.find?_eq he rfl, hlexeme, hsuper, Machine.superMethod, hlexeme]
  dsimp only
  generalize i.store.getAt? i.env (j + 1) "super" = c at hclass ⊢
  generalize s.read? "super" = c' at hclass ⊢
  rw [Nat.add_sub_cancel]
  generalize i.store.getAt? i.env j "this" = o at hobject ⊢
  generalize s.read? "this" = o' at hobject ⊢
  cases hclass with
  | none => exact hfault
  | some hc =>
    cases hc with
    | @cls c c' hc =>
      cases hobject with
      | none => exact hfault
      | some ho =>
        cases ho with
        | object o =>
          have hmethod := hc.findMethod? name.lexeme
          dsimp only
          generalize c.findMethod? name.lexeme = m at hmethod ⊢
          generalize c'.findMethod? name.lexeme = m' at hmethod ⊢
          cases hmethod with
          | some hm => exact bindMethod_linked h hm o
          | none => exact hfault
        | _ => exact hfault
    | _ => exact hfault

theorem methodTable_linked {env : Lox.Env} {ρ : Env} (henv : EnvLinked L S env ρ)
    {ds : List FunctionDecl} (hds : ∀ d ∈ ds, At [L.program] (.function d) (thisNames :: S)) (x : String) :
    Option.Rel (MethodLinked L) ((Lox.Machine.methodTable ds env).find? x)
      ((Machine.methodTable ds ρ).find? x) := by
  suffices hfold : ∀ (b : Bindings Lox.Closure) (b' : Bindings Closure),
      Option.Rel (MethodLinked L) (b.find? x) (b'.find? x) → Option.Rel (MethodLinked L)
        ((ds.foldl (fun b d ↦ b.insert d.name.lexeme ⟨d, env, d.name.lexeme == "init"⟩) b).find? x)
        ((ds.foldl (fun b d ↦ b.insert d.name.lexeme ⟨d, ρ, d.name.lexeme == "init"⟩) b').find? x) from
    hfold .empty .empty .none
  induction ds with
  | nil => exact fun _ _ h ↦ h
  | cons d ds ih =>
    rw [List.forall_mem_cons] at hds
    intro b b' h
    refine ih hds.2 _ _ ?_
    rw [Bindings.find?_insert, Bindings.find?_insert]
    split
    · exact .some ⟨rfl, rfl, S, hds.1, henv⟩
    · exact h

/-- A class is bound, with methods that see the given names and the class itself. -/
theorem defineClass_linked (h : Scene L S i s) (hi : i.env.inner ∉ inners k) {name : Token}
    (hk : StackLinked L (bindIn name.lexeme S) k k')
    (hx : ∀ n ∈ S.head?, n.find? name.lexeme ≠ some true) {c : Option Lox.Class} {c' : Option Class}
    (hc : Option.Rel (ClassLinked L) c c') {S₁ : List Names} {env : Lox.Env} {ρ : Env}
    (henv : EnvLinked (L.bind i.env.inner name.lexeme) S₁ env ρ) {ds : List FunctionDecl}
    (hds : ∀ d ∈ ds, At [L.program] (.function d) (thisNames :: S₁)) :
    Linked (Lox.Machine.defineClass i k name c ds env) (Machine.defineClass s k' name c' ds ρ) := by
  have hL := L.le_bind i.env.inner name.lexeme
  have hclass : ValueLinked (L.bind i.env.inner name.lexeme)
      (.callable (.cls (.mk i.store.nextIdentity name.lexeme c (Lox.Machine.methodTable ds env))))
      (.callable (.cls (.mk s.nextIdentity name.lexeme c' (Machine.methodTable ds ρ)))) := by
    have htable := methodTable_linked henv (L.program_bind i.env.inner name.lexeme ▸ hds)
    rw [h.store.nextIdentity]
    cases hc with
    | none => exact .cls (.base htable)
    | some hc => exact .cls (.derived (hc.mono hL) htable)
  exact .done .normal (Ready.declare h.freshIdentity hi hk hx hclass)

theorem declareClass_linked (h : Scene L S i s) (hi : i.env.inner ∉ inners k) {name : Token}
    {superclass : Option Ref} {ds : List FunctionDecl}
    (hs : At [L.program] (.stmt (.classDecl name superclass ds)) S)
    (hk : StackLinked L (bindIn name.lexeme S) k k') :
    Linked (Lox.Machine.declareClass i k name superclass ds)
      (Machine.declareClass s k' name superclass ds) := by
  have hx := (hs.fresh rfl).not_readable
  cases superclass with
  | none => exact defineClass_linked h hi hk hx .none (h.envAfter hx) hs.methods
  | some ref =>
    have hfault {f : Fault} : Linked ⟨.fault f, k, i⟩ ⟨.fault f, k', s⟩ := .fault h.toStateLinked hk
    have hd := (h.distances.find?_eq hs.superclass rfl).trans (distanceIn_bindIn hs.superclass_ne)
    have hread := h.read? hd (hs.settled_stmt.not_pending _)
    rw [Lox.Machine.declareClass, Machine.declareClass, Interpreter.lookup]
    dsimp only
    generalize (i.target? ref).bind _ = v at hread ⊢
    generalize s.read? ref.name.lexeme = v' at hread ⊢
    cases hread with
    | none => exact hfault
    | some hv =>
      cases hv with
      | cls hc =>
        have hbeside := L.beside_addCell "super"
        have hstore := h.store.addCell "super" (.cls hc)
        have hscene : Scene (L.addCell "super") S { i with store := _ } { s with cells := _ } :=
          ⟨h.toStateLinked.withStore hbeside.toLe hstore rfl rfl rfl, h.env.mono hbeside.toLe,
            h.exact.beside h.env.inner_lt hbeside⟩
        have hcell := (Link.le_bind (L.addCell "super") i.env.inner name.lexeme).cell (L.cell_addCell "super")
        have henv := (hscene.envAfter hx).extend (hs.settled_stmt.bindIn name.lexeme) hcell
        rw [← h.store.scopes, ← h.store.cells] at henv
        exact defineClass_linked hscene hi (hk.beside hbeside) hx (.some (hc.mono hbeside.toLe)) henv
          (hbeside.program ▸ hs.methods)
      | _ => exact hfault

end

end Lox.Lexical
