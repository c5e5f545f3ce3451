import Lox.Proofs.Lexical.Linked

namespace Lox.Lexical

open Scope

/-- States that agree in everything but the scopes in which they run. -/
structure StateLinked (L : Link) (i : Interpreter) (s : State) : Prop where
  distances : Holds [L.program] i.distances
  globals : i.globals = L.globals
  hosts : i.hosts = #[HostFunction.clock]
  store : StoreLinked L i.store s
  depth : s.depth = i.depth
  clock : s.clock = i.clock
  sink : s.sink = i.sink

/-- States that run in the same place, at which a walk has come to the given scopes. -/
structure Scene (L : Link) (S : List Names) (i : Interpreter) (s : State) : Prop extends
    StateLinked L i s where
  env : EnvLinked L S i.env s.env
  exact : Exact L S i.env

namespace Scene

variable {L : Link} {S : List Names} {i : Interpreter} {s : State}

theorem locateAt? (h : Scene L S i s) {x : String} {d : Nat} (hd : distanceIn S x = some d)
    (hp : ¬Pending S x) : ∃ id c, i.store.locateAt? i.env d x = some id ∧ L.cell id x = some c ∧
      s.env.find? x = some c := by
  obtain ⟨id, c, hid, hc, hf⟩ := h.env.seen x d hp hd
  refine ⟨id, c, ?_, hc, hf⟩
  exact (congrArg (Option.filter _) hid).trans (if_pos (h.store.contains hc))

theorem getAt? (h : Scene L S i s) {x : String} {d : Nat} (hd : distanceIn S x = some d)
    (hp : ¬Pending S x) : Option.Rel (ValueLinked L) (i.store.getAt? i.env d x) (s.read? x) := by
  obtain ⟨id, c, hid, hc, hf⟩ := h.locateAt? hd hp
  rw [Store.getAt?, hid, State.read?, hf]
  exact h.store.cell hc

theorem target? (h : Scene L S i s) {ref : Ref}
    (hd : i.distances.find? ref.id = distanceIn S ref.name.lexeme) (hp : ¬Pending S ref.name.lexeme) :
    (∃ id c, i.target? ref = some id ∧ L.cell id ref.name.lexeme = some c ∧
      s.env.find? ref.name.lexeme = some c) ∨
    i.target? ref = (if i.store.contains L.globals ref.name.lexeme then some L.globals else none) ∧
      s.env.find? ref.name.lexeme = none := by
  rw [Interpreter.target?, hd]
  cases hd : distanceIn S ref.name.lexeme with
  | none =>
    refine .inr ⟨?_, h.env.unseen _ hp hd⟩
    rw [← h.globals]
    simp [Store.locate?, Interpreter.globalEnv, Env.chain, List.find?_singleton]
  | some d => exact .inl (h.locateAt? hd hp)

theorem read? (h : Scene L S i s) {ref : Ref}
    (hd : i.distances.find? ref.id = distanceIn S ref.name.lexeme) (hp : ¬Pending S ref.name.lexeme) :
    Option.Rel (ValueLinked L) ((i.target? ref).bind (i.store.read? · ref.name.lexeme))
      (s.read? ref.name.lexeme) := by
  obtain ⟨id, c, ht, hc, hf⟩ | ⟨ht, hf⟩ := h.target? hd hp
  · rw [ht, State.read?, hf]
    exact h.store.cell hc
  · rw [ht, State.read?, hf]
    have hx := h.store.globals ref.name.lexeme
    rw [Store.contains_eq]
    cases hread : i.store.read? L.globals ref.name.lexeme with
    | none => simpa [hread] using hx
    | some v => simpa [hread] using hx

theorem envAfter (h : Scene L S i s) {x : String} (hx : ∀ n ∈ S.head?, n.find? x ≠ some true) :
    EnvLinked (L.bind i.env.inner x) (bindIn x S) i.env (s.envAfter x) := by
  rw [State.envAfter, h.store.cells]
  exact h.env.bindIn fun hS ↦ h.exact.cell_eq_none hS hx

theorem declare (h : Scene L S i s) {x : String} (hx : ∀ n ∈ S.head?, n.find? x ≠ some true)
    {v : Lox.Value} {v' : Value} (hv : ValueLinked (L.bind i.env.inner x) v v') :
    Scene (L.bind i.env.inner x) (bindIn x S) (i.define x v) (s.declare x v') := by
  have henv := h.envAfter hx
  have hexact : Exact (L.bind i.env.inner x) (bindIn x S) i.env := h.exact.bindIn x
  have hdistances : Holds [(L.bind i.env.inner x).program] i.distances := by
    rw [L.program_bind]
    exact h.distances
  have hglobals : i.globals = (L.bind i.env.inner x).globals := h.globals.trans (L.globals_bind ..).symm
  cases S with
  | nil =>
    obtain ⟨htop, hlocals⟩ := h.env.top rfl
    have hbind : L.bind i.env.inner x = L := by
      rw [htop]
      exact L.bind_globals x
    rw [hbind] at hv ⊢
    have hdeclare : s.declare x v' = { s with globals := s.globals.insert x v' } := by
      rw [State.declare, hlocals]
    have hdefine : i.store.define i.env.inner x v = i.store.define L.globals x v := by rw [htop]
    rw [hdeclare]
    refine ⟨⟨h.distances, h.globals, h.hosts, ?_, h.depth, h.clock, h.sink⟩, h.env, h.exact⟩
    show StoreLinked L (i.store.define i.env.inner x v) _
    rw [hdefine]
    exact h.store.setGlobal x hv
  | cons n S =>
    obtain ⟨hg, hlt, hlocals⟩ := h.env.inner nofun
    obtain ⟨b, hb⟩ := Option.isSome_iff_exists.1 hlocals
    have hdeclare : s.declare x v' = { s with env := s.envAfter x, cells := s.cells.push v' } := by
      rw [State.declare, hb]
    rw [hdeclare]
    have hstore := h.store.bind ⟨hg, hlt, h.exact.cell_eq_none nofun hx⟩ hv
    exact ⟨⟨hdistances, hglobals, h.hosts, hstore.elsewhere .., h.depth, h.clock, h.sink⟩, henv, hexact⟩

end Scene

namespace StateLinked

variable {L : Link} {i : Interpreter} {s : State}

theorem enter (h : StateLinked L i s) {S : List Names} {env : Lox.Env} {ρ : Env}
    (henv : EnvLinked L S env ρ) (hS : Settled S) : Scene L.addScope (.empty :: S)
      { i with store := i.store.addScope .empty, env := env.enclose i.store.nextScope }
      { s with env := ρ.inside } := by
  have hnext : i.store.nextScope = L.scopes := h.store.scopes
  refine ⟨⟨h.distances, h.globals, h.hosts, h.store.addScope.elsewhere .., h.depth, h.clock, h.sink⟩, ?_, ?_⟩
  · show EnvLinked _ _ (env.enclose i.store.nextScope) _
    rw [hnext]
    exact henv.enter hS
  · rintro _ ⟨⟩ x c hc
    have hnone := L.cell_fresh (Nat.le_refl L.scopes) x
    rw [← hnext] at hnone
    exact absurd (hc.symm.trans hnone) nofun

theorem withStore (h : StateLinked L i s) {L' : Link} (hL : L.Le L') {σ : Store} {s' : State}
    (hσ : StoreLinked L' σ s') (hd : s'.depth = s.depth) (hc : s'.clock = s.clock)
    (hk : s'.sink = s.sink) : StateLinked L' { i with store := σ } s' :=
  ⟨hL.program ▸ h.distances, h.globals.trans hL.globals.symm, h.hosts, hσ, hd.trans h.depth,
    hc.trans h.clock, hk.trans h.sink⟩

theorem withDepth (h : StateLinked L i s) (d : Nat) :
    StateLinked L { i with depth := d } { s with depth := d } :=
  ⟨h.distances, h.globals, h.hosts, h.store.elsewhere .., rfl, h.clock, h.sink⟩

theorem withClock (h : StateLinked L i s) (c : Clock) :
    StateLinked L { i with clock := c } { s with clock := c } :=
  ⟨h.distances, h.globals, h.hosts, h.store.elsewhere .., h.depth, rfl, h.sink⟩

theorem withSink (h : StateLinked L i s) (k : Sink) :
    StateLinked L { i with sink := k } { s with sink := k } :=
  ⟨h.distances, h.globals, h.hosts, h.store.elsewhere .., h.depth, h.clock, rfl⟩

theorem withEnv (h : StateLinked L i s) (env : Lox.Env) (ρ : Env) :
    StateLinked L { i with env := env } { s with env := ρ } :=
  ⟨h.distances, h.globals, h.hosts, h.store.elsewhere .., h.depth, h.clock, h.sink⟩

end StateLinked

theorem Scene.freshIdentity {L : Link} {S : List Names} {i : Interpreter} {s : State} (h : Scene L S i s) :
    Scene L S { i with store := i.store.freshIdentity } { s with nextIdentity := s.nextIdentity + 1 } :=
  ⟨h.toStateLinked.withStore (.refl L) h.store.freshIdentity rfl rfl rfl, h.env, h.exact⟩

def inners : Lox.Stack → List ScopeId :=
  List.filterMap fun
    | .block _ saved => some saved.inner
    | _ => none

section

variable (L : Link)

/-- Frames that do the same with an outcome, at the given scopes. -/
inductive FrameLinked (S : List Names) : Lox.Frame → Frame → Prop
  | unary (op : Token) : FrameLinked S (.unary op) (.unary op)
  | binaryLeft (op : Token) {right : Expr} (h : At [L.program] (.expr right) S) :
      FrameLinked S (.binaryLeft op right) (.binaryLeft op right)
  | binaryRight {v : Lox.Value} {v' : Value} (h : ValueLinked L v v') (op : Token) :
      FrameLinked S (.binaryRight v op) (.binaryRight v' op)
  | logical (op : Token) {right : Expr} (h : At [L.program] (.expr right) S) :
      FrameLinked S (.logical op right) (.logical op right)
  | assign {ref : Ref} {e : Expr} (h : At [L.program] (.expr (.assign ref e)) S) :
      FrameLinked S (.assign ref) (.assign ref.name)
  | callee {arguments : List Expr} (h : At [L.program] (.exprs arguments) S) (paren : Token) :
      FrameLinked S (.callee arguments paren) (.callee arguments paren)
  | argument {f : Lox.Value} {f' : Value} {known : List Lox.Value} {known' : List Value}
      {rest : List Expr} (hf : ValueLinked L f f') (hk : List.Forall₂ (ValueLinked L) known known')
      (hr : At [L.program] (.exprs rest) S) (paren : Token) :
      FrameLinked S (.argument f known rest paren) (.argument f' known' rest paren)
  | get (name : Token) : FrameLinked S (.get name) (.get name)
  | setObject (name : Token) {value : Expr} (h : At [L.program] (.expr value) S) :
      FrameLinked S (.setObject name value) (.setObject name value)
  | setValue (object : ObjectId) (name : Token) :
      FrameLinked S (.setValue object name) (.setValue object name)
  | discard : FrameLinked S .discard .discard
  | print (line : Nat) : FrameLinked S (.print line) (.print line)
  | branch {yes : Stmt} {no : Option Stmt} (hy : At [L.program] (.stmt yes) S ∧ yes.declared? = none)
      (hn : ∀ s, no = some s → At [L.program] (.stmt s) S ∧ s.declared? = none) :
      FrameLinked S (.branch yes no) (.branch yes no)
  | test {e : Expr} {s : Stmt} (h : At [L.program] (.stmt (.loop e s)) S) :
      FrameLinked S (.test e s) (.test e s)
  | body {e : Expr} {s : Stmt} (h : At [L.program] (.stmt (.loop e s)) S) :
      FrameLinked S (.body e s) (.body e s)
  | ret : FrameLinked S .ret .ret
  | result {c : Lox.Closure} {c' : Closure} (h : ClosureLinked L c c') :
      FrameLinked S (.result c) (.result c')
  | construct (object : ObjectId) : FrameLinked S (.construct object) (.construct object)
  | leave : FrameLinked S .leave .leave

/-- Stacks that do the same with an outcome. The scopes to which they return are not those of the
moment, nor do two calls or blocks return to the same one. -/
inductive StackLinked : List Names → Lox.Stack → Stack → Prop
  | nil : StackLinked [] [] []
  | keep {S : List Names} {f : Lox.Frame} {f' : Frame} {k : Lox.Stack} {k' : Stack}
      (hf : FrameLinked L S f f') (hk : StackLinked S k k') : StackLinked S (f :: k) (f' :: k')
  | define {S : List Names} {name : Token} {k : Lox.Stack} {k' : Stack}
      (hx : ∀ n ∈ S.head?, n.find? name.lexeme ≠ some true)
      (hk : StackLinked (bindIn name.lexeme S) k k') :
      StackLinked S (.define name :: k) (.define name :: k')
  | block {S S' : List Names} {rest : List Stmt} {saved : Lox.Env} {saved' : Env} {k : Lox.Stack}
      {k' : Stack} (hr : At [L.program] (.stmts rest) S) (hs : EnvLinked L S' saved saved')
      (he : Exact L S' saved) (hi : saved.inner ∉ inners k) (hk : StackLinked S' k k') :
      StackLinked S (.block rest saved :: k) (.block rest saved' :: k')
  | program {rest : List Stmt} {k : Lox.Stack} {k' : Stack} (hr : At [L.program] (.stmts rest) [])
      (hk : StackLinked [] k k') : StackLinked [] (.program rest :: k) (.program rest :: k')

inductive FlowLinked : Lox.Flow → Flow → Prop
  | normal : FlowLinked .normal .normal
  | returned {v : Lox.Value} {v' : Value} (h : ValueLinked L v v') : FlowLinked (.returned v) (.returned v')

/-- A scene and stacks that can go on with an outcome of it. -/
structure Ready (S : List Names) (i : Interpreter) (s : State) (k : Lox.Stack) (k' : Stack) : Prop where
  scene : Scene L S i s
  inner : i.env.inner ∉ inners k
  stack : StackLinked L S k k'

end

end Lox.Lexical
