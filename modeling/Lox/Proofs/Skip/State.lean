import Lox.Machine.Basic
import Lox.Proofs.Skip.Linked

namespace Lox.Skip

/-- Where two runs come to the end of what they have in common: in these environments, and the first with
these frames left. -/
structure Bottom where
  left : Env
  right : Env
  below : Stack

section

variable (D : Distances) (L : Link)

/-- Interpreters that agree in everything but the scopes in which they run. -/
structure StateLinked (i i' : Interpreter) : Prop where
  distances : i.distances = D ∧ i'.distances = D
  store : StoreLinked D L i.store i'.store
  globals : L.rel i.globals i'.globals
  depth : i'.depth = i.depth
  hosts : i'.hosts = i.hosts
  uniform : ∀ f ∈ i.hosts, Uniform D f
  clock : i'.clock = i.clock
  sink : i'.sink = i.sink

/-- Interpreters that run the same code across a gap. -/
structure Scene (g : Gap) (i i' : Interpreter) : Prop extends StateLinked D L i i' where
  env : EnvLinked L g i.env i'.env

inductive FlowLinked : Flow → Flow → Prop
  | normal : FlowLinked .normal .normal
  | returned {v v' : Value} (h : ValueLinked D L v v') : FlowLinked (.returned v) (.returned v')

/-- Frames that do the same with an outcome, across a gap. -/
inductive FrameLinked (g : Gap) : Frame → Frame → Prop
  | unary (op : Token) : FrameLinked g (.unary op) (.unary op)
  | binaryLeft (op : Token) {e e' : Expr} (h : ExprLinked D g e e') :
      FrameLinked g (.binaryLeft op e) (.binaryLeft op e')
  | binaryRight (op : Token) {v v' : Value} (h : ValueLinked D L v v') :
      FrameLinked g (.binaryRight v op) (.binaryRight v' op)
  | logical (op : Token) {e e' : Expr} (h : ExprLinked D g e e') :
      FrameLinked g (.logical op e) (.logical op e')
  | assign {ref ref' : Ref} (h : RefLinked D g ref ref') : FrameLinked g (.assign ref) (.assign ref')
  | callee (paren : Token) {es es' : List Expr} (h : List.Forall₂ (ExprLinked D g) es es') :
      FrameLinked g (.callee es paren) (.callee es' paren)
  | argument (paren : Token) {f f' : Value} {known known' : List Value} {es es' : List Expr}
      (hf : ValueLinked D L f f') (hk : List.Forall₂ (ValueLinked D L) known known')
      (hes : List.Forall₂ (ExprLinked D g) es es') :
      FrameLinked g (.argument f known es paren) (.argument f' known' es' paren)
  | get (name : Token) : FrameLinked g (.get name) (.get name)
  | setObject (name : Token) {e e' : Expr} (h : ExprLinked D g e e') :
      FrameLinked g (.setObject name e) (.setObject name e')
  | setValue (object : ObjectId) (name : Token) :
      FrameLinked g (.setValue object name) (.setValue object name)
  | discard : FrameLinked g .discard .discard
  | print (line : Nat) : FrameLinked g (.print line) (.print line)
  | define (name : Token) (hg : g ≠ .out 0) : FrameLinked g (.define name) (.define name)
  | branch {y y' : Stmt} {n n' : Option Stmt} (hy : StmtLinked D g y y')
      (hn : Option.Rel (StmtLinked D g) n n') : FrameLinked g (.branch y n) (.branch y' n')
  | test {e e' : Expr} {s s' : Stmt} (he : ExprLinked D g e e') (hs : StmtLinked D g s s') :
      FrameLinked g (.test e s) (.test e' s')
  | body {e e' : Expr} {s s' : Stmt} (he : ExprLinked D g e e') (hs : StmtLinked D g s s') :
      FrameLinked g (.body e s) (.body e' s')
  | ret : FrameLinked g .ret .ret
  | program {ss ss' : List Stmt} (h : StmtsLinked D g ss ss') : FrameLinked g (.program ss) (.program ss')
  | result {c c' : Closure} (h : ClosureLinked D L c c') : FrameLinked g (.result c) (.result c')
  | construct (object : ObjectId) : FrameLinked g (.construct object) (.construct object)
  | leave : FrameLinked g .leave .leave
  | host (line : Nat) {next next' : Except Fault Value → Action}
      (hok : ∀ {L' v v'}, L.Le L' → ValueLinked D L' v v' → ActionLinked D L' (next (.ok v)) (next' (.ok v')))
      (herror : ∀ {L'} f, L.Le L' → ActionLinked D L' (next (.error f)) (next' (.error f))) :
      FrameLinked g (.host line next) (.host line next')

/-- Stacks that do the same with an outcome that comes from the given environments, down to the given
bottom. -/
inductive StackLinked (B : Bottom) : Gap → Env → Env → Stack → Stack → Prop
  | nil {g : Gap} {env env' : Env} {k : Stack} (h : env = B.left) (h' : env' = B.right)
      (hk : k = B.below) : StackLinked B g env env' k []
  | frame {g : Gap} {env env' : Env} {f f' : Frame} {k k' : Stack} (hf : FrameLinked D L g f f')
      (hk : StackLinked B g env env' k k') : StackLinked B g env env' (f :: k) (f' :: k')
  | block {g g' : Gap} {env env' saved saved' : Env} {ss ss' : List Stmt} {k k' : Stack}
      (hs : StmtsLinked D g ss ss') (henv : EnvLinked L g' saved saved')
      (hk : StackLinked B g' saved saved' k k') :
      StackLinked B g env env' (.block ss saved :: k) (.block ss' saved' :: k')

/-- A scene and stacks that can go on with an outcome of it. -/
structure Ready (B : Bottom) (g : Gap) (i i' : Interpreter) (k k' : Stack) : Prop where
  scene : Scene D L g i i'
  stack : StackLinked D L B g i.env i'.env k k'

end

/-- Machines that are about to do the same. -/
inductive MachineLinked (D : Distances) (B : Bottom) (L : Link) : Machine → Machine → Prop
  | eval {g : Gap} {e e' : Expr} {k k' : Stack} {i i' : Interpreter} (he : ExprLinked D g e e')
      (h : Ready D L B g i i' k k') : MachineLinked D B L ⟨.eval e, k, i⟩ ⟨.eval e', k', i'⟩
  | exec {g : Gap} {s s' : Stmt} {k k' : Stack} {i i' : Interpreter} (hs : StmtLinked D g s s')
      (h : Ready D L B g i i' k k') : MachineLinked D B L ⟨.exec s, k, i⟩ ⟨.exec s', k', i'⟩
  | value {g : Gap} {v v' : Value} {k k' : Stack} {i i' : Interpreter} (hv : ValueLinked D L v v')
      (h : Ready D L B g i i' k k') : MachineLinked D B L ⟨.value v, k, i⟩ ⟨.value v', k', i'⟩
  | done {g : Gap} {f f' : Flow} {k k' : Stack} {i i' : Interpreter} (hf : FlowLinked D L f f')
      (h : Ready D L B g i i' k k') : MachineLinked D B L ⟨.done f, k, i⟩ ⟨.done f', k', i'⟩
  | fault {g : Gap} (f : Fault) {k k' : Stack} {i i' : Interpreter} (h : Ready D L B g i i' k k') :
      MachineLinked D B L ⟨.fault f, k, i⟩ ⟨.fault f, k', i'⟩
  | act {g : Gap} (line : Nat) {a a' : Action} {k k' : Stack} {i i' : Interpreter}
      (ha : ActionLinked D L a a') (h : Ready D L B g i i' k k') :
      MachineLinked D B L ⟨.act line a, k, i⟩ ⟨.act line a', k', i'⟩

def Later (D : Distances) (B : Bottom) (L : Link) (m m' : Machine) : Prop :=
  ∃ L', L.Le L' ∧ MachineLinked D B L' m m'

theorem MachineLinked.now {D : Distances} {B : Bottom} {L : Link} {m m' : Machine}
    (h : MachineLinked D B L m m') : Later D B L m m' := ⟨L, .refl L, h⟩

theorem Later.of_le {D : Distances} {B : Bottom} {L L' : Link} {m m' : Machine} (hL : L.Le L')
    (h : Later D B L' m m') : Later D B L m m' := by
  obtain ⟨L'', hL', h⟩ := h
  exact ⟨L'', hL.trans hL', h⟩

section

variable {D : Distances} {L L' : Link} {B : Bottom} {g : Gap}

theorem FrameLinked.mono {f f' : Frame} (h : FrameLinked D L g f f') (hL : L.Le L') :
    FrameLinked D L' g f f' := by
  cases h with
  | binaryRight op h => exact .binaryRight op (h.mono hL)
  | argument paren hf hk hes => exact .argument paren (hf.mono hL) (hk.imp fun _ _ ↦ .mono hL) hes
  | result h => exact .result (h.mono hL)
  | host line hok herror =>
    exact .host line (fun hL' ↦ hok (hL.trans hL')) fun f hL' ↦ herror f (hL.trans hL')
  | unary op => exact .unary op
  | binaryLeft op h => exact .binaryLeft op h
  | logical op h => exact .logical op h
  | assign h => exact .assign h
  | callee paren h => exact .callee paren h
  | get name => exact .get name
  | setObject name h => exact .setObject name h
  | setValue object name => exact .setValue object name
  | discard => exact .discard
  | print line => exact .print line
  | define name hg => exact .define name hg
  | branch hy hn => exact .branch hy hn
  | test he hs => exact .test he hs
  | body he hs => exact .body he hs
  | ret => exact .ret
  | program h => exact .program h
  | construct object => exact .construct object
  | leave => exact .leave

theorem StackLinked.mono {env env' : Env} {k k' : Stack} (h : StackLinked D L B g env env' k k')
    (hL : L.Le L') : StackLinked D L' B g env env' k k' := by
  induction h with
  | nil h h' hk => exact .nil h h' hk
  | frame hf _ ih => exact .frame (hf.mono hL) ih
  | block hs henv _ ih => exact .block hs (ChainLinked.mono henv hL) ih

variable {i i' : Interpreter} {k k' : Stack}

namespace StateLinked

theorem withEnv (h : StateLinked D L i i') (env env' : Env) :
    StateLinked D L { i with env := env } { i' with env := env' } :=
  ⟨h.distances, h.store, h.globals, h.depth, h.hosts, h.uniform, h.clock, h.sink⟩

theorem withStore (h : StateLinked D L i i') (hL : L.Le L') {σ σ' : Store} (hσ : StoreLinked D L' σ σ') :
    StateLinked D L' { i with store := σ } { i' with store := σ' } :=
  ⟨h.distances, hσ, hL.rel h.globals, h.depth, h.hosts, h.uniform, h.clock, h.sink⟩

theorem addLeft (h : StateLinked D L i i') :
    StateLinked D L.addLeft { i with store := i.store.addScope .empty } i' :=
  ⟨h.distances, h.store.addLeft .empty, h.globals, h.depth, h.hosts, h.uniform, h.clock, h.sink⟩

theorem addRight (h : StateLinked D L i i') :
    StateLinked D L.addRight i { i' with store := i'.store.addScope .empty } :=
  ⟨h.distances, h.store.addRight .empty, h.globals, h.depth, h.hosts, h.uniform, h.clock, h.sink⟩

theorem uniform_host (h : StateLinked D L i i') (f : Native) : Uniform D (i.host f) := by
  rw [Interpreter.host, Array.getD_eq_getD_getElem?]
  cases hf : i.hosts[f.id]? with
  | none => exact fun _ ↦ .done .nil
  | some g => exact h.uniform g (Array.mem_of_getElem? hf)

end StateLinked

namespace Scene

theorem inner (h : Scene D L g i i') (hg : g ≠ .out 0) : L.rel i.env.inner i'.env.inner := by
  have hinner := ChainLinked.getElem? h.env (.zero hg)
  simpa [Env.chain] using hinner

theorem target? (h : Scene D L g i i') {ref ref' : Ref} (hr : RefLinked D g ref ref') :
    Option.Rel L.rel (i.target? ref) (i'.target? ref') := by
  have hd := hr.distance
  rw [Interpreter.target?, Interpreter.target?, h.distances.1, h.distances.2, hr.name]
  generalize D.find? ref.id = o at hd ⊢
  generalize D.find? ref'.id = o' at hd ⊢
  cases hd with
  | some hd => exact h.store.locateAt? h.env hd _
  | none =>
    simp only [Store.locate?, Interpreter.globalEnv, Env.chain, List.find?_singleton]
    rw [h.store.contains_eq h.globals]
    split
    · exact .some h.globals
    · exact .none

theorem read? (h : Scene D L g i i') {ref ref' : Ref} (hr : RefLinked D g ref ref') :
    Option.Rel (ValueLinked D L) ((i.target? ref).bind (i.store.read? · ref.name.lexeme))
      ((i'.target? ref').bind (i'.store.read? · ref'.name.lexeme)) := by
  have hid := h.target? hr
  rw [hr.name]
  generalize i.target? ref = o at hid ⊢
  generalize i'.target? ref' = o' at hid ⊢
  cases hid with
  | none => exact .none
  | some hid => exact h.store.scopes hid _

end Scene

namespace Ready

theorem bottom (h : Ready D L B g i i' k []) : k = B.below ∧ i.env = B.left ∧ i'.env = B.right := by
  cases h.stack with
  | nil henv henv' hk => exact ⟨hk, henv, henv'⟩

theorem push (h : Ready D L B g i i' k k') {f f' : Frame} (hf : FrameLinked D L g f f') :
    Ready D L B g i i' (f :: k) (f' :: k') := ⟨h.scene, .frame hf h.stack⟩

theorem update (h : Ready D L B g i i' k k') (hL : L.Le L') {j j' : Interpreter}
    (hs : StateLinked D L' j j') (henv : j.env = i.env) (henv' : j'.env = i'.env) :
    Ready D L' B g j j' k k' := by
  refine ⟨⟨hs, ?_⟩, ?_⟩
  · rw [henv, henv']
    exact ChainLinked.mono h.scene.env hL
  · rw [henv, henv']
    exact h.stack.mono hL

theorem withStore (h : Ready D L B g i i' k k') (hL : L.Le L') {σ σ' : Store}
    (hσ : StoreLinked D L' σ σ') :
    Ready D L' B g { i with store := σ } { i' with store := σ' } k k' :=
  h.update hL (h.scene.toStateLinked.withStore hL hσ) rfl rfl

theorem withDepth (h : Ready D L B g i i' k k') (d : Nat) :
    Ready D L B g { i with depth := d } { i' with depth := d } k k' :=
  have hs := h.scene
  h.update (.refl L) ⟨hs.distances, hs.store, hs.globals, rfl, hs.hosts, hs.uniform, hs.clock, hs.sink⟩ rfl rfl

theorem withClock (h : Ready D L B g i i' k k') (c : Clock) :
    Ready D L B g { i with clock := c } { i' with clock := c } k k' :=
  have hs := h.scene
  h.update (.refl L) ⟨hs.distances, hs.store, hs.globals, hs.depth, hs.hosts, hs.uniform, rfl, hs.sink⟩ rfl rfl

theorem withSink (h : Ready D L B g i i' k k') (s : Sink) :
    Ready D L B g { i with sink := s } { i' with sink := s } k k' :=
  have hs := h.scene
  h.update (.refl L) ⟨hs.distances, hs.store, hs.globals, hs.depth, hs.hosts, hs.uniform, hs.clock, rfl⟩ rfl rfl

theorem define (h : Ready D L B g i i' k k') (hg : g ≠ .out 0) (x : String) {v v' : Value}
    (hv : ValueLinked D L v v') : Ready D L B g (i.define x v) (i'.define x v') k k' :=
  h.withStore (.refl L) (h.scene.store.define (h.scene.inner hg) x hv)

end Ready

end

end Lox.Skip
