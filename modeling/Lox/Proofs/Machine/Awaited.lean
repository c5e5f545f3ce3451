import Lox.Proofs.Machine.ScopedStep
import Lox.Proofs.Scope.Legal

namespace Lox

open Scope

namespace Scope

theorem At.freshAll_stmts {H : List Accepted} {ss : List Stmt} {S : List Names} (h : At H (.stmts ss) S) :
    FreshAll S (ss.filterMap Stmt.declared?) := by
  induction ss generalizing S with
  | nil => trivial
  | cons s ss ih => exact freshAll_declared.2 ⟨fun t ht ↦ h.stmts.1.fresh ht, ih h.stmts.2⟩

theorem At.nodup_function {H : List Accepted} {d : FunctionDecl} {S : List Names}
    (h : At H (.function d) S) : (d.params.map Token.lexeme ++ declaredIn d.body).Nodup := by
  have hall := freshAll_append.2 ⟨h.freshAll, h.body.freshAll_stmts⟩
  rwa [freshAll_enter, List.map_append] at hall

theorem At.nodup_block {H : List Accepted} {body : List Stmt} {S : List Names}
    (h : At H (.stmt (.block body)) S) : (declaredIn body).Nodup :=
  freshAll_enter.1 h.block.freshAll_stmts

theorem declaredIn_cons (s : Stmt) (ss : List Stmt) :
    declaredIn (s :: ss) = (s.declared?.map Token.lexeme).toList ++ declaredIn ss := by
  rw [declaredIn, List.filterMap_cons]
  cases s.declared? <;> rfl

end Scope

/-- The names that the frames are still to bind in the innermost scope. -/
def Stack.awaited : Stack → List String
  | [] => []
  | frame :: k =>
    match frame with
    | .define name => name.lexeme :: awaited k
    | .block rest _ => declaredIn rest
    | _ => awaited k

def Control.awaited : Control → List String
  | .exec s => (s.declared?.map Token.lexeme).toList
  | _ => []

/-- The innermost scope, if it is a local one, has none of the names yet; they are all different. -/
def Store.Lacks (σ : Store) (env : Env) (names : List String) : Prop :=
  env.outer ≠ [] → names.Nodup ∧ ∀ x ∈ names, σ.contains env.inner x = false

/-- The scopes to which the blocks of a stack return, each with the names that it still lacks. A scope is
older than those entered after it. -/
def Stack.Lacks (σ : Store) : Env → Stack → Prop
  | _, [] => True
  | env, frame :: k =>
    match frame with
    | .block _ saved => saved.inner < env.inner ∧ σ.Lacks saved (Stack.awaited k) ∧ Stack.Lacks σ saved k
    | _ => Stack.Lacks σ env k

def Interpreter.Awaits (i : Interpreter) (names : List String) (k : Stack) : Prop :=
  i.env.inner < i.store.scopes.size ∧ i.store.Lacks i.env (names ++ k.awaited) ∧ k.Lacks i.store i.env

/-- No name is bound in a local scope before its declaration. -/
def Machine.Awaits (m : Machine) : Prop := m.state.Awaits m.control.awaited m.stack

/-- The scopes with smaller ids have the same names. -/
def Store.SameBelow (n : Nat) (σ σ' : Store) : Prop :=
  ∀ id < n, ∀ x, σ'.contains id x = σ.contains id x

section

variable {σ σ' : Store} {env : Env} {names : List String} {n : Nat} {k : Stack}

theorem Store.Lacks.mono (h : σ.Lacks env names) (hσ : σ.SameBelow n σ') (hn : env.inner < n) :
    σ'.Lacks env names := by
  intro houter
  obtain ⟨hd, hx⟩ := h houter
  exact ⟨hd, fun x hm ↦ (hσ env.inner hn x).trans (hx x hm)⟩

theorem Stack.Lacks.mono (h : Stack.Lacks σ env k) (hσ : σ.SameBelow n σ') (hn : env.inner ≤ n) :
    Stack.Lacks σ' env k := by
  induction k generalizing env with
  | nil => trivial
  | cons frame k ih =>
    cases frame with
    | block rest saved =>
      obtain ⟨hlt, hsaved, hk⟩ := h
      have hn : saved.inner < n := Nat.lt_of_lt_of_le hlt hn
      exact ⟨hlt, hsaved.mono hσ hn, ih hk (Nat.le_of_lt hn)⟩
    | _ => exact ih h hn

theorem Store.sameBelow_addScope (σ : Store) (b : Bindings Value) :
    σ.SameBelow σ.scopes.size (σ.addScope b) := by
  intro id hid x
  have hne : id ≠ σ.nextScope := Nat.ne_of_lt hid
  rw [contains_eq, contains_eq, read?_addScope, if_neg hne]

theorem Store.sameBelow_define (σ : Store) (id : ScopeId) (x : String) (v : Value) :
    σ.SameBelow id (σ.define id x v) := by
  intro id' hid y
  rw [contains_eq, contains_eq, read?_define, if_neg fun h ↦ Nat.ne_of_lt hid h.1]

theorem Store.sameBelow_assign {id : ScopeId} {x : String} (h : σ.contains id x = true) (v : Value)
    (n : Nat) : σ.SameBelow n (σ.define id x v) := by
  intro id' _ y
  rw [contains_eq, contains_eq, read?_define]
  split
  · next heq =>
    obtain ⟨rfl, rfl, -⟩ := heq
    exact h.symm
  · rfl

end

namespace Interpreter.Awaits

variable {i : Interpreter} {names : List String} {k : Stack}

theorem withStore (h : i.Awaits names k) {σ : Store} (hσ : i.store.SameBelow i.store.scopes.size σ)
    (hsize : i.store.scopes.size ≤ σ.scopes.size) : Awaits { i with store := σ } names k :=
  ⟨Nat.lt_of_lt_of_le h.1 hsize, h.2.1.mono hσ h.1, h.2.2.mono hσ (Nat.le_of_lt h.1)⟩

theorem freshIdentity (h : i.Awaits names k) : Awaits { i with store := i.store.freshIdentity } names k :=
  h.withStore (fun _ _ _ ↦ rfl) (Nat.le_refl _)

theorem sublist {names' : List String} {k' : Stack} (h : i.Awaits names k)
    (hn : (names' ++ Stack.awaited k').Sublist (names ++ k.awaited)) (hk : Stack.Lacks i.store i.env k') :
    i.Awaits names' k' := by
  refine ⟨h.1, fun houter ↦ ?_, hk⟩
  obtain ⟨hd, hlacks⟩ := h.2.1 houter
  exact ⟨hd.sublist hn, fun x hx ↦ hlacks x (hn.subset hx)⟩

theorem forget (h : i.Awaits names k) : i.Awaits [] k := h.sublist (List.sublist_append_right ..) h.2.2

theorem define {x : String} (h : i.Awaits (x :: names) k) (v : Value) :
    (i.define x v).Awaits names k := by
  have hσ := i.store.sameBelow_define i.env.inner x v
  refine ⟨?_, fun houter ↦ ?_, h.2.2.mono hσ (Nat.le_refl _)⟩
  · exact Nat.lt_of_lt_of_le h.1 (i.store.le_define _ x v).size
  · obtain ⟨hd, hlacks⟩ := h.2.1 houter
    obtain ⟨hx, hd⟩ := List.nodup_cons.1 hd
    refine ⟨hd, fun y hy ↦ ?_⟩
    have hne : y ≠ x := by
      rintro rfl
      exact hx hy
    have hnone := hlacks y (List.mem_cons_of_mem _ hy)
    rw [Store.contains_eq] at hnone ⊢
    rwa [Interpreter.define, Store.read?_define, if_neg fun heq ↦ hne heq.2.1]

end Interpreter.Awaits

namespace Machine

variable {i : Interpreter} {k : Stack}

theorem enterBlock_awaits (h : i.Awaits [] k) {env : Env} {b : Bindings Value} {body : List Stmt}
    (hbody : (declaredIn body).Nodup) (hb : ∀ x ∈ declaredIn body, b.contains x = false) :
    Awaits (enterBlock i k env b body) := by
  have hσ := i.store.sameBelow_addScope b
  refine ⟨?_, fun _ ↦ ⟨hbody, fun x hx ↦ ?_⟩, h.1, h.2.1.mono hσ h.1, ?_⟩
  · exact Nat.lt_of_lt_of_eq (Nat.lt_succ_self _) (i.store.size_addScope b).symm
  · show (i.store.addScope b).contains i.store.nextScope x = false
    rw [Store.contains_eq, Store.read?_addScope, if_pos rfl]
    exact hb x hx
  · exact h.2.2.mono hσ (Nat.le_of_lt h.1)

section

variable {W : World}

/-- A call binds the parameters of a function and none of the names that its body declares. -/
theorem enterClosure_awaits (h : i.Awaits [] k) {c : Closure} {S : List Names}
    (hc : W.At (.function c.decl) S) (vs : List Value) : Awaits (enterClosure i k c vs) := by
  have hnodup := List.nodup_append.1 hc.nodup_function
  have hk : i.Awaits [] (.result c :: k) := h
  refine enterBlock_awaits hk hnodup.2.1 fun x hx ↦ ?_
  have hnone : (parameterScope c.decl.params vs).find? x = none :=
    find?_parameterScope_eq_none fun t ht ↦ hnodup.2.2 t.lexeme (List.mem_map_of_mem ht) x hx
  rw [Bindings.contains, hnone]
  rfl

theorem bindMethod_awaits (h : i.Awaits [] k) (m : Closure) (o : ObjectId) : Awaits (bindMethod i k m o) :=
  h.withStore (i.store.sameBelow_addScope (thisScope o)) (i.store.le_addScope _).size

theorem construct_awaits (h : i.Awaits [] k) {c : Class} (hc : c.Fits W) (vs : List Value) :
    Awaits (construct i k c vs) := by
  unfold construct
  cases hinit : c.initializer? with
  | none => exact h.withStore (fun _ _ _ ↦ rfl) (Nat.le_refl _)
  | some m =>
    obtain ⟨S, hm, -⟩ := hc.findMethod? hinit
    let b := thisScope i.store.nextObject
    have hthis : Interpreter.Awaits { i with store := (i.store.addObject c).addScope b } []
        (.construct i.store.nextObject :: k) :=
      h.withStore (i.store.sameBelow_addScope b) (i.store.le_addScope b).size
    exact enterClosure_awaits (c := bound m i.store.nextScope) hthis hm vs

theorem invoke_awaits (h : i.Awaits [] k) {c : Callable} (hc : (Value.callable c).Fits W) (vs : List Value)
    (line : Nat) : Awaits (invoke i k c vs line) := by
  have hcall : Interpreter.Awaits { i with depth := i.depth + 1 } [] (.leave :: k) := h
  cases c with
  | native f => exact h
  | function id c =>
    rw [invoke]
    split
    · exact h
    · obtain ⟨S, hplace, -⟩ := Closure.Fits.place hc
      exact enterClosure_awaits hcall hplace vs
  | cls c =>
    rw [invoke]
    split
    · exact h
    · exact construct_awaits hcall hc vs

theorem apply_awaits (h : i.Awaits [] k) {f : Value} (hf : f.Fits W) (vs : List Value) (paren : Token) :
    Awaits (apply i k f vs paren) := by
  unfold apply
  split
  · split
    · exact invoke_awaits h hf vs _
    · exact h
  · exact h

end

theorem property_awaits (h : i.Awaits [] k) (o : ObjectId) (name : Token) :
    Awaits (property i k o name) := by
  unfold property
  split
  · exact h
  · split
    · exact h
    · split
      · exact bindMethod_awaits h _ o
      · exact h

theorem superMethod_awaits (h : i.Awaits [] k) (ref : Ref) (name : Token) :
    Awaits (superMethod i k ref name) := by
  unfold superMethod
  split
  · exact h
  split
  · exact h
  · split
    · exact h
    · split
      · exact bindMethod_awaits h _ _
      · exact h
    · exact h
  · exact h

theorem declareClass_awaits {name : Token} (h : i.Awaits [name.lexeme] k) (o : Option Ref)
    (ds : List FunctionDecl) : Awaits (declareClass i k name o ds) := by
  cases o with
  | none => exact h.freshIdentity.define _
  | some ref =>
    rw [declareClass]
    split
    · exact h.forget
    · next c _ =>
      have hsuper := h.withStore (i.store.sameBelow_addScope (superScope c)) (i.store.le_addScope _).size
      exact hsuper.freshIdentity.define _
    · exact h.forget

theorem eval_awaits (h : i.Awaits [] k) (e : Expr) : Awaits (eval i k e) := by
  have hlookup (ref : Ref) : Awaits (eval i k (.var ref)) := by
    rw [eval]
    split <;> exact h
  cases e with
  | var ref => exact hlookup ref
  | this ref => exact hlookup ref
  | super ref method => exact superMethod_awaits h ref method
  | _ => exact h

theorem exec_awaits {W : World} {S : List Names} {s : Stmt} (hs : W.At (.stmt s) S)
    (h : i.Awaits (Control.exec s).awaited k) : Awaits (exec i k s) := by
  cases s with
  | var name initial =>
    cases initial with
    | none => exact h.define .nil
    | some e => exact h
  | block body => exact enterBlock_awaits h hs.nodup_block fun _ _ ↦ rfl
  | function decl => exact h.freshIdentity.define _
  | ret keyword value => cases value <;> exact h
  | classDecl name superclass methods => exact declareClass_awaits h superclass methods
  | _ => exact h

end Machine

theorem World.Agrees.outer_eq_nil {W : World} {env : Env} (h : W.Agrees env []) : env.outer = [] := by
  have hlen := h.length_eq
  exact List.eq_nil_of_length_eq_zero (Nat.succ.inj hlen)

namespace Machine

variable {i : Interpreter} {k : Stack} {S : List Names}

theorem resume_awaits {W : World} {v : Value} (hv : v.Fits W) {frame : Frame}
    (hs : Stack.Fits W i.env S (frame :: k)) (h : i.Awaits [] (frame :: k)) {m : Machine}
    (hm : resume i k v frame = some m) : m.Awaits := by
  have hexec {s : Stmt} {l : Stack} (hs : s.declared? = none) (h : i.Awaits [] l) : Awaits ⟨.exec s, l, i⟩ := by
    have hnone : (Control.exec s).awaited = [] := by rw [Control.awaited, hs]; rfl
    rw [Awaits, hnone]
    exact h
  cases resumed hm with
  | unary op | binaryRight left op =>
    unfold ofExcept
    split <;> exact h
  | assign ref id hid =>
    have hσ := Store.sameBelow_assign (i.contains_of_target? hid) v i.store.scopes.size
    exact Interpreter.Awaits.withStore h hσ (i.store.le_define ..).size
  | callee paren => exact apply_awaits (k := k) h hv [] paren
  | lastArgument f known paren =>
    cases hs with
    | keep hf => exact apply_awaits (k := k) h hf.1 _ paren
  | get o name => exact property_awaits (k := k) h o name
  | setValue => exact Interpreter.Awaits.withStore (k := k) h (fun _ _ _ ↦ rfl) (Nat.le_refl _)
  | define name => exact Interpreter.Awaits.define (k := k) h v
  | yes =>
    cases hs with
    | keep hf => exact hexec hf.1.2 h
  | no yes no =>
    cases hs with
    | keep hf => exact hexec (hf.2 no rfl).2 h
  | again test body =>
    cases hs with
    | keep hf =>
      have hp : (Stmt.loop test body).All proper := hf.all
      exact hexec hp.1 h
  | _ => exact h

theorem finish_awaits {W : World} (ha : W.Agrees i.env S) {flow : Flow} {frame : Frame}
    (hs : Stack.Fits W i.env S (frame :: k)) (h : i.Awaits [] (frame :: k)) {m : Machine}
    (hm : finish i k flow frame = some m) : m.Awaits := by
  cases finished hm with
  | next s rest =>
    refine ⟨h.1, ?_, h.2.2⟩
    have henv : i.store.Lacks i.env (declaredIn (s :: rest)) := h.2.1
    rwa [declaredIn_cons] at henv
  | block =>
    obtain ⟨hlt, hlacks, hk⟩ := h.2.2
    exact ⟨Nat.lt_trans hlt h.1, hlacks, hk⟩
  | nextOuter =>
    cases hs with
    | keep hf => exact hf.elim
    | program => exact ⟨h.1, fun houter ↦ absurd ha.outer_eq_nil houter, h.2.2⟩
  | _ => exact h

theorem unwind_awaits {frame : Frame} (h : i.Awaits [] (frame :: k)) (f : Fault) :
    Awaits (unwind i k f frame) := by
  cases frame with
  | block rest saved =>
    obtain ⟨hlt, hlacks, hk⟩ := h.2.2
    exact ⟨Nat.lt_trans hlt h.1, hlacks, hk⟩
  | define name => exact h.sublist (List.sublist_cons_self ..) h.2.2
  | _ => exact h

theorem step_awaits {A : List Accepted} {m m' : Machine} (hf : m.Fits A) (h : m.Awaits)
    (hm : m.step = some m') : m'.Awaits := by
  obtain ⟨control, k, i⟩ := m
  obtain ⟨hi, hc⟩ := hf
  cases stepped hm with
  | eval _ e => exact eval_awaits h e
  | exec =>
    obtain ⟨S, hs, -⟩ := hc
    exact exec_awaits hs h
  | value hm =>
    obtain ⟨hv, S, -, hk⟩ := hc
    exact resume_awaits hv hk h hm
  | done hm =>
    obtain ⟨-, S, ha, hk⟩ := hc
    exact finish_awaits ha hk h hm
  | fault _ f => exact unwind_awaits h f
  | act =>
    obtain ⟨hp, -⟩ := hc
    cases hp <;> exact h

end Machine

/-- A name that is declared but not defined yet is awaited. -/
theorem Stack.Fits.mem_awaited {W : World} {env : Env} {S : List Names} {k : Stack} (h : Stack.Fits W env S k)
    {x : String} (hx : Pending S x) : x ∈ k.awaited := by
  induction h with
  | nil | program =>
    obtain ⟨_, ⟨⟩, -⟩ := hx
  | @keep _ _ frame _ hf _ ih =>
    cases frame with
    | define | block => exact hf.elim
    | _ => exact ih hx
  | @define _ S name _ _ ih =>
    obtain ⟨s, hs, hx⟩ := hx
    by_cases hne : x = name.lexeme
    · exact hne ▸ List.mem_cons_self ..
    · refine List.mem_cons_of_mem _ (ih ?_)
      cases S with
      | nil => cases hs
      | cons s' S =>
        cases hs
        exact ⟨_, rfl, by rw [Bindings.find?_insert, if_neg hne, hx]⟩
  | block hr =>
    obtain ⟨a, -, _, _, hv, rfl⟩ := hr
    have hsettled : Settled _ := Accepted.settles hv
    exact absurd hx (hsettled.not_pending x)

/-- A name that is declared but not defined yet is not bound. -/
theorem Interpreter.Awaits.unbound {A : List Accepted} {i : Interpreter} {k : Stack} {S : List Names}
    {names : List String} (h : i.Awaits names k) (hk : (i.world A).Ready i.env S k) {x : String}
    (hx : Pending S x) : i.store.contains i.env.inner x = false := by
  obtain ⟨-, henv, -⟩ := h
  have houter : i.env.outer ≠ [] := by
    intro houter
    have hlen := hk.1.length_eq
    rw [Env.chain, houter] at hlen
    rw [List.eq_nil_of_length_eq_zero (Nat.succ.inj hlen).symm] at hx
    obtain ⟨_, ⟨⟩, -⟩ := hx
  exact (henv houter).2 x (List.mem_append_right _ (hk.2.mem_awaited hx))

end Lox
