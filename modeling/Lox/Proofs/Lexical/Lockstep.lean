import Lox.Proofs.Lexical.Call

namespace Lox.Lexical

open Scope

/-- Outcomes of an operator. -/
inductive OutcomeLinked (L : Link) : Except FaultCause Lox.Value → Except FaultCause Value → Prop
  | ok {v : Lox.Value} {v' : Value} (h : ValueLinked L v v') : OutcomeLinked L (.ok v) (.ok v')
  | error (cause : FaultCause) : OutcomeLinked L (.error cause) (.error cause)

section

variable {L : Link} {v w : Lox.Value} {v' w' : Value}

theorem ClassLinked.id_eq {c : Lox.Class} {c' : Class} (h : ClassLinked L c c') : c'.id = c.id := by
  cases h <;> rfl

theorem ClassLinked.name_eq {c : Lox.Class} {c' : Class} (h : ClassLinked L c c') : c'.name = c.name := by
  cases h <;> rfl

theorem ValueLinked.isTruthy_eq (h : ValueLinked L v v') : v'.isTruthy = v.isTruthy := by
  cases h <;> rfl

theorem ValueLinked.decides_eq (h : ValueLinked L v v') (op : Kind) : v'.decides op = v.decides op := by
  have htruthy := h.isTruthy_eq
  cases op with
  | keyword word => cases word <;> simp only [Value.decides, Lox.Value.decides, htruthy]
  | _ => simp only [Value.decides, Lox.Value.decides, htruthy]

theorem ValueLinked.same_eq (hv : ValueLinked L v v') (hw : ValueLinked L w w') :
    v'.same w' = v.same w := by
  cases hv with
  | cls hc =>
    cases hw with
    | cls hd =>
      show (_ == _) = (_ == _)
      rw [hc.id_eq, hd.id_eq]
    | _ => rfl
  | _ => cases hw <;> rfl

theorem unary_linked (h : ValueLinked L v v') (op : Kind) : OutcomeLinked L (v.unary op) (v'.unary op) := by
  by_cases hminus : op = .mark .minus
  · subst hminus
    cases h with
    | number x => exact .ok (.number (-x))
    | _ => exact .error _
  · by_cases hbang : op = .mark .bang
    · subst hbang
      have heq : v.unary (.mark .bang) = .ok (.bool !v.isTruthy) := by cases v <;> rfl
      have heq' : v'.unary (.mark .bang) = .ok (.bool !v'.isTruthy) := by cases v' <;> rfl
      rw [heq, heq', h.isTruthy_eq]
      exact .ok (.bool _)
    · unfold Lox.Value.unary Value.unary
      grind [OutcomeLinked.error]

theorem plus_linked (hv : ValueLinked L v v') (hw : ValueLinked L w w') :
    OutcomeLinked L (v.plus w) (v'.plus w') := by
  cases hv with
  | number a =>
    cases hw with
    | number b => exact .ok (.number (a + b))
    | _ => exact .error _
  | string a =>
    cases hw with
    | string b => exact .ok (.string (a ++ b))
    | number b => exact .ok (.string (a ++ Number.display b))
    | _ => exact .error _
  | _ => exact .error _

theorem arithmetic_linked (op : Kind) (a b : Float) :
    OutcomeLinked L (Lox.Value.arithmetic op a b) (Value.arithmetic op a b) := by
  unfold Lox.Value.arithmetic Value.arithmetic
  split
  · exact .ok (.number _)
  · exact .ok (.number _)
  · exact .ok (.number _)
  · exact .ok (.bool _)
  · exact .ok (.bool _)
  · exact .ok (.bool _)
  · exact .ok (.bool _)
  · grind [OutcomeLinked.error]

theorem binary_eq_of_ne {op : Kind} (heq : op ≠ .mark .equalEqual) (hne : op ≠ .mark .bangEqual)
    (hplus : op ≠ .mark .plus) (v w : Value) : Value.binary op v w = match v, w with
      | .number a, .number b => Value.arithmetic op a b
      | _, _ => .error .operandsNotNumbers := by
  unfold Value.binary
  grind

theorem binary_linked (hv : ValueLinked L v v') (hw : ValueLinked L w w') (op : Kind) :
    OutcomeLinked L (Lox.Value.binary op v w) (Value.binary op v' w') := by
  have hsame := hv.same_eq hw
  unfold Lox.Value.binary
  split
  · rw [Value.binary, hsame]
    exact .ok (.bool _)
  · rw [Value.binary, hsame]
    exact .ok (.bool _)
  · exact plus_linked hv hw
  · next heq hne hplus =>
    rw [binary_eq_of_ne heq hne hplus]
    cases hv with
    | number a =>
      cases hw with
      | number b => exact arithmetic_linked op a b
      | _ => exact .error _
    | _ => exact .error _

theorem display_eq {σ : Store} {s : State} (h : StoreLinked L σ s) (hv : ValueLinked L v v') :
    s.display v' = σ.display v := by
  cases hv with
  | function id hc =>
    exact congrArg (fun decl ↦ "<fn " ++ decl.name.lexeme ++ ">") hc.decl
  | cls hc => exact hc.name_eq
  | object id =>
    have ho := h.objects id
    rw [State.display, Store.display]
    generalize σ.object? id = o at ho ⊢
    generalize s.objects[id]? = o' at ho ⊢
    cases ho with
    | none => rfl
    | some ho =>
      exact congrArg (fun name ↦ "<" ++ name ++ " instance>") ho.cls.name_eq
  | _ => rfl

end

section

variable {L : Link} {S : List Names} {k : Lox.Stack} {k' : Stack} {i : Interpreter} {s : State}

theorem ofExcept_linked (h : Ready L S i s k k') {r : Except FaultCause Lox.Value}
    {r' : Except FaultCause Value} (hr : OutcomeLinked L r r') (line : Nat) :
    Linked (Lox.Machine.ofExcept i k line r) (Machine.ofExcept s k' line r') := by
  cases hr with
  | ok hv => exact .value hv h
  | error cause => exact .fault h.scene.toStateLinked h.stack

theorem eval_linked (h : Ready L S i s k k') {e : Expr} (he : At [L.program] (.expr e) S) :
    Linked (Lox.Machine.eval i k e) (Machine.eval s k' e) := by
  have hlookup {ref : Ref} (hr : e.read? = some ref) :
      Linked (Lox.Machine.eval i k (.var ref)) (Machine.eval s k' (.var ref)) := by
    have hread := h.scene.read? (h.scene.distances.find?_eq he (Expr.ref?_of_read? hr)) (he.not_pending hr)
    rw [Lox.Machine.eval, Machine.eval, Interpreter.lookup]
    generalize (i.target? ref).bind _ = v at hread ⊢
    generalize s.read? ref.name.lexeme = v' at hread ⊢
    cases hread with
    | some hv => exact .value hv h
    | none => exact .fault h.scene.toStateLinked h.stack
  cases e with
  | literal value line =>
    cases value with
    | nil => exact .value .nil h
    | bool b => exact .value (.bool b) h
    | number x => exact .value (.number x) h
    | string text => exact .value (.string text) h
  | var ref => exact hlookup rfl
  | this ref => exact hlookup rfl
  | assign ref value => exact .eval he.assign (h.keep (.assign he))
  | unary op operand => exact .eval he.unary (h.keep (.unary op))
  | binary left op right => exact .eval he.binary.1 (h.keep (.binaryLeft op he.binary.2))
  | logical left op right => exact .eval he.logical.1 (h.keep (.logical op he.logical.2))
  | grouping inner => exact .eval he.grouping h
  | call callee arguments paren => exact .eval he.call.1 (h.keep (.callee he.call.2 paren))
  | get object name => exact .eval he.get (h.keep (.get name))
  | set object name value => exact .eval he.set.1 (h.keep (.setObject name he.set.2))
  | super ref method => exact superMethod_linked h he

theorem exec_linked (h : Scene L S i s) (hi : i.env.inner ∉ inners k) {stmt : Stmt}
    (hs : At [L.program] (.stmt stmt) S) (hk : StackLinked L (afterDeclaring stmt.declared? S) k k') :
    Linked (Lox.Machine.exec i k stmt) (Machine.exec s k' stmt) := by
  cases stmt with
  | expr e => exact .eval hs.expr (Ready.keep ⟨h, hi, hk⟩ .discard)
  | print e => exact .eval hs.print (Ready.keep ⟨h, hi, hk⟩ (.print e.line))
  | var name initial =>
    cases initial with
    | none => exact .done .normal (Ready.declare h hi hk (hs.fresh rfl).not_readable .nil)
    | some e =>
      have hstack : StackLinked L (declareIn name.lexeme S) (.define name :: k) (.define name :: k') := by
        refine .define (hs.fresh rfl).not_readable_declareIn ?_
        rw [bindIn_declareIn]
        exact hk
      exact .eval hs.initial
        ⟨⟨h.toStateLinked, h.env.declareIn name.lexeme, h.exact.declareIn⟩, hi, hstack⟩
  | block body =>
    have hscene := h.toStateLinked.enter h.env hs.settled_stmt
    exact block_linked ⟨h, hi, hk⟩ L.beside_addScope hscene rfl hs.block
  | cond test yes no =>
    have hnode := hs.all
    refine .eval hs.condTest (Ready.keep ⟨h, hi, hk⟩ (.branch ⟨hs.condYes, ?_⟩ ?_))
    · cases no with
      | none => exact hnode.1
      | some no => exact hnode.1.1
    · rintro no rfl
      exact ⟨hs.condNo, hnode.1.2⟩
  | loop test body => exact .eval hs.loop.1 (Ready.keep ⟨h, hi, hk⟩ (.test hs))
  | function decl =>
    have hx := (hs.fresh rfl).not_readable
    have hvalue : ValueLinked (L.bind i.env.inner decl.name.lexeme)
        (.callable (.function i.store.nextIdentity ⟨decl, i.env, false⟩))
        (.callable (.function s.nextIdentity ⟨decl, s.envAfter decl.name.lexeme, false⟩)) := by
      rw [h.store.nextIdentity]
      refine .function _ ⟨rfl, rfl, ⟨_, ?_, h.envAfter hx⟩, nofun⟩
      rw [L.program_bind]
      exact hs.function
    exact .done .normal (Ready.declare h.freshIdentity hi hk hx hvalue)
  | ret keyword value =>
    cases value with
    | none => exact .done (.returned .nil) ⟨h, hi, hk⟩
    | some e => exact .eval hs.ret (Ready.keep ⟨h, hi, hk⟩ .ret)
  | classDecl name superclass methods => exact declareClass_linked h hi hs hk

theorem exec_of_ready (h : Ready L S i s k k') {stmt : Stmt} (hs : At [L.program] (.stmt stmt) S)
    (hd : stmt.declared? = none) : Linked ⟨.exec stmt, k, i⟩ ⟨.exec stmt, k', s⟩ := by
  refine .exec hs h.scene h.inner ?_
  rw [hd]
  exact h.stack

theorem assign_linked (h : Ready L S i s k k') {v : Lox.Value} {v' : Value} (hv : ValueLinked L v v')
    {ref : Ref} {e : Expr} (he : At [L.program] (.expr (.assign ref e)) S) :
    Option.Rel Linked (Lox.Machine.resume i k v (.assign ref)) (Machine.resume s k' v' (.assign ref.name)) := by
  have hd := h.scene.distances.find?_eq he rfl
  rw [Lox.Machine.resume, Machine.resume, State.assign?]
  obtain ⟨id, c, ht, hc, hf⟩ | ⟨ht, hf⟩ := h.scene.target? hd (he.not_pending_of_assign L.selfFree)
  · rw [ht, hf]
    exact .some (.value hv (h.withStore (.refl L) (h.scene.store.assign hc hv) rfl rfl rfl rfl))
  · have hx := h.scene.store.globals ref.name.lexeme
    rw [ht, hf, Store.contains_eq, Bindings.contains]
    dsimp only
    generalize i.store.read? L.globals ref.name.lexeme = u at hx ⊢
    generalize s.globals.find? ref.name.lexeme = u' at hx ⊢
    cases hx with
    | none => exact .some (.fault h.scene.toStateLinked h.stack)
    | some =>
      exact .some (.value hv (h.withStore (.refl L) (h.scene.store.setGlobal _ hv) rfl rfl rfl rfl))

theorem resume_linked {f : Lox.Frame} {f' : Frame} (h : Ready L S i s (f :: k) (f' :: k'))
    {v : Lox.Value} {v' : Value} (hv : ValueLinked L v v') :
    Option.Rel Linked (Lox.Machine.resume i k v f) (Machine.resume s k' v' f') := by
  cases h.stack with
  | define hx hk =>
    have hinner : i.env.inner ∉ inners k := h.inner
    exact .some (.done .normal (Ready.declare h.scene hinner hk hx (hv.mono (L.le_bind ..))))
  | block => exact .none
  | program => exact .none
  | keep hf hk =>
    have hready : Ready L S i s k k' := ⟨h.scene, hf.inners_cons k ▸ h.inner, hk⟩
    have hstate := h.scene.toStateLinked
    cases hf with
    | unary op => exact .some (ofExcept_linked hready (unary_linked hv op.kind) op.line)
    | binaryLeft op he => exact .some (.eval he (hready.keep (.binaryRight hv op)))
    | binaryRight hl op => exact .some (ofExcept_linked hready (binary_linked hl hv op.kind) op.line)
    | logical op he =>
      rw [Lox.Machine.resume, Machine.resume, hv.decides_eq]
      split
      · exact .some (.value hv hready)
      · exact .some (.eval he hready)
    | assign he => exact assign_linked hready hv he
    | @callee arguments he paren =>
      cases arguments with
      | nil => exact .some (apply_linked hready hv .nil paren)
      | cons e rest => exact .some (.eval he.exprs.1 (hready.keep (.argument hv .nil he.exprs.2 paren)))
    | @argument _ _ _ _ rest hf hknown hr paren =>
      cases rest with
      | nil => exact .some (apply_linked hready hf (List.rel_reverse (.cons hv hknown)) paren)
      | cons e rest =>
        exact .some (.eval hr.exprs.1 (hready.keep (.argument hf (.cons hv hknown) hr.exprs.2 paren)))
    | get name =>
      cases hv with
      | object o => exact .some (property_linked hready o name)
      | _ => exact .some (.fault hstate hk)
    | setObject name he =>
      cases hv with
      | object o => exact .some (.eval he (hready.keep (.setValue o name)))
      | _ => exact .some (.fault hstate hk)
    | setValue o name =>
      exact .some (.value hv (hready.withStore (.refl L) (hstate.store.setField o name.lexeme hv) rfl rfl rfl rfl))
    | discard => exact .some (.done .normal hready)
    | print line =>
      rw [Lox.Machine.resume, Machine.resume, hstate.sink, display_eq hstate.store hv]
      split
      · exact .some (.fault hstate hk)
      · exact .some (.done .normal (hready.update (.refl L) (hstate.withSink _) rfl rfl))
    | @branch yes no hy hn =>
      simp only [Lox.Machine.resume, Machine.resume, hv.isTruthy_eq]
      split
      · exact .some (exec_of_ready hready hy.1 hy.2)
      · cases no with
        | none => exact .some (.done .normal hready)
        | some no => exact .some (exec_of_ready hready (hn no rfl).1 (hn no rfl).2)
    | test hs =>
      rw [Lox.Machine.resume, Machine.resume, hv.isTruthy_eq]
      split
      · exact .some (exec_of_ready (hready.keep (.body hs)) hs.loop.2 hs.all.1)
      · exact .some (.done .normal hready)
    | ret => exact .some (.done (.returned hv) hready)
    | construct o => exact .some (.value (.object o) hready)
    | leave =>
      rw [Lox.Machine.resume, Machine.resume, hstate.depth]
      exact .some (.value hv (hready.update (.refl L) (hstate.withDepth _) rfl rfl))
    | body => exact .none
    | result => exact .none

theorem finish_linked {f : Lox.Frame} {f' : Frame} (h : Ready L S i s (f :: k) (f' :: k'))
    {flow : Lox.Flow} {flow' : Flow} (hflow : FlowLinked L flow flow') :
    Option.Rel Linked (Lox.Machine.finish i k flow f) (Machine.finish s k' flow' f') := by
  cases h.stack with
  | define => exact .none
  | @block _ S' rest saved saved' _ _ hr hs he hi hk =>
    have hback : Ready L S' { i with env := saved } { s with env := saved' } k k' :=
      ⟨⟨h.scene.toStateLinked.withEnv saved saved', hs, he⟩, hi, hk⟩
    cases rest with
    | nil =>
      cases hflow with
      | normal => exact .some (.done .normal hback)
      | returned hv => exact .some (.done (.returned hv) hback)
    | cons stmt rest =>
      cases hflow with
      | normal => exact .some (.exec hr.stmts.1 h.scene h.inner (.block hr.stmts.2 hs he hi hk))
      | returned hv => exact .some (.done (.returned hv) hback)
  | @program rest _ _ hr hk =>
    cases rest with
    | nil => exact .some (.done .normal ⟨h.scene, h.inner, hk⟩)
    | cons stmt rest =>
      have htop : afterDeclaring stmt.declared? [] = [] := by cases stmt.declared? <;> rfl
      refine .some (.exec hr.stmts.1 h.scene h.inner ?_)
      rw [htop]
      exact .program (htop ▸ hr.stmts.2) hk
  | keep hf hk =>
    have hready : Ready L S i s k k' := ⟨h.scene, hf.inners_cons k ▸ h.inner, hk⟩
    cases hf with
    | body hs =>
      cases hflow with
      | normal => exact .some (.eval hs.loop.1 (hready.keep (.test hs)))
      | returned hv => exact .some (.done (.returned hv) hready)
    | @result c c' hc =>
      rw [Lox.Machine.finish, Machine.finish, hc.isInitializer, hc.decl]
      split
      · next hinit =>
        obtain ⟨cell, hcell, hfind⟩ := hc.this hinit
        have hthis := h.scene.store.cell hcell
        have hget : i.store.getAt? c.env 0 "this" = i.store.read? c.env.inner "this" :=
          congrArg (Option.bind · _) (if_pos (h.scene.store.contains hcell))
        rw [hget, hfind, Option.bind_some]
        generalize i.store.read? c.env.inner "this" = v at hthis ⊢
        generalize s.cells[cell]? = v' at hthis ⊢
        cases hthis with
        | some hv => exact .some (.value hv hready)
        | none => exact .some (.fault h.scene.toStateLinked hk)
      · cases hflow with
        | normal => exact .some (.value .nil hready)
        | returned hv => exact .some (.value hv hready)
    | _ => exact .none

theorem unwind_linked {f : Lox.Frame} {f' : Frame} (h : StateLinked L i s)
    (hk : StackLinked L S (f :: k) (f' :: k')) (fault : Fault) :
    Linked (Lox.Machine.unwind i k fault f) (Machine.unwind s k' fault f') := by
  cases hk with
  | define _ hk => exact .fault h hk
  | block _ _ _ _ hk => exact .fault (h.withEnv ..) hk
  | program _ hk => exact .fault h hk
  | keep hf hk =>
    cases hf with
    | leave =>
      rw [Lox.Machine.unwind, Machine.unwind, h.depth]
      exact .fault (h.withDepth _) hk
    | _ => exact .fault h hk

end

/-- Linked machines stay linked step by step, and stop together. -/
theorem step_linked {m : Lox.Machine} {m' : Machine} (h : Linked m m') :
    Option.Rel Linked m.step m'.step := by
  cases h with
  | eval he h => exact .some (eval_linked h he)
  | exec hs h hi hk => exact .some (exec_linked h hi hs hk)
  | @value _ _ _ _ k k' _ _ hv h =>
    cases h.stack with
    | nil => exact .none
    | _ => exact resume_linked h hv
  | done hf h =>
    cases h.stack with
    | nil => exact .none
    | _ => exact finish_linked h hf
  | fault h hk =>
    have hstack := hk
    cases hk with
    | nil => exact .none
    | _ => exact .some (unwind_linked h hstack _)
  | @clock _ _ k k' i s line h =>
    show Option.Rel Linked (some ⟨.act line (.done (.number i.clock.now)), k, { i with clock := _ }⟩)
      (some ⟨.reading (some s.clock.now), k', { s with clock := s.clock.advance }⟩)
    rw [h.scene.clock]
    exact .some (.seconds (h.update (.refl _) (h.scene.withClock _) rfl rfl))
  | seconds h => exact .some (.value (.number _) h)

end Lox.Lexical
