import Lox.Machine.Step
import Lox.Proofs.Skip.Call

namespace Lox.Skip

open Machine

/-- Outcomes of an operator. -/
inductive OutcomeLinked (D : Distances) (L : Link) : Except FaultCause Value → Except FaultCause Value → Prop
  | ok {v v' : Value} (h : ValueLinked D L v v') : OutcomeLinked D L (.ok v) (.ok v')
  | error (cause : FaultCause) : OutcomeLinked D L (.error cause) (.error cause)

section

variable {D : Distances} {L : Link} {v v' u u' : Value}

theorem ClassLinked.id_eq {c c' : Class} (h : ClassLinked D L c c') : c'.id = c.id := by
  cases h <;> rfl

theorem ClassLinked.name_eq {c c' : Class} (h : ClassLinked D L c c') : c'.name = c.name := by
  cases h <;> rfl

theorem ValueLinked.isTruthy_eq (h : ValueLinked D L v v') : v'.isTruthy = v.isTruthy := by
  cases h <;> rfl

theorem ValueLinked.decides_eq (h : ValueLinked D L v v') (op : Kind) : v'.decides op = v.decides op := by
  unfold Value.decides
  rw [h.isTruthy_eq]

theorem CallableLinked.same_eq {c c' d d' : Callable} (hc : CallableLinked D L c c')
    (hd : CallableLinked D L d d') : c'.same d' = c.same d := by
  cases hc with
  | cls hc =>
    cases hd with
    | cls hd => rw [Callable.same, Callable.same, hc.id_eq, hd.id_eq]
    | _ => rfl
  | _ => cases hd <;> rfl

theorem ValueLinked.same_eq (hv : ValueLinked D L v v') (hu : ValueLinked D L u u') :
    v'.same u' = v.same u := by
  cases hv with
  | callable hc =>
    cases hu with
    | callable hd => exact hc.same_eq hd
    | _ => rfl
  | _ => cases hu <;> rfl

theorem ValueLinked.unary_eq (h : ValueLinked D L v v') (op : Kind) : v'.unary op = v.unary op := by
  cases h with
  | callable =>
    cases op with
    | mark m => cases m <;> rfl
    | _ => rfl
  | _ => rfl

theorem unary_linked (h : ValueLinked D L v v') (op : Kind) :
    OutcomeLinked D L (v.unary op) (v'.unary op) := by
  rw [h.unary_eq]
  unfold Value.unary
  split
  · exact .ok (.number _)
  · exact .error _
  · exact .ok (.bool _)
  · exact .error _

theorem plus_linked (hv : ValueLinked D L v v') (hu : ValueLinked D L u u') :
    OutcomeLinked D L (v.plus u) (v'.plus u') := by
  cases hv with
  | number a =>
    cases hu with
    | number b => exact .ok (.number (a + b))
    | _ => exact .error _
  | string a =>
    cases hu with
    | string b => exact .ok (.string (a ++ b))
    | number b => exact .ok (.string (a ++ Number.display b))
    | _ => exact .error _
  | _ => exact .error _

theorem arithmetic_linked (op : Kind) (a b : Float) :
    OutcomeLinked D L (Value.arithmetic op a b) (Value.arithmetic op a b) := by
  unfold Value.arithmetic
  split
  · exact .ok (.number _)
  · exact .ok (.number _)
  · exact .ok (.number _)
  · exact .ok (.bool _)
  · exact .ok (.bool _)
  · exact .ok (.bool _)
  · exact .ok (.bool _)
  · exact .error _

theorem binary_linked (hv : ValueLinked D L v v') (hu : ValueLinked D L u u') (op : Kind) :
    OutcomeLinked D L (Value.binary op v u) (Value.binary op v' u') := by
  have hsame := hv.same_eq hu
  unfold Value.binary
  split
  · rw [hsame]
    exact .ok (.bool _)
  · rw [hsame]
    exact .ok (.bool _)
  · exact plus_linked hv hu
  · cases hv with
    | number a =>
      cases hu with
      | number b => exact arithmetic_linked _ a b
      | _ => exact .error _
    | _ => exact .error _

theorem display_eq {σ σ' : Store} (h : StoreLinked D L σ σ') (hv : ValueLinked D L v v') :
    σ'.display v' = σ.display v := by
  cases hv with
  | callable hc =>
    cases hc with
    | native f => rfl
    | function id hc =>
      obtain ⟨_, -, hd, -⟩ := hc.place
      simp only [Store.display, Callable.display, Closure.name, hd.name_eq]
    | cls hc => exact hc.name_eq
  | object o =>
    have ho := h.objects o
    simp only [Store.display]
    generalize σ.object? o = a at ho ⊢
    generalize σ'.object? o = a' at ho ⊢
    cases ho with
    | none => rfl
    | some ho => simp only [Option.map_some, ho.cls.name_eq]
  | _ => rfl

end

section

variable {D : Distances} {L : Link} {B : Bottom} {g : Gap} {i i' : Interpreter} {k k' : Stack}

theorem ofExcept_linked (h : Ready D L B g i i' k k') {r r' : Except FaultCause Value}
    (hr : OutcomeLinked D L r r') (line : Nat) :
    MachineLinked D B L (ofExcept i k line r) (ofExcept i' k' line r') := by
  cases hr with
  | ok hv => exact .value hv h
  | error cause => exact .fault _ h

theorem lookup_linked (h : Ready D L B g i i' k k') {ref ref' : Ref} (hr : RefLinked D g ref ref') :
    MachineLinked D B L (eval i k (.var ref)) (eval i' k' (.var ref')) := by
  have hread := h.scene.read? hr
  rw [eval, eval, Interpreter.lookup, Interpreter.lookup, hr.name] at *
  generalize (i.target? ref).bind _ = v at hread ⊢
  generalize (i'.target? ref').bind _ = v' at hread ⊢
  cases hread with
  | some hv => exact .value hv h
  | none => exact .fault _ h

theorem eval_linked (h : Ready D L B g i i' k k') {e e' : Expr} (he : ExprLinked D g e e') :
    Later D B L (eval i k e) (eval i' k' e') := by
  cases he with
  | literal value line =>
    cases value with
    | nil => exact (MachineLinked.value .nil h).now
    | bool b => exact (MachineLinked.value (.bool b) h).now
    | number x => exact (MachineLinked.value (.number x) h).now
    | string text => exact (MachineLinked.value (.string text) h).now
  | var hr => exact (lookup_linked h hr).now
  | this hr => exact (lookup_linked h hr).now
  | assign hr he => exact (MachineLinked.eval he (h.push (.assign hr))).now
  | unary op he => exact (MachineLinked.eval he (h.push (.unary op))).now
  | binary op hl hr => exact (MachineLinked.eval hl (h.push (.binaryLeft op hr))).now
  | logical op hl hr => exact (MachineLinked.eval hl (h.push (.logical op hr))).now
  | grouping he => exact (MachineLinked.eval he h).now
  | call paren hf hes => exact (MachineLinked.eval hf (h.push (.callee paren hes))).now
  | get name he => exact (MachineLinked.eval he (h.push (.get name))).now
  | set name ho he => exact (MachineLinked.eval ho (h.push (.setObject name he))).now
  | super method hr => exact superMethod_linked h hr method

theorem exec_linked (h : Ready D L B g i i' k k') {s s' : Stmt} (hs : StmtLinked D g s s') :
    Later D B L (exec i k s) (exec i' k' s') := by
  cases hs with
  | expr he => exact (MachineLinked.eval he (h.push .discard)).now
  | @print _ e e' he =>
    rw [exec, exec, he.line_eq]
    exact (MachineLinked.eval he (h.push (.print e.line))).now
  | var name hg ho =>
    cases ho with
    | none => exact (MachineLinked.done .normal (h.define hg name.lexeme .nil)).now
    | some he => exact (MachineLinked.eval he (h.push (.define name hg))).now
  | block hs => exact enterBlock_linked h h.scene.env (fun _ ↦ .none) hs
  | cond he hy => exact (MachineLinked.eval he (h.push (.branch hy .none))).now
  | condElse he hy hn => exact (MachineLinked.eval he (h.push (.branch hy (.some hn)))).now
  | loop he hs => exact (MachineLinked.eval he (h.push (.test he hs))).now
  | @function _ d d' hg hd =>
    have hready := h.withStore (.refl L) h.scene.store.freshIdentity
    have hclosure : ClosureLinked D L ⟨d, i.env, false⟩ ⟨d', i'.env, false⟩ :=
      ⟨rfl, g, hg, hd, h.scene.env⟩
    rw [exec, exec, h.scene.store.nextIdentity, hd.name_eq]
    exact (MachineLinked.done .normal (hready.define hg _ (.callable (.function _ hclosure)))).now
  | ret keyword ho =>
    cases ho with
    | none => exact (MachineLinked.done (.returned .nil) h).now
    | some he => exact (MachineLinked.eval he (h.push .ret)).now
  | classDecl name hg hds => exact declareClass_linked h hg name hds
  | subclass name hg hr hds => exact declareSubclass_linked h hg name hr hds

theorem assign_linked (h : Ready D L B g i i' k k') {v v' : Value} (hv : ValueLinked D L v v')
    {ref ref' : Ref} (hr : RefLinked D g ref ref') :
    Option.Rel (Later D B L) (resume i k v (.assign ref)) (resume i' k' v' (.assign ref')) := by
  have hid := h.scene.target? hr
  rw [resume, resume, hr.name]
  generalize i.target? ref = o at hid ⊢
  generalize i'.target? ref' = o' at hid ⊢
  cases hid with
  | none => exact .some (MachineLinked.fault _ h).now
  | some hid =>
    exact .some (MachineLinked.value hv (h.withStore (.refl L) (h.scene.store.define hid _ hv))).now

theorem resume_linked {f f' : Frame} (h : Ready D L B g i i' (f :: k) (f' :: k')) {v v' : Value}
    (hv : ValueLinked D L v v') : Option.Rel (Later D B L) (resume i k v f) (resume i' k' v' f') := by
  cases h.stack with
  | block => exact .none
  | frame hf hk =>
    have hready : Ready D L B g i i' k k' := ⟨h.scene, hk⟩
    have hstate := h.scene.toStateLinked
    cases hf with
    | unary op => exact .some (ofExcept_linked hready (unary_linked hv op.kind) op.line).now
    | binaryLeft op he => exact .some (MachineLinked.eval he (hready.push (.binaryRight op hv))).now
    | binaryRight op hl => exact .some (ofExcept_linked hready (binary_linked hl hv op.kind) op.line).now
    | logical op he =>
      rw [resume, resume, hv.decides_eq]
      split
      · exact .some (MachineLinked.value hv hready).now
      · exact .some (MachineLinked.eval he hready).now
    | assign hr => exact assign_linked hready hv hr
    | callee paren hes =>
      cases hes with
      | nil => exact .some (apply_linked hready hv .nil paren)
      | cons he hes => exact .some (MachineLinked.eval he (hready.push (.argument paren hv .nil hes))).now
    | argument paren hf hknown hes =>
      cases hes with
      | nil => exact .some (apply_linked hready hf (List.rel_reverse (.cons hv hknown)) paren)
      | cons he hes =>
        exact .some (MachineLinked.eval he (hready.push (.argument paren hf (.cons hv hknown) hes))).now
    | get name =>
      cases hv with
      | object o => exact .some (property_linked hready o name)
      | _ => exact .some (MachineLinked.fault _ hready).now
    | setObject name he =>
      cases hv with
      | object o => exact .some (MachineLinked.eval he (hready.push (.setValue o name))).now
      | _ => exact .some (MachineLinked.fault _ hready).now
    | setValue o name =>
      exact .some (MachineLinked.value hv
        (hready.withStore (.refl L) (hstate.store.setField o name.lexeme hv))).now
    | discard => exact .some (MachineLinked.done .normal hready).now
    | print line =>
      rw [resume, resume, hstate.sink, display_eq hstate.store hv]
      split
      · exact .some (MachineLinked.fault _ hready).now
      · exact .some (MachineLinked.done .normal (hready.withSink _)).now
    | define name hg => exact .some (MachineLinked.done .normal (hready.define hg name.lexeme hv)).now
    | branch hy hn =>
      simp only [resume, hv.isTruthy_eq]
      split
      · exact .some (MachineLinked.exec hy hready).now
      · cases hn with
        | none => exact .some (MachineLinked.done .normal hready).now
        | some hn => exact .some (MachineLinked.exec hn hready).now
    | test he hs =>
      rw [resume, resume, hv.isTruthy_eq]
      split
      · exact .some (MachineLinked.exec hs (hready.push (.body he hs))).now
      · exact .some (MachineLinked.done .normal hready).now
    | ret => exact .some (MachineLinked.done (.returned hv) hready).now
    | construct o => exact .some (MachineLinked.value (.object o) hready).now
    | leave =>
      rw [resume, resume, hstate.depth]
      exact .some (MachineLinked.value hv (hready.withDepth _)).now
    | host line hok herror => exact .some (MachineLinked.act line (hok (.refl L) hv) hready).now
    | body => exact .none
    | program => exact .none
    | result => exact .none

theorem finish_linked {f f' : Frame} (h : Ready D L B g i i' (f :: k) (f' :: k')) {flow flow' : Flow}
    (hflow : FlowLinked D L flow flow') :
    Option.Rel (Later D B L) (finish i k flow f) (finish i' k' flow' f') := by
  cases h.stack with
  | @block _ g' _ _ saved saved' _ _ _ _ hs henv hk =>
    have hback : Ready D L B g' { i with env := saved } { i' with env := saved' } k k' :=
      ⟨⟨h.scene.toStateLinked.withEnv saved saved', henv⟩, hk⟩
    cases hflow with
    | returned hv =>
      cases hs <;> exact .some (MachineLinked.done (.returned hv) hback).now
    | normal =>
      cases hs with
      | nil => exact .some (MachineLinked.done .normal hback).now
      | cons hs hss => exact .some (MachineLinked.exec hs ⟨h.scene, .block hss henv hk⟩).now
  | frame hf hk =>
    have hready : Ready D L B g i i' k k' := ⟨h.scene, hk⟩
    cases hf with
    | body he hs =>
      cases hflow with
      | normal => exact .some (MachineLinked.eval he (hready.push (.test he hs))).now
      | returned hv => exact .some (MachineLinked.done (.returned hv) hready).now
    | program hss =>
      cases hss with
      | nil => exact .some (MachineLinked.done .normal hready).now
      | cons hs hss => exact .some (MachineLinked.exec hs (hready.push (.program hss))).now
    | @result c c' hc =>
      obtain ⟨g₁, hg₁, hd, henv⟩ := hc.place
      have hthis := h.scene.store.getAt? henv (.zero hg₁) "this"
      rw [finish, finish, hc.isInitializer, hd.name_eq]
      split
      · generalize i.store.getAt? c.env 0 "this" = v at hthis ⊢
        generalize i'.store.getAt? c'.env 0 "this" = v' at hthis ⊢
        cases hthis with
        | some hv => exact .some (MachineLinked.value hv hready).now
        | none => exact .some (MachineLinked.fault _ hready).now
      · cases hflow with
        | normal => exact .some (MachineLinked.value .nil hready).now
        | returned hv => exact .some (MachineLinked.value hv hready).now
    | _ => exact .none

theorem unwind_linked {f f' : Frame} (h : Ready D L B g i i' (f :: k) (f' :: k')) (fault : Fault) :
    MachineLinked D B L (unwind i k fault f) (unwind i' k' fault f') := by
  cases h.stack with
  | block _ henv hk => exact .fault _ ⟨⟨h.scene.toStateLinked.withEnv _ _, henv⟩, hk⟩
  | frame hf hk =>
    have hready : Ready D L B g i i' k k' := ⟨h.scene, hk⟩
    cases hf with
    | leave =>
      rw [unwind, unwind, h.scene.depth]
      exact .fault _ (hready.withDepth _)
    | host line hok herror => exact .act line (herror fault (.refl L)) hready
    | _ => exact .fault _ hready

theorem act_linked (h : Ready D L B g i i' k k') (line : Nat) {a a' : Action}
    (ha : ActionLinked D L a a') : Later D B L (act i k line a) (act i' k' line a') := by
  cases ha with
  | done hv => exact (MachineLinked.value hv h).now
  | fail text => exact (MachineLinked.fault _ h).now
  | time ha =>
    rw [act, act, h.scene.clock]
    exact (MachineLinked.act line (ha _) (h.withClock _)).now
  | call hc hvs hok herror => exact invoke_linked (h.push (.host line hok herror)) hc hvs _

end

/-- Linked machines stay linked step by step, up to the end of the second. -/
theorem step_linked {D : Distances} {B : Bottom} {L : Link} {m m' : Machine}
    (h : MachineLinked D B L m m') (hm : m'.isFinal = false) :
    Option.Rel (Later D B L) m.step m'.step := by
  cases h with
  | eval he h => exact .some (eval_linked h he)
  | exec hs h => exact .some (exec_linked h hs)
  | act line ha h => exact .some (act_linked h line ha)
  | @value _ _ _ k k' _ _ hv h =>
    cases k' with
    | nil => cases hm
    | cons f' k' =>
      cases k with
      | nil => cases h.stack
      | cons f k => exact resume_linked h hv
  | @done _ _ _ k k' _ _ hf h =>
    cases k' with
    | nil => cases hm
    | cons f' k' =>
      cases k with
      | nil => cases h.stack
      | cons f k => exact finish_linked h hf
  | @fault _ f k k' _ _ h =>
    cases k' with
    | nil => cases hm
    | cons frame' k' =>
      cases k with
      | nil => cases h.stack
      | cons frame k => exact .some (unwind_linked h f).now

end Lox.Skip
