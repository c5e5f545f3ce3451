import Lox.Proofs.Machine.Run
import Lox.Proofs.Machine.Scoped
import Lox.Proofs.Machine.Variant

namespace Lox

def Machine.occurrence? : Machine → Option Ref
  | ⟨.eval (.var ref), _, _⟩ | ⟨.eval (.this ref), _, _⟩ | ⟨.eval (.super ref _), _, _⟩ => some ref
  | ⟨.exec (.classDecl _ superclass _), _, _⟩ => superclass
  | ⟨.value _, .assign ref :: _, _⟩ => some ref
  | _ => none

/-- The next step does not go wrong in a variant that reads other distances. -/
def Machine.ReadsAlike (v : Variant) (m : Machine) : Prop :=
  ∀ ref ∈ m.occurrence?, v.distances.find? (v.labels.id ref.id) = m.state.distances.find? ref.id

/-- A machine on which no host function but the clock is at work. -/
structure Machine.Plain (m : Machine) : Prop where
  hosts : m.state.hosts = #[HostFunction.clock]
  action : ∀ line action, m.control = .act line action → action.Plain
  frame : ∀ line next k, m.stack ≠ .host line next :: k

namespace Machine

variable (v : Variant) {i : Interpreter} {k : Stack}

theorem vary_ofExcept (i : Interpreter) (k : Stack) (line : Nat) (o : Except FaultCause Value) :
    (ofExcept i k line o).vary v =
      ofExcept (i.vary v) (k.vary v) (v.labels.line line) (o.map (·.relabel v.labels)) := by
  cases o <;> rfl

theorem vary_eval {e : Expr} (hr : ReadsAlike v ⟨.eval e, k, i⟩) :
    (eval i k e).vary v = eval (i.vary v) (k.vary v) (e.relabel v.labels) := by
  cases e with
  | var ref | this ref =>
    rw [Expr.relabel, eval, eval, lookup_vary (hr ref rfl)]
    cases i.lookup ref <;> rfl
  | super ref name => exact vary_superMethod k (hr ref rfl) name
  | literal value line => cases value <;> rfl
  | _ => rfl

theorem vary_exec {s : Stmt} (hr : ReadsAlike v ⟨.exec s, k, i⟩) :
    (exec i k s).vary v = exec (i.vary v) (k.vary v) (s.relabel v.labels) := by
  cases s with
  | print e =>
    rw [Stmt.relabel, exec, exec, Expr.line_relabel]
    rfl
  | var name initial =>
    cases initial with
    | none => simp [Stmt.relabel, exec, Machine.vary, Interpreter.define, Interpreter.vary, Control.relabel,
        Flow.relabel, Value.relabel]
    | some e => rfl
  | block body => exact vary_enterBlock v i k i.env .empty body
  | cond test yes no => cases no <;> rfl
  | function d =>
    simp [Stmt.relabel, exec, Machine.vary, Interpreter.define, Interpreter.vary, Control.relabel,
      Flow.relabel, Closure.relabel]
  | ret keyword value => cases value <;> rfl
  | classDecl name superclass methods => exact vary_declareClass v k name methods hr
  | _ => rfl

theorem vary_resume (hh : i.hosts = #[HostFunction.clock]) {u : Value} {frame : Frame}
    (hf : ∀ line next, frame ≠ .host line next) (hr : ReadsAlike v ⟨.value u, frame :: k, i⟩) :
    (resume i k u frame).map (·.vary v) =
      resume (i.vary v) (k.vary v) (u.relabel v.labels) (frame.vary v) := by
  cases frame with
  | unary op =>
    rw [Frame.vary, resume, resume, Option.map_some, vary_ofExcept, Token.kind_relabel, Value.unary_relabel]
    rfl
  | binaryRight left op =>
    rw [Frame.vary, resume, resume, Option.map_some, vary_ofExcept, Token.kind_relabel,
      Value.binary_relabel]
    rfl
  | logical op right =>
    rw [Frame.vary, resume, resume, Token.kind_relabel, Value.decides_relabel]
    split <;> rfl
  | assign ref =>
    have htarget := target?_vary (hr ref rfl)
    rw [Frame.vary, resume, resume, htarget]
    cases i.target? ref with
    | none => rfl
    | some id =>
      have hstore := i.store.relabel_define v.labels id ref.name.lexeme u
      simp only [Option.map_some, Machine.vary, Interpreter.vary, hstore]
      rfl
  | callee arguments paren =>
    cases arguments with
    | nil => exact congrArg some (vary_apply v k hh u [] paren)
    | cons e rest => rfl
  | argument f known rest paren =>
    cases rest with
    | nil =>
      have happly := vary_apply v k hh f (u :: known).reverse paren
      rw [List.map_reverse] at happly
      exact congrArg some happly
    | cons e rest => rfl
  | get name =>
    cases u with
    | object o => exact congrArg some (vary_property v i k o name)
    | _ => rfl
  | setObject name value => cases u <;> rfl
  | setValue object name =>
    have hstore := i.store.relabel_setField v.labels object name.lexeme u
    simp only [resume, Frame.vary, Option.map_some, Machine.vary, Interpreter.vary, hstore]
    rfl
  | print line =>
    have hsink : (i.vary v).sink = i.sink := rfl
    have hdisplay : (i.vary v).store.display (u.relabel v.labels) = i.store.display u :=
      i.store.display_relabel v.labels u
    rw [Frame.vary, resume, resume, hsink, hdisplay]
    split <;> rfl
  | define name =>
    have hstore := i.store.relabel_define v.labels i.env.inner name.lexeme u
    simp only [resume, Frame.vary, Option.map_some, Machine.vary, Interpreter.define, Interpreter.vary, hstore]
    rfl
  | branch yes no =>
    have htruthy := u.isTruthy_relabel v.labels
    cases no <;> simp only [Frame.vary, resume, htruthy] <;> split <;> rfl
  | test e s =>
    rw [Frame.vary, resume, resume, Value.isTruthy_relabel]
    split <;> rfl
  | host line next => exact absurd rfl (hf line next)
  | _ => rfl

theorem vary_finish {flow : Flow} {frame : Frame} :
    (finish i k flow frame).map (·.vary v) =
      finish (i.vary v) (k.vary v) (flow.relabel v.labels) (frame.vary v) := by
  cases frame with
  | body e s => cases flow <;> rfl
  | block rest saved => cases flow <;> cases rest <;> rfl
  | program rest => cases rest <;> rfl
  | result c =>
    have hthis : (i.vary v).store.getAt? (c.relabel v.labels).env 0 "this" =
        (i.store.getAt? c.env 0 "this").map (·.relabel v.labels) :=
      i.store.getAt?_relabel v.labels c.env 0 "this"
    have hinit : (c.relabel v.labels).isInitializer = c.isInitializer := rfl
    rw [Frame.vary, finish, finish, hinit, hthis]
    split
    · cases i.store.getAt? c.env 0 "this" with
      | some u => rfl
      | none => simp [Machine.vary, Control.relabel, Fault.relabel, Closure.relabel]
    · cases flow <;> rfl
  | _ => rfl

theorem vary_unwind {f : Fault} {frame : Frame} (hf : ∀ line next, frame ≠ .host line next) :
    (unwind i k f frame).vary v = unwind (i.vary v) (k.vary v) (f.relabel v.labels) (frame.vary v) := by
  cases frame with
  | host line next => exact absurd rfl (hf line next)
  | _ => rfl

theorem vary_act {line : Nat} {action : Action} (ha : action.Plain) :
    (act i k line action).vary v = act (i.vary v) (k.vary v) (v.labels.line line) action := by
  cases ha <;> rfl

theorem isFinal_vary (m : Machine) (hb : v.below = []) : (m.vary v).isFinal = m.isFinal := by
  obtain ⟨c, k, i⟩ := m
  cases k with
  | nil =>
    have hk : Stack.vary v [] = [] := hb
    rw [Machine.vary, hk]
    cases c <;> rfl
  | cons frame k => cases c <;> rfl

theorem not_isFinal_vary {m : Machine} (h : m.isFinal ≠ true) : (m.vary v).isFinal ≠ true := by
  obtain ⟨c, k, i⟩ := m
  cases k with
  | nil =>
    rw [Machine.vary]
    cases hk : Stack.vary v [] <;> cases c <;> first | exact absurd rfl h | exact Bool.false_ne_true
  | cons frame k => cases c <;> exact Bool.false_ne_true

/-- A variant takes the steps of the machine. Only at its end would it go on with the frames below. -/
theorem step_vary {m : Machine} (hm : m.Plain) (hr : m.ReadsAlike v)
    (hend : m.isFinal = true → v.below = []) : (m.vary v).step = m.step.map (·.vary v) := by
  by_cases hfinal : m.isFinal = true
  · rw [step_of_isFinal hfinal, step_of_isFinal ((isFinal_vary v m (hend hfinal)).trans hfinal)]
    rfl
  obtain ⟨c, k, i⟩ := m
  have hframe (frame : Frame) (k' : Stack) (hk : k = frame :: k') (line : Nat)
      (next : Except Fault Value → Action) : frame ≠ .host line next :=
    fun h ↦ hm.frame line next k' (h ▸ hk)
  cases c with
  | eval e => exact congrArg some (vary_eval v hr).symm
  | exec s => exact congrArg some (vary_exec v hr).symm
  | act line action => exact congrArg some (vary_act v (hm.action line action rfl)).symm
  | value u =>
    cases k with
    | nil => exact absurd rfl hfinal
    | cons frame k => exact (vary_resume v hm.hosts (hframe frame k rfl) hr).symm
  | done flow =>
    cases k with
    | nil => exact absurd rfl hfinal
    | cons frame k => exact (vary_finish v).symm
  | fault f =>
    cases k with
    | nil => exact absurd rfl hfinal
    | cons frame k => exact congrArg some (vary_unwind v (hframe frame k rfl)).symm

end Machine

end Lox
