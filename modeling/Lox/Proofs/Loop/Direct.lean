import Lox.Machine.Step
import Lox.Proofs.Scope.Visit
import Lox.Proofs.Tree.Relabel

namespace Lox

/-- The clauses of a `for`; `line` is that of its keyword. -/
structure ForLoop where
  line : Nat
  first : Option Stmt
  test : Option Expr
  step : Option Expr
  body : Stmt

namespace ForLoop

def tree (l : ForLoop) : Stmt := .forLoop l.line l.first l.test l.step l.body

def round (l : ForLoop) : Stmt :=
  match l.step with
  | some e => .block [l.body, .expr e]
  | none => l.body

def condition (l : ForLoop) : Expr := l.test.getD (.literal (.bool true) l.line)

theorem tree_of_none {l : ForLoop} (h : l.first = none) : l.tree = .loop l.condition l.round := by
  rw [tree, h]
  rfl

theorem tree_of_some {l : ForLoop} {s : Stmt} (h : l.first = some s) :
    l.tree = .block [s, .loop l.condition l.round] := by
  rw [tree, h]
  rfl

def relabel (r : Relabeling) (l : ForLoop) : ForLoop where
  line := r.line l.line
  first := l.first.map (·.relabel r)
  test := l.test.map (·.relabel r)
  step := l.step.map (·.relabel r)
  body := l.body.relabel r

def copy (l : ForLoop) (n : Nat) : ForLoop := l.relabel (.ids (· + n))

/-- The clauses behind the first. The body comes last, so that nothing in it is seen from another. -/
def repeated (l : ForLoop) : List Stmt :=
  l.test.toList.map .expr ++ (l.step.toList.map .expr ++ [l.body])

/-- What a walk visits: the clauses, in a scope of their own if there is a first one. -/
def node (l : ForLoop) : Scope.Node :=
  match l.first with
  | some s => .stmt (.block (s :: l.repeated))
  | none => .stmts l.repeated

/-- The walk that resolves the tree, and then the clauses themselves under ids of their own. -/
def resolve (l : ForLoop) (n : Nat) (k : Scope.Context) (w : Scope.Walk) : Scope.Walk :=
  (l.copy n).node.walk k (Scope.stmt k l.tree w)

/-- A clause, as it is run. -/
inductive Clause where
  | first
  | test
  | step
  | body

/-- How far a `for` has come: in a clause, or at its end. -/
inductive Progress where
  | running (clause : Clause) (m : Machine)
  | ended (outcome : Except Fault Flow) (i : Interpreter)

namespace Progress

def state : Progress → Interpreter
  | running _ m => m.state
  | ended _ i => i

def outcome? : Progress → Option (Except Fault Flow)
  | running _ _ => none
  | ended outcome _ => some outcome

end Progress

/-- A `for` under way: all its clauses run in the environment `inner`, and it leaves `outer` behind. -/
structure Activation where
  loop : ForLoop
  outer : Env
  inner : Env

namespace Activation

variable (a : Activation)

def run (c : Clause) (control : Control) (i : Interpreter) : Progress :=
  .running c ⟨control, [], { i with env := a.inner }⟩

def body (i : Interpreter) : Progress := a.run .body (.exec a.loop.body) i

def test (i : Interpreter) : Progress :=
  match a.loop.test with
  | some e => a.run .test (.eval e) i
  | none => a.body i

def step (i : Interpreter) : Progress :=
  match a.loop.step with
  | some e => a.run .step (.eval e) i
  | none => a.test i

def leave (outcome : Except Fault Flow) (i : Interpreter) : Progress :=
  .ended outcome { i with env := a.outer }

def conclude (c : Clause) : Machine → Option Progress
  | ⟨.value v, _, i⟩ =>
    match c with
    | .test => if v.isTruthy then some (a.body i) else some (a.leave (.ok .normal) i)
    | .step => some (a.test i)
    | _ => none
  | ⟨.done flow, _, i⟩ =>
    match c, flow with
    | .first, .normal => some (a.test i)
    | .body, .normal => some (a.step i)
    | .first, .returned v | .body, .returned v => some (a.leave (.ok (.returned v)) i)
    | _, _ => none
  | ⟨.fault f, _, i⟩ => some (a.leave (.error f) i)
  | _ => none

def next : Progress → Option Progress
  | .running c m => if m.isFinal then a.conclude c m else m.step.map (.running c)
  | .ended _ _ => none

def after : Nat → Progress → Option Progress
  | 0, p => some p
  | n + 1, p => (a.next p).bind (after n)

end Activation

def activation (l : ForLoop) (i : Interpreter) : Activation where
  loop := l
  outer := i.env
  inner := match l.first with
    | some _ => i.env.enclose i.store.nextScope
    | none => i.env

theorem inner_activation_of_none {l : ForLoop} (h : l.first = none) (i : Interpreter) :
    (l.activation i).inner = i.env := by simp only [activation, h]

def start (l : ForLoop) (i : Interpreter) : Progress :=
  match l.first with
  | some s => (l.activation i).run .first (.exec s) { i with store := i.store.addScope .empty }
  | none => (l.activation i).test i

end ForLoop

end Lox
