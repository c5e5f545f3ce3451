import Lox.Scope.Distances
import Lox.Tree.Basic
import Mathlib.Data.List.Forall2

namespace Lox.Skip

/-- Where one of two otherwise equal chains of scopes has a scope more. -/
inductive Gap where
  | nowhere
  | out (n : Nat)

def Gap.inside : Gap → Gap
  | nowhere => nowhere
  | out n => out (n + 1)

theorem Gap.inside_ne (g : Gap) : g.inside ≠ .out 0 := by
  cases g <;> simp [inside]

/-- Distances that lead to the same scope, the first along the chain that has a scope more. -/
inductive Reach : Gap → Nat → Nat → Prop
  | same (d : Nat) : Reach .nowhere d d
  | inner {n d : Nat} (h : d < n) : Reach (.out n) d d
  | outer {n d : Nat} (h : n ≤ d) : Reach (.out n) (d + 1) d

theorem Reach.inside {g : Gap} {d d' : Nat} (h : Reach g d d') : Reach g.inside (d + 1) (d' + 1) := by
  cases h with
  | same => exact .same _
  | inner h => exact .inner (Nat.succ_lt_succ h)
  | outer h => exact .outer (Nat.succ_le_succ h)

theorem Reach.zero {g : Gap} (h : g ≠ .out 0) : Reach g 0 0 := by
  cases g with
  | nowhere => exact .same 0
  | out n =>
    cases n with
    | zero => exact absurd rfl h
    | succ n => exact .inner (Nat.succ_pos n)

section

variable (D : Distances)

/-- Occurrences of one name that lead to the same scope. -/
structure RefLinked (g : Gap) (ref ref' : Ref) : Prop where
  name : ref'.name = ref.name
  distance : Option.Rel (Reach g) (D.find? ref.id) (D.find? ref'.id)

/-- Occurrences of `super`, which lead to `this` as well. -/
structure SuperLinked (g : Gap) (ref ref' : Ref) : Prop extends RefLinked D g ref ref' where
  this : Option.Rel (fun d d' ↦ Reach g (d - 1) (d' - 1)) (D.find? ref.id) (D.find? ref'.id)

/-- Expressions that are alike but for the ids of occurrences, and mean the same across a gap. -/
inductive ExprLinked (g : Gap) : Expr → Expr → Prop
  | literal (value : Literal) (line : Nat) : ExprLinked g (.literal value line) (.literal value line)
  | var {ref ref' : Ref} (h : RefLinked D g ref ref') : ExprLinked g (.var ref) (.var ref')
  | assign {ref ref' : Ref} {e e' : Expr} (h : RefLinked D g ref ref') (he : ExprLinked g e e') :
      ExprLinked g (.assign ref e) (.assign ref' e')
  | unary (op : Token) {e e' : Expr} (h : ExprLinked g e e') :
      ExprLinked g (.unary op e) (.unary op e')
  | binary (op : Token) {l l' r r' : Expr} (hl : ExprLinked g l l') (hr : ExprLinked g r r') :
      ExprLinked g (.binary l op r) (.binary l' op r')
  | logical (op : Token) {l l' r r' : Expr} (hl : ExprLinked g l l') (hr : ExprLinked g r r') :
      ExprLinked g (.logical l op r) (.logical l' op r')
  | grouping {e e' : Expr} (h : ExprLinked g e e') : ExprLinked g (.grouping e) (.grouping e')
  | call (paren : Token) {f f' : Expr} {es es' : List Expr} (hf : ExprLinked g f f')
      (hes : List.Forall₂ (ExprLinked g) es es') : ExprLinked g (.call f es paren) (.call f' es' paren)
  | get (name : Token) {e e' : Expr} (h : ExprLinked g e e') : ExprLinked g (.get e name) (.get e' name)
  | set (name : Token) {o o' e e' : Expr} (ho : ExprLinked g o o') (he : ExprLinked g e e') :
      ExprLinked g (.set o name e) (.set o' name e')
  | this {ref ref' : Ref} (h : RefLinked D g ref ref') : ExprLinked g (.this ref) (.this ref')
  | super (method : Token) {ref ref' : Ref} (h : SuperLinked D g ref ref') :
      ExprLinked g (.super ref method) (.super ref' method)

mutual

/-- Statements that are alike in the same way. What they declare does not go into the scope that one of
the chains lacks. -/
inductive StmtLinked : Gap → Stmt → Stmt → Prop
  | expr {g : Gap} {e e' : Expr} (h : ExprLinked D g e e') : StmtLinked g (.expr e) (.expr e')
  | print {g : Gap} {e e' : Expr} (h : ExprLinked D g e e') : StmtLinked g (.print e) (.print e')
  | var {g : Gap} (name : Token) {o o' : Option Expr} (hg : g ≠ .out 0)
      (h : Option.Rel (ExprLinked D g) o o') : StmtLinked g (.var name o) (.var name o')
  | block {g : Gap} {ss ss' : List Stmt} (h : StmtsLinked g.inside ss ss') :
      StmtLinked g (.block ss) (.block ss')
  | cond {g : Gap} {e e' : Expr} {y y' : Stmt} (he : ExprLinked D g e e') (hy : StmtLinked g y y') :
      StmtLinked g (.cond e y none) (.cond e' y' none)
  | condElse {g : Gap} {e e' : Expr} {y y' n n' : Stmt} (he : ExprLinked D g e e')
      (hy : StmtLinked g y y') (hn : StmtLinked g n n') :
      StmtLinked g (.cond e y (some n)) (.cond e' y' (some n'))
  | loop {g : Gap} {e e' : Expr} {s s' : Stmt} (he : ExprLinked D g e e') (hs : StmtLinked g s s') :
      StmtLinked g (.loop e s) (.loop e' s')
  | function {g : Gap} {d d' : FunctionDecl} (hg : g ≠ .out 0) (h : FunctionLinked g d d') :
      StmtLinked g (.function d) (.function d')
  | ret {g : Gap} (keyword : Token) {o o' : Option Expr} (h : Option.Rel (ExprLinked D g) o o') :
      StmtLinked g (.ret keyword o) (.ret keyword o')
  | classDecl {g : Gap} (name : Token) {ds ds' : List FunctionDecl} (hg : g ≠ .out 0)
      (h : FunctionsLinked g.inside ds ds') :
      StmtLinked g (.classDecl name none ds) (.classDecl name none ds')
  | subclass {g : Gap} (name : Token) {ref ref' : Ref} {ds ds' : List FunctionDecl} (hg : g ≠ .out 0)
      (hr : RefLinked D g ref ref') (h : FunctionsLinked g.inside.inside ds ds') :
      StmtLinked g (.classDecl name (some ref) ds) (.classDecl name (some ref') ds')

inductive StmtsLinked : Gap → List Stmt → List Stmt → Prop
  | nil {g : Gap} : StmtsLinked g [] []
  | cons {g : Gap} {s s' : Stmt} {ss ss' : List Stmt} (h : StmtLinked g s s')
      (hs : StmtsLinked g ss ss') : StmtsLinked g (s :: ss) (s' :: ss')

/-- Functions whose bodies are alike, one scope further in. -/
inductive FunctionLinked : Gap → FunctionDecl → FunctionDecl → Prop
  | mk {g : Gap} (name : Token) (params : List Token) {body body' : List Stmt}
      (h : StmtsLinked g.inside body body') :
      FunctionLinked g (.mk name params body) (.mk name params body')

inductive FunctionsLinked : Gap → List FunctionDecl → List FunctionDecl → Prop
  | nil {g : Gap} : FunctionsLinked g [] []
  | cons {g : Gap} {d d' : FunctionDecl} {ds ds' : List FunctionDecl} (h : FunctionLinked g d d')
      (hs : FunctionsLinked g ds ds') : FunctionsLinked g (d :: ds) (d' :: ds')

end

end

section

variable {D : Distances} {g : Gap}

theorem FunctionLinked.name_eq {d d' : FunctionDecl} (h : FunctionLinked D g d d') : d'.name = d.name := by
  cases h
  rfl

theorem FunctionLinked.params_eq {d d' : FunctionDecl} (h : FunctionLinked D g d d') :
    d'.params = d.params := by
  cases h
  rfl

theorem FunctionLinked.body {d d' : FunctionDecl} (h : FunctionLinked D g d d') :
    StmtsLinked D g.inside d.body d'.body := by
  cases h with
  | mk _ _ h => exact h

theorem ExprLinked.line_eq : ∀ {e e' : Expr}, ExprLinked D g e e' → e'.line = e.line
  | _, _, .literal _ _ | _, _, .unary _ _ | _, _, .binary _ _ _ | _, _, .logical _ _ _
  | _, _, .call _ _ _ | _, _, .get _ _ | _, _, .set _ _ _ => rfl
  | _, _, .var h | _, _, .assign h _ | _, _, .this h => congrArg Token.line h.name
  | _, _, .super _ h => congrArg Token.line h.name
  | _, _, .grouping h => (line_eq h :)

end

section

variable (D : Distances)

theorem RefLinked.refl (ref : Ref) : RefLinked D .nowhere ref ref := by
  refine ⟨rfl, ?_⟩
  cases D.find? ref.id with
  | none => exact .none
  | some d => exact .some (.same d)

theorem SuperLinked.refl (ref : Ref) : SuperLinked D .nowhere ref ref := by
  refine ⟨.refl D ref, ?_⟩
  cases D.find? ref.id with
  | none => exact .none
  | some d => exact .some (.same _)

mutual

theorem ExprLinked.refl : ∀ e : Expr, ExprLinked D .nowhere e e
  | .literal value line => .literal value line
  | .var ref => .var (.refl D ref)
  | .assign ref e => .assign (.refl D ref) (refl e)
  | .unary op e => .unary op (refl e)
  | .binary l op r => .binary op (refl l) (refl r)
  | .logical l op r => .logical op (refl l) (refl r)
  | .grouping e => .grouping (refl e)
  | .call f es paren => .call paren (refl f) (ExprLinked.refl_list es)
  | .get e name => .get name (refl e)
  | .set o name e => .set name (refl o) (refl e)
  | .this ref => .this (.refl D ref)
  | .super ref method => .super method (.refl D ref)

theorem ExprLinked.refl_list : ∀ es : List Expr, List.Forall₂ (ExprLinked D .nowhere) es es
  | [] => .nil
  | e :: es => .cons (ExprLinked.refl e) (ExprLinked.refl_list es)

end

theorem ExprLinked.refl_option (o : Option Expr) : Option.Rel (ExprLinked D .nowhere) o o := by
  cases o with
  | none => exact .none
  | some e => exact .some (.refl D e)

mutual

theorem StmtLinked.refl : ∀ s : Stmt, StmtLinked D .nowhere s s
  | .expr e => .expr (.refl D e)
  | .print e => .print (.refl D e)
  | .var name o => .var name (by simp) (ExprLinked.refl_option D o)
  | .block ss => .block (StmtsLinked.refl ss)
  | .cond e y none => .cond (.refl D e) (StmtLinked.refl y)
  | .cond e y (some n) => .condElse (.refl D e) (StmtLinked.refl y) (StmtLinked.refl n)
  | .loop e s => .loop (.refl D e) (StmtLinked.refl s)
  | .function d => .function (by simp) (FunctionLinked.refl d)
  | .ret keyword o => .ret keyword (ExprLinked.refl_option D o)
  | .classDecl name none ds => .classDecl name (by simp) (FunctionsLinked.refl ds)
  | .classDecl name (some ref) ds => .subclass name (by simp) (.refl D ref) (FunctionsLinked.refl ds)

theorem StmtsLinked.refl : ∀ ss : List Stmt, StmtsLinked D .nowhere ss ss
  | [] => .nil
  | s :: ss => .cons (StmtLinked.refl s) (StmtsLinked.refl ss)

theorem FunctionLinked.refl : ∀ d : FunctionDecl, FunctionLinked D .nowhere d d
  | .mk name params body => .mk name params (StmtsLinked.refl body)

theorem FunctionsLinked.refl : ∀ ds : List FunctionDecl, FunctionsLinked D .nowhere ds ds
  | [] => .nil
  | d :: ds => .cons (FunctionLinked.refl d) (FunctionsLinked.refl ds)

end

end

end Lox.Skip
