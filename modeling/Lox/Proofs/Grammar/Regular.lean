import Lox.Proofs.Grammar.Tree

namespace Lox.Grammar

/-- What holds of each node of a tree that has been parsed, whatever the tokens were: branches and loop
bodies declare nothing. -/
def regular : Condition where
  expr _ := True
  stmt
    | .cond _ yes none => yes.declared? = none
    | .cond _ yes (some no) => yes.declared? = none ∧ no.declared? = none
    | .loop _ body => body.declared? = none
    | _ => True
  function _ := True

theorem leavesLoops_regular : LeavesLoops regular :=
  ⟨fun _ ↦ trivial, fun _ ↦ trivial, fun _ ↦ trivial, fun _ _ h ↦ h⟩

mutual

theorem regular_expr : ∀ e : Expr, e.All regular
  | .literal _ _ | .var _ | .this _ | .super _ _ => trivial
  | .assign _ e | .unary _ e | .grouping e | .get e _ => ⟨trivial, regular_expr e⟩
  | .binary left _ right | .logical left _ right => ⟨trivial, regular_expr left, regular_expr right⟩
  | .call callee arguments _ => ⟨trivial, regular_expr callee, regular_exprs arguments⟩
  | .set object _ value => ⟨trivial, regular_expr object, regular_expr value⟩

theorem regular_exprs : ∀ es : List Expr, Expr.AllOf regular es
  | [] => trivial
  | e :: es => ⟨regular_expr e, regular_exprs es⟩

end

theorem regular_optional (o : Option Expr) : Expr.OptionalAll regular o := by
  cases o with
  | none => trivial
  | some e => exact regular_expr e

theorem VarDeclaration.regular {n m : Nat} {ts : List Token} {s : Stmt} (h : VarDeclaration n ts s m) :
    s.All regular := by
  cases h with
  | plain => exact ⟨trivial, trivial⟩
  | initial => exact ⟨trivial, regular_expr _⟩

theorem ExpressionStatement.regular {n m : Nat} {ts : List Token} {s : Stmt}
    (h : ExpressionStatement n ts s m) : s.All regular ∧ s.declared? = none := by
  obtain ⟨-, -⟩ := h
  exact ⟨⟨trivial, regular_expr _⟩, rfl⟩

theorem ForFirst.regular {n m : Nat} {ts : List Token} {o : Option Stmt} (h : ForFirst n ts o m) :
    ∀ s ∈ o, s.All regular := by
  intro s hs
  cases h with
  | none _ => cases hs
  | var h =>
    cases hs
    exact h.regular
  | expr h =>
    cases hs
    exact h.regular.1

mutual

theorem Statement.regular {r : ElseRule} : ∀ {dangling : Bool} {n m : Nat} {ts : List Token} {s : Stmt},
    Statement r dangling n ts s m → s.All regular ∧ s.declared? = none
  | _, _, _, _, _, .expr h => h.regular
  | _, _, _, _, _, .print .. => ⟨⟨trivial, regular_expr _⟩, rfl⟩
  | _, _, _, _, _, .ret .. => ⟨⟨trivial, regular_optional _⟩, rfl⟩
  | _, _, _, _, _, .block _ hb _ => ⟨⟨trivial, hb.regular⟩, rfl⟩
  | _, _, _, _, _, .cond _ _ _ _ hy => ⟨⟨hy.regular.2, regular_expr _, hy.regular.1⟩, rfl⟩
  | _, _, _, _, _, .condElse _ _ _ _ hy _ _ hn =>
    ⟨⟨⟨hy.regular.2, hn.regular.2⟩, regular_expr _, hy.regular.1, hn.regular.1⟩, rfl⟩
  | _, _, _, _, _, .loop _ _ _ _ hb => ⟨⟨hb.regular.2, regular_expr _, hb.regular.1⟩, rfl⟩
  | _, _, _, _, _, .forLoop _ _ hf _ _ _ _ hb => by
    rw [forTree_eq]
    exact all_forLoop leavesLoops_regular _ hf.regular (regular_optional _) (regular_optional _)
      hb.regular.1 hb.regular.2

theorem Declaration.regular {r : ElseRule} : ∀ {n m : Nat} {ts : List Token} {s : Stmt},
    Declaration r n ts s m → s.All regular
  | _, _, _, _, .statement h => h.regular.1
  | _, _, _, _, .var h => h.regular
  | _, _, _, _, .function _ hd => ⟨trivial, hd.regular⟩
  | _, _, _, _, .classDecl _ _ _ _ hm _ => ⟨trivial, fun _ _ ↦ trivial, hm.regular⟩

theorem Declarations.regular {r : ElseRule} : ∀ {n m : Nat} {ts : List Token} {ss : List Stmt},
    Declarations r n ts ss m → Stmt.AllOf regular ss
  | _, _, _, _, .nil => trivial
  | _, _, _, _, .cons h hs => ⟨h.regular, hs.regular⟩

theorem Function.regular {r : ElseRule} : ∀ {n m : Nat} {ts : List Token} {d : FunctionDecl},
    Function r n ts d m → d.All regular
  | _, _, _, _, .intro _ _ _ _ _ _ hb _ => ⟨trivial, hb.regular⟩

theorem Functions.regular {r : ElseRule} : ∀ {n m : Nat} {ts : List Token} {ds : List FunctionDecl},
    Functions r n ts ds m → FunctionDecl.AllOf regular ds
  | _, _, _, _, .nil => trivial
  | _, _, _, _, .cons h hs => ⟨h.regular, hs.regular⟩

end

end Lox.Grammar
