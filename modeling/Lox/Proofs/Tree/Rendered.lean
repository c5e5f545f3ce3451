import Lox.Proofs.Tree.Form
import Lox.Proofs.Tree.Relabel

namespace Lox

open Form

mutual

def Expr.form : Expr → Form
  | .literal value _ => word value.render
  | .var ref => word ref.name.lexeme
  | .assign ref value => list [word "=", word ref.name.lexeme, value.form]
  | .unary op operand => list [word op.lexeme, operand.form]
  | .binary left op right => list [word op.lexeme, left.form, right.form]
  | .logical left op right => list [word op.lexeme, left.form, right.form]
  | .grouping inner => list [word "group", inner.form]
  | .call callee arguments _ => list (word "call" :: callee.form :: Expr.forms arguments)
  | .get object name => list [word ".", object.form, word name.lexeme]
  | .set object name value => list [word "=", list [word ".", object.form, word name.lexeme], value.form]
  | .this _ => word "this"
  | .super _ method => list [word "super", word method.lexeme]

def Expr.forms : List Expr → List Form
  | [] => []
  | e :: es => e.form :: Expr.forms es

end

def nameForms (names : List Token) : List Form := names.map fun t ↦ word t.lexeme

mutual

def Stmt.form : Stmt → Form
  | .expr e => list [word ";", e.form]
  | .print e => list [word "print", e.form]
  | .var name none => list [word "var", word name.lexeme]
  | .var name (some e) => list [word "var", word name.lexeme, e.form]
  | .block body => list (word "block" :: Stmt.forms body)
  | .cond test yes none => list [word "if", test.form, yes.form]
  | .cond test yes (some no) => list [word "if", test.form, yes.form, no.form]
  | .loop test body => list [word "while", test.form, body.form]
  | .function decl => decl.form
  | .ret _ none => list [word "return"]
  | .ret _ (some e) => list [word "return", e.form]
  | .classDecl name none methods => list (word "class" :: word name.lexeme :: FunctionDecl.forms methods)
  | .classDecl name (some ref) methods =>
    list (word "class" :: word name.lexeme :: word "<" :: word ref.name.lexeme :: FunctionDecl.forms methods)

def Stmt.forms : List Stmt → List Form
  | [] => []
  | s :: ss => s.form :: Stmt.forms ss

def FunctionDecl.form : FunctionDecl → Form
  | .mk name params body => list (word "fun" :: word name.lexeme :: list (nameForms params) :: Stmt.forms body)

def FunctionDecl.forms : List FunctionDecl → List Form
  | [] => []
  | d :: ds => d.form :: FunctionDecl.forms ds

end

mutual

theorem Expr.toList_render : ∀ e : Expr, e.render.toList = e.form.text
  | .literal _ _ | .var _ | .this _ => rfl
  | .assign _ value => by simp [Expr.render, Expr.form, text, textEach, value.toList_render]
  | .unary _ operand => by simp [Expr.render, Expr.form, text, textEach, operand.toList_render]
  | .binary left _ right | .logical left _ right => by
    simp [Expr.render, Expr.form, text, textEach, left.toList_render, right.toList_render]
  | .grouping inner => by simp [Expr.render, Expr.form, text, textEach, inner.toList_render]
  | .call callee arguments _ => by
    simp [Expr.render, Expr.form, text, textEach, callee.toList_render, Expr.toList_renderEach arguments]
  | .get object _ => by simp [Expr.render, Expr.form, text, textEach, object.toList_render]
  | .set object _ value => by
    simp [Expr.render, Expr.form, text, textEach, object.toList_render, value.toList_render]
  | .super _ _ => by simp [Expr.render, Expr.form, text, textEach]

theorem Expr.toList_renderEach : ∀ es : List Expr, (Expr.renderEach es).toList = textEach (Expr.forms es)
  | [] => rfl
  | e :: es => by simp [Expr.renderEach, Expr.forms, textEach, e.toList_render, Expr.toList_renderEach es]

end

theorem toList_intercalate_cons (name : Token) (names : List Token) :
    (String.intercalate " " ((name :: names).map Token.lexeme)).toList =
      name.lexeme.toList ++ textEach (nameForms names) := by
  induction names generalizing name with
  | nil => simp [nameForms, textEach]
  | cons name' names ih =>
    rw [List.map_cons, List.map_cons, String.intercalate_cons_cons, ← List.map_cons, String.toList_append, ih]
    simp [nameForms, textEach, text]

theorem toList_intercalate_names (names : List Token) :
    '(' :: ((String.intercalate " " (names.map Token.lexeme)).toList ++ [')']) = (list (nameForms names)).text := by
  cases names with
  | nil => rfl
  | cons name names =>
    rw [toList_intercalate_cons]
    simp [nameForms, text]

mutual

theorem Stmt.toList_render : ∀ s : Stmt, s.render.toList = s.form.text
  | .expr e | .print e => by simp [Stmt.render, Stmt.form, text, textEach, e.toList_render]
  | .var _ none | .ret _ none => by simp [Stmt.render, Stmt.form, text, textEach]
  | .var _ (some e) | .ret _ (some e) => by simp [Stmt.render, Stmt.form, text, textEach, e.toList_render]
  | .block body => by simp [Stmt.render, Stmt.form, text, Stmt.toList_renderEach body]
  | .cond test yes none => by
    simp [Stmt.render, Stmt.form, text, textEach, test.toList_render, Stmt.toList_render yes]
  | .cond test yes (some no) => by
    simp [Stmt.render, Stmt.form, text, textEach, test.toList_render, Stmt.toList_render yes, Stmt.toList_render no]
  | .loop test body => by
    simp [Stmt.render, Stmt.form, text, textEach, test.toList_render, Stmt.toList_render body]
  | .function decl => by rw [Stmt.render, Stmt.form, FunctionDecl.toList_render decl]
  | .classDecl _ none methods | .classDecl _ (some _) methods => by
    simp [Stmt.render, Stmt.form, text, textEach, FunctionDecl.toList_renderEach methods]

theorem Stmt.toList_renderEach : ∀ ss : List Stmt, (Stmt.renderEach ss).toList = textEach (Stmt.forms ss)
  | [] => rfl
  | s :: ss => by simp [Stmt.renderEach, Stmt.forms, textEach, Stmt.toList_render s, Stmt.toList_renderEach ss]

theorem FunctionDecl.toList_render : ∀ d : FunctionDecl, d.render.toList = d.form.text
  | .mk name params body => by
    simp [FunctionDecl.render, FunctionDecl.form, text, textEach, ← toList_intercalate_names,
      Stmt.toList_renderEach body]

theorem FunctionDecl.toList_renderEach : ∀ ds : List FunctionDecl,
    (FunctionDecl.renderEach ds).toList = textEach (FunctionDecl.forms ds)
  | [] => rfl
  | d :: ds => by
    simp [FunctionDecl.renderEach, FunctionDecl.forms, textEach, FunctionDecl.toList_render d,
      FunctionDecl.toList_renderEach ds]

end

section

variable (r : Relabeling)

mutual

theorem Expr.form_relabel : ∀ e : Expr, (e.relabel r).form = e.form
  | .literal _ _ | .var _ | .this _ | .super _ _ => rfl
  | .assign _ e | .unary _ e | .grouping e | .get e _ => by simp [Expr.relabel, Expr.form, Ref.relabel, e.form_relabel]
  | .binary left _ right | .logical left _ right => by
    simp [Expr.relabel, Expr.form, left.form_relabel, right.form_relabel]
  | .call callee arguments _ => by
    simp [Expr.relabel, Expr.form, callee.form_relabel, Expr.forms_relabelAll arguments]
  | .set object _ value => by simp [Expr.relabel, Expr.form, object.form_relabel, value.form_relabel]

theorem Expr.forms_relabelAll : ∀ es : List Expr, Expr.forms (Expr.relabelAll r es) = Expr.forms es
  | [] => rfl
  | e :: es => by rw [Expr.relabelAll, Expr.forms, e.form_relabel, Expr.forms_relabelAll es, Expr.forms]

end

mutual

theorem Stmt.form_relabel : ∀ s : Stmt, (s.relabel r).form = s.form
  | .expr e | .print e => by simp [Stmt.relabel, Stmt.form, e.form_relabel]
  | .var _ none | .ret _ none => rfl
  | .var _ (some e) | .ret _ (some e) => by simp [Stmt.relabel, Stmt.form, e.form_relabel]
  | .block body => by rw [Stmt.relabel, Stmt.form, Stmt.forms_relabelAll body, Stmt.form]
  | .cond test yes none => by simp [Stmt.relabel, Stmt.form, test.form_relabel, Stmt.form_relabel yes]
  | .cond test yes (some no) => by
    simp [Stmt.relabel, Stmt.form, test.form_relabel, Stmt.form_relabel yes, Stmt.form_relabel no]
  | .loop test body => by simp [Stmt.relabel, Stmt.form, test.form_relabel, Stmt.form_relabel body]
  | .function decl => FunctionDecl.form_relabel decl
  | .classDecl _ none methods | .classDecl _ (some _) methods => by
    simp [Stmt.relabel, Stmt.form, Ref.relabel, FunctionDecl.forms_relabelAll methods]

theorem Stmt.forms_relabelAll : ∀ ss : List Stmt, Stmt.forms (Stmt.relabelAll r ss) = Stmt.forms ss
  | [] => rfl
  | s :: ss => by rw [Stmt.relabelAll, Stmt.forms, Stmt.form_relabel s, Stmt.forms_relabelAll ss, Stmt.forms]

theorem FunctionDecl.form_relabel : ∀ d : FunctionDecl, (d.relabel r).form = d.form
  | .mk _ params body => by
    simp [FunctionDecl.relabel, FunctionDecl.form, nameForms, Stmt.forms_relabelAll body]

theorem FunctionDecl.forms_relabelAll : ∀ ds : List FunctionDecl,
    FunctionDecl.forms (FunctionDecl.relabelAll r ds) = FunctionDecl.forms ds
  | [] => rfl
  | d :: ds => by
    rw [FunctionDecl.relabelAll, FunctionDecl.forms, FunctionDecl.form_relabel d, FunctionDecl.forms_relabelAll ds,
      FunctionDecl.forms]

end

/-- Lines and ids do not show in a text. -/
theorem Stmt.render_relabel (s : Stmt) : (s.relabel r).render = s.render := by
  rw [← String.toList_inj, Stmt.toList_render, Stmt.toList_render, Stmt.form_relabel]

end

end Lox
