import Lox.Proofs.Grammar.Spelled
import Lox.Proofs.Number.Display
import Lox.Proofs.Tree.Rendered

namespace Lox

open Form

theorem lexeme_head {w : String} (h : w ∈ ["group", "call", "block"]) : Lexeme w.toList .identifier := by
  simp only [List.mem_cons, List.not_mem_nil, or_false] at h
  rcases h with rfl | rfl | rfl
  · change Lexeme ['g', 'r', 'o', 'u', 'p'] .identifier
    exact .identifier rfl (List.all_eq_true.1 rfl) fun k ↦ by cases k <;> decide
  · change Lexeme ['c', 'a', 'l', 'l'] .identifier
    exact .identifier rfl (List.all_eq_true.1 rfl) fun k ↦ by cases k <;> decide
  · change Lexeme ['b', 'l', 'o', 'c', 'k'] .identifier
    exact .identifier rfl (List.all_eq_true.1 rfl) fun k ↦ by cases k <;> decide

namespace Form

def isWord : Kind → Bool
  | .mark .leftParen | .mark .rightParen | .string _ => false
  | _ => true

theorem ends_of_isNamePart {c : Char} (h : Lexical.isNamePart c) : ends c = false := by
  simp only [ends, Bool.or_eq_false_iff, beq_eq_false_iff_ne]
  refine ⟨⟨?_, ?_⟩, ?_⟩ <;> rintro rfl <;> cases h

theorem ends_of_lexeme {text : List Char} {kind : Kind} (h : Lexeme text kind) (hk : isWord kind) :
    text ≠ [] ∧ ∀ c ∈ text, ends c = false := by
  have hdigit {c : Char} (hc : c.isDigit) : ends c = false := ends_of_isNamePart (Span.isNamePart_of_isDigit hc)
  cases h with
  | mark m => cases m <;> simp_all [Mark.text, ends, isWord]
  | keyword k => cases k <;> simp [Keyword.text, ends]
  | identifier hc hcs _ =>
    refine ⟨List.cons_ne_nil _ _, List.forall_mem_cons.2 ⟨?_, fun c hmem ↦ ends_of_isNamePart (hcs c hmem)⟩⟩
    exact ends_of_isNamePart (Span.isNamePart_of_isNameStart hc)
  | string _ => cases hk
  | whole hd => exact ⟨List.cons_ne_nil _ _, fun c hmem ↦ hdigit (hd c hmem)⟩
  | decimal hd hd' =>
    refine ⟨List.cons_ne_nil _ _, fun c hmem ↦ ?_⟩
    rcases List.mem_append.1 hmem with hmem | hmem
    · exact hdigit (hd c hmem)
    rcases List.mem_cons.1 hmem with rfl | hmem
    · rfl
    · exact hdigit (hd' c hmem)

theorem solidWord_of_lexeme {w : String} {kind : Kind} (h : Lexeme w.toList kind) (hk : isWord kind) : SolidWord w :=
  ends_of_lexeme h hk

end Form

def Literal.Plain : Literal → Prop
  | .number x => x.isFinite
  | .string _ => False
  | _ => True

instance : DecidablePred Literal.Plain
  | .nil | .bool _ => isTrue trivial
  | .number x => inferInstanceAs (Decidable (x.isFinite = true))
  | .string _ => isFalse id

mutual

def Expr.literals : Expr → List Literal
  | .literal value _ => [value]
  | .var _ | .this _ | .super _ _ => []
  | .assign _ e | .unary _ e | .grouping e | .get e _ => e.literals
  | .binary left _ right | .logical left _ right => left.literals ++ right.literals
  | .call callee arguments _ => callee.literals ++ Expr.literalsOf arguments
  | .set object _ value => object.literals ++ value.literals

def Expr.literalsOf : List Expr → List Literal
  | [] => []
  | e :: es => e.literals ++ Expr.literalsOf es

end

mutual

def Stmt.literals : Stmt → List Literal
  | .expr e | .print e | .var _ (some e) | .ret _ (some e) => e.literals
  | .var _ none | .ret _ none => []
  | .block body => Stmt.literalsOf body
  | .cond test yes none => test.literals ++ yes.literals
  | .cond test yes (some no) => test.literals ++ (yes.literals ++ no.literals)
  | .loop test body => test.literals ++ body.literals
  | .function decl => decl.literals
  | .classDecl _ _ methods => FunctionDecl.literalsOf methods

def Stmt.literalsOf : List Stmt → List Literal
  | [] => []
  | s :: ss => s.literals ++ Stmt.literalsOf ss

def FunctionDecl.literals : FunctionDecl → List Literal
  | .mk _ _ body => Stmt.literalsOf body

def FunctionDecl.literalsOf : List FunctionDecl → List Literal
  | [] => []
  | d :: ds => d.literals ++ FunctionDecl.literalsOf ds

end

theorem Literal.exists_lexeme {v : Literal} {line : Nat} (hs : (Expr.literal v line).All spelled) (hv : v.Plain) :
    ∃ kind, Lexeme v.render.toList kind ∧ isWord kind ∧ Grammar.literal? kind = some v := by
  cases v with
  | nil => exact ⟨_, .keyword .kNil, rfl, rfl⟩
  | bool b =>
    cases b with
    | false => exact ⟨_, .keyword .kFalse, rfl, rfl⟩
    | true => exact ⟨_, .keyword .kTrue, rfl, rfl⟩
  | number x =>
    obtain ⟨text, htext⟩ := hs
    exact ⟨_, Number.lexeme_literal htext hv, rfl, rfl⟩
  | string _ => exact hv.elim

section Solid

theorem Token.Is.solid {t : Token} {kind : Kind} (h : t.Is kind) (hk : isWord kind) : (word t.lexeme).Solid :=
  solidWord_of_lexeme h.spelled hk

theorem isWord_unary {kind : Kind} (h : kind ∈ unaryOperators) : isWord kind := by
  revert kind
  decide

theorem isWord_binary {kind : Kind} (h : kind ∈ binaryOperators) : isWord kind := by
  revert kind
  decide

theorem solid_mark (m : Mark) (hm : isWord (.mark m)) : (word m.text).Solid := solidWord_of_lexeme (.mark m) hm

theorem solid_keyword (k : Keyword) : (word k.text).Solid := solidWord_of_lexeme (.keyword k) rfl

theorem solid_head {w : String} (h : w ∈ ["group", "call", "block"]) : (word w).Solid :=
  solidWord_of_lexeme (lexeme_head h) rfl

theorem solid_names {names : List Token} (h : ∀ t ∈ names, t.Is .identifier) : SolidEach (nameForms names) := by
  induction names with
  | nil => trivial
  | cons t names ih =>
    rw [List.forall_mem_cons] at h
    exact ⟨h.1.solid rfl, ih h.2⟩

mutual

theorem Expr.solid_form : ∀ e : Expr, e.All spelled → (∀ v ∈ e.literals, v.Plain) → e.form.Solid
  | .literal v _, hs, hv => by
    obtain ⟨kind, hkind, hword, -⟩ := Literal.exists_lexeme hs (hv v (.head _))
    exact solidWord_of_lexeme hkind hword
  | .var _, hs, _ => Token.Is.solid hs rfl
  | .this _, _, _ => solid_keyword .kThis
  | .assign _ value, hs, hv => ⟨solid_mark .equal rfl, hs.1.solid rfl, value.solid_form hs.2 hv, trivial⟩
  | .unary _ operand, hs, hv => by
    obtain ⟨⟨kind, hk, hop⟩, hs⟩ := hs
    exact ⟨hop.solid (isWord_unary hk), operand.solid_form hs hv, trivial⟩
  | .binary left _ right, hs, hv => by
    obtain ⟨⟨kind, hk, hop⟩, hleft, hright⟩ := hs
    rw [Expr.literals, List.forall_mem_append] at hv
    exact ⟨hop.solid (isWord_binary hk), left.solid_form hleft hv.1, right.solid_form hright hv.2, trivial⟩
  | .logical left op right, hs, hv => by
    obtain ⟨hop, hleft, hright⟩ := hs
    have hop : (word op.lexeme).Solid := hop.elim (·.solid rfl) (·.solid rfl)
    rw [Expr.literals, List.forall_mem_append] at hv
    exact ⟨hop, left.solid_form hleft hv.1, right.solid_form hright hv.2, trivial⟩
  | .grouping inner, hs, hv => ⟨solid_head (by decide), inner.solid_form hs.2 hv, trivial⟩
  | .call callee arguments _, hs, hv => by
    rw [Expr.literals, List.forall_mem_append] at hv
    exact ⟨solid_head (by decide), callee.solid_form hs.2.1 hv.1, Expr.solid_forms arguments hs.2.2 hv.2⟩
  | .get object _, hs, hv => ⟨solid_mark .dot rfl, object.solid_form hs.2 hv, hs.1.solid rfl, trivial⟩
  | .set object _ value, hs, hv => by
    rw [Expr.literals, List.forall_mem_append] at hv
    exact ⟨solid_mark .equal rfl,
      ⟨solid_mark .dot rfl, object.solid_form hs.2.1 hv.1, hs.1.solid rfl, trivial⟩,
      value.solid_form hs.2.2 hv.2, trivial⟩
  | .super _ _, hs, _ => ⟨solid_keyword .kSuper, hs.2.solid rfl, trivial⟩

theorem Expr.solid_forms : ∀ es : List Expr, Expr.AllOf spelled es → (∀ v ∈ Expr.literalsOf es, v.Plain) →
    SolidEach (Expr.forms es)
  | [], _, _ => trivial
  | e :: es, hs, hv => by
    rw [Expr.literalsOf, List.forall_mem_append] at hv
    exact ⟨e.solid_form hs.1 hv.1, Expr.solid_forms es hs.2 hv.2⟩

end

mutual

theorem Stmt.solid_form : ∀ s : Stmt, s.All spelled → (∀ v ∈ s.literals, v.Plain) → s.form.Solid
  | .expr e, hs, hv => ⟨solid_mark .semicolon rfl, e.solid_form hs.2 hv, trivial⟩
  | .print e, hs, hv => ⟨solid_keyword .kPrint, e.solid_form hs.2 hv, trivial⟩
  | .var _ none, hs, _ => ⟨solid_keyword .kVar, hs.1.solid rfl, trivial⟩
  | .var _ (some e), hs, hv => ⟨solid_keyword .kVar, hs.1.solid rfl, e.solid_form hs.2 hv, trivial⟩
  | .block body, hs, hv => ⟨solid_head (by decide), Stmt.solid_forms body hs.2 hv⟩
  | .cond test yes none, hs, hv => by
    rw [Stmt.literals, List.forall_mem_append] at hv
    exact ⟨solid_keyword .kIf, test.solid_form hs.2.1 hv.1, Stmt.solid_form yes hs.2.2 hv.2, trivial⟩
  | .cond test yes (some no), hs, hv => by
    rw [Stmt.literals, List.forall_mem_append, List.forall_mem_append] at hv
    exact ⟨solid_keyword .kIf, test.solid_form hs.2.1 hv.1, Stmt.solid_form yes hs.2.2.1 hv.2.1,
      Stmt.solid_form no hs.2.2.2 hv.2.2, trivial⟩
  | .loop test body, hs, hv => by
    rw [Stmt.literals, List.forall_mem_append] at hv
    exact ⟨solid_keyword .kWhile, test.solid_form hs.2.1 hv.1, Stmt.solid_form body hs.2.2 hv.2, trivial⟩
  | .function decl, hs, hv => FunctionDecl.solid_form decl hs.2 hv
  | .ret _ none, _, _ => ⟨solid_keyword .kReturn, trivial⟩
  | .ret _ (some e), hs, hv => ⟨solid_keyword .kReturn, e.solid_form hs.2 hv, trivial⟩
  | .classDecl _ none methods, hs, hv =>
    ⟨solid_keyword .kClass, hs.1.solid rfl, FunctionDecl.solid_forms methods hs.2.2 hv⟩
  | .classDecl _ (some _) methods, hs, hv =>
    ⟨solid_keyword .kClass, hs.1.solid rfl, solid_mark .less rfl, Token.Is.solid (hs.2.1 _ rfl) rfl,
      FunctionDecl.solid_forms methods hs.2.2 hv⟩

theorem Stmt.solid_forms : ∀ ss : List Stmt, Stmt.AllOf spelled ss → (∀ v ∈ Stmt.literalsOf ss, v.Plain) →
    SolidEach (Stmt.forms ss)
  | [], _, _ => trivial
  | s :: ss, hs, hv => by
    rw [Stmt.literalsOf, List.forall_mem_append] at hv
    exact ⟨Stmt.solid_form s hs.1 hv.1, Stmt.solid_forms ss hs.2 hv.2⟩

theorem FunctionDecl.solid_form : ∀ d : FunctionDecl, d.All spelled → (∀ v ∈ d.literals, v.Plain) → d.form.Solid
  | .mk _ _ body, hs, hv =>
    ⟨solid_keyword .kFun, hs.1.1.solid rfl, solid_names hs.1.2, Stmt.solid_forms body hs.2 hv⟩

theorem FunctionDecl.solid_forms : ∀ ds : List FunctionDecl, FunctionDecl.AllOf spelled ds →
    (∀ v ∈ FunctionDecl.literalsOf ds, v.Plain) → SolidEach (FunctionDecl.forms ds)
  | [], _, _ => trivial
  | d :: ds, hs, hv => by
    rw [FunctionDecl.literalsOf, List.forall_mem_append] at hv
    exact ⟨FunctionDecl.solid_form d hs.1 hv.1, FunctionDecl.solid_forms ds hs.2 hv.2⟩

end

end Solid

end Lox
