import Lox.Parse.Program

namespace Lox.Grammar

open Parse

/-- The levels of precedence of expressions, loosest first. -/
inductive Level where
  | assignment | disjunction | conjunction | equality | comparison | term | factor | unary | call
  | primary
  deriving DecidableEq

namespace Level

def operand? : Level → Option Level
  | disjunction => some conjunction
  | conjunction => some equality
  | equality => some comparison
  | comparison => some term
  | term => some factor
  | factor => some unary
  | _ => none

def operators : Level → List Kind
  | disjunction => [.keyword .kOr]
  | conjunction => [.keyword .kAnd]
  | equality => [.mark .bangEqual, .mark .equalEqual]
  | comparison => [.mark .greater, .mark .greaterEqual, .mark .less, .mark .lessEqual]
  | term => [.mark .minus, .mark .plus]
  | factor => [.mark .slash, .mark .star]
  | unary => [.mark .bang, .mark .minus]
  | _ => []

def node : Level → Expr → Token → Expr → Expr
  | disjunction | conjunction => .logical
  | _ => .binary

end Level

def literal? : Kind → Option Literal
  | .keyword .kFalse => some (.bool false)
  | .keyword .kTrue => some (.bool true)
  | .keyword .kNil => some .nil
  | .number x => some (.number x)
  | .string s => some (.string s)
  | _ => none

mutual

/-- The tokens that make up an expression of a level, and its tree. Occurrences of names are numbered
in the order in which they are read, from the first number given up to the second one. The name in
front of an equals sign is numbered twice: as a variable, and anew once the value has been read. -/
inductive Expression : Level → Nat → List Token → Expr → Nat → Prop
  | assign {n m : Nat} {ts : List Token} {name equals : Token} {value : Expr}
      (hn : name.kind = .identifier) (he : equals.kind = .mark .equal)
      (hv : Expression .assignment (n + 1) ts value m) :
      Expression .assignment n (name :: equals :: ts) (.assign ⟨m, name⟩ value) (m + 1)
  | set {n m p : Nat} {ts ts' : List Token} {dot name equals : Token} {object value : Expr}
      (ho : Expression .call n ts object m) (hd : dot.kind = .mark .dot)
      (hn : name.kind = .identifier) (he : equals.kind = .mark .equal)
      (hv : Expression .assignment m ts' value p) :
      Expression .assignment n (ts ++ dot :: name :: equals :: ts') (.set object name value) p
  | noAssign {n m : Nat} {ts : List Token} {e : Expr} (h : Expression .disjunction n ts e m) :
      Expression .assignment n ts e m
  | chain {n m p : Nat} {ts ts' : List Token} {ℓ ℓ' : Level} {first e : Expr}
      (hl : ℓ.operand? = some ℓ') (hf : Expression ℓ' n ts first m)
      (ho : Operands ℓ m ts' first e p) : Expression ℓ n (ts ++ ts') e p
  | unary {n m : Nat} {ts : List Token} {op : Token} {e : Expr}
      (ho : op.kind ∈ Level.unary.operators) (he : Expression .unary n ts e m) :
      Expression .unary n (op :: ts) (.unary op e) m
  | noUnary {n m : Nat} {ts : List Token} {e : Expr} (h : Expression .call n ts e m) :
      Expression .unary n ts e m
  | call {n m p : Nat} {ts ts' : List Token} {first e : Expr}
      (hf : Expression .primary n ts first m) (hs : Suffixes m ts' first e p) :
      Expression .call n (ts ++ ts') e p
  | literal {n : Nat} {t : Token} {v : Literal} (ht : literal? t.kind = some v) :
      Expression .primary n [t] (.literal v t.line) n
  | this {n : Nat} {t : Token} (ht : t.kind = .keyword .kThis) :
      Expression .primary n [t] (.this ⟨n, t⟩) (n + 1)
  | var {n : Nat} {t : Token} (ht : t.kind = .identifier) :
      Expression .primary n [t] (.var ⟨n, t⟩) (n + 1)
  | super {n : Nat} {t dot method : Token} (ht : t.kind = .keyword .kSuper)
      (hd : dot.kind = .mark .dot) (hm : method.kind = .identifier) :
      Expression .primary n [t, dot, method] (.super ⟨n, t⟩ method) (n + 1)
  | grouping {n m : Nat} {ts : List Token} {left right : Token} {e : Expr}
      (hl : left.kind = .mark .leftParen) (he : Expression .assignment n ts e m)
      (hr : right.kind = .mark .rightParen) :
      Expression .primary n (left :: ts ++ [right]) (.grouping e) m

/-- Operators of a level with their right operands, behind an expression, and the tree of it all. -/
inductive Operands : Level → Nat → List Token → Expr → Expr → Nat → Prop
  | nil {n : Nat} {ℓ : Level} {e : Expr} : Operands ℓ n [] e e n
  | cons {n m p : Nat} {ts ts' : List Token} {ℓ ℓ' : Level} {op : Token} {left right e : Expr}
      (ho : op.kind ∈ ℓ.operators) (hl : ℓ.operand? = some ℓ') (hr : Expression ℓ' n ts right m)
      (ht : Operands ℓ m ts' (ℓ.node left op right) e p) : Operands ℓ n (op :: ts ++ ts') left e p

/-- Calls and property accesses behind an expression, and the tree of it all. -/
inductive Suffixes : Nat → List Token → Expr → Expr → Nat → Prop
  | nil {n : Nat} {e : Expr} : Suffixes n [] e e n
  | call {n m p : Nat} {ts ts' : List Token} {left right : Token} {callee e : Expr}
      {args : List Expr} (hl : left.kind = .mark .leftParen) (ha : Arguments n ts args m)
      (hc : args.length ≤ maxArity) (hr : right.kind = .mark .rightParen)
      (hs : Suffixes m ts' (.call callee args right) e p) :
      Suffixes n (left :: ts ++ right :: ts') callee e p
  | get {n m : Nat} {ts : List Token} {dot name : Token} {object e : Expr}
      (hd : dot.kind = .mark .dot) (hn : name.kind = .identifier)
      (hs : Suffixes n ts (.get object name) e m) : Suffixes n (dot :: name :: ts) object e m

inductive Arguments : Nat → List Token → List Expr → Nat → Prop
  | none {n : Nat} : Arguments n [] [] n
  | some {n m p : Nat} {ts ts' : List Token} {e : Expr} {es : List Expr}
      (he : Expression .assignment n ts e m) (hs : MoreArguments m ts' es p) :
      Arguments n (ts ++ ts') (e :: es) p

inductive MoreArguments : Nat → List Token → List Expr → Nat → Prop
  | nil {n : Nat} : MoreArguments n [] [] n
  | cons {n m p : Nat} {ts ts' : List Token} {comma : Token} {e : Expr} {es : List Expr}
      (hc : comma.kind = .mark .comma) (he : Expression .assignment n ts e m)
      (hs : MoreArguments m ts' es p) : MoreArguments n (comma :: ts ++ ts') (e :: es) p

end

/-- Something that may be absent. -/
inductive Optional {α : Type} (rule : Nat → List Token → α → Nat → Prop) :
    Nat → List Token → Option α → Nat → Prop
  | none {n : Nat} : Optional rule n [] none n
  | some {n m : Nat} {ts : List Token} {a : α} (h : rule n ts a m) : Optional rule n ts (some a) m

inductive MoreParameters : List Token → List Token → Prop
  | nil : MoreParameters [] []
  | cons {comma name : Token} {ts names : List Token} (hc : comma.kind = .mark .comma)
      (hn : name.kind = .identifier) (hs : MoreParameters ts names) :
      MoreParameters (comma :: name :: ts) (name :: names)

inductive Parameters : List Token → List Token → Prop
  | none : Parameters [] []
  | some {name : Token} {ts names : List Token} (hn : name.kind = .identifier)
      (hs : MoreParameters ts names) : Parameters (name :: ts) (name :: names)

inductive VarDeclaration : Nat → List Token → Stmt → Nat → Prop
  | plain {n : Nat} {keyword name stop : Token} (hk : keyword.kind = .keyword .kVar)
      (hn : name.kind = .identifier) (hs : stop.kind = .mark .semicolon) :
      VarDeclaration n [keyword, name, stop] (.var name none) n
  | initial {n m : Nat} {ts : List Token} {keyword name equals stop : Token} {e : Expr}
      (hk : keyword.kind = .keyword .kVar) (hn : name.kind = .identifier)
      (hq : equals.kind = .mark .equal) (he : Expression .assignment n ts e m)
      (hs : stop.kind = .mark .semicolon) :
      VarDeclaration n (keyword :: name :: equals :: ts ++ [stop]) (.var name (some e)) m

inductive ExpressionStatement : Nat → List Token → Stmt → Nat → Prop
  | intro {n m : Nat} {ts : List Token} {stop : Token} {e : Expr}
      (he : Expression .assignment n ts e m) (hs : stop.kind = .mark .semicolon) :
      ExpressionStatement n (ts ++ [stop]) (.expr e) m

/-- The first clause of a `for`, with the semicolon that ends it. -/
inductive ForFirst : Nat → List Token → Option Stmt → Nat → Prop
  | none {n : Nat} {stop : Token} (hs : stop.kind = .mark .semicolon) : ForFirst n [stop] none n
  | var {n m : Nat} {ts : List Token} {s : Stmt} (h : VarDeclaration n ts s m) :
      ForFirst n ts (some s) m
  | expr {n m : Nat} {ts : List Token} {s : Stmt} (h : ExpressionStatement n ts s m) :
      ForFirst n ts (some s) m

/-- The tree of a `for`: a loop, with the step at the end of its body, behind the first clause. -/
def forTree (line : Nat) : Option Stmt → Option Expr → Option Expr → Stmt → Stmt
  | none, some test, none, body => .loop test body
  | none, some test, some step, body => .loop test (.block [body, .expr step])
  | none, none, none, body => .loop (.literal (.bool true) line) body
  | none, none, some step, body => .loop (.literal (.bool true) line) (.block [body, .expr step])
  | some first, some test, none, body => .block [first, .loop test body]
  | some first, some test, some step, body => .block [first, .loop test (.block [body, .expr step])]
  | some first, none, none, body => .block [first, .loop (.literal (.bool true) line) body]
  | some first, none, some step, body =>
    .block [first, .loop (.literal (.bool true) line) (.block [body, .expr step])]

theorem forTree_eq (line : Nat) (first : Option Stmt) (test step : Option Expr) (body : Stmt) :
    forTree line first test step body = .forLoop line first test step body := by
  cases first <;> cases test <;> cases step <;> rfl

inductive Superclass : Nat → List Token → Option Ref → Nat → Prop
  | none {n : Nat} : Superclass n [] none n
  | some {n : Nat} {less name : Token} (hl : less.kind = .mark .less)
      (hn : name.kind = .identifier) : Superclass n [less, name] (some ⟨n, name⟩) (n + 1)

/-- What the grammar leaves open: whether an `else` has to belong to the nearest `if` that it can. -/
inductive ElseRule where
  | any
  | nearest
  deriving DecidableEq

mutual

/-- The tokens that make up a statement, and its tree. The flag says whether the statement ends in an
`if` without an `else`, so that an `else` behind it could still belong to it. -/
inductive Statement (r : ElseRule) : Bool → Nat → List Token → Stmt → Nat → Prop
  | expr {n m : Nat} {ts : List Token} {s : Stmt} (h : ExpressionStatement n ts s m) :
      Statement r false n ts s m
  | print {n m : Nat} {ts : List Token} {keyword stop : Token} {e : Expr}
      (hk : keyword.kind = .keyword .kPrint) (he : Expression .assignment n ts e m)
      (hs : stop.kind = .mark .semicolon) :
      Statement r false n (keyword :: ts ++ [stop]) (.print e) m
  | ret {n m : Nat} {ts : List Token} {keyword stop : Token} {e : Option Expr}
      (hk : keyword.kind = .keyword .kReturn) (he : Optional (Expression .assignment) n ts e m)
      (hs : stop.kind = .mark .semicolon) :
      Statement r false n (keyword :: ts ++ [stop]) (.ret keyword e) m
  | block {n m : Nat} {ts : List Token} {left right : Token} {body : List Stmt}
      (hl : left.kind = .mark .leftBrace) (hb : Declarations r n ts body m)
      (hr : right.kind = .mark .rightBrace) :
      Statement r false n (left :: ts ++ [right]) (.block body) m
  | cond {n m p : Nat} {ts ts₁ : List Token} {keyword left right : Token} {test : Expr}
      {yes : Stmt} {dangling : Bool} (hk : keyword.kind = .keyword .kIf)
      (hl : left.kind = .mark .leftParen) (ht : Expression .assignment n ts test m)
      (hr : right.kind = .mark .rightParen) (hy : Statement r dangling m ts₁ yes p) :
      Statement r true n (keyword :: left :: ts ++ right :: ts₁) (.cond test yes none) p
  | condElse {n m p q : Nat} {ts ts₁ ts₂ : List Token} {keyword left right other : Token}
      {test : Expr} {yes no : Stmt} {inner dangling : Bool} (hk : keyword.kind = .keyword .kIf)
      (hl : left.kind = .mark .leftParen) (ht : Expression .assignment n ts test m)
      (hr : right.kind = .mark .rightParen) (hy : Statement r inner m ts₁ yes p)
      (hi : r = .nearest → inner = false) (ho : other.kind = .keyword .kElse)
      (hn : Statement r dangling p ts₂ no q) :
      Statement r dangling n (keyword :: left :: ts ++ right :: ts₁ ++ other :: ts₂)
        (.cond test yes (some no)) q
  | loop {n m p : Nat} {ts ts₁ : List Token} {keyword left right : Token} {test : Expr}
      {body : Stmt} {dangling : Bool} (hk : keyword.kind = .keyword .kWhile)
      (hl : left.kind = .mark .leftParen) (ht : Expression .assignment n ts test m)
      (hr : right.kind = .mark .rightParen) (hb : Statement r dangling m ts₁ body p) :
      Statement r dangling n (keyword :: left :: ts ++ right :: ts₁) (.loop test body) p
  | forLoop {n m p q k : Nat} {ts ts₁ ts₂ ts₃ : List Token} {keyword left stop right : Token}
      {first : Option Stmt} {test step : Option Expr} {body : Stmt} {dangling : Bool}
      (hk : keyword.kind = .keyword .kFor) (hl : left.kind = .mark .leftParen)
      (hf : ForFirst n ts first m) (ht : Optional (Expression .assignment) m ts₁ test p)
      (hs : stop.kind = .mark .semicolon) (hi : Optional (Expression .assignment) p ts₂ step q)
      (hr : right.kind = .mark .rightParen) (hb : Statement r dangling q ts₃ body k) :
      Statement r dangling n (keyword :: left :: ts ++ ts₁ ++ stop :: ts₂ ++ right :: ts₃)
        (forTree keyword.line first test step body) k

inductive Declaration (r : ElseRule) : Nat → List Token → Stmt → Nat → Prop
  | statement {n m : Nat} {ts : List Token} {s : Stmt} {dangling : Bool}
      (h : Statement r dangling n ts s m) : Declaration r n ts s m
  | var {n m : Nat} {ts : List Token} {s : Stmt} (h : VarDeclaration n ts s m) :
      Declaration r n ts s m
  | function {n m : Nat} {ts : List Token} {keyword : Token} {d : FunctionDecl}
      (hk : keyword.kind = .keyword .kFun) (hd : Function r n ts d m) :
      Declaration r n (keyword :: ts) (.function d) m
  | classDecl {n m p : Nat} {ts ts₁ : List Token} {keyword name left right : Token}
      {superclass : Option Ref} {methods : List FunctionDecl}
      (hk : keyword.kind = .keyword .kClass) (hn : name.kind = .identifier)
      (hs : Superclass n ts superclass m) (hl : left.kind = .mark .leftBrace)
      (hm : Functions r m ts₁ methods p) (hr : right.kind = .mark .rightBrace) :
      Declaration r n (keyword :: name :: ts ++ left :: ts₁ ++ [right])
        (.classDecl name superclass methods) p

inductive Declarations (r : ElseRule) : Nat → List Token → List Stmt → Nat → Prop
  | nil {n : Nat} : Declarations r n [] [] n
  | cons {n m p : Nat} {ts ts₁ : List Token} {s : Stmt} {ss : List Stmt}
      (h : Declaration r n ts s m) (hs : Declarations r m ts₁ ss p) :
      Declarations r n (ts ++ ts₁) (s :: ss) p

/-- A function from its name on. -/
inductive Function (r : ElseRule) : Nat → List Token → FunctionDecl → Nat → Prop
  | intro {n m : Nat} {ts ts₁ : List Token} {name left right opening closing : Token}
      {params : List Token} {body : List Stmt} (hn : name.kind = .identifier)
      (hl : left.kind = .mark .leftParen) (hp : Parameters ts params)
      (hc : params.length ≤ maxArity) (hr : right.kind = .mark .rightParen)
      (ho : opening.kind = .mark .leftBrace) (hb : Declarations r n ts₁ body m)
      (he : closing.kind = .mark .rightBrace) :
      Function r n (name :: left :: ts ++ right :: opening :: ts₁ ++ [closing]) (.mk name params body) m

inductive Functions (r : ElseRule) : Nat → List Token → List FunctionDecl → Nat → Prop
  | nil {n : Nat} : Functions r n [] [] n
  | cons {n m p : Nat} {ts ts₁ : List Token} {d : FunctionDecl} {ds : List FunctionDecl}
      (h : Function r n ts d m) (hs : Functions r m ts₁ ds p) :
      Functions r n (ts ++ ts₁) (d :: ds) p

end

end Lox.Grammar
