import Lox.Proofs.Tree.Basic
import Lox.Scope.Resolve

namespace Lox

namespace Bindings

variable {α : Type}

theorem insertIn_insertIn (name : String) (a b : α) (l : List (String × α)) :
    insertIn name b (insertIn name a l) = insertIn name b l := by
  induction l with
  | nil => simp [insertIn]
  | cons p rest ih => grind [insertIn]

theorem insert_insert (s : Bindings α) (name : String) (a b : α) :
    (s.insert name a).insert name b = s.insert name b :=
  congrArg Bindings.mk (insertIn_insertIn name a b s.entries)

theorem contains_insert (s : Bindings α) (name x : String) (a : α) :
    (s.insert name a).contains x = (x == name || s.contains x) := by
  unfold contains
  rw [find?_insert]
  grind

end Bindings

namespace Scope

def bindIn (name : String) : List Names → List Names
  | [] => []
  | s :: rest => s.insert name true :: rest

def declareIn (name : String) : List Names → List Names
  | [] => []
  | s :: rest => if s.contains name then s :: rest else s.insert name false :: rest

theorem bindIn_declareIn (name : String) (S : List Names) :
    bindIn name (declareIn name S) = bindIn name S := by
  cases S with
  | nil => rfl
  | cons s rest =>
    simp only [declareIn]
    split
    · rfl
    · simp [bindIn, Bindings.insert_insert]

namespace Walk

variable (w : Walk)

@[simp] theorem scopes_error (c : ScopeCause) (t : Token) : (w.error c t).scopes = w.scopes := rfl

@[simp] theorem scopes_enter : w.enter.scopes = .empty :: w.scopes := rfl

@[simp] theorem scopes_leave : w.leave.scopes = w.scopes.tail := rfl

@[simp] theorem scopes_bind (name : String) : (w.bind name).scopes = bindIn name w.scopes := by
  unfold bind
  split <;> simp [*, bindIn]

@[simp] theorem scopes_define (name : Token) : (w.define name).scopes = bindIn name.lexeme w.scopes :=
  w.scopes_bind name.lexeme

@[simp] theorem scopes_declare (name : Token) :
    (w.declare name).scopes = declareIn name.lexeme w.scopes := by
  unfold declare
  split
  · simp [*, declareIn]
  · next s rest h =>
    split <;> simp [*, declareIn]

theorem scopes_declareAll (names : List Token) :
    (w.declareAll names).scopes = names.foldl (fun S name ↦ bindIn name.lexeme S) w.scopes := by
  unfold declareAll
  induction names generalizing w with
  | nil => rfl
  | cons name names ih => simp [ih, bindIn_declareIn]

@[simp] theorem scopes_locate (ref : Ref) : (w.locate ref).scopes = w.scopes := by
  unfold locate
  split <;> rfl

@[simp] theorem scopes_read (ref : Ref) : (w.read ref).scopes = w.scopes := by
  unfold read
  rw [scopes_locate]
  split <;> rfl

end Walk

mutual

@[simp] theorem scopes_expr (k : Context) : ∀ (e : Expr) (w : Walk), (expr k e w).scopes = w.scopes
  | .literal _ _, _ => rfl
  | .var ref, w => w.scopes_read ref
  | .assign ref value, w => (Walk.scopes_locate _ ref).trans (scopes_expr k value w)
  | .unary _ operand, w => scopes_expr k operand w
  | .binary left _ right, w => (scopes_expr k right _).trans (scopes_expr k left w)
  | .logical left _ right, w => (scopes_expr k right _).trans (scopes_expr k left w)
  | .grouping inner, w => scopes_expr k inner w
  | .call callee arguments _, w => (scopes_exprs k arguments _).trans (scopes_expr k callee w)
  | .get object _, w => scopes_expr k object w
  | .set object _ value, w => (scopes_expr k object _).trans (scopes_expr k value w)
  | .this ref, w => by
    unfold expr
    split <;> simp
  | .super ref _, w => by
    unfold expr
    split <;> simp

@[simp] theorem scopes_exprs (k : Context) : ∀ (es : List Expr) (w : Walk),
    (exprs k es w).scopes = w.scopes
  | [], _ => rfl
  | e :: es, w => (scopes_exprs k es _).trans (scopes_expr k e w)

end

@[simp] theorem scopes_optional (k : Context) (e : Option Expr) (w : Walk) :
    (optional k e w).scopes = w.scopes := by
  cases e with
  | none => rfl
  | some e => exact scopes_expr k e w

@[simp] theorem scopes_ret (k : Context) (keyword : Token) (value : Option Expr) (w : Walk) :
    (ret k keyword value w).scopes = w.scopes := by
  unfold ret
  rw [scopes_optional]
  split <;> split <;> rfl

theorem tail_bindIn (name : String) (S : List Names) : (bindIn name S).tail = S.tail := by
  cases S <;> rfl

theorem tail_declareIn (name : String) (S : List Names) : (declareIn name S).tail = S.tail := by
  cases S with
  | nil => rfl
  | cons s rest =>
    simp only [declareIn]
    split <;> rfl

theorem tail_declareAll (w : Walk) (names : List Token) :
    (w.declareAll names).scopes.tail = w.scopes.tail := by
  unfold Walk.declareAll
  induction names generalizing w with
  | nil => rfl
  | cons name names ih => simp [ih, tail_bindIn, tail_declareIn]

def methodScopes (superclass : Option Ref) (S : List Names) : List Names :=
  match superclass with
  | none => bindIn "this" (.empty :: S)
  | some _ => bindIn "this" (.empty :: bindIn "super" (.empty :: S))

theorem scopes_classHead (name : Token) (superclass : Option Ref) (w : Walk) :
    (classHead name superclass w).scopes = methodScopes superclass (bindIn name.lexeme w.scopes) := by
  unfold classHead methodScopes
  cases superclass with
  | none => simp [bindIn_declareIn]
  | some ref =>
    simp only [Walk.scopes_bind, Walk.scopes_enter, Walk.scopes_read]
    split <;> simp [bindIn_declareIn]

theorem scopes_classEnd {superclass : Option Ref} {w : Walk} {S : List Names}
    (h : w.scopes = methodScopes superclass S) : (classEnd superclass w).scopes = S := by
  unfold classEnd
  cases superclass <;> simp [h, methodScopes, tail_bindIn]

mutual

theorem tail_stmt (k : Context) : ∀ (s : Stmt) (w : Walk), (stmt k s w).scopes.tail = w.scopes.tail
  | .expr e, w => congrArg List.tail (scopes_expr k e w)
  | .print e, w => congrArg List.tail (scopes_expr k e w)
  | .var name initial, w => by simp [stmt, tail_bindIn, tail_declareIn]
  | .block body, w => by simp [stmt, tail_stmts k body]
  | .cond test yes none, w => by simp [stmt, tail_stmt k yes]
  | .cond test yes (some no), w => by simp [stmt, tail_stmt k yes, tail_stmt k no]
  | .loop test body, w => by simp [stmt, tail_stmt k body]
  | .function decl, w => by simp [stmt, scopes_function _ decl, tail_bindIn, tail_declareIn]
  | .ret keyword value, w => by simp [stmt]
  | .classDecl name superclass methods, w => by
    have h := (scopes_functions { k with cls := classKind superclass } methods _).trans
      (scopes_classHead name superclass w)
    rw [stmt, scopes_classEnd h, tail_bindIn]

theorem tail_stmts (k : Context) : ∀ (ss : List Stmt) (w : Walk),
    (stmts k ss w).scopes.tail = w.scopes.tail
  | [], _ => rfl
  | s :: ss, w => (tail_stmts k ss _).trans (tail_stmt k s w)

@[simp] theorem scopes_function (k : Context) : ∀ (d : FunctionDecl) (w : Walk),
    (function k d w).scopes = w.scopes
  | .mk _ params body, w => by
    rw [function, Walk.scopes_leave, tail_stmts k body, tail_declareAll, Walk.scopes_enter, List.tail_cons]

@[simp] theorem scopes_functions (k : Context) : ∀ (ds : List FunctionDecl) (w : Walk),
    (functions k ds w).scopes = w.scopes
  | [], _ => rfl
  | d :: ds, w => (scopes_functions k ds _).trans (scopes_function _ d w)

end

def afterDeclaring (name : Option Token) (S : List Names) : List Names :=
  match name with
  | none => S
  | some name => bindIn name.lexeme S

/-- A condition under which branches and loop bodies declare nothing. -/
structure PlainBranches (c : Condition) : Prop where
  cond {test yes} : c.stmt (.cond test yes none) → yes.declared? = none
  condElse {test yes no} :
    c.stmt (.cond test yes (some no)) → yes.declared? = none ∧ no.declared? = none
  loop {test body} : c.stmt (.loop test body) → body.declared? = none

theorem plainBranches_proper : PlainBranches proper := ⟨id, id, id⟩

theorem scopes_stmt_of_plainBranches {c : Condition} (hc : PlainBranches c) (k : Context) :
    ∀ (s : Stmt) (w : Walk), s.All c → (stmt k s w).scopes = afterDeclaring s.declared? w.scopes
  | .expr e, w, _ => scopes_expr k e w
  | .print e, w, _ => scopes_expr k e w
  | .var name initial, w, _ => by simp [stmt, afterDeclaring, Stmt.declared?, bindIn_declareIn]
  | .block body, w, _ => by
    rw [stmt, Walk.scopes_leave, tail_stmts]
    rfl
  | .cond test yes none, w, ⟨hd, _, hy⟩ => by
    have hyes := scopes_stmt_of_plainBranches hc k yes (expr k test w) hy
    rw [hc.cond hd] at hyes
    simp [stmt, hyes, afterDeclaring, Stmt.declared?]
  | .cond test yes (some no), w, ⟨hd, _, hy, hn⟩ => by
    have hyes := scopes_stmt_of_plainBranches hc k yes (expr k test w) hy
    have hno := scopes_stmt_of_plainBranches hc k no (stmt k yes (expr k test w)) hn
    rw [(hc.condElse hd).1] at hyes
    rw [(hc.condElse hd).2, hyes] at hno
    simp [stmt, hno, afterDeclaring, Stmt.declared?]
  | .loop test body, w, ⟨hd, _, hb⟩ => by
    have hbody := scopes_stmt_of_plainBranches hc k body (expr k test w) hb
    rw [hc.loop hd] at hbody
    simp [stmt, hbody, afterDeclaring, Stmt.declared?]
  | .function decl, w, _ => by simp [stmt, afterDeclaring, Stmt.declared?, bindIn_declareIn]
  | .ret keyword value, w, _ => scopes_ret k keyword value w
  | .classDecl name superclass methods, w, _ => by
    have h := (scopes_functions { k with cls := classKind superclass } methods _).trans
      (scopes_classHead name superclass w)
    rw [stmt, scopes_classEnd h]
    rfl

theorem scopes_stmt (k : Context) (s : Stmt) (w : Walk) (h : s.All proper) :
    (stmt k s w).scopes = afterDeclaring s.declared? w.scopes :=
  scopes_stmt_of_plainBranches plainBranches_proper k s w h

end Scope

end Lox
