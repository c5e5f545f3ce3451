import Lox.Bindings
import Lox.Scope.Distances
import Lox.Tree.Basic

namespace Lox

inductive ScopeCause where
  | returnAtTopLevel
  | returnFromInitializer
  | selfInheritance
  | ownInitializer
  | thisOutsideClass
  | superOutsideClass
  | superWithoutSuperclass
  | alreadyDeclared
  deriving DecidableEq

structure ScopeError where
  cause : ScopeCause
  token : Token

def ScopeError.message (e : ScopeError) : String :=
  match e.cause with
  | .returnAtTopLevel => "Cannot return from top-level code."
  | .returnFromInitializer => "Cannot return a value from an initializer."
  | .selfInheritance => "A class cannot inherit from itself."
  | .ownInitializer => "Cannot read local variable in its own initializer."
  | .thisOutsideClass => "Cannot use 'this' outside of a class."
  | .superOutsideClass => "Cannot use 'super' outside of a class."
  | .superWithoutSuperclass => "Cannot use 'super' in a class with no superclass."
  | .alreadyDeclared => "Variable with this name already declared in this scope."

namespace Scope

/-- The names of a scope; `true` once a name may be read. -/
abbrev Names := Bindings Bool

inductive FunctionKind where
  | none
  | function
  | method
  | initializer
  deriving DecidableEq

inductive ClassKind where
  | none
  | plain
  | subclass
  deriving DecidableEq

structure Context where
  function : FunctionKind
  cls : ClassKind

/-- The open local scopes, innermost first, and what has been found so far. -/
structure Walk where
  scopes : List Names
  errors : Array ScopeError
  distances : Distances

namespace Walk

def error (w : Walk) (cause : ScopeCause) (token : Token) : Walk :=
  { w with errors := w.errors.push ⟨cause, token⟩ }

def enter (w : Walk) : Walk := { w with scopes := .empty :: w.scopes }

def leave (w : Walk) : Walk := { w with scopes := w.scopes.tail }

def bind (w : Walk) (name : String) : Walk :=
  match w.scopes with
  | [] => w
  | s :: rest => { w with scopes := s.insert name true :: rest }

def define (w : Walk) (name : Token) : Walk := w.bind name.lexeme

def declare (w : Walk) (name : Token) : Walk :=
  match w.scopes with
  | [] => w
  | s :: rest =>
    if s.contains name.lexeme then w.error .alreadyDeclared name
    else { w with scopes := s.insert name.lexeme false :: rest }

def declareAll (w : Walk) (names : List Token) : Walk :=
  names.foldl (fun w name ↦ (w.declare name).define name) w

def distance? (w : Walk) (name : String) : Option Nat := w.scopes.findIdx? (·.contains name)

def locate (w : Walk) (ref : Ref) : Walk :=
  match w.distance? ref.name.lexeme with
  | some d => { w with distances := w.distances.record ref.id d }
  | none => { w with distances := w.distances.forget ref.id }

def isPending (w : Walk) (name : String) : Bool :=
  match w.scopes with
  | [] => false
  | s :: _ => s.find? name == some false

def read (w : Walk) (ref : Ref) : Walk :=
  let w := if w.isPending ref.name.lexeme then w.error .ownInitializer ref.name else w
  w.locate ref

end Walk

mutual

/-- Visits an expression. The value of an assignment comes before its target, and the value given to
a property before the object. -/
def expr (k : Context) : Expr → Walk → Walk
  | .literal _ _, w => w
  | .var ref, w => w.read ref
  | .assign ref value, w => (expr k value w).locate ref
  | .unary _ operand, w => expr k operand w
  | .binary left _ right, w => expr k right (expr k left w)
  | .logical left _ right, w => expr k right (expr k left w)
  | .grouping inner, w => expr k inner w
  | .call callee arguments _, w => exprs k arguments (expr k callee w)
  | .get object _, w => expr k object w
  | .set object _ value, w => expr k object (expr k value w)
  | .this ref, w =>
    if k.cls = .none then w.error .thisOutsideClass ref.name else w.locate ref
  | .super ref _, w =>
    let w := match k.cls with
      | .none => w.error .superOutsideClass ref.name
      | .plain => w.error .superWithoutSuperclass ref.name
      | .subclass => w
    w.locate ref

def exprs (k : Context) : List Expr → Walk → Walk
  | [], w => w
  | e :: es, w => exprs k es (expr k e w)

end

def optional (k : Context) (e : Option Expr) (w : Walk) : Walk :=
  match e with
  | none => w
  | some e => expr k e w

def ret (k : Context) (keyword : Token) (value : Option Expr) (w : Walk) : Walk :=
  let w := if k.function = .none then w.error .returnAtTopLevel keyword else w
  let w :=
    if k.function = .initializer ∧ value.isSome then w.error .returnFromInitializer keyword else w
  optional k value w

def methodKind (d : FunctionDecl) : FunctionKind :=
  if d.name.lexeme = "init" then .initializer else .method

/-- The head of a class, up to the scope of its methods: the scope of `this`, which for a class with
a superclass lies in one of `super`. -/
def classHead (name : Token) (superclass : Option Ref) (w : Walk) : Walk :=
  let w := (w.declare name).define name
  match superclass with
  | none => w.enter.bind "this"
  | some ref =>
    let w := if ref.name.lexeme = name.lexeme then w.error .selfInheritance ref.name else w
    ((w.read ref).enter.bind "super").enter.bind "this"

def classEnd (superclass : Option Ref) (w : Walk) : Walk :=
  match superclass with
  | none => w.leave
  | some _ => w.leave.leave

def classKind (superclass : Option Ref) : ClassKind :=
  match superclass with
  | none => .plain
  | some _ => .subclass

mutual

/-- Visits a statement. A variable is entered before its initial value is visited and may be read
after it; functions and classes may be read in their own bodies. -/
def stmt (k : Context) : Stmt → Walk → Walk
  | .expr e, w => expr k e w
  | .print e, w => expr k e w
  | .var name initial, w => (optional k initial (w.declare name)).define name
  | .block body, w => (stmts k body w.enter).leave
  | .cond test yes none, w => stmt k yes (expr k test w)
  | .cond test yes (some no), w => stmt k no (stmt k yes (expr k test w))
  | .loop test body, w => stmt k body (expr k test w)
  | .function decl, w =>
    function { k with function := .function } decl ((w.declare decl.name).define decl.name)
  | .ret keyword value, w => ret k keyword value w
  | .classDecl name superclass methods, w =>
    classEnd superclass
      (functions { k with cls := classKind superclass } methods (classHead name superclass w))

def stmts (k : Context) : List Stmt → Walk → Walk
  | [], w => w
  | s :: ss, w => stmts k ss (stmt k s w)

def function (k : Context) : FunctionDecl → Walk → Walk
  | .mk _ params body, w => (stmts k body (w.enter.declareAll params)).leave

def functions (k : Context) : List FunctionDecl → Walk → Walk
  | [], w => w
  | d :: ds, w => functions k ds (function { k with function := methodKind d } d w)

end

def topLevel : Context := ⟨.none, .none⟩

structure Resolution where
  errors : List ScopeError
  distances : Distances

def resolve (program : List Stmt) (distances : Distances) : Resolution :=
  let w := stmts topLevel program ⟨[], #[], distances⟩
  ⟨w.errors.toList, w.distances⟩

end Scope

end Lox
