import Lox.Proofs.Tree.Basic

namespace Lox

/-- Other lines for the tokens of code, and other ids for the occurrences of names in it. -/
structure Relabeling where
  line : Nat → Nat
  id : Nat → Nat

namespace Relabeling

def refl : Relabeling := ⟨fun n ↦ n, fun n ↦ n⟩

def comp (r' r : Relabeling) : Relabeling := ⟨r'.line ∘ r.line, r'.id ∘ r.id⟩

def lines (f : Nat → Nat) : Relabeling := ⟨f, fun n ↦ n⟩

def ids (f : Nat → Nat) : Relabeling := ⟨fun n ↦ n, f⟩

def Counts (r : Relabeling) : Prop := ∀ n, r.id (n + 1) = r.id n + 1

end Relabeling

section

variable (r : Relabeling)

def Token.relabel (t : Token) : Token := { t with line := r.line t.line }

def Ref.relabel (ref : Ref) : Ref := ⟨r.id ref.id, ref.name.relabel r⟩

mutual

def Expr.relabel : Expr → Expr
  | .literal value line => .literal value (r.line line)
  | .var ref => .var (ref.relabel r)
  | .assign ref value => .assign (ref.relabel r) value.relabel
  | .unary op operand => .unary (op.relabel r) operand.relabel
  | .binary left op right => .binary left.relabel (op.relabel r) right.relabel
  | .logical left op right => .logical left.relabel (op.relabel r) right.relabel
  | .grouping inner => .grouping inner.relabel
  | .call callee arguments paren =>
    .call callee.relabel (Expr.relabelAll arguments) (paren.relabel r)
  | .get object name => .get object.relabel (name.relabel r)
  | .set object name value => .set object.relabel (name.relabel r) value.relabel
  | .this ref => .this (ref.relabel r)
  | .super ref method => .super (ref.relabel r) (method.relabel r)

def Expr.relabelAll : List Expr → List Expr
  | [] => []
  | e :: es => e.relabel :: Expr.relabelAll es

end

mutual

def Stmt.relabel : Stmt → Stmt
  | .expr e => .expr (e.relabel r)
  | .print e => .print (e.relabel r)
  | .var name initial => .var (name.relabel r) (initial.map (·.relabel r))
  | .block body => .block (Stmt.relabelAll body)
  | .cond test yes none => .cond (test.relabel r) yes.relabel none
  | .cond test yes (some no) => .cond (test.relabel r) yes.relabel (some no.relabel)
  | .loop test body => .loop (test.relabel r) body.relabel
  | .function decl => .function decl.relabel
  | .ret keyword value => .ret (keyword.relabel r) (value.map (·.relabel r))
  | .classDecl name superclass methods =>
    .classDecl (name.relabel r) (superclass.map (·.relabel r)) (FunctionDecl.relabelAll methods)

def Stmt.relabelAll : List Stmt → List Stmt
  | [] => []
  | s :: ss => s.relabel :: Stmt.relabelAll ss

def FunctionDecl.relabel : FunctionDecl → FunctionDecl
  | .mk name params body => .mk (name.relabel r) (params.map (·.relabel r)) (Stmt.relabelAll body)

def FunctionDecl.relabelAll : List FunctionDecl → List FunctionDecl
  | [] => []
  | d :: ds => d.relabel :: FunctionDecl.relabelAll ds

end

end

section

variable (r : Relabeling)

@[simp] theorem Token.lexeme_relabel (t : Token) : (t.relabel r).lexeme = t.lexeme := rfl

@[simp] theorem Token.kind_relabel (t : Token) : (t.relabel r).kind = t.kind := rfl

@[simp] theorem Token.line_relabel (t : Token) : (t.relabel r).line = r.line t.line := rfl

@[simp] theorem FunctionDecl.name_relabel (d : FunctionDecl) : (d.relabel r).name = d.name.relabel r := by
  cases d
  rfl

@[simp] theorem FunctionDecl.params_relabel (d : FunctionDecl) :
    (d.relabel r).params = d.params.map (·.relabel r) := by
  cases d
  rfl

@[simp] theorem FunctionDecl.body_relabel (d : FunctionDecl) :
    (d.relabel r).body = Stmt.relabelAll r d.body := by
  cases d
  rfl

@[simp] theorem Expr.line_relabel : ∀ e : Expr, (e.relabel r).line = r.line e.line
  | .grouping inner => line_relabel inner
  | .literal _ _ | .var _ | .assign _ _ | .unary _ _ | .binary _ _ _ | .logical _ _ _ | .call _ _ _
  | .get _ _ | .set _ _ _ | .this _ | .super _ _ => rfl

end

mutual

@[simp] theorem Expr.relabel_refl : ∀ e : Expr, e.relabel .refl = e
  | .literal _ _ | .var _ | .this _ | .super _ _ => rfl
  | .assign _ value => by rw [Expr.relabel, value.relabel_refl]; rfl
  | .unary _ operand => by rw [Expr.relabel, operand.relabel_refl]; rfl
  | .binary left _ right => by rw [Expr.relabel, left.relabel_refl, right.relabel_refl]; rfl
  | .logical left _ right => by rw [Expr.relabel, left.relabel_refl, right.relabel_refl]; rfl
  | .grouping inner => by rw [Expr.relabel, inner.relabel_refl]
  | .call callee arguments _ => by
    rw [Expr.relabel, callee.relabel_refl, Expr.relabelAll_refl arguments]; rfl
  | .get object _ => by rw [Expr.relabel, object.relabel_refl]; rfl
  | .set object _ value => by rw [Expr.relabel, object.relabel_refl, value.relabel_refl]; rfl

@[simp] theorem Expr.relabelAll_refl : ∀ es : List Expr, Expr.relabelAll .refl es = es
  | [] => rfl
  | e :: es => by rw [Expr.relabelAll, e.relabel_refl, Expr.relabelAll_refl es]

end

@[simp] theorem Token.relabel_refl (t : Token) : t.relabel .refl = t := rfl

@[simp] theorem Ref.relabel_refl (ref : Ref) : ref.relabel .refl = ref := rfl

mutual

@[simp] theorem Stmt.relabel_refl : ∀ s : Stmt, s.relabel .refl = s
  | .expr e | .print e => by simp [Stmt.relabel]
  | .var _ initial => by simp [Stmt.relabel]
  | .block body => by rw [Stmt.relabel, Stmt.relabelAll_refl body]
  | .cond _ yes none => by simp [Stmt.relabel, yes.relabel_refl]
  | .cond _ yes (some no) => by simp [Stmt.relabel, yes.relabel_refl, no.relabel_refl]
  | .loop _ body => by simp [Stmt.relabel, body.relabel_refl]
  | .function decl => by rw [Stmt.relabel, decl.relabel_refl]
  | .ret _ value => by simp [Stmt.relabel]
  | .classDecl _ superclass methods => by simp [Stmt.relabel, FunctionDecl.relabelAll_refl methods]

@[simp] theorem Stmt.relabelAll_refl : ∀ ss : List Stmt, Stmt.relabelAll .refl ss = ss
  | [] => rfl
  | s :: ss => by rw [Stmt.relabelAll, s.relabel_refl, Stmt.relabelAll_refl ss]

@[simp] theorem FunctionDecl.relabel_refl : ∀ d : FunctionDecl, d.relabel .refl = d
  | .mk _ params body => by simp [FunctionDecl.relabel, Stmt.relabelAll_refl body]

@[simp] theorem FunctionDecl.relabelAll_refl : ∀ ds : List FunctionDecl, FunctionDecl.relabelAll .refl ds = ds
  | [] => rfl
  | d :: ds => by rw [FunctionDecl.relabelAll, d.relabel_refl, FunctionDecl.relabelAll_refl ds]

end

section

variable (r r' : Relabeling)

@[simp] theorem Token.relabel_relabel (t : Token) :
    (t.relabel r).relabel r' = t.relabel (r'.comp r) := rfl

@[simp] theorem Ref.relabel_relabel (ref : Ref) :
    (ref.relabel r).relabel r' = ref.relabel (r'.comp r) := rfl

mutual

@[simp] theorem Expr.relabel_relabel : ∀ e : Expr, (e.relabel r).relabel r' = e.relabel (r'.comp r)
  | .literal _ _ | .var _ | .this _ | .super _ _ => rfl
  | .assign _ value => by simp [Expr.relabel, relabel_relabel value]
  | .unary _ operand => by simp [Expr.relabel, relabel_relabel operand]
  | .binary left _ right | .logical left _ right => by
    simp [Expr.relabel, relabel_relabel left, relabel_relabel right]
  | .grouping inner => by simp [Expr.relabel, relabel_relabel inner]
  | .call callee arguments _ => by
    simp [Expr.relabel, relabel_relabel callee, relabelAll_relabelAll arguments]
  | .get object _ => by simp [Expr.relabel, relabel_relabel object]
  | .set object _ value => by simp [Expr.relabel, relabel_relabel object, relabel_relabel value]

@[simp] theorem Expr.relabelAll_relabelAll : ∀ es : List Expr,
    Expr.relabelAll r' (Expr.relabelAll r es) = Expr.relabelAll (r'.comp r) es
  | [] => rfl
  | e :: es => by simp [Expr.relabelAll, relabel_relabel e, relabelAll_relabelAll es]

end

mutual

@[simp] theorem Stmt.relabel_relabel : ∀ s : Stmt, (s.relabel r).relabel r' = s.relabel (r'.comp r)
  | .expr e | .print e => by simp [Stmt.relabel]
  | .var _ initial | .ret _ initial => by cases initial <;> simp [Stmt.relabel]
  | .block body => by simp [Stmt.relabel, Stmt.relabelAll_relabelAll body]
  | .cond _ yes none => by simp [Stmt.relabel, Stmt.relabel_relabel yes]
  | .cond _ yes (some no) => by simp [Stmt.relabel, Stmt.relabel_relabel yes, Stmt.relabel_relabel no]
  | .loop _ body => by simp [Stmt.relabel, Stmt.relabel_relabel body]
  | .function decl => by simp [Stmt.relabel, FunctionDecl.relabel_relabel decl]
  | .classDecl _ superclass methods => by
    cases superclass <;> simp [Stmt.relabel, FunctionDecl.relabelAll_relabelAll methods]

@[simp] theorem Stmt.relabelAll_relabelAll : ∀ ss : List Stmt,
    Stmt.relabelAll r' (Stmt.relabelAll r ss) = Stmt.relabelAll (r'.comp r) ss
  | [] => rfl
  | s :: ss => by simp [Stmt.relabelAll, Stmt.relabel_relabel s, Stmt.relabelAll_relabelAll ss]

@[simp] theorem FunctionDecl.relabel_relabel : ∀ d : FunctionDecl,
    (d.relabel r).relabel r' = d.relabel (r'.comp r)
  | .mk _ params body => by simp [FunctionDecl.relabel, Stmt.relabelAll_relabelAll body]

@[simp] theorem FunctionDecl.relabelAll_relabelAll : ∀ ds : List FunctionDecl,
    FunctionDecl.relabelAll r' (FunctionDecl.relabelAll r ds) = FunctionDecl.relabelAll (r'.comp r) ds
  | [] => rfl
  | d :: ds => by
    simp [FunctionDecl.relabelAll, FunctionDecl.relabel_relabel d, FunctionDecl.relabelAll_relabelAll ds]

end

end

mutual

def Expr.lines : Expr → List Nat
  | .literal _ line => [line]
  | .var ref | .this ref => [ref.name.line]
  | .assign ref value => ref.name.line :: value.lines
  | .unary op operand => op.line :: operand.lines
  | .binary left op right => op.line :: (left.lines ++ right.lines)
  | .logical left op right => op.line :: (left.lines ++ right.lines)
  | .grouping inner => inner.lines
  | .call callee arguments paren => paren.line :: (callee.lines ++ Expr.linesOf arguments)
  | .get object name => name.line :: object.lines
  | .set object name value => name.line :: (object.lines ++ value.lines)
  | .super ref method => [ref.name.line, method.line]

def Expr.linesOf : List Expr → List Nat
  | [] => []
  | e :: es => e.lines ++ Expr.linesOf es

end

mutual

def Stmt.lines : Stmt → List Nat
  | .expr e | .print e => e.lines
  | .var name none => [name.line]
  | .var name (some e) => name.line :: e.lines
  | .block body => Stmt.linesOf body
  | .cond test yes none => test.lines ++ yes.lines
  | .cond test yes (some no) => test.lines ++ (yes.lines ++ no.lines)
  | .loop test body => test.lines ++ body.lines
  | .function decl => decl.lines
  | .ret keyword none => [keyword.line]
  | .ret keyword (some e) => keyword.line :: e.lines
  | .classDecl name superclass methods =>
    name.line :: (superclass.toList.map (·.name.line) ++ FunctionDecl.linesOf methods)

def Stmt.linesOf : List Stmt → List Nat
  | [] => []
  | s :: ss => s.lines ++ Stmt.linesOf ss

def FunctionDecl.lines : FunctionDecl → List Nat
  | .mk name params body => name.line :: (params.map (·.line) ++ Stmt.linesOf body)

def FunctionDecl.linesOf : List FunctionDecl → List Nat
  | [] => []
  | d :: ds => d.lines ++ FunctionDecl.linesOf ds

end

section

variable {r r' : Relabeling}

theorem Token.relabel_congr {t : Token} (h : r.line t.line = r'.line t.line) : t.relabel r = t.relabel r' := by
  rw [Token.relabel, h, ← Token.relabel]

theorem Ref.relabel_congr {ref : Ref} (hl : r.line ref.name.line = r'.line ref.name.line)
    (hi : r.id ref.id = r'.id ref.id) : ref.relabel r = ref.relabel r' := by
  rw [Ref.relabel, hi, Token.relabel_congr hl, ← Ref.relabel]

mutual

theorem Expr.relabel_congr : ∀ e : Expr, (∀ l ∈ e.lines, r.line l = r'.line l) →
    (∀ ref ∈ e.refs, r.id ref.id = r'.id ref.id) → e.relabel r = e.relabel r'
  | .literal _ _, hl, _ => congrArg (Expr.literal _) (hl _ (.head _))
  | .var _, hl, hi => congrArg Expr.var (Ref.relabel_congr (hl _ (.head _)) (hi _ (.head _)))
  | .this _, hl, hi => congrArg Expr.this (Ref.relabel_congr (hl _ (.head _)) (hi _ (.head _)))
  | .assign ref value, hl, hi => by
    simp only [Expr.lines, Expr.refs, List.forall_mem_append, List.forall_mem_cons] at hl hi
    rw [Expr.relabel, Expr.relabel, relabel_congr value hl.2 hi.1, Ref.relabel_congr hl.1 hi.2.1]
  | .unary op operand, hl, hi => by
    simp only [Expr.lines, Expr.refs, List.forall_mem_cons] at hl hi
    rw [Expr.relabel, Expr.relabel, relabel_congr operand hl.2 hi, Token.relabel_congr hl.1]
  | .binary left op right, hl, hi | .logical left op right, hl, hi => by
    simp only [Expr.lines, Expr.refs, List.forall_mem_append, List.forall_mem_cons] at hl hi
    rw [Expr.relabel, Expr.relabel, relabel_congr left hl.2.1 hi.1, relabel_congr right hl.2.2 hi.2,
      Token.relabel_congr hl.1]
  | .grouping inner, hl, hi => congrArg Expr.grouping (relabel_congr inner hl hi)
  | .call callee arguments paren, hl, hi => by
    simp only [Expr.lines, Expr.refs, List.forall_mem_append, List.forall_mem_cons] at hl hi
    rw [Expr.relabel, Expr.relabel, relabel_congr callee hl.2.1 hi.1,
      Expr.relabelAll_congr arguments hl.2.2 hi.2, Token.relabel_congr hl.1]
  | .get object name, hl, hi => by
    simp only [Expr.lines, Expr.refs, List.forall_mem_cons] at hl hi
    rw [Expr.relabel, Expr.relabel, relabel_congr object hl.2 hi, Token.relabel_congr hl.1]
  | .set object name value, hl, hi => by
    simp only [Expr.lines, Expr.refs, List.forall_mem_append, List.forall_mem_cons] at hl hi
    rw [Expr.relabel, Expr.relabel, relabel_congr object hl.2.1 hi.2, relabel_congr value hl.2.2 hi.1,
      Token.relabel_congr hl.1]
  | .super ref method, hl, hi => by
    simp only [Expr.lines, Expr.refs, List.forall_mem_cons] at hl hi
    rw [Expr.relabel, Expr.relabel, Ref.relabel_congr hl.1 hi.1, Token.relabel_congr hl.2.1]

theorem Expr.relabelAll_congr : ∀ es : List Expr, (∀ l ∈ Expr.linesOf es, r.line l = r'.line l) →
    (∀ ref ∈ Expr.refsOf es, r.id ref.id = r'.id ref.id) → Expr.relabelAll r es = Expr.relabelAll r' es
  | [], _, _ => rfl
  | e :: es, hl, hi => by
    simp only [Expr.linesOf, Expr.refsOf, List.forall_mem_append] at hl hi
    rw [Expr.relabelAll, Expr.relabelAll, relabel_congr e hl.1 hi.1, Expr.relabelAll_congr es hl.2 hi.2]

end

mutual

theorem Stmt.relabel_congr : ∀ s : Stmt, (∀ l ∈ s.lines, r.line l = r'.line l) →
    (∀ ref ∈ s.refs, r.id ref.id = r'.id ref.id) → s.relabel r = s.relabel r'
  | .expr e, hl, hi => congrArg Stmt.expr (e.relabel_congr hl hi)
  | .print e, hl, hi => congrArg Stmt.print (e.relabel_congr hl hi)
  | .var name none, hl, _ => by
    rw [Stmt.relabel, Stmt.relabel, Token.relabel_congr (hl _ (.head _))]
    rfl
  | .var name (some e), hl, hi => by
    simp only [Stmt.lines, Stmt.refs, List.forall_mem_cons] at hl hi
    rw [Stmt.relabel, Stmt.relabel, Token.relabel_congr hl.1, Option.map_some, Option.map_some,
      e.relabel_congr hl.2 hi]
  | .ret keyword none, hl, _ => by
    rw [Stmt.relabel, Stmt.relabel, Token.relabel_congr (hl _ (.head _))]
    rfl
  | .ret keyword (some e), hl, hi => by
    simp only [Stmt.lines, Stmt.refs, List.forall_mem_cons] at hl hi
    rw [Stmt.relabel, Stmt.relabel, Token.relabel_congr hl.1, Option.map_some, Option.map_some,
      e.relabel_congr hl.2 hi]
  | .block body, hl, hi => congrArg Stmt.block (Stmt.relabelAll_congr body hl hi)
  | .cond test yes none, hl, hi => by
    simp only [Stmt.lines, Stmt.refs, List.forall_mem_append] at hl hi
    rw [Stmt.relabel, Stmt.relabel, test.relabel_congr hl.1 hi.1, Stmt.relabel_congr yes hl.2 hi.2]
  | .cond test yes (some no), hl, hi => by
    simp only [Stmt.lines, Stmt.refs, List.forall_mem_append] at hl hi
    rw [Stmt.relabel, Stmt.relabel, test.relabel_congr hl.1 hi.1, Stmt.relabel_congr yes hl.2.1 hi.2.1,
      Stmt.relabel_congr no hl.2.2 hi.2.2]
  | .loop test body, hl, hi => by
    simp only [Stmt.lines, Stmt.refs, List.forall_mem_append] at hl hi
    rw [Stmt.relabel, Stmt.relabel, test.relabel_congr hl.1 hi.1, Stmt.relabel_congr body hl.2 hi.2]
  | .function decl, hl, hi => congrArg Stmt.function (FunctionDecl.relabel_congr decl hl hi)
  | .classDecl name superclass methods, hl, hi => by
    simp only [Stmt.lines, Stmt.refs, List.forall_mem_append, List.forall_mem_cons] at hl hi
    have hsuper : superclass.map (·.relabel r) = superclass.map (·.relabel r') := by
      cases superclass with
      | none => rfl
      | some ref => exact congrArg some (Ref.relabel_congr (hl.2.1 _ (.head _)) (hi.1 _ (.head _)))
    rw [Stmt.relabel, Stmt.relabel, Token.relabel_congr hl.1, hsuper,
      FunctionDecl.relabelAll_congr methods hl.2.2 hi.2]

theorem Stmt.relabelAll_congr : ∀ ss : List Stmt, (∀ l ∈ Stmt.linesOf ss, r.line l = r'.line l) →
    (∀ ref ∈ Stmt.refsOf ss, r.id ref.id = r'.id ref.id) → Stmt.relabelAll r ss = Stmt.relabelAll r' ss
  | [], _, _ => rfl
  | s :: ss, hl, hi => by
    simp only [Stmt.linesOf, Stmt.refsOf, List.forall_mem_append] at hl hi
    rw [Stmt.relabelAll, Stmt.relabelAll, Stmt.relabel_congr s hl.1 hi.1, Stmt.relabelAll_congr ss hl.2 hi.2]

theorem FunctionDecl.relabel_congr : ∀ d : FunctionDecl, (∀ l ∈ d.lines, r.line l = r'.line l) →
    (∀ ref ∈ d.refs, r.id ref.id = r'.id ref.id) → d.relabel r = d.relabel r'
  | .mk name params body, hl, hi => by
    simp only [FunctionDecl.lines, List.forall_mem_append, List.forall_mem_cons, List.forall_mem_map] at hl
    have hparams : params.map (·.relabel r) = params.map (·.relabel r') :=
      List.map_congr_left fun p hp ↦ Token.relabel_congr (hl.2.1 p hp)
    rw [FunctionDecl.relabel, FunctionDecl.relabel, Token.relabel_congr hl.1, hparams,
      Stmt.relabelAll_congr body hl.2.2 hi]

theorem FunctionDecl.relabelAll_congr : ∀ ds : List FunctionDecl,
    (∀ l ∈ FunctionDecl.linesOf ds, r.line l = r'.line l) →
    (∀ ref ∈ FunctionDecl.refsOf ds, r.id ref.id = r'.id ref.id) →
      FunctionDecl.relabelAll r ds = FunctionDecl.relabelAll r' ds
  | [], _, _ => rfl
  | d :: ds, hl, hi => by
    simp only [FunctionDecl.linesOf, FunctionDecl.refsOf, List.forall_mem_append] at hl hi
    rw [FunctionDecl.relabelAll, FunctionDecl.relabelAll, FunctionDecl.relabel_congr d hl.1 hi.1,
      FunctionDecl.relabelAll_congr ds hl.2 hi.2]

end

/-- What a relabeling does not move in a program leaves the program as it is. -/
theorem Stmt.relabelAll_eq_self {ss : List Stmt} (hl : ∀ l ∈ Stmt.linesOf ss, r.line l = l)
    (hi : ∀ ref ∈ Stmt.refsOf ss, r.id ref.id = ref.id) : Stmt.relabelAll r ss = ss := by
  rw [(Stmt.relabelAll_congr ss hl hi : Stmt.relabelAll r ss = Stmt.relabelAll .refl ss),
    Stmt.relabelAll_refl]

end

end Lox
