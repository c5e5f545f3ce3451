import Lox.Parse.Program
import Lox.Proofs.Tree.Relabel

namespace Lox

def SyntaxError.relabel (r : Relabeling) (e : SyntaxError) : SyntaxError :=
  { e with token := e.token.relabel r }

namespace Parse

variable {α β γ δ : Type}

def State.relabel (r : Relabeling) (s : State) : State where
  rest := s.rest.map (·.relabel r)
  eof := s.eof.relabel r
  errors := s.errors.map (·.relabel r)
  nextId := r.id s.nextId

def Reply.relabel (r : Relabeling) (f : α → β) : Reply α → Reply β
  | .ok a s => .ok (f a) (s.relabel r)
  | .fail e s => .fail (e.relabel r) (s.relabel r)

section

variable (r : Relabeling) (s : State)

@[simp] theorem State.rest_relabel : (s.relabel r).rest = s.rest.map (·.relabel r) := rfl

theorem State.headD_relabel :
    (s.relabel r).rest.headD (s.relabel r).eof = (s.rest.headD s.eof).relabel r := by
  unfold State.relabel
  cases s.rest <;> rfl

theorem resume_relabel (last : Token) (ts : List Token) :
    resume (last.relabel r) (ts.map (·.relabel r)) = (resume last ts).map (·.relabel r) := by
  induction ts generalizing last with
  | nil => rfl
  | cons t ts ih =>
    by_cases hstop : (Kind.same (.mark .semicolon) last.kind || startsStatement t.kind) = true
    · simp [resume, hstop]
    · simp [resume, hstop, ih]

theorem synchronize_relabel (ts : List Token) :
    synchronize (ts.map (·.relabel r)) = (synchronize ts).map (·.relabel r) := by
  cases ts with
  | nil => rfl
  | cons t ts => exact resume_relabel r t ts

end

namespace Rule

/-- On relabeled tokens `p'` does what `p` does on the tokens; `f` carries the one value over to the
other. -/
def Carries (r : Relabeling) (f : α → β) (p : Rule α) (p' : Rule β) : Prop :=
  ∀ s, p' (s.relabel r) = (p s).relabel r f

section

variable {r : Relabeling} {f : α → β} {g : γ → δ} {p : Rule α} {p' : Rule β}

theorem carries_pure (f : α → β) (a : α) : Carries r f (pure a) (pure (f a)) := fun _ ↦ rfl

theorem Carries.bind {q : α → Rule γ} {q' : β → Rule δ} (hp : Carries r f p p')
    (hq : ∀ a, Carries r g (q a) (q' (f a))) : Carries r g (p >>= q) (p' >>= q') := by
  intro s
  show (match p' (s.relabel r) with
    | .ok b s => q' b s
    | .fail e s => .fail e s : Reply δ) = Reply.relabel r g (match p s with
    | .ok a s => q a s
    | .fail e s => .fail e s)
  rw [hp s]
  cases p s with
  | ok a s => exact hq a s
  | fail e s => rfl

theorem Carries.map {c : α → γ} {c' : β → δ} (hp : Carries r f p p') (hc : ∀ a, c' (f a) = g (c a)) :
    Carries r g (c <$> p) (c' <$> p') :=
  hp.bind fun a ↦ by
    have h : Carries r g (pure (c a)) (pure (g (c a))) := carries_pure g (c a)
    rw [← hc a] at h
    exact h

theorem carries_peek : Carries r (·.relabel r) peek peek :=
  fun s ↦ congrArg (Reply.ok · (s.relabel r)) (s.headD_relabel r)

theorem carries_advance : Carries r id advance advance := by
  intro s
  obtain ⟨rest, eof, errors, n⟩ := s
  cases rest <;> rfl

theorem carries_acceptIf (test : Kind → Bool) :
    Carries r (Option.map (·.relabel r)) (acceptIf test) (acceptIf test) := by
  intro s
  obtain ⟨rest, eof, errors, n⟩ := s
  cases rest with
  | nil => rfl
  | cons t rest =>
    simp only [acceptIf, State.relabel, List.map_cons, Token.kind_relabel]
    split <;> rfl

theorem carries_check (kind : Kind) : Carries r id (check kind) (check kind) := by
  intro s
  obtain ⟨rest, eof, errors, n⟩ := s
  cases rest <;> rfl

theorem carries_missing (f : α → β) (what : Expectation) :
    Carries r f (missing what) (missing what) :=
  fun s ↦ congrArg (fun t ↦ Reply.fail ⟨.missing what, t⟩ (s.relabel r)) (s.headD_relabel r)

theorem carries_report (cause : SyntaxCause) (t : Token) :
    Carries r id (report cause t) (report cause (t.relabel r)) := by
  intro s
  have herrors : (s.errors.map (·.relabel r)).push ⟨cause, t.relabel r⟩ =
      (s.errors.push ⟨cause, t⟩).map (·.relabel r) := by
    rw [Array.map_push]
    rfl
  simp only [report, State.relabel, herrors, Reply.relabel, id]

theorem carries_occurrence (hr : r.Counts) (t : Token) :
    Carries r (·.relabel r) (occurrence t) (occurrence (t.relabel r)) := by
  intro s
  simp only [occurrence, State.relabel, Reply.relabel, hr s.nextId]
  rfl

theorem Carries.recovering (hp : Carries r f p p') :
    Carries r (Option.map f) p.recovering p'.recovering := by
  intro s
  unfold Rule.recovering
  rw [hp s]
  cases p s with
  | ok a s => rfl
  | fail e s =>
    simp only [Reply.relabel, State.relabel, synchronize_relabel, Array.map_push, Option.map_none]

theorem Carries.acceptIf_bind {test : Kind → Bool} {q : Option Token → Rule γ} {q' : Option Token → Rule δ}
    (hn : Carries r g (q none) (q' none))
    (hs : ∀ t, Carries r g (q (some t)) (q' (some (t.relabel r)))) :
    Carries r g (acceptIf test >>= q) (acceptIf test >>= q') := by
  refine (carries_acceptIf test).bind fun o ↦ ?_
  cases o with
  | none => exact hn
  | some t => exact hs t

theorem Carries.accept_bind {kind : Kind} {q : Option Token → Rule γ} {q' : Option Token → Rule δ}
    (hn : Carries r g (q none) (q' none))
    (hs : ∀ t, Carries r g (q (some t)) (q' (some (t.relabel r)))) :
    Carries r g (accept kind >>= q) (accept kind >>= q') := Carries.acceptIf_bind hn hs

theorem carries_expect (kind : Kind) (what : Expectation) :
    Carries r (·.relabel r) (expect kind what) (expect kind what) :=
  Carries.accept_bind (carries_missing _ what) fun t ↦ carries_pure (·.relabel r) t

theorem Carries.test_bind {c : Rule Bool} {q : Bool → Rule γ} {q' : Bool → Rule δ}
    (hc : Carries r id c c) (ht : Carries r g (q true) (q' true))
    (hf : Carries r g (q false) (q' false)) : Carries r g (c >>= q) (c >>= q') := by
  refine hc.bind fun b ↦ ?_
  cases b with
  | false => exact hf
  | true => exact ht

theorem Carries.advance_bind (hp : Carries r f p p') :
    Carries r f (advance >>= fun _ ↦ p) (advance >>= fun _ ↦ p') := carries_advance.bind fun _ ↦ hp

end

end Rule

open Rule

abbrev CarriesExpr (r : Relabeling) (p p' : Rule Expr) : Prop := p.Carries r (·.relabel r) p'

section

variable {r : Relabeling} {expr expr' operand operand' : Rule Expr}

theorem operands_carries (isOp : Kind → Bool) {node : Expr → Token → Expr → Expr}
    (hnode : ∀ a t b, (node a t b).relabel r = node (a.relabel r) (t.relabel r) (b.relabel r))
    (ho : CarriesExpr r operand operand') (n : Nat) (left : Expr) :
    CarriesExpr r (operands isOp node operand n left) (operands isOp node operand' n (left.relabel r)) := by
  induction n generalizing left with
  | zero => exact carries_pure _ left
  | succ n ih =>
    refine Carries.acceptIf_bind (carries_pure _ left) fun op ↦ ho.bind fun right ↦ ?_
    rw [← hnode]
    exact ih (node left op right)

theorem leftAssoc_carries (isOp : Kind → Bool) {node : Expr → Token → Expr → Expr}
    (hnode : ∀ a t b, (node a t b).relabel r = node (a.relabel r) (t.relabel r) (b.relabel r))
    (ho : CarriesExpr r operand operand') (n : Nat) :
    CarriesExpr r (leftAssoc n isOp node operand) (leftAssoc n isOp node operand') :=
  ho.bind (operands_carries isOp hnode ho n)

theorem primary_carries (hr : r.Counts) (he : CarriesExpr r expr expr') :
    CarriesExpr r (primary expr) (primary expr') := by
  refine carries_peek.bind fun t ↦ ?_
  simp only [Token.kind_relabel]
  have literal (v : Literal) : CarriesExpr r (advance >>= fun _ ↦ pure (.literal v t.line))
      (advance >>= fun _ ↦ pure (.literal v (t.relabel r).line)) :=
    (carries_pure (Expr.relabel r) (.literal v t.line)).advance_bind
  split
  · exact literal _
  · exact literal _
  · exact literal _
  · exact literal _
  · exact literal _
  · exact Carries.advance_bind ((carries_expect _ _).bind fun _ ↦ (carries_expect _ _).bind fun method ↦
      (carries_occurrence hr t).bind fun ref ↦ carries_pure (Expr.relabel r) (.super ref method))
  · exact Carries.advance_bind ((carries_occurrence hr t).bind fun ref ↦
      carries_pure (Expr.relabel r) (.this ref))
  · exact Carries.advance_bind ((carries_occurrence hr t).bind fun ref ↦
      carries_pure (Expr.relabel r) (.var ref))
  · exact Carries.advance_bind (he.bind fun inner ↦ (carries_expect _ _).bind fun _ ↦
      carries_pure (Expr.relabel r) (.grouping inner))
  · exact carries_missing _ _

theorem argument_carries (he : CarriesExpr r expr expr') (count : Nat) :
    CarriesExpr r (argument expr count) (argument expr' count) := by
  unfold argument
  split
  · exact carries_peek.bind fun t ↦ (carries_report _ t).bind fun _ ↦ he
  · exact he

theorem arguments_carries (he : CarriesExpr r expr expr') (n count : Nat) :
    (arguments expr n count).Carries r (Expr.relabelAll r) (arguments expr' n count) := by
  induction n generalizing count with
  | zero => exact (argument_carries he count).bind fun e ↦ carries_pure (Expr.relabelAll r) [e]
  | succ n ih =>
    exact (argument_carries he count).bind fun e ↦ Carries.accept_bind
      (carries_pure (Expr.relabelAll r) [e]) fun _ ↦
      (ih (count + 1)).bind fun es ↦ carries_pure (Expr.relabelAll r) (e :: es)

theorem finishCall_carries (he : CarriesExpr r expr expr') (n : Nat) (callee : Expr) :
    CarriesExpr r (finishCall expr n callee) (finishCall expr' n (callee.relabel r)) :=
  (carries_check _).test_bind
    ((carries_pure (Expr.relabelAll r) []).bind fun args ↦ (carries_expect _ _).bind fun paren ↦
      carries_pure (Expr.relabel r) (.call callee args paren))
    ((arguments_carries he n 0).bind fun args ↦ (carries_expect _ _).bind fun paren ↦
      carries_pure (Expr.relabel r) (.call callee args paren))

theorem suffixes_carries (he : CarriesExpr r expr expr') (n : Nat) (e : Expr) :
    CarriesExpr r (suffixes expr n e) (suffixes expr' n (e.relabel r)) := by
  induction n generalizing e with
  | zero => exact carries_pure _ e
  | succ n ih =>
    exact Carries.accept_bind (Carries.accept_bind (carries_pure _ e) fun _ ↦
      (carries_expect _ _).bind fun name ↦ ih (.get e name)) fun _ ↦ (finishCall_carries he n e).bind ih

theorem unary_carries (ho : CarriesExpr r operand operand') (n : Nat) :
    CarriesExpr r (unary operand n) (unary operand' n) := by
  induction n with
  | zero => exact ho
  | succ n ih =>
    exact Carries.acceptIf_bind ho fun op ↦ ih.bind fun e ↦ carries_pure (Expr.relabel r) (.unary op e)

theorem disjunction_carries (hr : r.Counts) (he : CarriesExpr r expr expr') (n : Nat) :
    CarriesExpr r (disjunction n expr) (disjunction n expr') := by
  have hbinary (a : Expr) (t : Token) (b : Expr) :
      (Expr.binary a t b).relabel r = .binary (a.relabel r) (t.relabel r) (b.relabel r) := rfl
  have hlogical (a : Expr) (t : Token) (b : Expr) :
      (Expr.logical a t b).relabel r = .logical (a.relabel r) (t.relabel r) (b.relabel r) := rfl
  have hcall : CarriesExpr r (call n expr) (call n expr') :=
    (primary_carries hr he).bind (suffixes_carries he n)
  have hf : CarriesExpr r (factor n expr) (factor n expr') :=
    leftAssoc_carries _ hbinary (unary_carries hcall n) n
  have ht : CarriesExpr r (term n expr) (term n expr') := leftAssoc_carries _ hbinary hf n
  have hc : CarriesExpr r (comparison n expr) (comparison n expr') := leftAssoc_carries _ hbinary ht n
  have hq : CarriesExpr r (equality n expr) (equality n expr') := leftAssoc_carries _ hbinary hc n
  have ha : CarriesExpr r (conjunction n expr) (conjunction n expr') := leftAssoc_carries _ hlogical hq n
  exact leftAssoc_carries _ hlogical ha n

theorem assignTo_carries (hr : r.Counts) (target : Expr) (equals : Token) (value : Expr) :
    CarriesExpr r (assignTo target equals value)
      (assignTo (target.relabel r) (equals.relabel r) (value.relabel r)) := by
  have other (e : Expr) : CarriesExpr r (report .invalidTarget equals >>= fun _ ↦ pure e)
      (report .invalidTarget (equals.relabel r) >>= fun _ ↦ pure (e.relabel r)) :=
    (carries_report _ _).bind fun _ ↦ carries_pure (Expr.relabel r) e
  cases target with
  | var ref =>
    exact (carries_occurrence hr ref.name).bind fun ref ↦ carries_pure (Expr.relabel r) (.assign ref value)
  | get object name => exact carries_pure (Expr.relabel r) (.set object name value)
  | _ => exact other _

theorem assignment_carries (hr : r.Counts) (he : CarriesExpr r expr expr') (n : Nat) :
    CarriesExpr r (assignment n expr) (assignment n expr') :=
  (disjunction_carries hr he n).bind fun target ↦ Carries.accept_bind (carries_pure _ target) fun equals ↦
    he.bind fun value ↦ assignTo_carries hr target equals value

theorem expression_carries (hr : r.Counts) : ∀ n : Nat, CarriesExpr r (expression n) (expression n)
  | 0 => carries_missing _ .expression
  | n + 1 => assignment_carries hr (expression_carries hr n) (n + 1)

theorem optionalExpression_carries (hr : r.Counts) (n : Nat) (stop : Kind) :
    (optionalExpression n stop).Carries r (Option.map (·.relabel r)) (optionalExpression n stop) :=
  (carries_check stop).test_bind (carries_pure (Option.map (Expr.relabel r)) none)
    ((expression_carries hr n).map fun _ ↦ rfl)

end

abbrev CarriesStmt (r : Relabeling) (p p' : Rule Stmt) : Prop := p.Carries r (·.relabel r) p'

section

variable {r : Relabeling} {declaration declaration' : Rule (Option Stmt)} {statement statement' : Rule Stmt}

theorem carries_stopsAt (stop : Kind → Bool) : (stopsAt stop).Carries r id (stopsAt stop) := by
  intro s
  obtain ⟨rest, eof, errors, n⟩ := s
  cases rest <;> rfl

theorem declarations_carries (hd : declaration.Carries r (Option.map (·.relabel r)) declaration')
    (stop : Kind → Bool) (n : Nat) :
    (declarations stop declaration n).Carries r (Stmt.relabelAll r) (declarations stop declaration' n) := by
  induction n with
  | zero => exact carries_pure (Stmt.relabelAll r) []
  | succ n ih =>
    refine (carries_stopsAt stop).test_bind (carries_pure (Stmt.relabelAll r) []) (hd.bind fun o ↦ ?_)
    cases o with
    | none => exact ih
    | some s => exact ih.bind fun ss ↦ carries_pure (Stmt.relabelAll r) (s :: ss)

theorem block_carries (hd : declaration.Carries r (Option.map (·.relabel r)) declaration') (n : Nat) :
    (block n declaration).Carries r (Stmt.relabelAll r) (block n declaration') :=
  (declarations_carries hd _ n).bind fun body ↦ (carries_expect _ _).bind fun _ ↦ carries_pure _ body

theorem parameter_carries (count : Nat) : (parameter count).Carries r (·.relabel r) (parameter count) := by
  unfold parameter
  split
  · exact carries_peek.bind fun t ↦ (carries_report _ t).bind fun _ ↦ carries_expect _ _
  · exact carries_expect _ _

theorem parameters_carries (n count : Nat) :
    (parameters n count).Carries r (List.map (·.relabel r)) (parameters n count) := by
  induction n generalizing count with
  | zero => exact (parameter_carries count).bind fun p ↦ carries_pure (List.map (Token.relabel r)) [p]
  | succ n ih =>
    exact (parameter_carries count).bind fun p ↦ Carries.accept_bind
      (carries_pure (List.map (Token.relabel r)) [p]) fun _ ↦
      (ih (count + 1)).bind fun ps ↦ carries_pure (List.map (Token.relabel r)) (p :: ps)

theorem function_carries (hd : declaration.Carries r (Option.map (·.relabel r)) declaration') (n : Nat)
    (q : Routine) :
    (function n declaration q).Carries r (·.relabel r) (function n declaration' q) := by
  have body (name : Token) (params : List Token) : Carries r (FunctionDecl.relabel r) (do
      let _ ← expect (.mark .rightParen) .parametersEnd
      let _ ← expect (.mark .leftBrace) (.routineBody q)
      let body ← block n declaration
      pure (FunctionDecl.mk name params body)) (do
      let _ ← expect (.mark .rightParen) .parametersEnd
      let _ ← expect (.mark .leftBrace) (.routineBody q)
      let body ← block n declaration'
      pure (FunctionDecl.mk (name.relabel r) (params.map (·.relabel r)) body)) :=
    (carries_expect _ _).bind fun _ ↦ (carries_expect _ _).bind fun _ ↦ (block_carries hd n).bind fun body ↦
      carries_pure (FunctionDecl.relabel r) (.mk name params body)
  exact (carries_expect _ _).bind fun name ↦ (carries_expect _ _).bind fun _ ↦ (carries_check _).test_bind
    ((carries_pure (List.map (Token.relabel r)) []).bind (body name))
    ((parameters_carries n 0).bind (body name))

theorem methods_carries {method method' : Rule FunctionDecl} (hm : method.Carries r (·.relabel r) method')
    (n : Nat) : (methods method n).Carries r (FunctionDecl.relabelAll r) (methods method' n) := by
  induction n with
  | zero => exact carries_pure (FunctionDecl.relabelAll r) []
  | succ n ih =>
    exact (carries_stopsAt _).test_bind (carries_pure (FunctionDecl.relabelAll r) []) (hm.bind fun d ↦
      ih.bind fun ds ↦ carries_pure (FunctionDecl.relabelAll r) (d :: ds))

theorem superclass_carries (hr : r.Counts) :
    superclass.Carries r (Option.map (·.relabel r)) superclass :=
  Carries.accept_bind (carries_pure (Option.map (Ref.relabel r)) none) fun _ ↦
    (carries_expect _ _).bind fun name ↦ (carries_occurrence hr name).bind fun ref ↦
      carries_pure (Option.map (Ref.relabel r)) (some ref)

theorem classDeclaration_carries (hr : r.Counts)
    (hd : declaration.Carries r (Option.map (·.relabel r)) declaration') (n : Nat) :
    CarriesStmt r (classDeclaration n declaration) (classDeclaration n declaration') :=
  (carries_expect _ _).bind fun name ↦ (superclass_carries hr).bind fun super ↦
    (carries_expect _ _).bind fun _ ↦ (methods_carries (function_carries hd n .method) n).bind fun ms ↦
    (carries_expect _ _).bind fun _ ↦ carries_pure (Stmt.relabel r) (.classDecl name super ms)

theorem varDeclaration_carries (hr : r.Counts) (n : Nat) :
    CarriesStmt r (varDeclaration n) (varDeclaration n) := by
  have finish (name : Token) (e : Option Expr) : CarriesStmt r
      (expect (.mark .semicolon) .variableEnd >>= fun _ ↦ pure (.var name e))
      (expect (.mark .semicolon) .variableEnd >>= fun _ ↦
        pure (.var (name.relabel r) (e.map (·.relabel r)))) :=
    (carries_expect _ _).bind fun _ ↦ carries_pure (Stmt.relabel r) (.var name e)
  exact (carries_expect _ _).bind fun name ↦ Carries.accept_bind
    ((carries_pure (Option.map (Expr.relabel r)) none).bind (finish name)) fun _ ↦
    Carries.bind ((expression_carries hr n).map fun _ ↦ rfl) (finish name)

theorem expressionStatement_carries (hr : r.Counts) (n : Nat) :
    CarriesStmt r (expressionStatement n) (expressionStatement n) :=
  (expression_carries hr n).bind fun e ↦ (carries_expect _ _).bind fun _ ↦
    carries_pure (Stmt.relabel r) (.expr e)

theorem forFirst_carries (hr : r.Counts) (n : Nat) :
    (forFirst n).Carries r (Option.map (·.relabel r)) (forFirst n) :=
  Carries.accept_bind (Carries.accept_bind ((expressionStatement_carries hr n).map fun _ ↦ rfl) fun _ ↦
    (varDeclaration_carries hr n).map fun _ ↦ rfl) fun _ ↦
    carries_pure (Option.map (Stmt.relabel r)) none

theorem relabel_forLoop (line : Nat) (first : Option Stmt) (test step : Option Expr) (body : Stmt) :
    (Stmt.forLoop line first test step body).relabel r =
      .forLoop (r.line line) (first.map (·.relabel r)) (test.map (·.relabel r)) (step.map (·.relabel r))
        (body.relabel r) := by
  cases first <;> cases test <;> cases step <;> rfl

theorem forStatement_carries (hr : r.Counts) (hs : CarriesStmt r statement statement') (n line : Nat) :
    CarriesStmt r (forStatement n statement line) (forStatement n statement' (r.line line)) :=
  (carries_expect _ _).bind fun _ ↦ (forFirst_carries hr n).bind fun first ↦
    (optionalExpression_carries hr n _).bind fun test ↦ (carries_expect _ _).bind fun _ ↦
    (optionalExpression_carries hr n _).bind fun step ↦ (carries_expect _ _).bind fun _ ↦
    hs.bind fun body ↦ by
      rw [← relabel_forLoop]
      exact carries_pure (Stmt.relabel r) (.forLoop line first test step body)

theorem ifStatement_carries (hr : r.Counts) (hs : CarriesStmt r statement statement') (n : Nat) :
    CarriesStmt r (ifStatement n statement) (ifStatement n statement') := by
  have finish (test : Expr) (yes : Stmt) (no : Option Stmt) : CarriesStmt r (pure (.cond test yes no))
      (pure (.cond (test.relabel r) (yes.relabel r) (no.map (·.relabel r)))) := by
    cases no <;> exact carries_pure (Stmt.relabel r) (.cond test yes _)
  exact (carries_expect _ _).bind fun _ ↦ (expression_carries hr n).bind fun test ↦
    (carries_expect _ _).bind fun _ ↦ hs.bind fun yes ↦ Carries.accept_bind
      ((carries_pure (Option.map (Stmt.relabel r)) none).bind (finish test yes)) fun _ ↦
      Carries.bind (hs.map fun _ ↦ rfl) (finish test yes)

theorem whileStatement_carries (hr : r.Counts) (hs : CarriesStmt r statement statement') (n : Nat) :
    CarriesStmt r (whileStatement n statement) (whileStatement n statement') :=
  (carries_expect _ _).bind fun _ ↦ (expression_carries hr n).bind fun test ↦
    (carries_expect _ _).bind fun _ ↦ hs.bind fun body ↦ carries_pure (Stmt.relabel r) (.loop test body)

theorem printStatement_carries (hr : r.Counts) (n : Nat) :
    CarriesStmt r (printStatement n) (printStatement n) :=
  (expression_carries hr n).bind fun e ↦ (carries_expect _ _).bind fun _ ↦
    carries_pure (Stmt.relabel r) (.print e)

theorem returnStatement_carries (hr : r.Counts) (n : Nat) (t : Token) :
    CarriesStmt r (returnStatement n t) (returnStatement n (t.relabel r)) :=
  (optionalExpression_carries hr n _).bind fun e ↦ (carries_expect _ _).bind fun _ ↦
    carries_pure (Stmt.relabel r) (.ret t e)

theorem statementWith_carries (hr : r.Counts)
    (hd : declaration.Carries r (Option.map (·.relabel r)) declaration')
    (hs : CarriesStmt r statement statement') (n : Nat) :
    CarriesStmt r (statementWith n declaration statement) (statementWith n declaration' statement') := by
  refine carries_peek.bind fun t ↦ ?_
  simp only [Token.kind_relabel]
  split
  · exact (forStatement_carries hr hs n t.line).advance_bind
  · exact (ifStatement_carries hr hs n).advance_bind
  · exact (printStatement_carries hr n).advance_bind
  · exact (returnStatement_carries hr n t).advance_bind
  · exact (whileStatement_carries hr hs n).advance_bind
  · exact Carries.advance_bind ((block_carries hd n).map fun _ ↦ rfl)
  · exact expressionStatement_carries hr n

theorem declarationWith_carries (hr : r.Counts)
    (hd : declaration.Carries r (Option.map (·.relabel r)) declaration')
    (hs : CarriesStmt r statement statement') (n : Nat) :
    CarriesStmt r (declarationWith n declaration statement) (declarationWith n declaration' statement') := by
  refine carries_peek.bind fun t ↦ ?_
  simp only [Token.kind_relabel]
  split
  · exact (classDeclaration_carries hr hd n).advance_bind
  · exact Carries.advance_bind ((function_carries hd n .function).map fun _ ↦ rfl)
  · exact (varDeclaration_carries hr n).advance_bind
  · exact statementWith_carries hr hd hs n

end

/-- The rules of the grammar see neither the lines of tokens nor where the ids begin. -/
theorem statement_declaration_carries {r : Relabeling} (hr : r.Counts) (n : Nat) :
    CarriesStmt r (statement n) (statement n) ∧
      (declaration n).Carries r (Option.map (·.relabel r)) (declaration n) := by
  induction n with
  | zero => exact ⟨carries_missing _ .expression, (carries_missing _ .expression).recovering⟩
  | succ n ih =>
    obtain ⟨hs, hd⟩ := ih
    exact ⟨statementWith_carries hr hd hs (n + 1), (declarationWith_carries hr hd hs (n + 1)).recovering⟩

def Result.relabel (r : Relabeling) (p : Result) : Result where
  outcome := match p.outcome with
    | .ok program => .ok (Stmt.relabelAll r program)
    | .error es => .error (es.map (·.relabel r))
  nextId := r.id p.nextId

theorem ofTokens_relabel (r : Relabeling) {tokens : List Token} (h : ∃ t ∈ tokens, t.kind.isEof = true)
    (n : Nat) : State.ofTokens (tokens.map (·.relabel r)) (r.id n) = (State.ofTokens tokens n).relabel r := by
  have heof : endOf (tokens.map (·.relabel r)) = (endOf tokens).relabel r := by
    obtain ⟨t, ht⟩ := Option.isSome_iff_exists.1 (List.find?_isSome.2 h)
    simp [endOf, List.find?_map, Function.comp_def, ht]
  have hrest : (tokens.map (·.relabel r)).takeWhile (fun t ↦ !t.kind.isEof) =
      (tokens.takeWhile fun t ↦ !t.kind.isEof).map (·.relabel r) := by
    rw [List.takeWhile_map]
    rfl
  unfold State.ofTokens
  rw [heof, hrest]
  simp [State.relabel]

/-- Relabeled tokens are parsed to the relabeled program, or to the same faults. -/
theorem parse_relabel {r : Relabeling} (hr : r.Counts) {tokens : List Token}
    (h : ∃ t ∈ tokens, t.kind.isEof = true) (n : Nat) :
    parse (tokens.map (·.relabel r)) (r.id n) = (parse tokens n).relabel r := by
  have hprogram := declarations_carries (statement_declaration_carries hr
    (State.ofTokens tokens n).rest.length).2 (fun _ ↦ false) (State.ofTokens tokens n).rest.length
    (.ofTokens tokens n)
  have hcarried : program (State.ofTokens tokens n).rest.length ((State.ofTokens tokens n).relabel r) =
      (program (State.ofTokens tokens n).rest.length (.ofTokens tokens n)).relabel r (Stmt.relabelAll r) :=
    hprogram
  simp only [parse, ofTokens_relabel r h, State.rest_relabel, List.length_map, hcarried]
  cases program (State.ofTokens tokens n).rest.length (.ofTokens tokens n) with
  | ok ss s =>
    simp only [Reply.relabel, Result.ofReply, Result.relabel, State.relabel]
    by_cases hs : s.errors = #[]
    · simp [hs]
    · simp [hs]
  | fail e s => simp [Reply.relabel, Result.ofReply, Result.relabel, State.relabel]

end Parse

end Lox
