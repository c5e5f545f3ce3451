import Lox.Proofs.Parse.Acceptance

namespace Lox.Parse

variable {α β : Type}

def Reply.state : Reply α → State
  | .ok _ s | .fail _ s => s

/-- A state that comes later in a parse: further on in the tokens, with the faults so far in front. -/
structure State.Forward (s s' : State) : Prop where
  rest : s'.rest <:+ s.rest
  eof : s'.eof = s.eof
  errors : s.errors.toList <+: s'.errors.toList

theorem State.Forward.refl (s : State) : s.Forward s := ⟨List.suffix_rfl, rfl, List.prefix_rfl⟩

theorem State.Forward.trans {s s₁ s₂ : State} (h : s.Forward s₁) (h₁ : s₁.Forward s₂) : s.Forward s₂ :=
  ⟨h₁.rest.trans h.rest, h₁.eof.trans h.eof, h.errors.trans h₁.errors⟩

theorem State.Forward.length_le {s s' : State} (h : s.Forward s') : s'.rest.length ≤ s.rest.length :=
  h.rest.length_le

theorem State.Forward.push {s s' : State} (h : s.Forward s') (e : SyntaxError) :
    s.Forward { s' with errors := s'.errors.push e } :=
  ⟨h.rest, h.eof, by simpa using h.errors.trans (List.prefix_append _ [e])⟩

theorem resume_suffix (last : Token) (ts : List Token) : resume last ts <:+ ts := by
  induction ts generalizing last with
  | nil => exact List.suffix_rfl
  | cons t ts ih =>
    unfold resume
    split
    · exact List.suffix_rfl
    · exact (ih t).trans (List.suffix_cons t ts)

theorem synchronize_suffix (ts : List Token) : synchronize ts <:+ ts := by
  cases ts with
  | nil => exact List.suffix_rfl
  | cons t ts => exact (resume_suffix t ts).trans (List.suffix_cons t ts)

/-- The offending token is always skipped. -/
theorem length_synchronize_lt {ts : List Token} (h : ts ≠ []) : (synchronize ts).length < ts.length := by
  cases ts with
  | nil => exact absurd rfl h
  | cons t ts => exact Nat.lt_succ_of_le (resume_suffix t ts).length_le

namespace Rule

/-- A rule that takes one token at most. -/
inductive Elementary : {α : Type} → Rule α → Prop
  | pure {α : Type} (a : α) : Elementary (Pure.pure a : Rule α)
  | peek : Elementary peek
  | advance : Elementary advance
  | acceptIf (test : Kind → Bool) : Elementary (acceptIf test)
  | check (kind : Kind) : Elementary (check kind)
  | stopsAt (stop : Kind → Bool) : Elementary (stopsAt stop)
  | missing {α : Type} (what : Expectation) : Elementary (missing what : Rule α)
  | report (cause : SyntaxCause) (token : Token) : Elementary (report cause token)
  | occurrence (name : Token) : Elementary (occurrence name)

/-- A rule that is put together from elementary ones. -/
inductive Composed : {α : Type} → Rule α → Prop
  | elementary {α : Type} {p : Rule α} (h : Elementary p) : Composed p
  | bind {α β : Type} {p : Rule α} {f : α → Rule β} (hp : Composed p) (hf : ∀ a, Composed (f a)) :
    Composed (p >>= f)
  | recovering {α : Type} {p : Rule α} (hp : Composed p) : Composed p.recovering

/-- The states to which a rule comes, one after another, from the first to the last. -/
inductive Trace : {α : Type} → Rule α → State → List State → Prop
  | elementary {α : Type} {p : Rule α} (h : Elementary p) (s : State) : Trace p s [s, (p s).state]
  | bind {α β : Type} {p : Rule α} {f : α → Rule β} {s s' : State} {a : α} {l l' : List State}
    (hp : Trace p s l) (h : p s = .ok a s') (hf : Trace (f a) s' l') : Trace (p >>= f) s (l ++ l')
  | bind_fail {α β : Type} {p : Rule α} {f : α → Rule β} {s s' : State} {e : SyntaxError} {l : List State}
    (hp : Trace p s l) (h : p s = .fail e s') : Trace (p >>= f) s l
  | recovering {α : Type} {p : Rule α} {s : State} {l : List State} (hp : Trace p s l) :
    Trace p.recovering s (l ++ [(p.recovering s).state])

theorem bind_ok {p : Rule α} {f : α → Rule β} {s s' : State} {a : α} (h : p s = .ok a s') :
    (p >>= f) s = f a s' := by
  show (match p s with
    | .ok a s => f a s
    | .fail e s => .fail e s) = _
  rw [h]

theorem bind_fail {p : Rule α} {f : α → Rule β} {s s' : State} {e : SyntaxError} (h : p s = .fail e s') :
    (p >>= f) s = .fail e s' := by
  show (match p s with
    | .ok a s => f a s
    | .fail e s => .fail e s) = _
  rw [h]

theorem recovering_ok {p : Rule α} {s s' : State} {a : α} (h : p s = .ok a s') :
    p.recovering s = .ok (some a) s' := by rw [Rule.recovering, h]

theorem recovering_fail {p : Rule α} {s s' : State} {e : SyntaxError} (h : p s = .fail e s') :
    p.recovering s = .ok none { s' with rest := synchronize s'.rest, errors := s'.errors.push e } := by
  rw [Rule.recovering, h]

theorem Elementary.forward {p : Rule α} (h : Elementary p) (s : State) : s.Forward (p s).state := by
  cases h with
  | pure | peek | missing => exact .refl s
  | occurrence => exact ⟨List.suffix_rfl, rfl, List.prefix_rfl⟩
  | advance => exact ⟨List.tail_suffix s.rest, rfl, List.prefix_rfl⟩
  | acceptIf test =>
    unfold Rule.acceptIf
    split
    · exact .refl s
    · next t rest hr =>
      split
      · exact ⟨hr ▸ List.suffix_cons t rest, rfl, List.prefix_rfl⟩
      · exact .refl s
  | check kind =>
    unfold Rule.check
    split <;> exact .refl s
  | stopsAt stop =>
    unfold Parse.stopsAt
    split <;> exact .refl s
  | report cause token => exact (State.Forward.refl s).push _

theorem recovering_forward (p : Rule α) (s : State) : (p s).state.Forward (p.recovering s).state := by
  cases hp : p s with
  | ok a s' =>
    rw [recovering_ok hp]
    exact .refl s'
  | fail e s' =>
    rw [recovering_fail hp]
    exact ⟨synchronize_suffix s'.rest, rfl, ((State.Forward.refl s').push e).errors⟩

theorem Composed.forward {p : Rule α} (h : Composed p) (s : State) : s.Forward (p s).state := by
  induction h generalizing s with
  | elementary h => exact h.forward s
  | @bind _ _ p f _ _ ihp ihf =>
    have hs := ihp s
    cases hp : p s with
    | ok a s' =>
      rw [hp] at hs
      rw [bind_ok hp]
      exact hs.trans (ihf a s')
    | fail e s' =>
      rw [hp] at hs
      rw [bind_fail hp]
      exact hs
  | @recovering _ p _ ih => exact (ih s).trans (recovering_forward p s)

theorem Composed.exists_trace {p : Rule α} (h : Composed p) (s : State) : ∃ l, Trace p s l := by
  induction h generalizing s with
  | elementary h => exact ⟨_, .elementary h s⟩
  | @bind _ _ p f _ _ ihp ihf =>
    obtain ⟨l, hl⟩ := ihp s
    cases hp : p s with
    | ok a s' =>
      obtain ⟨l', hl'⟩ := ihf a s'
      exact ⟨_, hl.bind hp hl'⟩
    | fail e s' => exact ⟨_, hl.bind_fail hp⟩
  | recovering _ ih =>
    obtain ⟨l, hl⟩ := ih s
    exact ⟨_, hl.recovering⟩

theorem Trace.ends {p : Rule α} {s : State} {l : List State} (h : Trace p s l) :
    l.head? = some s ∧ l.getLast? = some (p s).state := by
  induction h with
  | elementary h s => exact ⟨rfl, rfl⟩
  | bind hp h hf ihp ihf =>
    rw [bind_ok h]
    exact ⟨by rw [List.head?_append, ihp.1]; rfl, by rw [List.getLast?_append, ihf.2]; rfl⟩
  | bind_fail hp h ih =>
    rw [h] at ih
    rw [Rule.bind_fail h]
    exact ih
  | recovering hp ih => exact ⟨by rw [List.head?_append, ih.1]; rfl, by rw [List.getLast?_concat]⟩

/-- At no moment does a rule move back. -/
theorem Trace.forward {p : Rule α} {s : State} {l : List State} (h : Trace p s l) :
    l.Pairwise State.Forward := by
  have hlast {l : List State} {s' s₁ : State} (hl : l.Pairwise State.Forward) (hs : l.getLast? = some s')
      (hmem : s₁ ∈ l) : s₁.Forward s' := by
    obtain ⟨l, rfl⟩ := List.getLast?_eq_some_iff.1 hs
    rcases List.mem_append.1 hmem with hmem | hmem
    · exact (List.pairwise_append.1 hl).2.2 s₁ hmem s' List.mem_cons_self
    · rw [List.mem_singleton.1 hmem]
      exact .refl s'
  induction h with
  | elementary h s => simpa using h.forward s
  | @bind _ _ p f s s' a l l' hp h hf ihp ihf =>
    refine List.pairwise_append.2 ⟨ihp, ihf, fun s₁ h₁ s₂ h₂ ↦ ?_⟩
    have hend := hp.ends.2
    rw [h] at hend
    obtain ⟨l', rfl⟩ := List.head?_eq_some_iff.1 hf.ends.1
    refine (hlast ihp hend h₁).trans ?_
    rcases List.mem_cons.1 h₂ with rfl | h₂
    · exact .refl _
    · exact (List.pairwise_cons.1 ihf).1 s₂ h₂
  | bind_fail _ _ ih => exact ih
  | @recovering _ p s l hp ih =>
    refine List.pairwise_append.2 ⟨ih, List.pairwise_singleton _ _, fun s₁ h₁ s₂ h₂ ↦ ?_⟩
    rw [List.mem_singleton.1 h₂]
    exact (hlast ih hp.ends.2 h₁).trans (recovering_forward p s)

theorem Composed.pure (a : α) : Composed (Pure.pure a : Rule α) := .elementary (.pure a)

theorem Composed.peek : Composed Rule.peek := .elementary .peek

theorem Composed.advance : Composed Rule.advance := .elementary .advance

theorem Composed.acceptIf (test : Kind → Bool) : Composed (Rule.acceptIf test) := .elementary (.acceptIf test)

theorem Composed.check (kind : Kind) : Composed (Rule.check kind) := .elementary (.check kind)

theorem Composed.stopsAt (stop : Kind → Bool) : Composed (Parse.stopsAt stop) := .elementary (.stopsAt stop)

theorem Composed.missing (what : Expectation) : Composed (Rule.missing what : Rule α) :=
  .elementary (.missing what)

theorem Composed.report (cause : SyntaxCause) (t : Token) : Composed (Rule.report cause t) :=
  .elementary (.report cause t)

theorem Composed.occurrence (name : Token) : Composed (Rule.occurrence name) := .elementary (.occurrence name)

theorem Composed.map {p : Rule α} (f : α → β) (h : Composed p) : Composed (f <$> p) :=
  h.bind fun a ↦ .pure (f a)

theorem Composed.accept (kind : Kind) : Composed (Rule.accept kind) := .acceptIf kind.same

theorem Composed.expect (kind : Kind) (what : Expectation) : Composed (Rule.expect kind what) :=
  (Composed.accept kind).bind fun o ↦ by
    cases o with
    | none => exact .missing what
    | some t => exact .pure t

theorem Composed.acceptIf_bind {test : Kind → Bool} {f : Option Token → Rule β} (hn : Composed (f none))
    (hs : ∀ t, Composed (f (some t))) : Composed (Rule.acceptIf test >>= f) :=
  (Composed.acceptIf test).bind fun o ↦ by
    cases o with
    | none => exact hn
    | some t => exact hs t

theorem Composed.accept_bind {kind : Kind} {f : Option Token → Rule β} (hn : Composed (f none))
    (hs : ∀ t, Composed (f (some t))) : Composed (Rule.accept kind >>= f) := acceptIf_bind hn hs

theorem Composed.test_bind {p : Rule Bool} {f : Bool → Rule β} (hp : Composed p) (ht : Composed (f true))
    (hf : Composed (f false)) : Composed (p >>= f) :=
  hp.bind fun b ↦ by
    cases b with
    | false => exact hf
    | true => exact ht

end Rule

open Rule

section

variable {isOp : Kind → Bool} {node : Expr → Token → Expr → Expr} {operand expr : Rule Expr}

theorem operands_composed (h : Composed operand) (n : Nat) (left : Expr) :
    Composed (operands isOp node operand n left) := by
  induction n generalizing left with
  | zero => exact .pure left
  | succ n ih => exact .acceptIf_bind (.pure left) fun op ↦ h.bind fun right ↦ ih (node left op right)

theorem leftAssoc_composed (h : Composed operand) (n : Nat) : Composed (leftAssoc n isOp node operand) :=
  h.bind (operands_composed h n)

theorem primary_composed (h : Composed expr) : Composed (primary expr) := by
  refine Composed.peek.bind fun t ↦ ?_
  split
  · exact Composed.advance.bind fun _ ↦ .pure _
  · exact Composed.advance.bind fun _ ↦ .pure _
  · exact Composed.advance.bind fun _ ↦ .pure _
  · exact Composed.advance.bind fun _ ↦ .pure _
  · exact Composed.advance.bind fun _ ↦ .pure _
  · exact Composed.advance.bind fun _ ↦ (Composed.expect _ _).bind fun _ ↦ (Composed.expect _ _).bind fun _ ↦
      (Composed.occurrence t).bind fun _ ↦ .pure _
  · exact Composed.advance.bind fun _ ↦ (Composed.occurrence t).bind fun _ ↦ .pure _
  · exact Composed.advance.bind fun _ ↦ (Composed.occurrence t).bind fun _ ↦ .pure _
  · exact Composed.advance.bind fun _ ↦ h.bind fun _ ↦ (Composed.expect _ _).bind fun _ ↦ .pure _
  · exact .missing .expression

theorem argument_composed (h : Composed expr) (count : Nat) : Composed (argument expr count) := by
  unfold argument
  split
  · exact Composed.peek.bind fun t ↦ (Composed.report _ t).bind fun _ ↦ h
  · exact h

theorem arguments_composed (h : Composed expr) (n count : Nat) : Composed (arguments expr n count) := by
  induction n generalizing count with
  | zero => exact (argument_composed h count).bind fun e ↦ .pure [e]
  | succ n ih =>
    exact (argument_composed h count).bind fun e ↦ .accept_bind (.pure [e]) fun _ ↦
      (ih (count + 1)).bind fun es ↦ .pure (e :: es)

theorem finishCall_composed (h : Composed expr) (n : Nat) (callee : Expr) :
    Composed (finishCall expr n callee) :=
  (Composed.check _).test_bind ((Composed.pure []).bind fun _ ↦ (Composed.expect _ _).bind fun _ ↦ .pure _)
    ((arguments_composed h n 0).bind fun _ ↦ (Composed.expect _ _).bind fun _ ↦ .pure _)

theorem suffixes_composed (h : Composed expr) (n : Nat) (e : Expr) : Composed (suffixes expr n e) := by
  induction n generalizing e with
  | zero => exact .pure e
  | succ n ih =>
    exact .accept_bind (.accept_bind (.pure e) fun _ ↦ (Composed.expect _ _).bind fun name ↦ ih (.get e name))
      fun _ ↦ (finishCall_composed h n e).bind ih

theorem call_composed (h : Composed expr) (n : Nat) : Composed (call n expr) :=
  (primary_composed h).bind (suffixes_composed h n)

theorem unary_composed (h : Composed operand) (n : Nat) : Composed (unary operand n) := by
  induction n with
  | zero => exact h
  | succ n ih => exact .acceptIf_bind h fun op ↦ ih.bind fun e ↦ .pure (Expr.unary op e)

theorem disjunction_composed (h : Composed expr) (n : Nat) : Composed (disjunction n expr) :=
  leftAssoc_composed (leftAssoc_composed (leftAssoc_composed (leftAssoc_composed (leftAssoc_composed
    (leftAssoc_composed (unary_composed (call_composed h n) n) n) n) n) n) n) n

theorem assignTo_composed (target : Expr) (equals : Token) (value : Expr) :
    Composed (assignTo target equals value) := by
  unfold assignTo
  split
  · exact (Composed.occurrence _).bind fun _ ↦ .pure _
  · exact .pure _
  · exact (Composed.report _ equals).bind fun _ ↦ .pure _

theorem assignment_composed (h : Composed expr) (n : Nat) : Composed (assignment n expr) :=
  (disjunction_composed h n).bind fun target ↦ .accept_bind (.pure target) fun equals ↦
    h.bind fun value ↦ assignTo_composed target equals value

end

theorem expression_composed : ∀ n : Nat, Composed (expression n)
  | 0 => .missing .expression
  | n + 1 => assignment_composed (expression_composed n) (n + 1)

section

variable {declaration : Rule (Option Stmt)} {statement : Rule Stmt}

theorem declarations_composed (h : Composed declaration) (stop : Kind → Bool) (n : Nat) :
    Composed (declarations stop declaration n) := by
  induction n with
  | zero => exact .pure []
  | succ n ih =>
    refine (Composed.stopsAt stop).test_bind (.pure []) (h.bind fun o ↦ ?_)
    cases o with
    | none => exact ih
    | some d => exact ih.bind fun ds ↦ .pure (d :: ds)

theorem block_composed (h : Composed declaration) (n : Nat) : Composed (block n declaration) :=
  (declarations_composed h closesBlock n).bind fun body ↦ (Composed.expect _ _).bind fun _ ↦ .pure body

theorem parameter_composed (count : Nat) : Composed (parameter count) := by
  unfold parameter
  split
  · exact Composed.peek.bind fun t ↦ (Composed.report _ t).bind fun _ ↦ .expect _ _
  · exact .expect _ _

theorem parameters_composed (n count : Nat) : Composed (parameters n count) := by
  induction n generalizing count with
  | zero => exact (parameter_composed count).bind fun p ↦ .pure [p]
  | succ n ih =>
    exact (parameter_composed count).bind fun p ↦ .accept_bind (.pure [p]) fun _ ↦
      (ih (count + 1)).bind fun ps ↦ .pure (p :: ps)

theorem function_composed (h : Composed declaration) (n : Nat) (r : Routine) :
    Composed (function n declaration r) := by
  have hbody (name : Token) (params : List Token) : Composed (do
      let _ ← expect (.mark .rightParen) .parametersEnd
      let _ ← expect (.mark .leftBrace) (.routineBody r)
      let body ← block n declaration
      pure (FunctionDecl.mk name params body)) :=
    (Composed.expect _ _).bind fun _ ↦ (Composed.expect _ _).bind fun _ ↦ (block_composed h n).bind fun _ ↦
      .pure _
  exact (Composed.expect _ _).bind fun name ↦ (Composed.expect _ _).bind fun _ ↦
    (Composed.check _).test_bind ((Composed.pure []).bind (hbody name)) ((parameters_composed n 0).bind (hbody name))

theorem methods_composed {method : Rule FunctionDecl} (h : Composed method) (n : Nat) :
    Composed (methods method n) := by
  induction n with
  | zero => exact .pure []
  | succ n ih =>
    exact (Composed.stopsAt closesBlock).test_bind (.pure []) (h.bind fun m ↦ ih.bind fun ms ↦ .pure (m :: ms))

theorem superclass_composed : Composed superclass :=
  .accept_bind (.pure none) fun _ ↦ (Composed.expect _ _).bind fun name ↦
    (Composed.occurrence name).bind fun ref ↦ .pure (some ref)

theorem classDeclaration_composed (h : Composed declaration) (n : Nat) :
    Composed (classDeclaration n declaration) :=
  (Composed.expect _ _).bind fun _ ↦ superclass_composed.bind fun _ ↦ (Composed.expect _ _).bind fun _ ↦
    (methods_composed (function_composed h n .method) n).bind fun _ ↦ (Composed.expect _ _).bind fun _ ↦ .pure _

theorem varDeclaration_composed (n : Nat) : Composed (varDeclaration n) := by
  have hend (name : Token) (e : Option Expr) : Composed (do
      let _ ← expect (.mark .semicolon) .variableEnd
      pure (Stmt.var name e)) := (Composed.expect _ _).bind fun _ ↦ .pure _
  exact (Composed.expect _ _).bind fun name ↦ .accept_bind ((Composed.pure none).bind (hend name)) fun _ ↦
    ((expression_composed n).map some).bind (hend name)

theorem expressionStatement_composed (n : Nat) : Composed (expressionStatement n) :=
  (expression_composed n).bind fun _ ↦ (Composed.expect _ _).bind fun _ ↦ .pure _

theorem optionalExpression_composed (n : Nat) (stop : Kind) : Composed (optionalExpression n stop) :=
  (Composed.check stop).test_bind (.pure none) ((expression_composed n).map some)

theorem forFirst_composed (n : Nat) : Composed (forFirst n) :=
  .accept_bind (.accept_bind ((expressionStatement_composed n).map some)
    fun _ ↦ (varDeclaration_composed n).map some) fun _ ↦ .pure none

theorem forStatement_composed (h : Composed statement) (n line : Nat) :
    Composed (forStatement n statement line) :=
  (Composed.expect _ _).bind fun _ ↦ (forFirst_composed n).bind fun _ ↦
    (optionalExpression_composed n _).bind fun _ ↦ (Composed.expect _ _).bind fun _ ↦
    (optionalExpression_composed n _).bind fun _ ↦ (Composed.expect _ _).bind fun _ ↦ h.bind fun _ ↦ .pure _

theorem ifStatement_composed (h : Composed statement) (n : Nat) : Composed (ifStatement n statement) :=
  (Composed.expect _ _).bind fun _ ↦ (expression_composed n).bind fun test ↦
    (Composed.expect _ _).bind fun _ ↦ h.bind fun yes ↦ .accept_bind
      ((Composed.pure none).bind fun no ↦ .pure (Stmt.cond test yes no))
      fun _ ↦ (h.map some).bind fun no ↦ .pure (Stmt.cond test yes no)

theorem whileStatement_composed (h : Composed statement) (n : Nat) : Composed (whileStatement n statement) :=
  (Composed.expect _ _).bind fun _ ↦ (expression_composed n).bind fun _ ↦
    (Composed.expect _ _).bind fun _ ↦ h.bind fun _ ↦ .pure _

theorem printStatement_composed (n : Nat) : Composed (printStatement n) :=
  (expression_composed n).bind fun _ ↦ (Composed.expect _ _).bind fun _ ↦ .pure _

theorem returnStatement_composed (n : Nat) (t : Token) : Composed (returnStatement n t) :=
  (optionalExpression_composed n _).bind fun _ ↦ (Composed.expect _ _).bind fun _ ↦ .pure _

theorem statementWith_composed (hd : Composed declaration) (hs : Composed statement) (n : Nat) :
    Composed (statementWith n declaration statement) := by
  refine Composed.peek.bind fun t ↦ ?_
  split
  · exact Composed.advance.bind fun _ ↦ forStatement_composed hs n t.line
  · exact Composed.advance.bind fun _ ↦ ifStatement_composed hs n
  · exact Composed.advance.bind fun _ ↦ printStatement_composed n
  · exact Composed.advance.bind fun _ ↦ returnStatement_composed n t
  · exact Composed.advance.bind fun _ ↦ whileStatement_composed hs n
  · exact Composed.advance.bind fun _ ↦ (block_composed hd n).map _
  · exact expressionStatement_composed n

theorem declarationWith_composed (hd : Composed declaration) (hs : Composed statement) (n : Nat) :
    Composed (declarationWith n declaration statement) := by
  refine Composed.peek.bind fun t ↦ ?_
  split
  · exact Composed.advance.bind fun _ ↦ classDeclaration_composed hd n
  · exact Composed.advance.bind fun _ ↦ (function_composed hd n .function).map _
  · exact Composed.advance.bind fun _ ↦ varDeclaration_composed n
  · exact statementWith_composed hd hs n

end

theorem statement_declaration_composed (n : Nat) : Composed (statement n) ∧ Composed (declaration n) := by
  induction n with
  | zero => exact ⟨.missing .expression, .recovering (.missing .expression)⟩
  | succ n ih =>
    exact ⟨statementWith_composed ih.2 ih.1 (n + 1), .recovering (declarationWith_composed ih.2 ih.1 (n + 1))⟩

theorem program_composed (n : Nat) : Composed (program n) :=
  declarations_composed (statement_declaration_composed n).2 _ n

end Lox.Parse
