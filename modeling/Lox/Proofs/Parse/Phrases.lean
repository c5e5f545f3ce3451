import Lox.Proofs.Parse.Munch

open Computability

namespace Lox.Parse

open Grammar Rule

theorem terminal_mem_operators {ℓ : Level} {k : Kind} :
    k.terminal ∈ ℓ.operators.map Kind.terminal ↔ k ∈ ℓ.operators := by
  refine ⟨fun h ↦ ?_, List.mem_map_of_mem⟩
  cases ℓ <;> cases k <;> simp_all [Level.operators, Kind.terminal]

section

variable {n m : Nat} {isOp : Kind → Bool} {node : Expr → Token → Expr → Expr} {operand expr : Rule Expr}
  {ℓ ℓ' : Level}

theorem operands_parses (htest : ∀ {k}, isOp k = true ↔ k ∈ ℓ.operators)
    (ho : Parses n operand (.rule (.expr ℓ')))
    (hsep : Phrase.separated (.rule (.expr ℓ'))
      (.many (.seq (Phrase.operator ℓ) (.rule (.expr ℓ')))) = true)
    (hm : n ≤ m + 1) (left : Expr) :
    Parses n (operands isOp node operand m left) (.many (.seq (Phrase.operator ℓ) (.rule (.expr ℓ')))) := by
  induction m generalizing n left with
  | zero =>
    exact (parses_pure left).at_end hm one_le_kstar fun _ ↦ Language.nil_mem_one
  | succ m ih =>
    cases n with
    | zero => exact parses_zero (operands_composed ho.composed _ _)
    | succ n =>
      have hn := ho.mono (Nat.le_succ n)
      refine Parses.of_eq (.acceptIf_bind (fun k ↦ htest.trans terminal_mem_operators.symm) (fun op ↦ hn.bind (fun right ↦ ih hn (by omega) _)
        (Phrase.splits hsep) rfl) (parses_pure left) (by simp [Ebnf.disjoint, Ebnf.shape])) ?_
      rw [Ebnf.lang_many]
      simp only [Ebnf.lang, Phrase.operator, mul_assoc]

theorem leftAssoc_parses (htest : ∀ {k}, isOp k = true ↔ k ∈ ℓ.operators)
    (ho : Parses n operand (.rule (.expr ℓ')))
    (hsep : Phrase.separated (.rule (.expr ℓ'))
      (.many (.seq (Phrase.operator ℓ) (.rule (.expr ℓ')))) = true)
    (hm : n ≤ m + 1) : Parses n (leftAssoc m isOp node operand) (Phrase.leftAssoc ℓ ℓ') :=
  ho.bind (operands_parses htest ho hsep hm) (Phrase.splits hsep) rfl

theorem primary_parses (h : Parses n expr Phrase.expression) :
    Parses (n + 1) (primary expr) (.rule (.expr .primary)) := by
  refine ⟨primary_composed h.composed, fun s heof hlt ↦ ?_⟩
  cases hr : s.rest with
  | nil =>
    have hpeek : peek s = .ok s.eof s := by rw [peek, hr]; rfl
    refine .congr (munchesAt_missing_phrase .expression rfl fun t ht ↦ ?_) (by rw [primary, bind_ok hpeek, heof])
    rw [hr] at ht
    cases ht
  | cons t rest =>
    have hpeek : peek s = .ok t s := by rw [peek, hr]; rfl
    have hother (hno : t.terminal ∉ (Phrase.expr .primary).shape.first) :
        MunchesAt (missing .expression : Rule Expr) (Phrase.expr .primary).language s := by
      refine munchesAt_missing_phrase .expression rfl fun t' ht' ↦ ?_
      rw [hr] at ht'
      exact Option.some.inj ht' ▸ hno
    have hatom {q : Rule Expr} (ht : t.terminal ∈ Phrase.atoms) (hq : Parses n q .empty) :
        MunchesAt (advance >>= fun _ ↦ q) (Phrase.expr .primary).language s := by
      have hatoms : ∀ t ∈ Phrase.atoms, ∀ B ∈ Phrase.primaries.eraseIdx 0,
          t ∉ (B.shape Phrase.shape).first := by decide
      exact munchesAt_alternative rfl 0 rfl (mul_one _).symm hr ht (hatoms _ ht) hq heof hlt
    refine .congr ?_ (bind_ok hpeek)
    have hterminal {k : Kind} (hk : t.kind = k) : t.terminal = k.terminal := congrArg Kind.terminal hk
    cases hk : t.kind with
    | mark m =>
      cases m with
      | leftParen =>
        have hinner : Parses n (do
            let inner ← expr
            let _ ← expect (.mark .rightParen) .groupEnd
            pure (Expr.grouping inner)) (.run [Phrase.expression, Phrase.mark .rightParen]) :=
          h.bind (fun e ↦ .expect_bind (fun _ ↦ parses_pure (Expr.grouping e)) rfl) (Phrase.splits (by decide)) rfl
        exact munchesAt_alternative rfl 1 rfl rfl hr (List.mem_singleton.2 (hterminal hk))
          (by rw [hterminal hk]; decide) hinner heof hlt
      | _ => exact hother (by rw [hterminal hk]; decide)
    | keyword k =>
      cases k with
      | kFalse | kTrue | kNil => exact hatom (by rw [hterminal hk]; decide) (parses_pure _)
      | kThis => exact hatom (by rw [hterminal hk]; decide) (.occurrence_bind fun _ ↦ parses_pure _)
      | kSuper =>
        have hmethod : Parses n (do
            let _ ← expect (.mark .dot) .superDot
            let method ← expect .identifier .superMethodName
            pure (Expr.super (← occurrence t) method)) (.run [Phrase.mark .dot, Phrase.name]) :=
          .expect_bind (fun _ ↦ .expect_bind (fun _ ↦ .occurrence_bind fun _ ↦ parses_pure _) rfl) rfl
        exact munchesAt_alternative rfl 2 rfl rfl hr (List.mem_singleton.2 (hterminal hk))
          (by rw [hterminal hk]; decide) hmethod heof hlt
      | _ => exact hother (by rw [hterminal hk]; decide)
    | identifier => exact hatom (by rw [hterminal hk]; decide) (.occurrence_bind fun _ ↦ parses_pure _)
    | string | number => exact hatom (by simp [hterminal hk, Kind.terminal, Phrase.atoms]) (parses_pure _)
    | eof => exact hother (by rw [hterminal hk]; decide)

theorem argument_parses (h : Parses n expr Phrase.expression) (count : Nat) :
    Parses n (argument expr count) Phrase.expression := by
  unfold argument
  split
  · exact .peek_bind fun t ↦ .report_bind h fun _ ↦ rfl
  · exact h

theorem arguments_parses (h : Parses n expr Phrase.expression) (hm : n ≤ m + 1) (count : Nat) :
    Parses n (arguments expr m count) (.rule .arguments) := by
  have hone (e : Expr) : Parses n (pure [e]) .empty := parses_pure [e]
  induction m generalizing n count with
  | zero =>
    have hargument := (argument_parses h count).bind hone (Phrase.splits (by decide)) rfl
    refine hargument.at_end hm ?_ fun hnil ↦ absurd ((Phrase.fits .arguments).nullable hnil) Bool.false_ne_true
    simp only [Ebnf.lang, Phrase.language_eq .arguments, Phrase.relaxed]
    exact mul_le_mul_right one_le_kstar _
  | succ m ih =>
    cases n with
    | zero => exact parses_zero (arguments_composed h.composed _ _)
    | succ n =>
      refine Parses.of_eq ((argument_parses h count).bind (fun e ↦ .accept_bind (fun _ ↦
        (ih (h.mono (Nat.le_succ n)) (by omega) (count + 1) fun e ↦ parses_pure [e]).bind
          (fun es ↦ parses_pure (e :: es)) (Phrase.splits (by decide)) rfl) (hone e) rfl)
        (Phrase.splits (by decide)) rfl) ?_
      simp only [Ebnf.lang, Phrase.language_eq .arguments, Phrase.relaxed, Phrase.mark, mul_one]
      exact Ebnf.mul_kstar_eq

theorem finishCall_parses (h : Parses n expr Phrase.expression) (hm : n ≤ m + 1) (callee : Expr) :
    Parses n (finishCall expr m callee) (.seq (.opt (.rule .arguments)) (.run [Phrase.mark .rightParen])) := by
  have hend (args : List Expr) : Parses n (do
      let paren ← expect (.mark .rightParen) .argumentsEnd
      pure (Expr.call callee args paren)) (.run [Phrase.mark .rightParen]) :=
    .expect_bind (fun paren ↦ parses_pure _) rfl
  exact Parses.of_eq (.test_bind (.check _) (tests_check _) (hend [])
    ((arguments_parses h hm 0).bind hend (Phrase.splits (by decide)) rfl) (by decide) (by decide))
    (Ebnf.lang_opt_seq _ _ _).symm

theorem suffixes_parses (h : Parses n expr Phrase.expression) (hm : n ≤ m + 1) (e : Expr) :
    Parses n (suffixes expr m e) (.many Phrase.callSuffix) := by
  induction m generalizing n e with
  | zero => exact (parses_pure e).at_end hm one_le_kstar fun _ ↦ Language.nil_mem_one
  | succ m ih =>
    cases n with
    | zero => exact parses_zero (suffixes_composed h.composed _ _)
    | succ n =>
      have hn := h.mono (Nat.le_succ n)
      refine Parses.of_eq (.accept_bind (fun _ ↦ (finishCall_parses hn (by omega) e).bind
        (ih hn (by omega)) (Phrase.splits (by decide)) rfl) (.accept_bind (fun _ ↦ .expect_bind
        (fun name ↦ ih hn (by omega) (.get e name)) rfl) (parses_pure e) rfl) (by decide)) ?_
      rw [Ebnf.lang_many]
      simp only [Ebnf.lang, Phrase.callSuffix, Phrase.mark, Phrase.name, Ebnf.run, Kind.terminal, mul_one,
        add_mul, mul_assoc, add_assoc]

theorem call_parses (h : Parses n expr Phrase.expression) (hm : n ≤ m + 1) :
    Parses (n + 1) (call m expr) (.rule (.expr .call)) :=
  .rule ((primary_parses h).bind_next (suffixes_parses h hm) rfl (Phrase.splits (by decide)) rfl)

theorem unary_parses (h : Parses n operand (.rule (.expr .call))) (hm : n ≤ m + 1) :
    Parses n (unary operand m) (.rule (.expr .unary)) := by
  induction m generalizing n with
  | zero =>
    refine h.at_end hm ?_ fun hnil ↦ absurd ((Phrase.fits _).nullable hnil) Bool.false_ne_true
    rw [Ebnf.lang, Ebnf.lang, Phrase.language_eq (.expr .unary)]
    exact fun w hw ↦ .inr hw
  | succ m ih =>
    cases n with
    | zero => exact parses_zero (unary_composed h.composed _)
    | succ n =>
      have hn := h.mono (Nat.le_succ n)
      have hnext (op : Token) : Parses n (do pure (Expr.unary op (← unary operand m)))
          (.seq (.rule (.expr .unary)) .empty) :=
        (ih hn (by omega)).bind (fun e ↦ parses_pure (Expr.unary op e)) (Phrase.splits (by decide)) rfl
      refine Parses.rule (Parses.of_eq (.acceptIf_bind (fun k ↦ isUnary_iff.trans terminal_mem_operators.symm)
        hnext h (by decide)) ?_)
      simp only [Ebnf.lang, Phrase.relaxed, Phrase.operator, mul_one]

theorem disjunction_parses (h : Parses n expr Phrase.expression) (hm : n ≤ m) :
    Parses (n + 1) (disjunction m expr) (.rule (.expr .disjunction)) := by
  have hm' : n + 1 ≤ m + 1 := Nat.succ_le_succ hm
  have hunary := unary_parses (call_parses h (Nat.le_succ_of_le hm)) hm'
  have hfactor : Parses (n + 1) (factor m expr) (.rule (.expr .factor)) :=
    .rule (leftAssoc_parses isFactor_iff hunary (by decide) hm')
  have hterm : Parses (n + 1) (term m expr) (.rule (.expr .term)) :=
    .rule (leftAssoc_parses isTerm_iff hfactor (by decide) hm')
  have hcomparison : Parses (n + 1) (comparison m expr) (.rule (.expr .comparison)) :=
    .rule (leftAssoc_parses isComparison_iff hterm (by decide) hm')
  have hequality : Parses (n + 1) (equality m expr) (.rule (.expr .equality)) :=
    .rule (leftAssoc_parses isEquality_iff hcomparison (by decide) hm')
  have hconjunction : Parses (n + 1) (conjunction m expr) (.rule (.expr .conjunction)) :=
    .rule (leftAssoc_parses isAnd_iff hequality (by decide) hm')
  exact .rule (leftAssoc_parses isOr_iff hconjunction (by decide) hm')

theorem assignTo_parses (target : Expr) (equals : Token) (value : Expr) :
    Parses n (assignTo target equals value) .empty := by
  unfold assignTo
  split
  · exact .occurrence_bind fun _ ↦ parses_pure _
  · exact parses_pure _
  · exact .report_bind (parses_pure _) fun _ ↦ rfl

theorem assignment_parses (h : Parses n expr Phrase.expression) (hm : n ≤ m) :
    Parses (n + 1) (assignment m expr) Phrase.expression := by
  have hvalue (target : Expr) (equals : Token) : Parses n (do assignTo target equals (← expr))
      (.seq Phrase.expression .empty) :=
    h.bind (fun value ↦ assignTo_parses target equals value) (Phrase.splits (by decide)) rfl
  refine .rule (Parses.of_eq ((disjunction_parses h hm).bind (fun target ↦ .accept_bind (hvalue target)
    (parses_pure target) (by decide)) (Phrase.splits (by decide)) rfl) ?_)
  simp only [Ebnf.lang, Phrase.relaxed, Phrase.mark, Ebnf.opt, Kind.terminal, mul_one]

end

theorem expression_parses (k : Nat) : Parses (k + 1) (expression k) Phrase.expression := by
  induction k with
  | zero => exact parses_missing_end .expression rfl
  | succ k ih => exact assignment_parses ih (Nat.le_refl _)

section

variable {n m : Nat} {declaration : Rule (Option Stmt)} {statement : Rule Stmt}

theorem declarations_parses {α : Type} {g : List Stmt → Rule α}
    (hd : Parses n declaration (.rule .declaration)) (hm : n ≤ m + 1)
    (hg : ∀ ss, Parses n (g ss) (.run [Phrase.mark .rightBrace])) :
    Parses n (declarations closesBlock declaration m >>= g)
      (.run [.many (.rule .declaration), Phrase.mark .rightBrace]) := by
  induction m generalizing n g with
  | zero =>
    refine Parses.at_end (p := pure [] >>= g) (hg []) hm (fun w hw ↦ ?_) fun hnil ↦ ?_
    · exact Language.mem_mul.2 ⟨[], Language.nil_mem_kstar _, w, hw, rfl⟩
    · exact absurd ((Phrase.begins _).nullable hnil) Bool.false_ne_true
  | succ m ih =>
    cases n with
    | zero => exact parses_zero ((declarations_composed hd.composed _ _).bind fun ss ↦ (hg ss).composed)
    | succ n =>
      have hg' (ss : List Stmt) := (hg ss).mono (Nat.le_succ n)
      rw [declarations, Rule.bind_assoc]
      refine Parses.of_eq (.test_bind (.stopsAt _) tests_stopsAt (hg []) ?_ (by decide) (by decide))
        (Ebnf.lang_many_seq _ _ _).symm
      simp only [Bool.false_eq_true, if_false]
      rw [Rule.bind_assoc]
      refine hd.bind_next (fun o ↦ ?_) rfl (Phrase.splits (by decide)) rfl
      have hn := hd.mono (Nat.le_succ n)
      cases o with
      | none => exact ih hn (by omega) hg'
      | some d =>
        rw [Rule.bind_assoc]
        exact ih hn (by omega) fun ss ↦ hg' (d :: ss)

theorem block_parses (hd : Parses n declaration (.rule .declaration)) (hm : n ≤ m + 1) :
    Parses n (block m declaration) (.run [.many (.rule .declaration), Phrase.mark .rightBrace]) :=
  declarations_parses hd hm fun body ↦ .expect_bind (fun _ ↦ parses_pure body) rfl

theorem parameter_parses (count : Nat) : Parses n (parameter count) Phrase.name := by
  unfold parameter
  split
  · exact .peek_bind fun t ↦ .report_bind (parses_expect _ _) fun _ ↦ rfl
  · exact parses_expect _ _

theorem parameters_parses (hm : n ≤ m + 1) (count : Nat) :
    Parses n (parameters m count) (.rule .parameters) := by
  induction m generalizing n count with
  | zero =>
    have hparameter : Parses n (do pure [← parameter count]) (.seq Phrase.name .empty) :=
      (parameter_parses count).bind (fun p ↦ parses_pure [p]) (Phrase.splits rfl) rfl
    refine hparameter.at_end hm ?_ fun hnil ↦ absurd ((Phrase.fits .parameters).nullable hnil) Bool.false_ne_true
    simp only [Ebnf.lang, Phrase.language_eq .parameters, Phrase.relaxed]
    exact mul_le_mul_right one_le_kstar _
  | succ m ih =>
    cases n with
    | zero => exact parses_zero (parameters_composed _ _)
    | succ n =>
      refine Parses.of_eq ((parameter_parses count).bind (fun p ↦ .accept_bind (fun _ ↦
        (ih (n := n) (by omega) (count + 1)).bind (fun ps ↦ parses_pure (p :: ps)) (Phrase.splits (by decide)) rfl)
        (parses_pure [p]) rfl) (Phrase.splits rfl) rfl) ?_
      simp only [Ebnf.lang, Phrase.language_eq .parameters, Phrase.relaxed, Phrase.mark, mul_one]
      exact Ebnf.mul_kstar_eq

theorem function_parses (hd : Parses n declaration (.rule .declaration)) (hm : n ≤ m + 1) (r : Routine) :
    Parses n (function m declaration r) (.rule .function) := by
  have hbody (name : Token) (params : List Token) : Parses n (do
      let _ ← expect (.mark .rightParen) .parametersEnd
      let _ ← expect (.mark .leftBrace) (.routineBody r)
      let body ← block m declaration
      pure (FunctionDecl.mk name params body)) (.run [Phrase.mark .rightParen, .rule .block]) := by
    refine .expect_bind (fun _ ↦ Parses.of_eq (.expect_bind (fun _ ↦ (block_parses hd hm).bind
      (fun body ↦ parses_pure _) (Phrase.splits (by decide)) rfl) rfl) ?_) rfl
    simp only [Ebnf.lang, Ebnf.run, Phrase.language_eq .block, Phrase.relaxed, Phrase.mark, Kind.terminal, mul_one]
  refine .rule (.expect_bind (fun name ↦ .expect_bind (fun _ ↦ Parses.of_eq (.test_bind (.check _) (tests_check _)
    (hbody name []) ((parameters_parses hm 0).bind (hbody name) (Phrase.splits (by decide)) rfl)
    (by decide) (by decide)) ?_) rfl) rfl)
  exact (Ebnf.lang_opt_seq _ _ _).symm

theorem methods_parses {α : Type} {method : Rule FunctionDecl} {g : List FunctionDecl → Rule α}
    (h : Parses n method (.rule .function)) (hm : n ≤ m + 1)
    (hg : ∀ ms, Parses n (g ms) (.run [Phrase.mark .rightBrace])) :
    Parses n (methods method m >>= g) (.run [.many (.rule .function), Phrase.mark .rightBrace]) := by
  induction m generalizing n g with
  | zero =>
    refine Parses.at_end (p := pure [] >>= g) (hg []) hm (fun w hw ↦ ?_) fun hnil ↦ ?_
    · exact Language.mem_mul.2 ⟨[], Language.nil_mem_kstar _, w, hw, rfl⟩
    · exact absurd ((Phrase.begins _).nullable hnil) Bool.false_ne_true
  | succ m ih =>
    cases n with
    | zero => exact parses_zero ((methods_composed h.composed _).bind fun ms ↦ (hg ms).composed)
    | succ n =>
      rw [methods, Rule.bind_assoc]
      refine Parses.of_eq (.test_bind (.stopsAt _) tests_stopsAt (hg []) ?_ (by decide) (by decide))
        (Ebnf.lang_many_seq _ _ _).symm
      simp only [Bool.false_eq_true, if_false]
      rw [Rule.bind_assoc]
      refine h.bind_next (fun method ↦ ?_) rfl (Phrase.splits (by decide)) rfl
      rw [Rule.bind_assoc]
      exact ih (h.mono (Nat.le_succ n)) (by omega) fun ms ↦ (hg (method :: ms)).mono (Nat.le_succ n)

theorem superclass_parses : Parses n superclass (.opt (.seq (Phrase.mark .less) Phrase.name)) := by
  have hname : Parses n (do pure (some (← occurrence (← expect .identifier .superclassName))))
      (.run [Phrase.name]) :=
    .expect_bind (fun name ↦ .occurrence_bind fun ref ↦ parses_pure (some ref)) rfl
  unfold superclass
  refine Parses.mono (.of_eq (.accept_bind (fun _ ↦ hname) (parses_pure none) rfl) ?_) (Nat.le_succ n)
  simp only [Ebnf.lang, Ebnf.run, Ebnf.opt, Phrase.mark, Kind.terminal, mul_one]

theorem classDeclaration_parses (hd : Parses n declaration (.rule .declaration)) (hm : n ≤ m + 1) :
    Parses n (classDeclaration m declaration) (.run [Phrase.name, .opt (.seq (Phrase.mark .less) Phrase.name),
      Phrase.mark .leftBrace, .many (.rule .function), Phrase.mark .rightBrace]) :=
  .expect_bind (fun _ ↦ superclass_parses.bind (fun _ ↦ .expect_bind (fun _ ↦
    methods_parses (function_parses hd hm .method) hm fun _ ↦ .expect_bind (fun _ ↦ parses_pure _) rfl) rfl)
    (Phrase.splits (by decide)) rfl) rfl

theorem varDeclaration_parses (hm : n ≤ m + 1) : Parses n (varDeclaration m)
    (.run [Phrase.name, .opt (.seq (Phrase.mark .equal) Phrase.expression), Phrase.mark .semicolon]) := by
  have he := (expression_parses m).mono hm
  have hend (k : Nat) (name : Token) (e : Option Expr) : Parses k (do
      let _ ← expect (.mark .semicolon) .variableEnd
      pure (Stmt.var name e)) (.run [Phrase.mark .semicolon]) :=
    .expect_bind (fun _ ↦ parses_pure _) rfl
  refine .expect_bind (fun name ↦ ?_) rfl
  refine (Parses.of_eq (.accept_bind (n := n) (fun _ ↦ (he.map some rfl).bind (hend n name)
    (Phrase.splits (by decide)) rfl) (hend (n + 1) name none) (by decide)) ?_).mono (Nat.le_succ n)
  simp only [Ebnf.lang, Ebnf.run, Ebnf.opt, Phrase.mark, Kind.terminal, add_mul, one_mul, mul_one, mul_assoc]

theorem expressionStatement_parses (hm : n ≤ m + 1) : Parses n (expressionStatement m) (.rule .exprStmt) := by
  refine .rule (Parses.of_eq (((expression_parses m).mono hm).bind (fun e ↦ .expect_bind (fun _ ↦ parses_pure _) rfl)
    (Phrase.splits (by decide)) rfl) ?_)
  simp only [Ebnf.lang, Phrase.relaxed, Phrase.mark, Kind.terminal, mul_one]

theorem optionalExpression_parses {α : Type} {g : Option Expr → Rule α} {stop : Kind} {C : Ebnf Terminal Phrase}
    (hm : n ≤ m + 1) (hg : ∀ o, Parses n (g o) C) (hC : C.isProductive (fun _ ↦ true) = true)
    (hsep : Phrase.separated Phrase.expression C = true)
    (hstop : (C.shape Phrase.shape).nullable = false ∧ ∀ t ∈ (C.shape Phrase.shape).first, t = stop.terminal)
    (hno : stop.terminal ∉ ((Ebnf.seq Phrase.expression C).shape Phrase.shape).first) :
    Parses n (optionalExpression m stop >>= g) (.seq (.opt Phrase.expression) C) := by
  have he := (((expression_parses m).mono hm).map some rfl).bind hg (Phrase.splits hsep) hC
  rw [optionalExpression, Rule.bind_assoc]
  exact Parses.of_eq (.test_bind (.check _) (tests_check stop) (hg none) he hstop ⟨rfl, hno⟩)
    (Ebnf.lang_opt_seq _ _ _).symm

theorem forFirst_parses (hm : n ≤ m + 1) :
    Parses n (forFirst m) (.choice [.rule .varDecl, .rule .exprStmt, Phrase.mark .semicolon]) := by
  cases n with
  | zero => exact parses_zero (forFirst_composed m)
  | succ n =>
    unfold forFirst
    refine Parses.of_eq (.accept_bind (fun _ ↦ parses_pure none) (.accept_bind
      (fun _ ↦ (varDeclaration_parses (Nat.le_of_succ_le hm)).map some (by decide))
      ((expressionStatement_parses hm).map some rfl) (by decide)) (by decide)) ?_
    have hnone : oneOf ([] : List Terminal) = 0 := by
      ext w
      exact ⟨fun ⟨_, h, _⟩ ↦ absurd h List.not_mem_nil, fun h ↦ absurd h (Language.notMem_zero w)⟩
    simp only [Ebnf.lang, Ebnf.choice, Phrase.language_eq .varDecl, Phrase.relaxed, Phrase.mark, Phrase.keyword,
      Kind.terminal, mul_one, hnone, add_zero]
    exact (add_comm _ _).trans (add_assoc _ _ _)

theorem forStatement_parses (hs : Parses n statement (.rule .statement)) (hm : n ≤ m + 1) (line : Nat) :
    Parses n (forStatement m statement line) (.run (Phrase.forHead.tail ++ [.rule .statement])) := by
  refine .expect_bind (fun _ ↦ (forFirst_parses hm).bind (fun first ↦ optionalExpression_parses hm (fun test ↦
    .expect_bind (fun _ ↦ optionalExpression_parses hm (fun step ↦ .expect_bind (fun _ ↦ hs.bind (fun body ↦
      parses_pure _) (Phrase.splits (by decide)) rfl) rfl) rfl (by decide) (by decide) (by decide)) rfl) rfl
      (by decide) (by decide) (by decide)) (Phrase.splits (by decide)) rfl) rfl

theorem ifStatement_parses (hs : Parses n statement (.rule .statement)) (hm : n ≤ m + 1) :
    Parses n (ifStatement m statement) (.run (Phrase.ifHead.tail ++ [.rule .statement,
      .opt (.seq (Phrase.keyword .kElse) (.rule .statement))])) := by
  refine .expect_bind (fun _ ↦ ((expression_parses m).mono hm).bind (fun test ↦ .expect_bind (fun _ ↦
    hs.bind (fun yes ↦ ?_) ?_ rfl) rfl) (Phrase.splits (by decide)) rfl) rfl
  · refine Parses.mono (.of_eq (.accept_bind (fun _ ↦ (hs.map some rfl).bind
      (fun no ↦ parses_pure (Stmt.cond test yes no)) (Phrase.splits (by decide)) rfl)
      (parses_pure (Stmt.cond test yes none)) rfl) ?_) (Nat.le_succ n)
    simp only [Ebnf.lang, Ebnf.run, Ebnf.opt, Phrase.keyword, Kind.terminal, mul_one]
  · have hsplits := Phrase.splits_else
    rw [Phrase.elseClause] at hsplits
    simpa only [Ebnf.run, Ebnf.opt, Ebnf.lang, Phrase.keyword, mul_one] using hsplits

theorem whileStatement_parses (hs : Parses n statement (.rule .statement)) (hm : n ≤ m + 1) :
    Parses n (whileStatement m statement) (.run (Phrase.whileHead.tail ++ [.rule .statement])) :=
  .expect_bind (fun _ ↦ ((expression_parses m).mono hm).bind (fun test ↦ .expect_bind (fun _ ↦
    hs.bind (fun body ↦ parses_pure _) (Phrase.splits (by decide)) rfl) rfl) (Phrase.splits (by decide)) rfl) rfl

theorem printStatement_parses (hm : n ≤ m + 1) :
    Parses n (printStatement m) (.run [Phrase.expression, Phrase.mark .semicolon]) :=
  ((expression_parses m).mono hm).bind (fun e ↦ .expect_bind (fun _ ↦ parses_pure _) rfl)
    (Phrase.splits (by decide)) rfl

theorem returnStatement_parses (hm : n ≤ m + 1) (t : Token) :
    Parses n (returnStatement m t) (.run [.opt Phrase.expression, Phrase.mark .semicolon]) :=
  optionalExpression_parses hm (fun value ↦ .expect_bind (fun _ ↦ parses_pure _) rfl) rfl
    (by decide) (by decide) (by decide)

theorem statementWith_parses (hd : Parses n declaration (.rule .declaration))
    (hs : Parses n statement (.rule .statement)) (hm : n ≤ m) :
    Parses (n + 1) (statementWith m declaration statement) (.rule .statement) := by
  have hm' : n ≤ m + 1 := Nat.le_succ_of_le hm
  refine .peek_bind_alternatives (a := .statement) (i := 0) (statementWith_composed hd.composed hs.composed m) rfl
    rfl rfl (expressionStatement_parses (Nat.succ_le_succ hm)) (fun t ht ↦ by rw [ht]) fun t ↦ ?_
  have hterminal {k : Kind} (hk : t.kind = k) : t.terminal = k.terminal := congrArg Kind.terminal hk
  have halt {q : Rule Stmt} {a : Phrase} {k : Kind} {B : Ebnf Terminal Phrase} (hk : t.kind = k) (j : Nat)
      (hj : (Phrase.statements.map Ebnf.rule)[j]? = some (.rule a)) (ha : a.relaxed = .seq (.one [k.terminal]) B)
      (hno : ∀ B ∈ (Phrase.statements.map Ebnf.rule).eraseIdx j, k.terminal ∉ (B.shape Phrase.shape).first)
      (hq : Parses n q B) :
      Chosen n (Phrase.statements.map Ebnf.rule) 0 (expressionStatement m) t (advance >>= fun _ ↦ q) :=
    .next j hj (by rw [Ebnf.lang, Phrase.language_eq, ha]) (List.mem_singleton.2 (hterminal hk))
      (hterminal hk ▸ hno) hq
  cases hk : t.kind with
  | mark m =>
    cases m with
    | leftBrace => exact halt hk 6 rfl rfl (by decide) ((block_parses hd hm').map _ (by decide))
    | _ => exact .other (by rw [hterminal hk]; decide)
  | keyword k =>
    cases k with
    | kFor => exact halt hk 1 rfl rfl (by decide) (forStatement_parses hs hm' t.line)
    | kIf => exact halt hk 2 rfl rfl (by decide) (ifStatement_parses hs hm')
    | kPrint => exact halt hk 3 rfl rfl (by decide) (printStatement_parses hm')
    | kReturn => exact halt hk 4 rfl rfl (by decide) (returnStatement_parses hm' t)
    | kWhile => exact halt hk 5 rfl rfl (by decide) (whileStatement_parses hs hm')
    | _ => exact .other (by rw [hterminal hk]; decide)
  | identifier | eof => exact .other (by rw [hterminal hk]; decide)
  | string => exact .other (by rw [hterminal hk, Kind.terminal]; decide)
  | number => exact .other (by rw [hterminal hk, Kind.terminal]; decide)

theorem declarationWith_parses (hd : Parses n declaration (.rule .declaration))
    (hs : Parses n statement (.rule .statement)) (hm : n ≤ m) :
    Parses (n + 1) (declarationWith m declaration statement) (.rule .declaration) := by
  have hm' : n ≤ m + 1 := Nat.le_succ_of_le hm
  refine .peek_bind_alternatives (a := .declaration) (i := 3) (declarationWith_composed hd.composed hs.composed m) rfl
    rfl rfl (statementWith_parses hd hs hm) (fun t ht ↦ by rw [ht]) fun t ↦ ?_
  have hterminal {k : Kind} (hk : t.kind = k) : t.terminal = k.terminal := congrArg Kind.terminal hk
  have halt {q : Rule Stmt} {a : Phrase} {k : Kind} {B : Ebnf Terminal Phrase} (hk : t.kind = k) (j : Nat)
      (hj : Phrase.declarations[j]? = some (.rule a)) (ha : a.relaxed = .seq (.one [k.terminal]) B)
      (hno : ∀ B ∈ Phrase.declarations.eraseIdx j, k.terminal ∉ (B.shape Phrase.shape).first)
      (hq : Parses n q B) :
      Chosen n Phrase.declarations 3 (statementWith m declaration statement) t (advance >>= fun _ ↦ q) :=
    .next j hj (by rw [Ebnf.lang, Phrase.language_eq, ha]) (List.mem_singleton.2 (hterminal hk))
      (hterminal hk ▸ hno) hq
  cases hk : t.kind with
  | keyword k =>
    cases k with
    | kClass => exact halt hk 0 rfl rfl (by decide) (classDeclaration_parses hd hm')
    | kFun => exact halt hk 1 rfl rfl (by decide) ((function_parses hd hm' .function).map _ rfl)
    | kVar => exact halt hk 2 rfl rfl (by decide) (varDeclaration_parses hm')
    | _ => exact .other (by rw [hterminal hk]; decide)
  | mark m => cases m <;> exact .other (by rw [hterminal hk]; decide)
  | identifier | eof => exact .other (by rw [hterminal hk]; decide)
  | string => exact .other (by rw [hterminal hk, Kind.terminal]; decide)
  | number => exact .other (by rw [hterminal hk, Kind.terminal]; decide)

end

theorem statement_declaration_parses (k : Nat) :
    Parses (k + 1) (statement k) (.rule .statement) ∧ Parses (k + 1) (declaration k) (.rule .declaration) := by
  induction k with
  | zero => exact ⟨parses_missing_end .expression rfl, (parses_missing_end .expression rfl).recovering⟩
  | succ k ih =>
    exact ⟨statementWith_parses ih.2 ih.1 (Nat.le_refl _),
      (declarationWith_parses ih.2 ih.1 (Nat.le_refl _)).recovering⟩

end Lox.Parse
