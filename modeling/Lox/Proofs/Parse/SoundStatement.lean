import Lox.Proofs.Parse.SoundExpression

namespace Lox.Parse

open Rule Grammar

/-- A rule reads statements. It leaves no `else` behind that could belong to the statement. -/
abbrev ReadsStatement (p : Rule Stmt) : Prop :=
  p.Reads fun n ts s m rest ↦ ∃ dangling, Statement .nearest dangling n ts s m ∧
    (dangling = true → ∀ t ∈ rest.head?, t.kind ≠ .keyword .kElse)

abbrev ReadsDeclaration (p : Rule (Option Stmt)) : Prop :=
  p.Reads fun n ts o m _ ↦ ∃ s, o = some s ∧ Declaration .nearest n ts s m

theorem reads_stopsAt (stop : Kind → Bool) :
    (stopsAt stop).Reads fun n ts b m rest ↦ ts = [] ∧ m = n ∧
      (b = true → ∀ t ∈ rest.head?, stop t.kind = true) := by
  intro s _
  unfold stopsAt
  split <;> refine ⟨.refl s, fun _ ↦ ⟨[], s.rest, s.nextId, rfl, rfl, rfl, rfl, ?_⟩⟩
  · simp [*]
  · simp [*]

section

variable {declaration : Rule (Option Stmt)} {statement : Rule Stmt}

theorem declarations_reads (hd : ReadsDeclaration declaration) (stop : Kind → Bool) (N : Nat) :
    (declarations stop declaration N).Reads fun n ts ss m rest ↦ Declarations .nearest n ts ss m ∧
      ((ts ++ rest).length ≤ N → ∀ t ∈ rest.head?, stop t.kind = true) := by
  induction N with
  | zero =>
    refine (reads_pure []).mono ?_
    rintro n ts ss m rest ⟨rfl, rfl, rfl⟩
    refine ⟨.nil, fun hN ↦ ?_⟩
    simp_all
  | succ N ih =>
    refine ((reads_stopsAt stop).test_bind (reads_pure []) (hd.bind (H := fun o n ts ss m rest ↦
      ∀ s, o = some s → ∃ ss', ss = s :: ss' ∧ Declarations .nearest n ts ss' m ∧
        ((ts ++ rest).length ≤ N → ∀ t ∈ rest.head?, stop t.kind = true)) fun o ↦ ?_)).mono ?_
    · cases o with
      | none => exact ih.mono fun _ _ _ _ _ _ _ hs ↦ nomatch hs
      | some s =>
        refine (ih.bind fun ss ↦ reads_pure (s :: ss)).mono ?_
        rintro n ts ss m rest ⟨ss, ts₁, ts₂, k, rfl, h, rfl, rfl, rfl⟩ _ ⟨⟩
        exact ⟨ss, rfl, by simpa using h⟩
    · rintro n ts ss m rest (⟨hstop, rfl, rfl, rfl⟩ | ⟨-, o, ts₁, ts₂, k, rfl, ⟨s, rfl, h⟩, hs⟩)
      · exact ⟨.nil, fun _ ↦ hstop rfl⟩
      · obtain ⟨ss', rfl, hs', hstop⟩ := hs s rfl
        refine ⟨.cons h hs', fun hN ↦ hstop ?_⟩
        have := List.length_pos_iff.2 h.ne_nil
        simp only [List.length_append] at hN ⊢
        omega

theorem block_reads (hd : ReadsDeclaration declaration) (N : Nat) :
    (block N declaration).Reads fun n ts ss m _ ↦ ∃ ts' right, ts = ts' ++ [right] ∧
      Declarations .nearest n ts' ss m ∧ right.kind = .mark .rightBrace := by
  refine ((declarations_reads hd closesBlock N).bind fun body ↦ Reads.expect_bind fun _ ↦
    reads_pure body).mono ?_
  rintro n ts ss m rest ⟨body, ts, ts', k, rfl, ⟨h, -⟩, right, ts', rfl, hr, rfl, rfl, rfl⟩
  exact ⟨ts, right, rfl, h, Kind.same_mark.1 hr⟩

theorem parameter_reads (count : Nat) :
    (parameter count).Reads fun n ts t m _ ↦ count < maxArity ∧ ts = [t] ∧ t.kind = .identifier ∧ m = n := by
  unfold parameter
  split
  · refine (reads_peek.bind fun t ↦ (reads_report _ t).bind fun _ ↦ reads_expect _ _).mono ?_
    rintro n ts e m rest ⟨t, ts₁, ts₂, k, rfl, -, _, ts₃, ts₄, k, rfl, h, -⟩
    exact h.elim
  · next hc =>
    refine (reads_expect _ _).mono ?_
    rintro n ts t m rest ⟨rfl, ht, rfl⟩
    exact ⟨Nat.lt_of_not_le hc, rfl, Kind.same_identifier.1 ht, rfl⟩

theorem parameters_reads (N count : Nat) :
    (parameters N count).Reads fun n ts names m _ ↦ m = n ∧ count + names.length ≤ maxArity ∧
      ∃ name names' ts', names = name :: names' ∧ ts = name :: ts' ∧ name.kind = .identifier ∧
        MoreParameters ts' names' := by
  induction N generalizing count with
  | zero =>
    refine ((parameter_reads count).bind fun p ↦ reads_pure [p]).mono ?_
    rintro n ts names m rest ⟨p, ts₁, ts₂, k, rfl, ⟨hc, rfl, hp, rfl⟩, rfl, rfl, rfl⟩
    exact ⟨rfl, hc, p, [], [], rfl, rfl, hp, .nil⟩
  | succ N ih =>
    refine ((parameter_reads count).bind fun p ↦ Reads.accept_bind (reads_pure [p]) fun _ ↦
      (ih (count + 1)).bind fun ps ↦ reads_pure (p :: ps)).mono ?_
    rintro n ts names m rest ⟨p, ts₁, ts₂, k, rfl, ⟨hc, rfl, hp, rfl⟩, hmore⟩
    obtain ⟨-, rfl, rfl, rfl⟩ | ⟨comma, ts₂, rfl, hk, ps, ts₂, ts₃, k, rfl,
      ⟨rfl, hc', p', ps', ts₄, rfl, rfl, hp', hs⟩, rfl, rfl, rfl⟩ := hmore
    · exact ⟨rfl, hc, p, [], [], rfl, rfl, hp, .nil⟩
    · refine ⟨rfl, ?_, p, _, _, rfl, rfl, hp, ?_⟩
      · simp only [List.length_cons] at hc' ⊢
        omega
      · simpa using MoreParameters.cons (Kind.same_mark.1 hk) hp' hs

theorem function_reads (hd : ReadsDeclaration declaration) (N : Nat) (r : Routine) :
    (function N declaration r).Reads fun n ts d m _ ↦ Function .nearest n ts d m := by
  have body_reads (name : Token) (params : List Token) : Rule.Reads (do
      let _ ← expect (.mark .rightParen) .parametersEnd
      let _ ← expect (.mark .leftBrace) (.routineBody r)
      let body ← block N declaration
      pure (FunctionDecl.mk name params body)) fun n ts d m _ ↦ ∃ right opening ts' closing body,
        d = .mk name params body ∧ ts = right :: opening :: ts' ++ [closing] ∧
        right.kind = .mark .rightParen ∧ opening.kind = .mark .leftBrace ∧
        Declarations .nearest n ts' body m ∧ closing.kind = .mark .rightBrace := by
    refine (Reads.expect_bind fun _ ↦ Reads.expect_bind fun _ ↦ (block_reads hd N).bind fun body ↦
      reads_pure _).mono ?_
    rintro n ts d m rest ⟨right, ts, rfl, hr, opening, ts, rfl, ho, body, ts, ts', k, rfl,
      ⟨ts, closing, rfl, hb, hc⟩, rfl, rfl, rfl⟩
    exact ⟨right, opening, ts, closing, body, rfl, by simp, Kind.same_mark.1 hr, Kind.same_mark.1 ho, hb, hc⟩
  refine (Reads.expect_bind fun name ↦ Reads.expect_bind fun _ ↦ (reads_check _).test_bind
    ((reads_pure []).bind fun params ↦ body_reads name params)
    ((parameters_reads N 0).bind fun params ↦ body_reads name params)).mono ?_
  rintro n ts d m rest ⟨name, ts, rfl, hn, left, ts, rfl, hl, h⟩
  obtain ⟨-, params, ts, ts', k, rfl, ⟨rfl, rfl, rfl⟩, right, opening, ts', closing, body, rfl, rfl, hr, ho, hb, hc⟩ |
    ⟨-, params, ts, ts', k, rfl, ⟨rfl, ha, p, ps, ts, rfl, rfl, hp, hps⟩, right, opening, ts', closing, body, rfl,
      rfl, hr, ho, hb, hc⟩ := h
  · exact .intro (Kind.same_identifier.1 hn) (Kind.same_mark.1 hl) .none (Nat.zero_le _) hr ho hb hc
  · simpa using Function.intro (Kind.same_identifier.1 hn) (Kind.same_mark.1 hl) (.some hp hps) (by omega) hr
      ho hb hc

theorem methods_reads {method : Rule FunctionDecl}
    (h : method.Reads fun n ts d m _ ↦ Function .nearest n ts d m) (N : Nat) :
    (methods method N).Reads fun n ts ds m _ ↦ Functions .nearest n ts ds m := by
  induction N with
  | zero =>
    refine (reads_pure []).mono ?_
    rintro n ts ds m rest ⟨rfl, rfl, rfl⟩
    exact .nil
  | succ N ih =>
    refine ((reads_stopsAt closesBlock).test_bind (reads_pure []) (h.bind fun d ↦ ih.bind fun ds ↦
      reads_pure (d :: ds))).mono ?_
    rintro n ts ds m rest (⟨-, rfl, rfl, rfl⟩ | ⟨-, d, ts, ts', k, rfl, hd, ds, ts', ts'', k', rfl, hs, rfl, rfl, rfl⟩)
    · exact .nil
    · simpa using Functions.cons hd hs

theorem superclass_reads : superclass.Reads fun n ts o m _ ↦ Superclass n ts o m := by
  unfold superclass
  refine Reads.mono (Reads.accept_bind (reads_pure none) fun _ ↦ Reads.expect_bind fun name ↦
    (reads_occurrence name).bind fun ref ↦ reads_pure (some ref)) ?_
  rintro n ts o m rest (⟨-, rfl, rfl, rfl⟩ | ⟨less, ts, rfl, hl, name, ts, rfl, hn, ref, ts, ts', k, rfl,
    ⟨rfl, rfl, rfl⟩, rfl, rfl, rfl⟩)
  · exact .none
  · exact .some (Kind.same_mark.1 hl) (Kind.same_identifier.1 hn)

theorem classDeclaration_reads (hd : ReadsDeclaration declaration) (N : Nat) :
    (classDeclaration N declaration).Reads fun n ts s m _ ↦ ∀ keyword : Token,
      keyword.kind = .keyword .kClass → Declaration .nearest n (keyword :: ts) s m := by
  refine (Reads.expect_bind fun name ↦ superclass_reads.bind fun super ↦ Reads.expect_bind fun _ ↦
    (methods_reads (function_reads hd N .method) N).bind fun ms ↦ Reads.expect_bind fun _ ↦
      reads_pure _).mono ?_
  rintro n ts s m rest ⟨name, ts, rfl, hn, super, ts, ts', k, rfl, hs, left, ts', rfl, hl, ms, ts', ts'', k', rfl,
    hm, right, ts'', rfl, hr, rfl, rfl, rfl⟩ keyword hk
  simpa using Declaration.classDecl hk (Kind.same_identifier.1 hn) hs (Kind.same_mark.1 hl) hm
    (Kind.same_mark.1 hr)

theorem varDeclaration_reads (N : Nat) :
    (varDeclaration N).Reads fun n ts s m _ ↦ ∀ keyword : Token, keyword.kind = .keyword .kVar →
      VarDeclaration n (keyword :: ts) s m := by
  have end_reads (name : Token) (e : Option Expr) : Rule.Reads (do
      let _ ← expect (.mark .semicolon) .variableEnd
      pure (Stmt.var name e)) fun n ts s m _ ↦ ∃ stop, s = .var name e ∧ ts = [stop] ∧
        stop.kind = .mark .semicolon ∧ m = n := by
    refine (Reads.expect_bind fun _ ↦ reads_pure _).mono ?_
    rintro n ts s m rest ⟨stop, ts, rfl, hs, rfl, rfl, rfl⟩
    exact ⟨stop, rfl, rfl, Kind.same_mark.1 hs, rfl⟩
  refine Reads.mono (Reads.expect_bind fun name ↦ Reads.accept_bind
    ((reads_pure none).bind fun e ↦ end_reads name e)
    fun _ ↦ (expression_reads N).map.bind fun e ↦ end_reads name e) ?_
  rintro n ts s m rest ⟨name, ts, rfl, hn, ⟨-, e, ts, ts', k, rfl, ⟨rfl, rfl, rfl⟩, stop, rfl, rfl, hs, rfl⟩ |
    ⟨equals, ts, rfl, hq, e, ts, ts', k, rfl, ⟨e, rfl, he⟩, stop, rfl, rfl, hs, rfl⟩⟩ keyword hk
  · exact .plain hk (Kind.same_identifier.1 hn) hs
  · exact .initial hk (Kind.same_identifier.1 hn) (Kind.same_mark.1 hq) he hs

theorem expressionStatement_reads (N : Nat) :
    (expressionStatement N).Reads fun n ts s m _ ↦ ExpressionStatement n ts s m := by
  refine ((expression_reads N).bind fun e ↦ Reads.expect_bind fun _ ↦ reads_pure _).mono ?_
  rintro n ts s m rest ⟨e, ts, ts', k, rfl, he, stop, ts', rfl, hs, rfl, rfl, rfl⟩
  exact .intro he (Kind.same_mark.1 hs)

theorem optionalExpression_reads (N : Nat) (stop : Kind) :
    (optionalExpression N stop).Reads fun n ts o m _ ↦ Optional (Expression .assignment) n ts o m := by
  refine ((reads_check stop).test_bind (reads_pure none) (expression_reads N).map).mono ?_
  rintro n ts o m rest (⟨-, rfl, rfl, rfl⟩ | ⟨-, e, rfl, he⟩)
  · exact .none
  · exact .some he

theorem forFirst_reads (N : Nat) : (forFirst N).Reads fun n ts o m _ ↦ ForFirst n ts o m := by
  refine (Reads.accept_bind (Reads.accept_bind (expressionStatement_reads N).map
    fun _ ↦ (varDeclaration_reads N).map) fun _ ↦ reads_pure none).mono ?_
  rintro n ts o m rest (⟨-, ⟨-, s, rfl, h⟩ | ⟨keyword, ts, rfl, hk, s, rfl, h⟩⟩ |
    ⟨stop, ts, rfl, hs, rfl, rfl, rfl⟩)
  · exact .expr h
  · exact .var (h keyword (Kind.same_keyword.1 hk))
  · exact .none (Kind.same_mark.1 hs)

abbrev ReadsStatementBehind (first : Kind) (p : Rule Stmt) : Prop :=
  p.Reads fun n ts s m rest ↦ ∀ keyword : Token, keyword.kind = first → ∃ dangling,
    Statement .nearest dangling n (keyword :: ts) s m ∧
      (dangling = true → ∀ t ∈ rest.head?, t.kind ≠ .keyword .kElse)

theorem forStatement_reads (hs : ReadsStatement statement) (N : Nat) (t : Token) :
    (forStatement N statement t.line).Reads fun n ts s m rest ↦ t.kind = .keyword .kFor → ∃ dangling,
      Statement .nearest dangling n (t :: ts) s m ∧
        (dangling = true → ∀ t ∈ rest.head?, t.kind ≠ .keyword .kElse) := by
  refine Reads.mono (Reads.expect_bind fun _ ↦ (forFirst_reads N).bind fun first ↦
    (optionalExpression_reads N _).bind fun test ↦ Reads.expect_bind fun _ ↦
    (optionalExpression_reads N _).bind fun step ↦ Reads.expect_bind fun _ ↦ hs.bind fun body ↦
    reads_pure _) ?_
  rintro n ts s m rest ⟨left, ts, rfl, hl, first, ts, ts₁, k, rfl, hf, test, ts₁, ts₂, k₁, rfl, ht, stop, ts₂,
    rfl, hs, step, ts₂, ts₃, k₂, rfl, hi, right, ts₃, rfl, hr, body, ts₃, ts₄, k₃, rfl, ⟨dangling, hb, he⟩, rfl,
    rfl, rfl⟩ hk
  refine ⟨dangling, ?_, by simpa using he⟩
  rw [← forTree_eq]
  simpa using Statement.forLoop hk (Kind.same_mark.1 hl) hf ht (Kind.same_mark.1 hs) hi
    (Kind.same_mark.1 hr) hb

theorem ifStatement_reads (hs : ReadsStatement statement) (N : Nat) :
    ReadsStatementBehind (.keyword .kIf) (ifStatement N statement) := by
  refine Reads.mono (Reads.expect_bind fun _ ↦ (expression_reads N).bind fun test ↦
    Reads.expect_bind fun _ ↦ hs.bind fun yes ↦ Reads.accept_bind
      ((reads_pure none).bind fun no ↦ reads_pure (Stmt.cond test yes no))
      fun _ ↦ hs.map.bind fun no ↦ reads_pure (Stmt.cond test yes no)) ?_
  rintro n ts s m rest ⟨left, ts, rfl, hl, test, ts, ts₁, k, rfl, ht, right, ts₁, rfl, hr, yes, ts₁, ts₂, k₁, rfl,
    ⟨inner, hy, hi⟩, h⟩ keyword hk
  obtain ⟨hno, no, ts₂, ts₃, k₂, rfl, ⟨rfl, rfl, rfl⟩, rfl, rfl, rfl⟩ |
    ⟨other, ts₂, rfl, ho, no, ts₂, ts₃, k₂, rfl, ⟨no, rfl, dangling, hn, hd⟩, rfl, rfl, rfl⟩ := h
  · refine ⟨true, ?_, fun _ t ht he ↦ ?_⟩
    · simpa using Statement.cond hk (Kind.same_mark.1 hl) ht (Kind.same_mark.1 hr) hy
    · exact absurd (Kind.same_keyword.2 he) (by simp [hno t ht])
  · have ho := Kind.same_keyword.1 ho
    have hinner : inner = false := by
      cases inner with
      | false => rfl
      | true => exact absurd ho (hi rfl other rfl)
    refine ⟨dangling, ?_, by simpa using hd⟩
    simpa using Statement.condElse hk (Kind.same_mark.1 hl) ht (Kind.same_mark.1 hr) hy (fun _ ↦ hinner)
      ho hn

theorem whileStatement_reads (hs : ReadsStatement statement) (N : Nat) :
    ReadsStatementBehind (.keyword .kWhile) (whileStatement N statement) := by
  refine Reads.mono (Reads.expect_bind fun _ ↦ (expression_reads N).bind fun test ↦
    Reads.expect_bind fun _ ↦ hs.bind fun body ↦ reads_pure _) ?_
  rintro n ts s m rest ⟨left, ts, rfl, hl, test, ts, ts₁, k, rfl, ht, right, ts₁, rfl, hr, body, ts₁, ts₂, k₁,
    rfl, ⟨dangling, hb, he⟩, rfl, rfl, rfl⟩ keyword hk
  refine ⟨dangling, ?_, by simpa using he⟩
  simpa using Statement.loop hk (Kind.same_mark.1 hl) ht (Kind.same_mark.1 hr) hb

theorem printStatement_reads (N : Nat) : ReadsStatementBehind (.keyword .kPrint) (printStatement N) := by
  refine ((expression_reads N).bind fun e ↦ Reads.expect_bind fun _ ↦ reads_pure _).mono ?_
  rintro n ts s m rest ⟨e, ts, ts', k, rfl, he, stop, ts', rfl, hs, rfl, rfl, rfl⟩ keyword hk
  exact ⟨false, .print hk he (Kind.same_mark.1 hs), nofun⟩

theorem returnStatement_reads (N : Nat) (t : Token) :
    (returnStatement N t).Reads fun n ts s m _ ↦ t.kind = .keyword .kReturn →
      Statement .nearest false n (t :: ts) s m := by
  refine ((optionalExpression_reads N _).bind fun e ↦ Reads.expect_bind fun _ ↦ reads_pure _).mono ?_
  rintro n ts s m rest ⟨e, ts, ts', k, rfl, he, stop, ts', rfl, hs, rfl, rfl, rfl⟩ hk
  exact .ret hk he (Kind.same_mark.1 hs)

theorem statementWith_reads (hd : ReadsDeclaration declaration) (hs : ReadsStatement statement) (N : Nat) :
    ReadsStatement (statementWith N declaration statement) := by
  have expr_reads : ReadsStatement (expressionStatement N) :=
    (expressionStatement_reads N).mono fun _ _ _ _ _ h ↦ ⟨false, .expr h, nofun⟩
  have behind {t : Token} {p : Rule Stmt} (h : ReadsStatementBehind t.kind p) :
      ReadsAt t (advance >>= fun _ ↦ p) fun n ts s m rest ↦ ∃ dangling,
        Statement .nearest dangling n ts s m ∧
          (dangling = true → ∀ t ∈ rest.head?, t.kind ≠ .keyword .kElse) := by
    refine h.advance.mono ?_
    rintro n ts s m rest ⟨ts, rfl, h⟩
    exact h t rfl
  refine Reads.peek_bind (fun t ht ↦ ?_) fun t ↦ ?_
  · simp only [ht]
    exact expr_reads
  · split
    · next hk =>
      refine (forStatement_reads hs N t).advance.mono ?_
      rintro n ts s m rest ⟨ts, rfl, h⟩
      exact h hk
    · next hk => exact behind (hk ▸ ifStatement_reads hs N)
    · next hk => exact behind (hk ▸ printStatement_reads N)
    · next hk =>
      refine (returnStatement_reads N t).advance.mono ?_
      rintro n ts s m rest ⟨ts, rfl, h⟩
      exact ⟨false, h hk, nofun⟩
    · next hk => exact behind (hk ▸ whileStatement_reads hs N)
    · next hk =>
      refine (block_reads hd N).map.advance.mono ?_
      rintro n ts s m rest ⟨ts, rfl, body, rfl, ts, right, rfl, hb, hr⟩
      exact ⟨false, .block hk hb hr, nofun⟩
    · exact expr_reads.readsAt

theorem declarationWith_reads (hd : ReadsDeclaration declaration) (hs : ReadsStatement statement)
    (N : Nat) :
    (declarationWith N declaration statement).Reads fun n ts s m _ ↦ Declaration .nearest n ts s m := by
  have statement_reads : (statementWith N declaration statement).Reads fun n ts s m _ ↦
      Declaration .nearest n ts s m :=
    (statementWith_reads hd hs N).mono fun _ _ _ _ _ ⟨_, h, _⟩ ↦ .statement h
  refine Reads.peek_bind (fun t ht ↦ ?_) fun t ↦ ?_
  · simp only [ht]
    exact statement_reads
  · split
    · next hk =>
      refine (classDeclaration_reads hd N).advance.mono ?_
      rintro n ts s m rest ⟨ts, rfl, h⟩
      exact h t hk
    · next hk =>
      refine (function_reads hd N .function).map.advance.mono ?_
      rintro n ts s m rest ⟨ts, rfl, d, rfl, h⟩
      exact .function hk h
    · next hk =>
      refine (varDeclaration_reads N).advance.mono ?_
      rintro n ts s m rest ⟨ts, rfl, h⟩
      exact .var (h t hk)
    · exact statement_reads.readsAt

end

/-- Whatever is read as a statement or a declaration is one. -/
theorem statement_declaration_reads (N : Nat) :
    ReadsStatement (statement N) ∧ ReadsDeclaration (declaration N) := by
  induction N with
  | zero => exact ⟨reads_missing .expression _, (reads_missing .expression _).recovering⟩
  | succ N ih =>
    obtain ⟨hs, hd⟩ := ih
    exact ⟨statementWith_reads hd hs (N + 1), (declarationWith_reads hd hs (N + 1)).recovering⟩

/-- A program goes on to the end of the input. -/
theorem program_reads (N : Nat) :
    (program N).Reads fun n ts ss m rest ↦ Declarations .nearest n ts ss m ∧
      ((ts ++ rest).length ≤ N → rest = []) := by
  refine (declarations_reads (statement_declaration_reads N).2 (fun _ ↦ false) N).mono ?_
  rintro n ts ss m rest ⟨h, hrest⟩
  refine ⟨h, fun hN ↦ ?_⟩
  cases rest with
  | nil => rfl
  | cons t rest => exact absurd (hrest hN t rfl) Bool.false_ne_true

end Lox.Parse
