import Lox.Proofs.Grammar.Level
import Lox.Proofs.Parse.Rule

namespace Lox

namespace Kind

theorem same_mark {m : Mark} {k : Kind} : (mark m).same k = true ↔ k = mark m := by
  cases k <;> simp [same, eq_comm]

theorem same_keyword {w : Keyword} {k : Kind} : (keyword w).same k = true ↔ k = keyword w := by
  cases k <;> simp [same, eq_comm]

theorem same_mark_eq_false {m : Mark} {k : Kind} (h : k ≠ mark m) : (mark m).same k = false :=
  Bool.eq_false_iff.2 fun hs ↦ h (same_mark.1 hs)

theorem same_keyword_eq_false {w : Keyword} {k : Kind} (h : k ≠ keyword w) :
    (keyword w).same k = false :=
  Bool.eq_false_iff.2 fun hs ↦ h (same_keyword.1 hs)

theorem same_identifier {k : Kind} : identifier.same k = true ↔ k = identifier := by
  cases k <;> simp [same]

end Kind

namespace Parse

open Rule Grammar

theorem isOr_iff {k : Kind} : isOr k = true ↔ k ∈ Level.disjunction.operators := by
  unfold isOr
  split <;> simp_all [Level.operators]

theorem isAnd_iff {k : Kind} : isAnd k = true ↔ k ∈ Level.conjunction.operators := by
  unfold isAnd
  split <;> simp_all [Level.operators]

theorem isEquality_iff {k : Kind} : isEquality k = true ↔ k ∈ Level.equality.operators := by
  unfold isEquality
  split <;> simp_all [Level.operators]

theorem isComparison_iff {k : Kind} : isComparison k = true ↔ k ∈ Level.comparison.operators := by
  unfold isComparison
  split <;> simp_all [Level.operators]

theorem isTerm_iff {k : Kind} : isTerm k = true ↔ k ∈ Level.term.operators := by
  unfold isTerm
  split <;> simp_all [Level.operators]

theorem isFactor_iff {k : Kind} : isFactor k = true ↔ k ∈ Level.factor.operators := by
  unfold isFactor
  split <;> simp_all [Level.operators]

theorem isUnary_iff {k : Kind} : isUnary k = true ↔ k ∈ Level.unary.operators := by
  unfold isUnary
  split <;> simp_all [Level.operators]

abbrev ReadsLevel (p : Rule Expr) (ℓ : Level) : Prop :=
  p.Reads fun n ts e m _ ↦ Expression ℓ n ts e m

section

variable {ℓ ℓ' : Level} {isOp : Kind → Bool} {operand expr : Rule Expr}

theorem operands_reads (hl : ℓ.operand? = some ℓ') (ho : ∀ {k}, isOp k = true ↔ k ∈ ℓ.operators)
    (hr : ReadsLevel operand ℓ') (N : Nat) (left : Expr) :
    (operands isOp ℓ.node operand N left).Reads fun n ts e m _ ↦ Operands ℓ n ts left e m := by
  induction N generalizing left with
  | zero =>
    refine (reads_pure left).mono ?_
    rintro n ts e m rest ⟨rfl, rfl, rfl⟩
    exact .nil
  | succ N ih =>
    refine (Reads.acceptIf_bind (reads_pure left) fun op ↦ hr.bind fun right ↦
      ih (ℓ.node left op right)).mono ?_
    rintro n ts e m rest (⟨-, rfl, rfl, rfl⟩ | ⟨op, ts, rfl, hop, right, ts₁, ts₂, k, rfl, hright, ht⟩)
    · exact .nil
    · exact .cons (ho.1 hop) hl hright ht

theorem leftAssoc_reads (hl : ℓ.operand? = some ℓ') (ho : ∀ {k}, isOp k = true ↔ k ∈ ℓ.operators)
    (hr : ReadsLevel operand ℓ') (N : Nat) : ReadsLevel (leftAssoc N isOp ℓ.node operand) ℓ := by
  refine (hr.bind (operands_reads hl ho hr N)).mono ?_
  rintro n ts e m rest ⟨first, ts₁, ts₂, k, rfl, hf, ht⟩
  exact .chain hl hf ht

theorem primary_reads (he : ReadsLevel expr .assignment) : ReadsLevel (primary expr) .primary := by
  refine Reads.peek_bind (fun t ht ↦ ?_) fun t ↦ ?_
  · simp only [ht]
    exact reads_missing _ _
  · have literal (v : Literal) (hv : literal? t.kind = some v) :
        ReadsAt t (advance >>= fun _ ↦ pure (.literal v t.line))
          fun n ts e m _ ↦ Expression .primary n ts e m := by
      refine (reads_pure _).advance.mono ?_
      rintro n ts e m rest ⟨ts, rfl, rfl, rfl, rfl⟩
      exact .literal hv
    split
    · next hk => exact literal _ (by simp only [hk, literal?])
    · next hk => exact literal _ (by simp only [hk, literal?])
    · next hk => exact literal _ (by simp only [hk, literal?])
    · next x hk => exact literal _ (by simp only [hk, literal?])
    · next x hk => exact literal _ (by simp only [hk, literal?])
    · next hk =>
      refine ((Reads.expect_bind fun dot ↦ Reads.expect_bind fun method ↦
        (reads_occurrence t).bind fun ref ↦ reads_pure _).advance).mono ?_
      rintro n ts e m rest ⟨ts, rfl, dot, ts, rfl, hd, method, ts, rfl, hm, ref, ts, ts', k, rfl,
        ⟨rfl, rfl, rfl⟩, rfl, rfl, rfl⟩
      exact .super hk (Kind.same_mark.1 hd) (Kind.same_identifier.1 hm)
    · next hk =>
      refine (((reads_occurrence t).bind fun ref ↦ reads_pure _).advance).mono ?_
      rintro n ts e m rest ⟨ts, rfl, ref, ts, ts', k, rfl, ⟨rfl, rfl, rfl⟩, rfl, rfl, rfl⟩
      exact .this hk
    · next hk =>
      refine (((reads_occurrence t).bind fun ref ↦ reads_pure _).advance).mono ?_
      rintro n ts e m rest ⟨ts, rfl, ref, ts, ts', k, rfl, ⟨rfl, rfl, rfl⟩, rfl, rfl, rfl⟩
      exact .var hk
    · next hk =>
      refine ((he.bind fun inner ↦ Reads.expect_bind fun right ↦ reads_pure _).advance).mono ?_
      rintro n ts e m rest ⟨ts, rfl, inner, ts₁, ts₂, k, rfl, hi, right, ts₃, rfl, hright, rfl, rfl, rfl⟩
      exact .grouping hk hi (Kind.same_mark.1 hright)
    · exact (reads_missing _ _).readsAt

theorem argument_reads (he : ReadsLevel expr .assignment) (count : Nat) :
    (argument expr count).Reads fun n ts e m _ ↦ count < maxArity ∧ Expression .assignment n ts e m := by
  unfold argument
  split
  · refine (reads_peek.bind fun t ↦ (reads_report _ t).bind fun _ ↦ he).mono ?_
    rintro n ts e m rest ⟨t, ts₁, ts₂, k, rfl, -, _, ts₃, ts₄, k, rfl, h, -⟩
    exact h.elim
  · next hc => exact he.mono fun n ts e m rest h ↦ ⟨Nat.lt_of_not_le hc, h⟩

theorem arguments_reads (he : ReadsLevel expr .assignment) (N count : Nat) :
    (arguments expr N count).Reads fun n ts es m _ ↦
      count + es.length ≤ maxArity ∧ ∃ e es' ts₁ ts₂ k, es = e :: es' ∧ ts = ts₁ ++ ts₂ ∧
        Expression .assignment n ts₁ e k ∧ MoreArguments k ts₂ es' m := by
  induction N generalizing count with
  | zero =>
    refine ((argument_reads he count).bind fun e ↦ reads_pure [e]).mono ?_
    rintro n ts es m rest ⟨e, ts₁, ts₂, k, rfl, ⟨hc, h⟩, rfl, rfl, rfl⟩
    exact ⟨hc, e, [], ts₁, [], m, rfl, rfl, h, .nil⟩
  | succ N ih =>
    refine ((argument_reads he count).bind fun e ↦ Reads.accept_bind (reads_pure [e]) fun _ ↦
      (ih (count + 1)).bind fun es ↦ reads_pure (e :: es)).mono ?_
    rintro n ts es m rest ⟨e, ts₁, ts₂, k, rfl, ⟨hc, h⟩, hmore⟩
    obtain ⟨-, rfl, rfl, rfl⟩ | ⟨comma, ts₂, rfl, hk, es, ts₂, ts₃, k, rfl, ⟨hc', e', es', ts₄, ts₅, k', rfl,
      rfl, h', hs⟩, rfl, rfl, rfl⟩ := hmore
    · exact ⟨hc, e, [], ts₁, [], m, rfl, rfl, h, .nil⟩
    · refine ⟨?_, e, _, ts₁, _, k, rfl, rfl, h, ?_⟩
      · simp only [List.length_cons] at hc' ⊢
        omega
      · simpa using MoreArguments.cons (Kind.same_mark.1 hk) h' hs

theorem finishCall_reads (he : ReadsLevel expr .assignment) (N : Nat) (callee : Expr) :
    (finishCall expr N callee).Reads fun n ts e m _ ↦ ∃ args right ts', e = .call callee args right ∧
      ts = ts' ++ [right] ∧ Arguments n ts' args m ∧ args.length ≤ maxArity ∧
        right.kind = .mark .rightParen := by
  refine ((reads_check _).test_bind ((reads_pure []).bind fun args ↦ Reads.expect_bind fun right ↦ reads_pure _)
    ((arguments_reads he N 0).bind fun args ↦ Reads.expect_bind fun right ↦ reads_pure _)).mono ?_
  rintro n ts e m rest (⟨-, args, ts, ts', k, rfl, ⟨rfl, rfl, rfl⟩, right, ts', rfl, hr, rfl, rfl, rfl⟩ |
    ⟨-, args, ts, ts', k, rfl, ⟨hc, e, es, ts, ts₂, k', rfl, rfl, h, hs⟩, right, ts', rfl, hr, rfl, rfl, rfl⟩)
  · exact ⟨[], right, [], rfl, rfl, .none, Nat.zero_le _, Kind.same_mark.1 hr⟩
  · exact ⟨_, right, _, rfl, rfl, .some h hs, by omega, Kind.same_mark.1 hr⟩

theorem suffixes_reads (he : ReadsLevel expr .assignment) (N : Nat) (first : Expr) :
    (suffixes expr N first).Reads fun n ts e m _ ↦ Suffixes n ts first e m := by
  induction N generalizing first with
  | zero =>
    refine (reads_pure first).mono ?_
    rintro n ts e m rest ⟨rfl, rfl, rfl⟩
    exact .nil
  | succ N ih =>
    refine (Reads.accept_bind (Reads.accept_bind (reads_pure first) fun _ ↦
      Reads.expect_bind fun name ↦ ih (.get first name)) fun _ ↦
      (finishCall_reads he N first).bind ih).mono ?_
    rintro n ts e m rest (⟨-, ⟨-, rfl, rfl, rfl⟩ | ⟨dot, ts, rfl, hd, name, ts, rfl, hn, h⟩⟩ |
      ⟨left, ts, rfl, hl, e', ts, ts', k, rfl, ⟨args, right, ts, rfl, rfl, ha, hc, hr⟩, h⟩)
    · exact .nil
    · exact .get (Kind.same_mark.1 hd) (Kind.same_identifier.1 hn) h
    · simpa using Suffixes.call (Kind.same_mark.1 hl) ha hc hr h

theorem call_reads (he : ReadsLevel expr .assignment) (N : Nat) : ReadsLevel (call N expr) .call := by
  refine ((primary_reads he).bind (suffixes_reads he N)).mono ?_
  rintro n ts e m rest ⟨first, ts₁, ts₂, k, rfl, hf, hs⟩
  exact .call hf hs

theorem unary_reads (h : ReadsLevel operand .call) (N : Nat) : ReadsLevel (unary operand N) .unary := by
  induction N with
  | zero => exact h.mono fun _ _ _ _ _ ↦ .noUnary
  | succ N ih =>
    refine (Reads.acceptIf_bind h fun op ↦ ih.bind fun e ↦ reads_pure (Expr.unary op e)).mono ?_
    rintro n ts e m rest (⟨-, h⟩ | ⟨op, ts, rfl, hop, e, ts, ts', k, rfl, h, rfl, rfl, rfl⟩)
    · exact .noUnary h
    · simpa using Expression.unary (isUnary_iff.1 hop) h

theorem disjunction_reads (he : ReadsLevel expr .assignment) (N : Nat) :
    ReadsLevel (disjunction N expr) .disjunction := by
  have hf : ReadsLevel (factor N expr) .factor :=
    leftAssoc_reads rfl isFactor_iff (unary_reads (call_reads he N) N) N
  have ht : ReadsLevel (term N expr) .term := leftAssoc_reads rfl isTerm_iff hf N
  have hc : ReadsLevel (comparison N expr) .comparison := leftAssoc_reads rfl isComparison_iff ht N
  have hq : ReadsLevel (equality N expr) .equality := leftAssoc_reads rfl isEquality_iff hc N
  have ha : ReadsLevel (conjunction N expr) .conjunction := leftAssoc_reads rfl isAnd_iff hq N
  exact leftAssoc_reads rfl isOr_iff ha N

/-- What stands on the left of an equals sign turns out to be a place only after it has been read as
an expression. -/
theorem assignTo_reads (target : Expr) (equals : Token) (value : Expr) :
    (assignTo target equals value).Reads fun n ts e m _ ↦ ts = [] ∧
      ((∃ ref, target = .var ref ∧ e = .assign ⟨n, ref.name⟩ value ∧ m = n + 1) ∨
        ∃ object name, target = .get object name ∧ e = .set object name value ∧ m = n) := by
  unfold assignTo
  split
  · next ref =>
    refine ((reads_occurrence ref.name).bind fun r ↦ reads_pure _).mono ?_
    rintro n ts e m rest ⟨r, ts₁, ts₂, k, rfl, ⟨rfl, rfl, rfl⟩, rfl, rfl, rfl⟩
    exact ⟨rfl, .inl ⟨ref, rfl, rfl, rfl⟩⟩
  · next object name =>
    refine (reads_pure _).mono ?_
    rintro n ts e m rest ⟨rfl, rfl, rfl⟩
    exact ⟨rfl, .inr ⟨object, name, rfl, rfl, rfl⟩⟩
  · refine ((reads_report _ equals).bind fun _ ↦ reads_pure _).mono ?_
    rintro n ts e m rest ⟨_, ts₁, ts₂, k, rfl, h, -⟩
    exact h.elim

theorem assignment_reads (he : ReadsLevel expr .assignment) (N : Nat) :
    ReadsLevel (assignment N expr) .assignment := by
  refine ((disjunction_reads he N).bind fun target ↦ Reads.accept_bind (reads_pure target) fun equals ↦
    he.bind fun value ↦ assignTo_reads target equals value).mono ?_
  rintro n ts e m rest ⟨target, ts₁, ts₂, k, rfl, ht, h⟩
  obtain ⟨-, rfl, rfl, rfl⟩ | ⟨equals, ts₂, rfl, hq, value, ts₂, ts₃, k', rfl, hv, rfl, h⟩ := h
  · simpa using Expression.noAssign ht
  · obtain ⟨ref, rfl, rfl, rfl⟩ | ⟨object, name, rfl, rfl, rfl⟩ := h
    · obtain ⟨t, rfl, hk, rfl, rfl⟩ := ht.var_tokens
      simpa using Expression.assign hk (Kind.same_mark.1 hq) hv
    · obtain ⟨ts, dot, rfl, hd, hn, ho⟩ := ht.get_tokens
      simpa using Expression.set ho hd hn (Kind.same_mark.1 hq) hv

/-- Whatever is read as an expression is one. -/
theorem expression_reads : ∀ N : Nat, ReadsLevel (expression N) .assignment
  | 0 => reads_missing .expression _
  | N + 1 => assignment_reads (expression_reads N) (N + 1)

end

end Parse

end Lox
