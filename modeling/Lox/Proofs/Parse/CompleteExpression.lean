import Lox.Proofs.Parse.SoundExpression

namespace Lox.Parse

open Rule Grammar

/-- A rule succeeds on every expression of a level in at most `N` tokens that nothing ahead carries on. -/
def TakesLevel (p : Rule Expr) (ℓ : Level) (N : Nat) : Prop :=
  ∀ ⦃n ts e m rest⦄, Expression ℓ n ts e m → Ends ℓ rest → (ts ++ rest).length ≤ N →
    p.Takes n ts e m rest

section

variable {ℓ ℓ' : Level} {isOp : Kind → Bool} {operand expr : Rule Expr} {N n m : Nat}
  {ts rest : List Token}

theorem TakesLevel.of_le {K : Nat} (h : TakesLevel expr ℓ N) (hK : K ≤ N) : TakesLevel expr ℓ K :=
  fun _ _ _ _ _ he hend hN ↦ h he hend (Nat.le_trans hN hK)

theorem operands_takes (hl : ℓ.operand? = some ℓ') (ho : ∀ {k}, isOp k = true ↔ k ∈ ℓ.operators)
    (hr : TakesLevel operand ℓ' N) (hend : Ends ℓ rest) : ∀ {K : Nat} {n m : Nat} {ts : List Token}
    {left e : Expr}, Operands ℓ n ts left e m → (ts ++ rest).length ≤ K → K ≤ N →
      (operands isOp ℓ.node operand K left).Takes n ts e m rest := by
  have hstop : ∀ t ∈ rest.head?, isOp t.kind = false := by
    intro t ht
    have h := hend t ht ℓ (Nat.le_refl _)
    rw [Level.continuers_of_binary hl, ← ho] at h
    simpa using h
  intro K
  induction K with
  | zero =>
    intro n m ts left e h hK _
    cases h with
    | nil => exact takes_pure _
    | cons => simp at hK
  | succ K ih =>
    intro n m ts left e h hK hN
    cases h with
    | nil => exact Takes.acceptIf_none hstop (takes_pure _)
    | cons hop hl' hright ht =>
      cases hl.symm.trans hl'
      simp only [List.cons_append, List.length_cons, List.append_assoc] at hK
      have hop := ho.2 hop
      refine Takes.acceptIf_some hop (Takes.bind (hr hright ?_ (by omega)) (ih ht ?_ (by omega)))
      · cases ht with
        | nil => exact hend.tighter (Nat.le_of_lt (Level.rank_operand hl))
        | cons hop' _ _ _ =>
          exact ends_operand (Level.continuers_of_binary hl ▸ hop') (Level.rank_operand hl)
      · simp only [List.length_append] at hK ⊢
        omega

theorem leftAssoc_takes (hl : ℓ.operand? = some ℓ') (ho : ∀ {k}, isOp k = true ↔ k ∈ ℓ.operators)
    (hr : TakesLevel operand ℓ' N) : TakesLevel (leftAssoc N isOp ℓ.node operand) ℓ N := by
  intro n ts e m rest h hend hN
  cases h with
  | chain hl' hf ht =>
    cases hl.symm.trans hl'
    rw [List.append_assoc] at hN
    refine Takes.bind (hr hf ?_ hN) (operands_takes hl ho hr hend ht ?_ (Nat.le_refl N))
    · cases ht with
      | nil => exact hend.tighter (Nat.le_of_lt (Level.rank_operand hl))
      | cons hop' _ _ _ =>
        exact ends_operand (Level.continuers_of_binary hl ▸ hop') (Level.rank_operand hl)
    · simp only [List.length_append] at hN ⊢
      omega
  | _ => cases hl

theorem primary_takes (he : TakesLevel expr .assignment N) :
    TakesLevel (primary expr) .primary (N + 1) := by
  intro n ts e m rest h _ hN
  cases h with
  | chain hl _ _ => cases hl
  | literal ht =>
    refine Takes.peek_bind ?_
    unfold literal? at ht
    split at ht <;> cases ht <;> simp only [*] <;> exact Takes.advance (takes_pure _)
  | this ht =>
    refine Takes.peek_bind ?_
    simp only [ht]
    exact Takes.advance (Takes.occurrence_bind (takes_pure _))
  | var ht =>
    refine Takes.peek_bind ?_
    simp only [ht]
    exact Takes.advance (Takes.occurrence_bind (takes_pure _))
  | super ht hd hm =>
    refine Takes.peek_bind ?_
    simp only [ht]
    exact Takes.advance (Takes.expect_bind (Kind.same_mark.2 hd) (Takes.expect_bind
      (Kind.same_identifier.2 hm) (Takes.occurrence_bind (takes_pure _))))
  | grouping hl h hr =>
    refine Takes.peek_bind ?_
    simp only [hl]
    refine Takes.advance (Takes.bind (he h (ends_of_stop (.inr (.inl hr))) ?_)
      (Takes.expect_bind (Kind.same_mark.2 hr) (takes_pure _)))
    simpa using hN

theorem argument_takes {count : Nat} {e : Expr} (h : expr.Takes n ts e m rest) (hc : count < maxArity) :
    (argument expr count).Takes n ts e m rest := by
  unfold argument
  rw [if_neg (Nat.not_le_of_lt hc)]
  exact h

theorem arguments_takes (he : TakesLevel expr .assignment N)
    (hrest : ∃ right rest', rest = right :: rest' ∧ right.kind = .mark .rightParen) :
    ∀ {K count n k m : Nat} {ts ts' : List Token} {e : Expr} {es : List Expr},
      Expression .assignment n ts e k → MoreArguments k ts' es m → (ts ++ ts' ++ rest).length ≤ K →
      K ≤ N → count + (e :: es).length ≤ maxArity →
        (arguments expr K count).Takes n (ts ++ ts') (e :: es) m rest := by
  obtain ⟨right, rest, rfl, hright⟩ := hrest
  intro K
  induction K with
  | zero =>
    intro count n k m ts ts' e es h _ hK
    simp at hK
  | succ K ih =>
    intro count n k m ts ts' e es h hs hK hN hc
    rw [List.append_assoc] at hK
    have hfirst : Ends .assignment (ts' ++ right :: rest) := by
      cases hs with
      | nil => exact ends_of_stop (.inr (.inl hright))
      | cons hk _ _ => exact ends_of_stop (.inr (.inr hk))
    refine (argument_takes (he h hfirst (by omega)) ?_).bind ?_
    · simp only [List.length_cons] at hc
      omega
    · cases hs with
      | nil =>
        refine Takes.acceptIf_none ?_ (takes_pure _)
        rintro _ ⟨⟩
        simp [hright, Kind.same]
      | cons hk h' hs =>
        refine Takes.acceptIf_some (Kind.same_mark.2 hk) ?_
        refine (ih h' hs ?_ (by omega) ?_).bind_pure
        · simp only [List.cons_append, List.length_cons, List.length_append] at hK ⊢
          omega
        · simp only [List.length_cons] at hc ⊢
          omega

theorem finishCall_takes (he : TakesLevel expr .assignment N) {right : Token} {callee : Expr}
    {args : List Expr} (h : Arguments n ts args m) (hc : args.length ≤ maxArity)
    (hright : right.kind = .mark .rightParen) (hN : (ts ++ right :: rest).length ≤ N) :
    (finishCall expr N callee).Takes n (ts ++ [right]) (.call callee args right) m rest := by
  have hright' := Kind.same_mark.2 hright
  cases h with
  | none =>
    exact Takes.check_true hright' (Takes.bind (takes_pure []) (Takes.expect_bind hright' (takes_pure _)))
  | some h hs =>
    refine Takes.check_false ?_ (Takes.bind (arguments_takes he ⟨right, rest, rfl, hright⟩ h hs hN
      (Nat.le_refl N) (by omega)) (Takes.expect_bind hright' (takes_pure _)))
    obtain ⟨t, ts', rfl, ht, -⟩ := h.starts
    rintro _ ⟨⟩
    refine Kind.same_mark_eq_false fun hk ↦ ?_
    rw [hk] at ht
    cases ht

theorem suffixes_takes (he : TakesLevel expr .assignment N) (hend : Ends .call rest) :
    ∀ {K n m : Nat} {ts : List Token} {first e : Expr}, Suffixes n ts first e m →
      (ts ++ rest).length ≤ K → K ≤ N + 1 → (suffixes expr K first).Takes n ts e m rest := by
  have hstop {k : Mark} (hk : .mark k ∈ Level.call.continuers) :
      ∀ t ∈ rest.head?, (Kind.mark k).same t.kind = false :=
    fun t ht ↦ Kind.same_mark_eq_false fun h ↦ hend t ht .call (Nat.le_refl _) (h ▸ hk)
  intro K
  induction K with
  | zero =>
    intro n m ts first e h hK _
    cases h with
    | nil => exact takes_pure _
    | call => simp at hK
    | get => simp at hK
  | succ K ih =>
    intro n m ts first e h hK hN
    cases h with
    | nil =>
      exact Takes.acceptIf_none (hstop (by simp [Level.continuers])) (Takes.acceptIf_none
        (hstop (by simp [Level.continuers])) (takes_pure _))
    | @call _ k _ ts ts' left right _ _ args hl ha hc hr hs =>
      simp only [List.cons_append, List.length_cons, List.append_assoc] at hK
      have hcall : (finishCall expr K first).Takes n (ts ++ [right]) (.call first args right) k (ts' ++ rest) :=
        finishCall_takes (he.of_le (by omega)) ha hc hr (by omega)
      have hsuffixes := ih hs (by simp only [List.length_append, List.length_cons] at hK ⊢; omega) (by omega)
      have heq : left :: ts ++ right :: ts' = left :: (ts ++ [right] ++ ts') := by simp
      rw [heq]
      exact Takes.acceptIf_some (Kind.same_mark.2 hl) (hcall.bind hsuffixes)
    | get hd hn hs =>
      refine Takes.acceptIf_none ?_ (Takes.acceptIf_some (Kind.same_mark.2 hd)
        (Takes.expect_bind (Kind.same_identifier.2 hn) (ih hs ?_ (by omega))))
      · rintro _ ⟨⟩
        simp [hd, Kind.same]
      · simp only [List.cons_append, List.length_cons] at hK
        omega

theorem call_takes (he : TakesLevel expr .assignment N) : TakesLevel (call (N + 1) expr) .call (N + 1) := by
  intro n ts e m rest h hend hN
  cases h with
  | chain hl _ _ => cases hl
  | call hf hs =>
    rw [List.append_assoc] at hN
    refine Takes.bind (primary_takes he hf ?_ hN) (suffixes_takes he hend hs ?_ (Nat.le_refl _))
    · rintro t - ℓ' hr
      cases ℓ' <;> simp [Level.rank] at hr
      simp [Level.continuers]
    · simp only [List.length_append] at hN ⊢
      omega

theorem unary_takes (h : TakesLevel operand .call N) : ∀ K ≤ N, TakesLevel (unary operand K) .unary K := by
  intro K
  induction K with
  | zero =>
    intro _ n ts e m rest h _ hK
    obtain ⟨t, ts', rfl, -⟩ := h.starts
    simp at hK
  | succ K ih =>
    intro hN n ts e m rest h' hend hK
    cases h' with
    | chain hl _ _ => cases hl
    | unary hop he =>
      simp only [List.cons_append, List.length_cons] at hK
      exact Takes.acceptIf_some (isUnary_iff.2 hop) (ih (by omega) he hend (by omega)).bind_pure
    | noUnary he =>
      refine Takes.acceptIf_none ?_ (h he (hend.tighter (by decide)) (by omega))
      obtain ⟨t, ts', rfl, -, ht⟩ := he.starts
      rintro _ ⟨⟩
      exact Bool.eq_false_iff.2 fun hu ↦ ht (.inl rfl) (isUnary_iff.1 hu)

theorem disjunction_takes (he : TakesLevel expr .assignment N) :
    TakesLevel (disjunction (N + 1) expr) .disjunction (N + 1) := by
  have hf : TakesLevel (factor (N + 1) expr) .factor (N + 1) :=
    leftAssoc_takes rfl isFactor_iff (unary_takes (call_takes he) (N + 1) (Nat.le_refl _))
  have ht : TakesLevel (term (N + 1) expr) .term (N + 1) := leftAssoc_takes rfl isTerm_iff hf
  have hc : TakesLevel (comparison (N + 1) expr) .comparison (N + 1) :=
    leftAssoc_takes rfl isComparison_iff ht
  have hq : TakesLevel (equality (N + 1) expr) .equality (N + 1) := leftAssoc_takes rfl isEquality_iff hc
  have ha : TakesLevel (conjunction (N + 1) expr) .conjunction (N + 1) := leftAssoc_takes rfl isAnd_iff hq
  exact leftAssoc_takes rfl isOr_iff ha

theorem assignment_takes (he : TakesLevel expr .assignment N) :
    TakesLevel (assignment (N + 1) expr) .assignment (N + 1) := by
  intro n ts e m rest h hend hN
  cases h with
  | chain hl _ _ => cases hl
  | noAssign h =>
    refine (disjunction_takes he h (hend.tighter (by decide)) hN).bind_nil
      (Takes.acceptIf_none ?_ (takes_pure _))
    exact fun t ht ↦ Kind.same_mark_eq_false fun hk ↦
      hend t ht .assignment (Nat.le_refl _) (by simp [hk, Level.continuers])
  | @assign _ _ ts name equals value hn hq hv =>
    have htarget : Expression .disjunction n [name] (.var ⟨n, name⟩) (n + 1) :=
      Expression.disjunction_of_call (.call (.var hn) .nil)
    have hends : Ends .disjunction (equals :: ts ++ rest) :=
      ends_operand (ℓ := .assignment) (by simp [hq, Level.continuers]) (by decide)
    refine Takes.bind (disjunction_takes he htarget hends hN) (Takes.acceptIf_some (Kind.same_mark.2 hq)
      ((he hv hend ?_).bind_nil (Takes.occurrence_bind (takes_pure _))))
    simp only [List.cons_append, List.length_cons] at hN
    omega
  | @set _ _ _ ts ts' dot name equals object value ho hd hn hq hv =>
    have heq : ts ++ dot :: name :: equals :: ts' = (ts ++ [dot, name]) ++ equals :: ts' := by simp
    have hends : Ends .disjunction (equals :: ts' ++ rest) :=
      ends_operand (ℓ := .assignment) (by simp [hq, Level.continuers]) (by decide)
    rw [heq] at hN ⊢
    rw [List.append_assoc] at hN
    refine Takes.bind (disjunction_takes he (ho.get hd hn).disjunction_of_call hends hN)
      (Takes.acceptIf_some (Kind.same_mark.2 hq) ((he hv hend ?_).bind_nil (takes_pure _)))
    simp only [List.cons_append, List.length_cons, List.length_append] at hN ⊢
    omega

/-- Every expression is read as one, if `N` bounds the number of tokens ahead. -/
theorem expression_takes : ∀ N : Nat, TakesLevel (expression N) .assignment N
  | 0 => by
    intro n ts e m rest h _ hN
    obtain ⟨t, ts', rfl, -⟩ := h.starts
    simp at hN
  | N + 1 => assignment_takes (expression_takes N)

end

end Lox.Parse
