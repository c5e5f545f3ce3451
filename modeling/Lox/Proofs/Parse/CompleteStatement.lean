import Lox.Proofs.Parse.CompleteExpression
import Lox.Proofs.Parse.SoundStatement

namespace Lox.Parse

open Rule Grammar

def NoElse (rest : List Token) : Prop := ∀ t ∈ rest.head?, t.kind ≠ .keyword .kElse

/-- A rule succeeds on every statement in at most `N` tokens, unless an `else` behind it would have to
belong to it. -/
def TakesStatement (p : Rule Stmt) (N : Nat) : Prop :=
  ∀ ⦃dangling n ts s m rest⦄, Statement .nearest dangling n ts s m → (dangling = true → NoElse rest) →
    (ts ++ rest).length ≤ N → p.Takes n ts s m rest

def TakesDeclaration (p : Rule (Option Stmt)) (N : Nat) : Prop :=
  ∀ ⦃n ts s m rest⦄, Declaration .nearest n ts s m → NoElse rest → (ts ++ rest).length ≤ N →
    p.Takes n ts (some s) m rest

section

variable {declaration : Rule (Option Stmt)} {statement : Rule Stmt} {N n m : Nat} {ts rest : List Token}

theorem Takes.stopsAt_true {β : Type} {stop : Kind → Bool} {f : Bool → Rule β} {b : β}
    (h : ∀ t ∈ (ts ++ rest).head?, stop t.kind = true) (hf : (f true).Takes n ts b m rest) :
    (stopsAt stop >>= f).Takes n ts b m rest := by
  have hstop : (stopsAt stop).Takes n [] true n (ts ++ rest) := by
    intro s
    unfold stopsAt
    split
    · rfl
    · next t rest' hr =>
      have hr : ts ++ rest = t :: rest' := hr
      rw [h t (by simp [hr])]
      rfl
  exact hstop.bind hf

theorem Takes.stopsAt_false {β : Type} {stop : Kind → Bool} {f : Bool → Rule β} {b : β} {t : Token}
    (h : stop t.kind = false) (hf : (f false).Takes n (t :: ts) b m rest) :
    (stopsAt stop >>= f).Takes n (t :: ts) b m rest := by
  have hstop : (stopsAt stop).Takes n [] false n (t :: ts ++ rest) := by
    intro s
    show Reply.ok (stop t.kind) _ = _
    rw [h]
    rfl
  exact hstop.bind hf

theorem declarations_takes (hd : TakesDeclaration declaration N) {stop : Kind → Bool}
    (hstop : ∀ k, stop k = true → k = .mark .rightBrace) (hrest : ∀ t ∈ rest.head?, stop t.kind = true) :
    ∀ {K n m : Nat} {ts : List Token} {ss : List Stmt}, Declarations .nearest n ts ss m →
      (ts ++ rest).length ≤ N → N ≤ K → (declarations stop declaration K).Takes n ts ss m rest := by
  intro K
  induction K generalizing N with
  | zero =>
    intro n m ts ss h hN hK
    cases h with
    | nil => exact takes_pure _
    | cons h _ =>
      obtain ⟨t, ts', rfl, -⟩ := h.starts
      simp at hN
      omega
  | succ K ih =>
    intro n m ts ss h hN hK
    cases h with
    | nil => exact Takes.stopsAt_true hrest (takes_pure _)
    | @cons _ _ _ ts ts₁ s ss h hs =>
      have hnext : NoElse (ts₁ ++ rest) := by
        cases hs with
        | nil =>
          intro t ht he
          cases (hstop _ (hrest t ht)).symm.trans he
        | cons h' _ =>
          obtain ⟨t, ts', rfl, ht, -⟩ := h'.starts
          rintro _ ⟨⟩
          exact ht
      rw [List.append_assoc] at hN
      have hfirst := hd h hnext hN
      obtain ⟨t, ts', rfl, -, ht⟩ := h.starts
      simp only [List.length_append, List.length_cons] at hN
      have hmore := ih (N := N - 1) (fun _ _ _ _ _ h hn hl ↦ hd h hn (by omega)) hs
        (by simp only [List.length_append]; omega) (by omega)
      exact Takes.stopsAt_false (Bool.eq_false_iff.2 fun h ↦ ht (hstop _ h)) (hfirst.bind hmore.bind_pure)

theorem closesBlock_iff {k : Kind} : closesBlock k = true ↔ k = .mark .rightBrace := by
  unfold closesBlock
  split <;> simp_all

theorem block_takes (hd : TakesDeclaration declaration N) {K : Nat} (hK : N ≤ K) {right : Token}
    {body : List Stmt} (h : Declarations .nearest n ts body m) (hr : right.kind = .mark .rightBrace)
    (hN : (ts ++ right :: rest).length ≤ N) :
    (block K declaration).Takes n (ts ++ [right]) body m rest := by
  refine Takes.bind (declarations_takes hd (fun k ↦ closesBlock_iff.1) ?_ h hN hK)
    (Takes.expect_bind (Kind.same_mark.2 hr) (takes_pure _))
  rintro _ ⟨⟩
  exact closesBlock_iff.2 hr

theorem parameter_takes {count : Nat} {name : Token} (hn : name.kind = .identifier)
    (hc : count < maxArity) : (parameter count).Takes n [name] name n rest := by
  unfold parameter
  rw [if_neg (Nat.not_le_of_lt hc)]
  exact takes_expect (Kind.same_identifier.2 hn)

theorem parameters_takes
    (hrest : ∃ right rest', rest = right :: rest' ∧ right.kind = .mark .rightParen) :
    ∀ {K count : Nat} {name : Token} {ts names : List Token}, name.kind = .identifier →
      MoreParameters ts names → (name :: ts).length ≤ K + 1 → count + (name :: names).length ≤ maxArity →
        (parameters K count).Takes n (name :: ts) (name :: names) n rest := by
  obtain ⟨right, rest, rfl, hright⟩ := hrest
  intro K
  induction K with
  | zero =>
    intro count name ts names hn h hK hc
    cases h with
    | nil => exact (parameter_takes hn (by simp only [List.length_cons] at hc; omega)).bind_pure
    | cons => simp at hK
  | succ K ih =>
    intro count name ts names hn h hK hc
    simp only [List.length_cons] at hc
    refine Takes.bind (parameter_takes hn (by omega)) ?_
    cases h with
    | nil =>
      refine Takes.acceptIf_none ?_ (takes_pure _)
      rintro _ ⟨⟩
      simp [hright, Kind.same]
    | cons hk hn' h =>
      simp only [List.length_cons] at hK hc
      exact Takes.acceptIf_some (Kind.same_mark.2 hk)
        (ih hn' h (by simp only [List.length_cons]; omega)
          (by simp only [List.length_cons]; omega)).bind_pure

theorem function_takes (hd : TakesDeclaration declaration N) {K : Nat} (hK : N ≤ K) {r : Routine}
    {d : FunctionDecl} (h : Function .nearest n ts d m) (hN : (ts ++ rest).length ≤ N) :
    (function K declaration r).Takes n ts d m rest := by
  cases h with
  | @intro _ _ ts ts₁ name left right opening closing params body hn hl hp hc hr ho hb he =>
    have heq : name :: left :: ts ++ right :: opening :: ts₁ ++ [closing] =
        name :: left :: (ts ++ right :: opening :: (ts₁ ++ [closing])) := by simp
    rw [heq] at hN ⊢
    simp only [List.cons_append, List.append_assoc, List.length_cons] at hN
    have hbody : (do
        let _ ← expect (.mark .rightParen) .parametersEnd
        let _ ← expect (.mark .leftBrace) (.routineBody r)
        let body ← block K declaration
        pure (FunctionDecl.mk name params body) : Rule FunctionDecl).Takes n
          (right :: opening :: (ts₁ ++ [closing])) (.mk name params body) m rest := by
      refine Takes.expect_bind (Kind.same_mark.2 hr) (Takes.expect_bind (Kind.same_mark.2 ho)
        (block_takes hd hK hb he ?_).bind_pure)
      simp only [List.length_append, List.length_cons, List.length_nil] at hN ⊢
      omega
    refine Takes.expect_bind (Kind.same_identifier.2 hn) (Takes.expect_bind (Kind.same_mark.2 hl) ?_)
    cases hp with
    | none => exact Takes.check_true (Kind.same_mark.2 hr) (Takes.bind (takes_pure []) hbody)
    | some hp hps =>
      refine Takes.check_false ?_ (Takes.bind (parameters_takes ⟨right, _, rfl, hr⟩ hp hps ?_ (by omega)) hbody)
      · rintro _ ⟨⟩
        simp [hp, Kind.same]
      · simp only [List.length_append, List.length_cons] at hN ⊢
        omega

theorem methods_takes {method : Rule FunctionDecl}
    (hm : ∀ ⦃n ts d m rest⦄, Function .nearest n ts d m → (ts ++ rest).length ≤ N →
      method.Takes n ts d m rest) (hrest : ∀ t ∈ rest.head?, t.kind = .mark .rightBrace) :
    ∀ {K n m : Nat} {ts : List Token} {ds : List FunctionDecl}, Functions .nearest n ts ds m →
      (ts ++ rest).length ≤ N → N ≤ K → (methods method K).Takes n ts ds m rest := by
  intro K
  induction K generalizing N with
  | zero =>
    intro n m ts ds h hN hK
    cases h with
    | nil => exact takes_pure _
    | cons h _ =>
      cases h
      simp at hN
      omega
  | succ K ih =>
    intro n m ts ds h hN hK
    cases h with
    | nil => exact Takes.stopsAt_true (fun t ht ↦ closesBlock_iff.2 (hrest t ht)) (takes_pure _)
    | @cons _ _ _ ts ts₁ d ds h hs =>
      rw [List.append_assoc] at hN
      have hfirst := hm h hN
      obtain ⟨t, ts', rfl, ht⟩ : ∃ t ts', ts = t :: ts' ∧ t.kind = .identifier := by
        cases h with
        | intro hn => exact ⟨_, _, rfl, hn⟩
      simp only [List.length_append, List.length_cons] at hN
      have hmore := ih (N := N - 1) (fun _ _ _ _ _ h hl ↦ hm h (by omega)) hs
        (by simp only [List.length_append]; omega) (by omega)
      exact Takes.stopsAt_false (by simp [ht, closesBlock]) (hfirst.bind hmore.bind_pure)

theorem superclass_takes {o : Option Ref} (h : Superclass n ts o m)
    (hrest : ∀ t ∈ rest.head?, t.kind = .mark .leftBrace) : superclass.Takes n ts o m rest := by
  unfold superclass
  cases h with
  | none =>
    refine Takes.acceptIf_none (fun t ht ↦ ?_) (takes_pure _)
    simp [hrest t ht, Kind.same]
  | some hl hn =>
    exact Takes.acceptIf_some (Kind.same_mark.2 hl) (Takes.expect_bind (Kind.same_identifier.2 hn)
      (Takes.occurrence_bind (takes_pure _)))

theorem classDeclaration_takes (hd : TakesDeclaration declaration N) {K : Nat} (hK : N ≤ K)
    {ts₁ : List Token} {k : Nat} {name left right : Token} {super : Option Ref} {ms : List FunctionDecl}
    (hn : name.kind = .identifier) (hs : Superclass n ts super k) (hl : left.kind = .mark .leftBrace)
    (hm : Functions .nearest k ts₁ ms m) (hr : right.kind = .mark .rightBrace)
    (hN : (name :: (ts ++ left :: (ts₁ ++ [right])) ++ rest).length ≤ N) :
    (classDeclaration K declaration).Takes n (name :: (ts ++ left :: (ts₁ ++ [right])))
      (.classDecl name super ms) m rest := by
  simp only [List.cons_append, List.append_assoc, List.length_cons, List.length_append] at hN
  refine Takes.expect_bind (Kind.same_identifier.2 hn) (Takes.bind (superclass_takes hs ?_)
    (Takes.expect_bind (Kind.same_mark.2 hl) (Takes.bind
      (methods_takes (fun _ _ _ _ _ h hl ↦ function_takes hd hK h hl) ?_ hm ?_ hK)
      (Takes.expect_bind (Kind.same_mark.2 hr) (takes_pure _)))))
  · rintro _ ⟨⟩
    exact hl
  · rintro _ ⟨⟩
    exact hr
  · simp only [List.length_append, List.length_cons, List.length_nil]
    omega

theorem Takes.expression_bind {K k : Nat} {ts' : List Token} {e : Expr} {t : Token} {β : Type} {b : β}
    {f : Expr → Rule β} (h : Expression .assignment n ts e k)
    (ht : t.kind = .mark .semicolon ∨ t.kind = .mark .rightParen)
    (hf : (f e).Takes k (t :: ts') b m rest) (hK : (ts ++ t :: ts' ++ rest).length ≤ K) :
    (expression K >>= f).Takes n (ts ++ t :: ts') b m rest := by
  rw [List.append_assoc] at hK
  exact (expression_takes K h (ends_of_stop (ht.imp_right .inl)) hK).bind hf

theorem Takes.optionalExpression_bind {K k : Nat} {ts' : List Token} {o : Option Expr} {t : Token}
    {stop : Mark} {β : Type} {b : β} {f : Option Expr → Rule β}
    (h : Optional (Expression .assignment) n ts o k) (ht : t.kind = .mark stop)
    (hstop : stop = .semicolon ∨ stop = .rightParen) (hf : (f o).Takes k (t :: ts') b m rest)
    (hK : (ts ++ t :: ts' ++ rest).length ≤ K) :
    (optionalExpression K (.mark stop) >>= f).Takes n (ts ++ t :: ts') b m rest := by
  rw [List.append_assoc] at hK
  refine Takes.bind ?_ hf
  cases h with
  | none =>
    have hhere : (optionalExpression K (.mark stop)).Takes n [] none n (t :: ts' ++ rest) := by
      intro s
      show (if (Kind.mark stop).same t.kind then _ else _ : Rule (Option Expr)) _ = _
      rw [Kind.same_mark.2 ht]
      rfl
    exact hhere
  | some h =>
    have hend : t.kind = .mark .semicolon ∨ t.kind = .mark .rightParen ∨ t.kind = .mark .comma := by
      obtain rfl | rfl := hstop
      · exact .inl ht
      · exact .inr (.inl ht)
    refine Takes.check_false ?_ (expression_takes K h (ends_of_stop hend) hK).map
    obtain ⟨t', ts₁, rfl, ht', -⟩ := h.starts
    rintro _ ⟨⟩
    refine Kind.same_mark_eq_false fun hs ↦ ?_
    rw [hs] at ht'
    obtain rfl | rfl := hstop <;> cases ht'

theorem varDeclaration_takes {K : Nat} {keyword : Token} {s : Stmt}
    (h : VarDeclaration n (keyword :: ts) s m) (hK : (ts ++ rest).length ≤ K) :
    (varDeclaration K).Takes n ts s m rest := by
  unfold varDeclaration
  cases h with
  | plain hk hn hs =>
    refine Takes.expect_bind (Kind.same_identifier.2 hn) (Takes.acceptIf_none ?_ ?_)
    · rintro _ ⟨⟩
      simp [hs, Kind.same]
    · exact Takes.expect_bind (Kind.same_mark.2 hs) (takes_pure _)
  | initial hk hn hq he hs =>
    have hK : (_ :: _ :: (_ ++ [_]) ++ rest).length ≤ K := hK
    simp only [List.cons_append, List.append_assoc, List.length_cons] at hK
    refine Takes.expect_bind (Kind.same_identifier.2 hn) (Takes.acceptIf_some (Kind.same_mark.2 hq) ?_)
    have hlen := Nat.le_of_succ_le (Nat.le_of_succ_le hK)
    exact Takes.bind (expression_takes K he (ends_of_stop (.inl hs)) hlen).map
      (Takes.expect_bind (Kind.same_mark.2 hs) (takes_pure _))

theorem expressionStatement_takes {K : Nat} {s : Stmt} (h : ExpressionStatement n ts s m)
    (hK : (ts ++ rest).length ≤ K) : (expressionStatement K).Takes n ts s m rest := by
  obtain ⟨he, hs⟩ := h
  exact Takes.expression_bind he (.inl hs) (Takes.expect_bind (Kind.same_mark.2 hs) (takes_pure _)) hK

theorem forFirst_takes {K : Nat} {o : Option Stmt} (h : ForFirst n ts o m)
    (hK : (ts ++ rest).length ≤ K) : (forFirst K).Takes n ts o m rest := by
  cases h with
  | none hs => exact Takes.acceptIf_some (Kind.same_mark.2 hs) (takes_pure _)
  | var h =>
    obtain ⟨keyword, ts, rfl, hk⟩ : ∃ t ts', ts = t :: ts' ∧ t.kind = .keyword .kVar := by
      cases h with
      | plain hk | initial hk => exact ⟨_, _, rfl, hk⟩
    have hnot : ∀ t ∈ (keyword :: ts ++ rest).head?, (Kind.mark .semicolon).same t.kind = false := by
      rintro _ ⟨⟩
      simp [hk, Kind.same]
    simp only [List.cons_append, List.length_cons] at hK
    exact Takes.acceptIf_none hnot (Takes.acceptIf_some (Kind.same_keyword.2 hk)
      (varDeclaration_takes h (by omega)).map)
  | expr h =>
    obtain ⟨t, ts', rfl, ht⟩ : ∃ t ts', ts = t :: ts' ∧ startsExpression t.kind = true := by
      obtain ⟨he, -⟩ := h
      obtain ⟨t, ts', rfl, ht, -⟩ := he.starts
      exact ⟨t, _, rfl, ht⟩
    refine Takes.acceptIf_none ?_ (Takes.acceptIf_none ?_ (expressionStatement_takes h hK).map)
    · rintro _ ⟨⟩
      refine Kind.same_mark_eq_false fun hs ↦ ?_
      simp [hs, startsExpression] at ht
    · rintro _ ⟨⟩
      refine Kind.same_keyword_eq_false fun hs ↦ ?_
      simp [hs, startsExpression] at ht

section

variable {k p q : Nat} {ts₁ ts₂ ts₃ : List Token} {left right : Token} {test : Expr}

theorem ifStatement_takes (hs : TakesStatement statement N) {yes : Stmt} {dangling : Bool}
    (hl : left.kind = .mark .leftParen) (ht : Expression .assignment n ts test k)
    (hr : right.kind = .mark .rightParen) (hy : Statement .nearest dangling k ts₁ yes m)
    (hrest : NoElse rest) (hN : (left :: (ts ++ right :: ts₁) ++ rest).length ≤ N) :
    (ifStatement (N + 1) statement).Takes n (left :: (ts ++ right :: ts₁)) (.cond test yes none) m
      rest := by
  simp only [List.cons_append, List.append_assoc, List.length_cons, List.length_append] at hN
  have hyes := hs hy (fun _ ↦ hrest) (by simp only [List.length_append]; omega)
  have hnone : ∀ t ∈ ([] ++ rest).head?, (Kind.keyword .kElse).same t.kind = false :=
    fun t ht ↦ Kind.same_keyword_eq_false (hrest t ht)
  refine Takes.expect_bind (Kind.same_mark.2 hl) (Takes.expression_bind ht (.inr hr) ?_ ?_)
  · exact Takes.expect_bind (Kind.same_mark.2 hr) (hyes.bind_nil (Takes.acceptIf_none hnone (takes_pure _)))
  · simp only [List.append_assoc, List.cons_append, List.length_cons, List.length_append]
    omega

theorem ifStatement_takes_else (hs : TakesStatement statement N) {yes no : Stmt} {dangling : Bool}
    {other : Token} (hl : left.kind = .mark .leftParen) (ht : Expression .assignment n ts test k)
    (hr : right.kind = .mark .rightParen) (hy : Statement .nearest false k ts₁ yes p)
    (ho : other.kind = .keyword .kElse) (hn : Statement .nearest dangling p ts₂ no m)
    (hrest : dangling = true → NoElse rest)
    (hN : (left :: (ts ++ right :: (ts₁ ++ other :: ts₂)) ++ rest).length ≤ N) :
    (ifStatement (N + 1) statement).Takes n (left :: (ts ++ right :: (ts₁ ++ other :: ts₂)))
      (.cond test yes (some no)) m rest := by
  simp only [List.cons_append, List.append_assoc, List.length_cons, List.length_append] at hN
  have hyes : statement.Takes k ts₁ yes p (other :: ts₂ ++ rest) :=
    hs hy (by simp) (by simp only [List.cons_append, List.length_cons, List.length_append]; omega)
  have hno := hs hn hrest (by simp only [List.length_append]; omega)
  refine Takes.expect_bind (Kind.same_mark.2 hl) (Takes.expression_bind ht (.inr hr) ?_ ?_)
  · exact Takes.expect_bind (Kind.same_mark.2 hr)
      (hyes.bind (Takes.acceptIf_some (Kind.same_keyword.2 ho) (hno.map.bind_pure)))
  · simp only [List.append_assoc, List.cons_append, List.length_cons, List.length_append]
    omega

theorem whileStatement_takes (hs : TakesStatement statement N) {body : Stmt} {dangling : Bool}
    (hl : left.kind = .mark .leftParen) (ht : Expression .assignment n ts test k)
    (hr : right.kind = .mark .rightParen) (hb : Statement .nearest dangling k ts₁ body m)
    (hrest : dangling = true → NoElse rest)
    (hN : (left :: (ts ++ right :: ts₁) ++ rest).length ≤ N) :
    (whileStatement (N + 1) statement).Takes n (left :: (ts ++ right :: ts₁)) (.loop test body) m
      rest := by
  simp only [List.cons_append, List.append_assoc, List.length_cons, List.length_append] at hN
  have hbody := hs hb hrest (by simp only [List.length_append]; omega)
  refine Takes.expect_bind (Kind.same_mark.2 hl) (Takes.expression_bind ht (.inr hr) ?_ ?_)
  · exact Takes.expect_bind (Kind.same_mark.2 hr) hbody.bind_pure
  · simp only [List.append_assoc, List.cons_append, List.length_cons, List.length_append]
    omega

theorem forStatement_takes (hs : TakesStatement statement N) {first : Option Stmt}
    {cond step : Option Expr} {body : Stmt} {dangling : Bool} {stop : Token} {line : Nat}
    (hl : left.kind = .mark .leftParen) (hf : ForFirst n ts first k)
    (ht : Optional (Expression .assignment) k ts₁ cond p) (hstop : stop.kind = .mark .semicolon)
    (hi : Optional (Expression .assignment) p ts₂ step q) (hr : right.kind = .mark .rightParen)
    (hb : Statement .nearest dangling q ts₃ body m) (hrest : dangling = true → NoElse rest)
    (hN : (left :: (ts ++ (ts₁ ++ stop :: (ts₂ ++ right :: ts₃))) ++ rest).length ≤ N) :
    (forStatement (N + 1) statement line).Takes n
      (left :: (ts ++ (ts₁ ++ stop :: (ts₂ ++ right :: ts₃)))) (.forLoop line first cond step body) m
        rest := by
  simp only [List.cons_append, List.append_assoc, List.length_cons, List.length_append] at hN
  have hbody := hs hb hrest (by simp only [List.length_append]; omega)
  refine Takes.expect_bind (Kind.same_mark.2 hl) (Takes.bind (forFirst_takes hf ?_)
    (Takes.optionalExpression_bind ht hstop (.inl rfl) (Takes.expect_bind (Kind.same_mark.2 hstop)
      (Takes.optionalExpression_bind hi hr (.inr rfl) (Takes.expect_bind (Kind.same_mark.2 hr)
        hbody.bind_pure) ?_)) ?_))
  all_goals
    simp only [List.append_assoc, List.cons_append, List.length_cons, List.length_append]
    omega

end

theorem statementWith_takes (hd : TakesDeclaration declaration N) (hs : TakesStatement statement N) :
    TakesStatement (statementWith (N + 1) declaration statement) (N + 1) := by
  intro dangling n ts s m rest h hrest hN
  cases h with
  | expr h =>
    have htake := expressionStatement_takes h hN
    obtain ⟨t, ts', rfl, ht⟩ : ∃ t ts', ts = t :: ts' ∧ startsExpression t.kind = true := by
      obtain ⟨he, -⟩ := h
      obtain ⟨t, ts', rfl, ht, -⟩ := he.starts
      exact ⟨t, _, rfl, ht⟩
    refine Takes.peek_bind ?_
    split <;> simp_all [startsExpression]
  | print hk he hstop =>
    refine Takes.peek_bind ?_
    simp only [hk]
    exact Takes.advance (Takes.expression_bind he (.inl hstop)
      (Takes.expect_bind (Kind.same_mark.2 hstop) (takes_pure _)) (Nat.le_of_succ_le hN))
  | ret hk he hstop =>
    refine Takes.peek_bind ?_
    simp only [hk]
    exact Takes.advance (Takes.optionalExpression_bind he hstop (.inl rfl)
      (Takes.expect_bind (Kind.same_mark.2 hstop) (takes_pure _)) (Nat.le_of_succ_le hN))
  | block hl hb hr =>
    refine Takes.peek_bind ?_
    simp only [hl]
    refine Takes.advance (block_takes hd (Nat.le_succ N) hb hr ?_).map
    simp only [List.length_append, List.length_cons, List.length_nil] at hN ⊢
    omega
  | cond hk hl ht hr hy =>
    refine Takes.peek_bind ?_
    simp only [hk]
    exact Takes.advance (ifStatement_takes hs hl ht hr hy (hrest rfl) (Nat.le_of_succ_le_succ hN))
  | @condElse _ _ _ _ ts ts₁ ts₂ keyword left right other _ _ _ _ _ hk hl ht hr hy hi ho hn =>
    have heq : keyword :: left :: ts ++ right :: ts₁ ++ other :: ts₂ =
        keyword :: left :: (ts ++ right :: (ts₁ ++ other :: ts₂)) := by simp
    rw [heq] at hN ⊢
    refine Takes.peek_bind ?_
    simp only [hk]
    cases hi rfl
    exact Takes.advance (ifStatement_takes_else hs hl ht hr hy ho hn hrest (Nat.le_of_succ_le_succ hN))
  | loop hk hl ht hr hb =>
    refine Takes.peek_bind ?_
    simp only [hk]
    exact Takes.advance (whileStatement_takes hs hl ht hr hb hrest (Nat.le_of_succ_le_succ hN))
  | @forLoop _ _ _ _ _ ts ts₁ ts₂ ts₃ keyword left stop right _ _ _ _ _ hk hl hf ht hstop hi hr hb =>
    have heq : keyword :: left :: ts ++ ts₁ ++ stop :: ts₂ ++ right :: ts₃ =
        keyword :: left :: (ts ++ (ts₁ ++ stop :: (ts₂ ++ right :: ts₃))) := by simp
    rw [heq] at hN ⊢
    rw [forTree_eq]
    refine Takes.peek_bind ?_
    simp only [hk]
    exact Takes.advance
      (forStatement_takes hs hl hf ht hstop hi hr hb hrest (Nat.le_of_succ_le_succ hN))

theorem declarationWith_takes (hd : TakesDeclaration declaration N) (hs : TakesStatement statement N)
    {s : Stmt} (h : Declaration .nearest n ts s m) (hrest : NoElse rest)
    (hN : (ts ++ rest).length ≤ N + 1) :
    (declarationWith (N + 1) declaration statement).Takes n ts s m rest := by
  cases h with
  | statement h =>
    have htake := statementWith_takes hd hs h (fun _ ↦ hrest) hN
    obtain ⟨t, ts', rfl, ht⟩ := h.starts
    refine Takes.peek_bind ?_
    split
    · simp_all
    · simp_all
    · simp_all
    · exact htake
  | var h =>
    obtain ⟨keyword, ts, rfl, hk⟩ : ∃ t ts', ts = t :: ts' ∧ t.kind = .keyword .kVar := by
      cases h with
      | plain hk | initial hk => exact ⟨_, _, rfl, hk⟩
    refine Takes.peek_bind ?_
    simp only [hk]
    exact Takes.advance (varDeclaration_takes h (Nat.le_of_succ_le hN))
  | function hk h =>
    refine Takes.peek_bind ?_
    simp only [hk]
    exact Takes.advance (function_takes hd (Nat.le_succ N) h (Nat.le_of_succ_le_succ hN)).map
  | @classDecl _ _ _ ts ts₁ keyword name left right _ _ hk hn hsup hl hm hr =>
    have heq : keyword :: name :: ts ++ left :: ts₁ ++ [right] =
        keyword :: name :: (ts ++ left :: (ts₁ ++ [right])) := by simp
    rw [heq] at hN ⊢
    refine Takes.peek_bind ?_
    simp only [hk]
    exact Takes.advance
      (classDeclaration_takes hd (Nat.le_succ N) hn hsup hl hm hr (Nat.le_of_succ_le_succ hN))

end

/-- Every statement and every declaration is read as one. -/
theorem statement_declaration_takes (N : Nat) :
    TakesStatement (statement N) N ∧ TakesDeclaration (declaration N) N := by
  induction N with
  | zero =>
    constructor
    · intro dangling n ts s m rest h _ hN
      obtain ⟨t, ts', rfl, -⟩ := h.starts
      simp at hN
    · intro n ts s m rest h _ hN
      obtain ⟨t, ts', rfl, -⟩ := h.starts
      simp at hN
  | succ N ih =>
    obtain ⟨hs, hd⟩ := ih
    exact ⟨statementWith_takes hd hs, fun _ _ _ _ _ h hrest hN ↦
      (declarationWith_takes hd hs h hrest hN).recovering⟩

theorem program_takes {N n m : Nat} {ts : List Token} {ss : List Stmt}
    (h : Declarations .nearest n ts ss m) (hN : ts.length ≤ N) : (program N).Takes n ts ss m [] :=
  declarations_takes (statement_declaration_takes N).2 (by simp) (by simp) h (by simpa using hN)
    (Nat.le_refl N)

end Lox.Parse
