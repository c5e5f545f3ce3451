import Lox.Proofs.Grammar.Basic

namespace Lox.Grammar

variable {ℓ ℓ' : Level} {n m : Nat} {ts : List Token}

theorem Operands.eq_or_node : ∀ {n m : Nat} {ts : List Token} {first e : Expr},
    Operands ℓ n ts first e m → (ts = [] ∧ e = first ∧ m = n) ∨ ∃ l op r, e = ℓ.node l op r
  | _, _, _, _, _, .nil => .inl ⟨rfl, rfl, rfl⟩
  | _, _, _, _, _, .cons _ _ _ ht =>
    match ht.eq_or_node with
    | .inl ⟨_, he, _⟩ => .inr ⟨_, _, _, he⟩
    | .inr h => .inr h

theorem Expression.tighter {e : Expr} (h : Expression ℓ n ts e m) (hl : ℓ.operand? = some ℓ')
    (he : ∀ l op r, e ≠ ℓ.node l op r) : Expression ℓ' n ts e m := by
  cases h with
  | chain hl' hf ho =>
    cases hl.symm.trans hl'
    obtain ⟨rfl, rfl, rfl⟩ | ⟨l, op, r, h⟩ := ho.eq_or_node
    · simpa using hf
    · exact absurd h (he l op r)
  | _ => cases hl

theorem Expression.looser {e : Expr} (h : Expression ℓ' n ts e m) (hl : ℓ.operand? = some ℓ') :
    Expression ℓ n ts e m := by
  have h' : Expression ℓ n (ts ++ []) e m := .chain hl h .nil
  rwa [List.append_nil] at h'

theorem Expression.disjunction_of_call {e : Expr} (h : Expression .call n ts e m) :
    Expression .disjunction n ts e m :=
  have hf : Expression .factor n ts e m := (Expression.noUnary h).looser rfl
  have hc : Expression .comparison n ts e m := (hf.looser (ℓ := .term) rfl).looser rfl
  have ha : Expression .conjunction n ts e m := (hc.looser (ℓ := .equality) rfl).looser rfl
  ha.looser rfl

def isPlace : Expr → Bool
  | .var _ | .get _ _ => true
  | _ => false

theorem Expression.call_of_isPlace {e : Expr} (h : Expression .disjunction n ts e m)
    (he : isPlace e = true) : Expression .call n ts e m := by
  have hnode (ℓ : Level) (l : Expr) (op : Token) (r : Expr) : e ≠ ℓ.node l op r := by
    rintro rfl
    cases ℓ <;> cases he
  have h := h.tighter rfl (hnode _)
  have h := h.tighter rfl (hnode _)
  have h := h.tighter rfl (hnode _)
  have h := h.tighter rfl (hnode _)
  have h := h.tighter rfl (hnode _)
  have h := h.tighter rfl (hnode _)
  cases h with
  | noUnary h => exact h
  | unary _ _ => cases he
  | chain hl _ _ => cases hl

theorem Suffixes.last : ∀ {n m : Nat} {ts : List Token} {first e : Expr}, Suffixes n ts first e m →
    (ts = [] ∧ e = first ∧ m = n) ∨ (∃ callee args paren, e = .call callee args paren) ∨
      ∃ object name dot ts', e = .get object name ∧ ts = ts' ++ [dot, name] ∧
        dot.kind = .mark .dot ∧ name.kind = .identifier ∧ Suffixes n ts' first object m
  | _, _, _, _, _, .nil => .inl ⟨rfl, rfl, rfl⟩
  | _, _, _, _, _, .call hl ha hc hr hs => by
    obtain ⟨rfl, rfl, rfl⟩ | h | ⟨object, name, dot, ts', rfl, rfl, hd, hn, h⟩ := hs.last
    · exact .inr (.inl ⟨_, _, _, rfl⟩)
    · exact .inr (.inl h)
    · exact .inr (.inr ⟨object, name, dot, _, rfl, by simp, hd, hn, .call hl ha hc hr h⟩)
  | _, _, _, _, _, .get hd hn hs => by
    obtain ⟨rfl, rfl, rfl⟩ | h | ⟨object, name, dot, ts', rfl, rfl, hd', hn', h⟩ := hs.last
    · exact .inr (.inr ⟨_, _, _, [], rfl, rfl, hd, hn, .nil⟩)
    · exact .inr (.inl h)
    · exact .inr (.inr ⟨object, name, dot, _, rfl, by simp, hd', hn', .get hd hn h⟩)

theorem Suffixes.append_get : ∀ {n m : Nat} {ts : List Token} {first e : Expr} {dot name : Token},
    Suffixes n ts first e m → dot.kind = .mark .dot → name.kind = .identifier →
      Suffixes n (ts ++ [dot, name]) first (.get e name) m
  | _, _, _, _, _, _, _, .nil, hd, hn => .get hd hn .nil
  | _, _, _, _, _, _, _, .call hl ha hc hr hs, hd, hn => by
    simpa using Suffixes.call hl ha hc hr (hs.append_get hd hn)
  | _, _, _, _, _, _, _, .get hd' hn' hs, hd, hn => .get hd' hn' (hs.append_get hd hn)

theorem Expression.get {e : Expr} {dot name : Token} (h : Expression .call n ts e m)
    (hd : dot.kind = .mark .dot) (hn : name.kind = .identifier) :
    Expression .call n (ts ++ [dot, name]) (.get e name) m := by
  cases h with
  | chain hl _ _ => cases hl
  | call hf hs =>
    rw [List.append_assoc]
    exact .call hf (hs.append_get hd hn)

theorem Expression.var_tokens {ref : Ref} (h : Expression .disjunction n ts (.var ref) m) :
    ∃ t, ts = [t] ∧ t.kind = .identifier ∧ ref = ⟨n, t⟩ ∧ m = n + 1 := by
  cases h.call_of_isPlace rfl with
  | chain hl _ _ => cases hl
  | call hf hs =>
    obtain ⟨rfl, rfl, rfl⟩ | ⟨_, _, _, he⟩ | ⟨_, _, _, _, he, -⟩ := hs.last
    · cases hf with
      | chain hl _ _ => cases hl
      | var ht => exact ⟨_, rfl, ht, rfl, rfl⟩
    · cases he
    · cases he

theorem Expression.get_tokens {object : Expr} {name : Token}
    (h : Expression .disjunction n ts (.get object name) m) :
    ∃ ts' dot, ts = ts' ++ [dot, name] ∧ dot.kind = .mark .dot ∧ name.kind = .identifier ∧
      Expression .call n ts' object m := by
  cases h.call_of_isPlace rfl with
  | chain hl _ _ => cases hl
  | call hf hs =>
    obtain ⟨rfl, rfl, rfl⟩ | ⟨_, _, _, he⟩ | ⟨_, _, dot, ts', he, rfl, hd, hn, hs'⟩ := hs.last
    · cases hf with
      | chain hl _ _ => cases hl
    · cases he
    · cases he
      exact ⟨_, dot, (List.append_assoc ..).symm, hd, hn, .call hf hs'⟩

def startsExpression : Kind → Bool
  | .keyword .kFalse | .keyword .kTrue | .keyword .kNil | .number _ | .string _ => true
  | .keyword .kThis | .keyword .kSuper | .identifier | .mark .leftParen => true
  | .mark .bang | .mark .minus => true
  | _ => false

theorem startsExpression_of_literal {k : Kind} {v : Literal} (h : literal? k = some v) :
    startsExpression k = true ∧ k ∉ Level.unary.operators := by
  unfold literal? at h
  split at h <;> simp_all [startsExpression, Level.operators]

theorem Expression.starts : ∀ {ℓ : Level} {n m : Nat} {ts : List Token} {e : Expr},
    Expression ℓ n ts e m → ∃ t ts', ts = t :: ts' ∧ startsExpression t.kind = true ∧
      (ℓ = .call ∨ ℓ = .primary → t.kind ∉ Level.unary.operators)
  | _, _, _, _, _, .assign hn _ _ => ⟨_, _, rfl, by simp [hn, startsExpression], by simp⟩
  | _, _, _, _, _, .set ho _ _ _ _ => by
    obtain ⟨t, ts', rfl, ht, -⟩ := ho.starts
    exact ⟨t, _, rfl, ht, by simp⟩
  | _, _, _, _, _, .noAssign h => by
    obtain ⟨t, ts', rfl, ht, -⟩ := h.starts
    exact ⟨t, _, rfl, ht, by simp⟩
  | ℓ, _, _, _, _, .chain hl hf _ => by
    obtain ⟨t, ts', rfl, ht, -⟩ := hf.starts
    refine ⟨t, _, rfl, ht, ?_⟩
    rintro (rfl | rfl) <;> cases hl
  | _, _, _, _, _, .unary ho _ => by
    refine ⟨_, _, rfl, ?_, by simp⟩
    simp only [Level.operators, List.mem_cons, List.not_mem_nil, or_false] at ho
    obtain ho | ho := ho <;> simp [ho, startsExpression]
  | _, _, _, _, _, .noUnary h => by
    obtain ⟨t, ts', rfl, ht, -⟩ := h.starts
    exact ⟨t, _, rfl, ht, by simp⟩
  | _, _, _, _, _, .call hf _ => by
    obtain ⟨t, ts', rfl, ht, hu⟩ := hf.starts
    exact ⟨t, _, rfl, ht, fun _ ↦ hu (.inr rfl)⟩
  | _, _, _, _, _, .literal ht =>
    ⟨_, _, rfl, (startsExpression_of_literal ht).1, fun _ ↦ (startsExpression_of_literal ht).2⟩
  | _, _, _, _, _, .this ht =>
    ⟨_, _, rfl, by simp [ht, startsExpression], by simp [ht, Level.operators]⟩
  | _, _, _, _, _, .var ht =>
    ⟨_, _, rfl, by simp [ht, startsExpression], by simp [ht, Level.operators]⟩
  | _, _, _, _, _, .super ht _ _ =>
    ⟨_, _, rfl, by simp [ht, startsExpression], by simp [ht, Level.operators]⟩
  | _, _, _, _, _, .grouping hl _ _ =>
    ⟨_, _, rfl, by simp [hl, startsExpression], by simp [hl, Level.operators]⟩

namespace Level

def rank : Level → Nat
  | assignment => 0
  | disjunction => 1
  | conjunction => 2
  | equality => 3
  | comparison => 4
  | term => 5
  | factor => 6
  | unary => 7
  | call => 8
  | primary => 9

def continuers : Level → List Kind
  | assignment => [.mark .equal]
  | call => [.mark .leftParen, .mark .dot]
  | unary | primary => []
  | ℓ => ℓ.operators

theorem rank_operand (hl : ℓ.operand? = some ℓ') : ℓ.rank < ℓ'.rank := by
  cases ℓ <;> cases hl <;> decide

theorem continuers_of_binary (hl : ℓ.operand? = some ℓ') : ℓ.continuers = ℓ.operators := by
  cases ℓ <;> cases hl <;> rfl

theorem not_mem_continuers {ℓ₁ : Level} {k : Kind} (hk : k ∈ ℓ.continuers) (hr : ℓ.rank < ℓ₁.rank) :
    k ∉ ℓ₁.continuers := by
  cases ℓ <;> cases ℓ₁ <;> simp_all [continuers, operators, rank] <;> grind

end Level

/-- Nothing ahead carries an expression of the level on. -/
def Ends (ℓ : Level) (rest : List Token) : Prop :=
  ∀ t ∈ rest.head?, ∀ ℓ' : Level, ℓ.rank ≤ ℓ'.rank → t.kind ∉ ℓ'.continuers

theorem Ends.tighter {rest : List Token} (h : Ends ℓ rest) (hr : ℓ.rank ≤ ℓ'.rank) : Ends ℓ' rest :=
  fun t ht ℓ₁ h₁ ↦ h t ht ℓ₁ (Nat.le_trans hr h₁)

theorem ends_operand {t : Token} {rest : List Token} (ht : t.kind ∈ ℓ.continuers)
    (hr : ℓ.rank < ℓ'.rank) : Ends ℓ' (t :: rest) := by
  rintro _ ⟨⟩ ℓ₁ h₁
  exact Level.not_mem_continuers ht (Nat.lt_of_lt_of_le hr h₁)

/-- The tokens behind an expression that is complete. -/
theorem ends_of_stop {t : Token} {rest : List Token}
    (ht : t.kind = .mark .semicolon ∨ t.kind = .mark .rightParen ∨ t.kind = .mark .comma) :
    Ends ℓ (t :: rest) := by
  rintro _ ⟨⟩ ℓ₁ -
  obtain ht | ht | ht := ht <;> cases ℓ₁ <;> simp [ht, Level.continuers, Level.operators]

theorem VarDeclaration.ne_nil {s : Stmt} (h : VarDeclaration n ts s m) : ts ≠ [] := by
  cases h <;> simp

theorem Statement.ne_nil {r : ElseRule} {dangling : Bool} {s : Stmt}
    (h : Statement r dangling n ts s m) : ts ≠ [] := by
  cases h with
  | expr h => cases h; simp
  | _ => simp

theorem Declaration.ne_nil {r : ElseRule} {s : Stmt} (h : Declaration r n ts s m) : ts ≠ [] := by
  cases h with
  | statement h => exact h.ne_nil
  | var h => exact h.ne_nil
  | _ => simp

theorem Statement.starts {r : ElseRule} {dangling : Bool} {s : Stmt} (h : Statement r dangling n ts s m) :
    ∃ t ts', ts = t :: ts' ∧ t.kind ∉ [Kind.keyword .kClass, .keyword .kFun, .keyword .kVar,
      .keyword .kElse, .mark .rightBrace] := by
  cases h with
  | expr h =>
    obtain ⟨he, -⟩ := h
    obtain ⟨t, ts', rfl, ht, -⟩ := he.starts
    refine ⟨t, _, rfl, fun hmem ↦ ?_⟩
    simp only [List.mem_cons, List.not_mem_nil, or_false] at hmem
    obtain hk | hk | hk | hk | hk := hmem <;> rw [hk] at ht <;> cases ht
  | print hk | ret hk | block hk | cond hk | condElse hk | loop hk | forLoop hk =>
    exact ⟨_, _, rfl, by simp [hk]⟩

theorem Declaration.starts {r : ElseRule} {s : Stmt} (h : Declaration r n ts s m) :
    ∃ t ts', ts = t :: ts' ∧ t.kind ≠ .keyword .kElse ∧ t.kind ≠ .mark .rightBrace := by
  cases h with
  | statement h =>
    obtain ⟨t, ts', rfl, ht⟩ := h.starts
    simp only [List.mem_cons, not_or] at ht
    exact ⟨t, ts', rfl, ht.2.2.2.1, ht.2.2.2.2.1⟩
  | var h =>
    cases h with
    | plain hk | initial hk => exact ⟨_, _, rfl, by simp [hk]⟩
  | function hk | classDecl hk => exact ⟨_, _, rfl, by simp [hk]⟩

end Lox.Grammar
