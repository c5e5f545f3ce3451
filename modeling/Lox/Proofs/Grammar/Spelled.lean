import Lox.Proofs.Grammar.Regular
import Lox.Proofs.Parse.Acceptance
import Lox.Proofs.Token.Rescan

namespace Lox

def Token.Spelled (t : Token) : Prop := Lexeme t.lexeme.toList t.kind

/-- A token of the given kind, with a text of this kind. -/
structure Token.Is (t : Token) (kind : Kind) : Prop where
  kind_eq : t.kind = kind
  spelled : Lexeme t.lexeme.toList kind

theorem Token.Spelled.is {t : Token} {kind : Kind} (h : t.Spelled) (hk : t.kind = kind) : t.Is kind := ⟨hk, hk ▸ h⟩

theorem Token.spelled_of_mem_words {t : Token} {source : String} (h : t ∈ words source) : t.Spelled :=
  lexeme_of_mem_words h

/-- What holds of each node of a tree that comes from a source: its tokens are as the scanner gives them, and are those
of their place. -/
def spelled : Condition where
  expr
    | .literal (.number x) _ => ∃ text, Lexeme text (.number x)
    | .var ref => ref.name.Is .identifier
    | .assign ref _ => ref.name.Is .identifier
    | .unary op _ => ∃ kind ∈ unaryOperators, op.Is kind
    | .binary _ op _ => ∃ kind ∈ binaryOperators, op.Is kind
    | .logical _ op _ => op.Is (.keyword .kAnd) ∨ op.Is (.keyword .kOr)
    | .call _ _ paren => paren.Is (.mark .rightParen)
    | .get _ name => name.Is .identifier
    | .set _ name _ => name.Is .identifier
    | .this ref => ref.name.Is (.keyword .kThis)
    | .super ref method => ref.name.Is (.keyword .kSuper) ∧ method.Is .identifier
    | _ => True
  stmt
    | .var name _ => name.Is .identifier
    | .ret keyword _ => keyword.Is (.keyword .kReturn)
    | .classDecl name _ _ => name.Is .identifier
    | _ => True
  function d := d.name.Is .identifier ∧ ∀ p ∈ d.params, p.Is .identifier

namespace Grammar

theorem leavesLoops_spelled : LeavesLoops spelled :=
  ⟨fun _ ↦ trivial, fun _ ↦ trivial, fun _ ↦ trivial, fun _ _ _ ↦ trivial⟩

theorem spelled_node {ℓ ℓ' : Level} {left right : Expr} {op : Token} (ho : op.kind ∈ ℓ.operators)
    (hl : ℓ.operand? = some ℓ') (hop : op.Spelled) (hleft : left.All spelled) (hright : right.All spelled) :
    (ℓ.node left op right).All spelled := by
  cases ℓ with
  | disjunction => exact ⟨.inr (hop.is (List.mem_singleton.1 ho)), hleft, hright⟩
  | conjunction => exact ⟨.inl (hop.is (List.mem_singleton.1 ho)), hleft, hright⟩
  | equality | comparison | term | factor =>
    refine ⟨⟨op.kind, ?_, hop.is rfl⟩, hleft, hright⟩
    simp only [Level.operators, List.mem_cons, List.not_mem_nil, or_false] at ho
    simp only [binaryOperators, List.mem_cons]
    grind
  | assignment | unary | call | primary => cases hl

theorem spelled_literal {t : Token} {v : Literal} (ht : t.Spelled) (hv : literal? t.kind = some v) (line : Nat) :
    (Expr.literal v line).All spelled := by
  cases v with
  | nil | bool _ | string _ => trivial
  | number x =>
    have hkind : t.kind = .number x := by
      unfold literal? at hv
      split at hv <;> cases hv
      assumption
    exact ⟨_, (ht.is hkind).spelled⟩

mutual

theorem Expression.spelled : ∀ {ℓ : Level} {n m : Nat} {ts : List Token} {e : Expr},
    Expression ℓ n ts e m → (∀ t ∈ ts, t.Spelled) → e.All spelled
  | _, _, _, _, _, .assign hn _ hv, hts =>
    ⟨(hts _ (by simp)).is hn, hv.spelled fun t ht ↦ hts t (by simp [ht])⟩
  | _, _, _, _, _, .set ho _ hn _ hv, hts =>
    ⟨(hts _ (by simp)).is hn, ho.spelled fun t ht ↦ hts t (by simp [ht]), hv.spelled fun t ht ↦ hts t (by simp [ht])⟩
  | _, _, _, _, _, .noAssign h, hts => h.spelled hts
  | _, _, _, _, _, .chain _ hf ho, hts =>
    ho.spelled (fun t ht ↦ hts t (by simp [ht])) (hf.spelled fun t ht ↦ hts t (by simp [ht]))
  | _, _, _, _, _, .unary ho he, hts =>
    ⟨⟨_, ho, (hts _ (by simp)).is rfl⟩, he.spelled fun t ht ↦ hts t (by simp [ht])⟩
  | _, _, _, _, _, .noUnary h, hts => h.spelled hts
  | _, _, _, _, _, .call hf hs, hts =>
    hs.spelled (fun t ht ↦ hts t (by simp [ht])) (hf.spelled fun t ht ↦ hts t (by simp [ht]))
  | _, _, _, _, _, .literal hv, hts => spelled_literal (hts _ (by simp)) hv _
  | _, _, _, _, _, .this ht, hts => (hts _ (by simp)).is ht
  | _, _, _, _, _, .var ht, hts => (hts _ (by simp)).is ht
  | _, _, _, _, _, .super ht _ hm, hts => ⟨(hts _ (by simp)).is ht, (hts _ (by simp)).is hm⟩
  | _, _, _, _, _, .grouping _ he _, hts => ⟨trivial, he.spelled fun t ht ↦ hts t (by simp [ht])⟩

theorem Operands.spelled : ∀ {ℓ : Level} {n m : Nat} {ts : List Token} {first e : Expr},
    Operands ℓ n ts first e m → (∀ t ∈ ts, t.Spelled) → first.All spelled → e.All spelled
  | _, _, _, _, _, _, .nil, _, hf => hf
  | _, _, _, _, _, _, .cons ho hl hr ht, hts, hf =>
    ht.spelled (fun t ht ↦ hts t (by simp [ht]))
      (spelled_node ho hl (hts _ (by simp)) hf (hr.spelled fun t ht ↦ hts t (by simp [ht])))

theorem Suffixes.spelled : ∀ {n m : Nat} {ts : List Token} {first e : Expr},
    Suffixes n ts first e m → (∀ t ∈ ts, t.Spelled) → first.All spelled → e.All spelled
  | _, _, _, _, _, .nil, _, hf => hf
  | _, _, _, _, _, .call _ ha _ hr hs, hts, hf =>
    hs.spelled (fun t ht ↦ hts t (by simp [ht]))
      ⟨(hts _ (by simp)).is hr, hf, ha.spelled fun t ht ↦ hts t (by simp [ht])⟩
  | _, _, _, _, _, .get _ hn hs, hts, hf =>
    hs.spelled (fun t ht ↦ hts t (by simp [ht])) ⟨(hts _ (by simp)).is hn, hf⟩

theorem Arguments.spelled : ∀ {n m : Nat} {ts : List Token} {es : List Expr},
    Arguments n ts es m → (∀ t ∈ ts, t.Spelled) → Expr.AllOf spelled es
  | _, _, _, _, .none, _ => trivial
  | _, _, _, _, .some he hs, hts =>
    ⟨he.spelled fun t ht ↦ hts t (by simp [ht]), hs.spelled fun t ht ↦ hts t (by simp [ht])⟩

theorem MoreArguments.spelled : ∀ {n m : Nat} {ts : List Token} {es : List Expr},
    MoreArguments n ts es m → (∀ t ∈ ts, t.Spelled) → Expr.AllOf spelled es
  | _, _, _, _, .nil, _ => trivial
  | _, _, _, _, .cons _ he hs, hts =>
    ⟨he.spelled fun t ht ↦ hts t (by simp [ht]), hs.spelled fun t ht ↦ hts t (by simp [ht])⟩

end

section

variable {n m : Nat} {ts : List Token}

theorem Optional.spelled {o : Option Expr} (h : Optional (Expression .assignment) n ts o m)
    (hts : ∀ t ∈ ts, t.Spelled) : Expr.OptionalAll spelled o := by
  cases h with
  | none => trivial
  | some h => exact h.spelled hts

theorem MoreParameters.spelled {names : List Token} (h : MoreParameters ts names) (hts : ∀ t ∈ ts, t.Spelled) :
    ∀ p ∈ names, p.Is .identifier := by
  induction h with
  | nil => simp
  | cons hc hn _ ih =>
    simp only [List.forall_mem_cons] at hts ⊢
    exact ⟨hts.2.1.is hn, ih hts.2.2⟩

theorem Parameters.spelled {names : List Token} (h : Parameters ts names) (hts : ∀ t ∈ ts, t.Spelled) :
    ∀ p ∈ names, p.Is .identifier := by
  cases h with
  | none => simp
  | some hn hs =>
    simp only [List.forall_mem_cons] at hts ⊢
    exact ⟨hts.1.is hn, hs.spelled hts.2⟩

theorem VarDeclaration.spelled {s : Stmt} (h : VarDeclaration n ts s m) (hts : ∀ t ∈ ts, t.Spelled) :
    s.All spelled := by
  cases h with
  | plain _ hn _ => exact ⟨(hts _ (by simp)).is hn, trivial⟩
  | initial _ hn _ he _ => exact ⟨(hts _ (by simp)).is hn, he.spelled fun t ht ↦ hts t (by simp [ht])⟩

theorem ExpressionStatement.spelled {s : Stmt} (h : ExpressionStatement n ts s m) (hts : ∀ t ∈ ts, t.Spelled) :
    s.All spelled := by
  obtain ⟨he, -⟩ := h
  exact ⟨trivial, he.spelled fun t ht ↦ hts t (by simp [ht])⟩

theorem ForFirst.spelled {o : Option Stmt} (h : ForFirst n ts o m) (hts : ∀ t ∈ ts, t.Spelled) :
    ∀ s ∈ o, s.All spelled := by
  intro s hs
  cases h with
  | none _ => cases hs
  | var h =>
    cases hs
    exact h.spelled hts
  | expr h =>
    cases hs
    exact h.spelled hts

theorem Superclass.spelled {o : Option Ref} (h : Superclass n ts o m) (hts : ∀ t ∈ ts, t.Spelled) :
    ∀ ref ∈ o, ref.name.Is .identifier := by
  intro ref href
  cases h with
  | none => cases href
  | some _ hn =>
    cases href
    exact (hts _ (by simp)).is hn

end

mutual

theorem Statement.spelled {r : ElseRule} : ∀ {dangling : Bool} {n m : Nat} {ts : List Token} {s : Stmt},
    Statement r dangling n ts s m → (∀ t ∈ ts, t.Spelled) → s.All spelled
  | _, _, _, _, _, .expr h, hts => h.spelled hts
  | _, _, _, _, _, .print _ he _, hts => ⟨trivial, he.spelled fun t ht ↦ hts t (by simp [ht])⟩
  | _, _, _, _, _, .ret hk he _, hts =>
    ⟨(hts _ (by simp)).is hk, he.spelled fun t ht ↦ hts t (by simp [ht])⟩
  | _, _, _, _, _, .block _ hb _, hts => ⟨trivial, hb.spelled fun t ht ↦ hts t (by simp [ht])⟩
  | _, _, _, _, _, .cond _ _ ht _ hy, hts =>
    ⟨trivial, ht.spelled fun t ht ↦ hts t (by simp [ht]), hy.spelled fun t ht ↦ hts t (by simp [ht])⟩
  | _, _, _, _, _, .condElse _ _ ht _ hy _ _ hn, hts =>
    ⟨trivial, ht.spelled fun t ht ↦ hts t (by simp [ht]), hy.spelled fun t ht ↦ hts t (by simp [ht]),
      hn.spelled fun t ht ↦ hts t (by simp [ht])⟩
  | _, _, _, _, _, .loop _ _ ht _ hb, hts =>
    ⟨trivial, ht.spelled fun t ht ↦ hts t (by simp [ht]), hb.spelled fun t ht ↦ hts t (by simp [ht])⟩
  | _, _, _, _, _, .forLoop _ _ hf ht _ hi _ hb, hts => by
    rw [forTree_eq]
    exact (all_forLoop leavesLoops_spelled _ (hf.spelled fun t ht ↦ hts t (by simp [ht]))
      (ht.spelled fun t ht ↦ hts t (by simp [ht])) (hi.spelled fun t ht ↦ hts t (by simp [ht]))
      (hb.spelled fun t ht ↦ hts t (by simp [ht])) hb.regular.2).1

theorem Declaration.spelled {r : ElseRule} : ∀ {n m : Nat} {ts : List Token} {s : Stmt},
    Declaration r n ts s m → (∀ t ∈ ts, t.Spelled) → s.All spelled
  | _, _, _, _, .statement h, hts => h.spelled hts
  | _, _, _, _, .var h, hts => h.spelled hts
  | _, _, _, _, .function _ hd, hts => ⟨trivial, hd.spelled fun t ht ↦ hts t (by simp [ht])⟩
  | _, _, _, _, .classDecl _ hn hs _ hm _, hts =>
    ⟨(hts _ (by simp)).is hn, hs.spelled fun t ht ↦ hts t (by simp [ht]),
      hm.spelled fun t ht ↦ hts t (by simp [ht])⟩

theorem Declarations.spelled {r : ElseRule} : ∀ {n m : Nat} {ts : List Token} {ss : List Stmt},
    Declarations r n ts ss m → (∀ t ∈ ts, t.Spelled) → Stmt.AllOf spelled ss
  | _, _, _, _, .nil, _ => trivial
  | _, _, _, _, .cons h hs, hts =>
    ⟨h.spelled fun t ht ↦ hts t (by simp [ht]), hs.spelled fun t ht ↦ hts t (by simp [ht])⟩

theorem Function.spelled {r : ElseRule} : ∀ {n m : Nat} {ts : List Token} {d : FunctionDecl},
    Function r n ts d m → (∀ t ∈ ts, t.Spelled) → d.All spelled
  | _, _, _, _, .intro hn _ hp _ _ _ hb _, hts =>
    ⟨⟨(hts _ (by simp [FunctionDecl.name])).is hn, hp.spelled fun t ht ↦ hts t (by simp [ht])⟩,
      hb.spelled fun t ht ↦ hts t (by simp [ht])⟩

theorem Functions.spelled {r : ElseRule} : ∀ {n m : Nat} {ts : List Token} {ds : List FunctionDecl},
    Functions r n ts ds m → (∀ t ∈ ts, t.Spelled) → FunctionDecl.AllOf spelled ds
  | _, _, _, _, .nil, _ => trivial
  | _, _, _, _, .cons h hs, hts =>
    ⟨h.spelled fun t ht ↦ hts t (by simp [ht]), hs.spelled fun t ht ↦ hts t (by simp [ht])⟩

end

end Grammar

theorem Parse.spelled_of_parse {source : String} {n m : Nat} {program : List Stmt}
    (h : parse (Token.tokensOf (Token.scan source)) n = ⟨.ok program, m⟩) : Stmt.AllOf spelled program :=
  (parse_eq_ok_iff.1 h).spelled fun _ ↦ Token.spelled_of_mem_words

end Lox
