import Lox.Proofs.Grammar.Basic
import Lox.Proofs.Token.Word
import Lox.Proofs.Tree.Basic

namespace Lox

/-- Occurrences that bear different ids, from `n` on and below `m`. -/
structure Numbered (n m : Nat) (refs : List Ref) : Prop where
  le : n ≤ m
  within : ∀ r ∈ refs, n ≤ r.id ∧ r.id < m
  distinct : refs.Pairwise (·.id ≠ ·.id)

namespace Numbered

variable {n m p : Nat} {refs refs' : List Ref}

theorem nil (n : Nat) : Numbered n n [] := ⟨Nat.le_refl n, by simp, .nil⟩

theorem single {name : Token} (h : n ≤ m) : Numbered n (m + 1) [⟨m, name⟩] := by
  refine ⟨Nat.le_succ_of_le h, ?_, List.pairwise_singleton ..⟩
  simp only [List.mem_singleton, forall_eq]
  exact ⟨h, Nat.lt_succ_self m⟩

theorem mono (h : Numbered m p refs) (hn : n ≤ m) : Numbered n p refs :=
  ⟨Nat.le_trans hn h.le, fun r hr ↦ ⟨Nat.le_trans hn (h.within r hr).1, (h.within r hr).2⟩, h.distinct⟩

theorem append (h : Numbered n m refs) (h' : Numbered m p refs') : Numbered n p (refs ++ refs') := by
  have hle := h.le
  have hle' := h'.le
  refine ⟨by omega, fun r hr ↦ ?_, ?_⟩
  · rw [List.mem_append] at hr
    obtain hr | hr := hr
    · have := h.within r hr
      omega
    · have := h'.within r hr
      omega
  · refine List.pairwise_append.2 ⟨h.distinct, h'.distinct, fun a ha b hb ↦ ?_⟩
    have := h.within a ha
    have := h'.within b hb
    omega

theorem perm (h : Numbered n m refs) (hp : refs.Perm refs') : Numbered n m refs' :=
  ⟨h.le, fun r hr ↦ h.within r (hp.mem_iff.2 hr), (hp.pairwise_iff fun h ↦ Ne.symm h).1 h.distinct⟩

theorem append_swap (h : Numbered n m refs) (h' : Numbered m p refs') :
    Numbered n p (refs' ++ refs) := (h.append h').perm List.perm_append_comm

end Numbered

namespace Grammar

/-- What a derivation says of its tree: of the occurrences in it, and of its nodes if the tokens come
from a source. -/
structure Yields (n m : Nat) (ts : List Token) (refs : List Ref) (nodes : Prop) : Prop where
  numbered : Numbered n m refs
  nodes : (∀ t ∈ ts, t.Genuine) → nodes

namespace Yields

variable {n m p : Nat} {ts ts' : List Token} {refs refs' : List Ref} {P Q : Prop}

theorem append (h : Yields n m ts refs P) (h' : Yields m p ts' refs' Q) :
    Yields n p (ts ++ ts') (refs ++ refs') (P ∧ Q) := by
  refine ⟨h.numbered.append h'.numbered, fun hg ↦ ?_⟩
  rw [List.forall_mem_append] at hg
  exact ⟨h.nodes hg.1, h'.nodes hg.2⟩

theorem append_swap (h : Yields n m ts refs P) (h' : Yields m p ts' refs' Q) :
    Yields n p (ts ++ ts') (refs' ++ refs) (P ∧ Q) :=
  ⟨h.numbered.append_swap h'.numbered, (h.append h').nodes⟩

theorem among (h : Yields n m ts refs P) (hts : ∀ t ∈ ts, t ∈ ts') (hPQ : P → Q) :
    Yields n m ts' refs Q := ⟨h.numbered, fun hg ↦ hPQ (h.nodes fun t ht ↦ hg t (hts t ht))⟩

end Yields

theorem ordinary_of_identifier {t : Token} (h : t.Genuine) (ht : t.kind = .identifier) : t.Ordinary :=
  ⟨h.identifier ht .kThis, h.identifier ht .kSuper⟩

theorem Yields.node {n m : Nat} {ts : List Token} {left right : Expr} {op : Token} {ℓ ℓ' : Level}
    (ho : op.kind ∈ ℓ.operators) (hl : ℓ.operand? = some ℓ')
    (h : Yields n m ts (left.refs ++ right.refs) (left.All proper ∧ right.All proper)) :
    Yields n m ts (ℓ.node left op right).refs ((ℓ.node left op right).All proper) := by
  cases ℓ with
  | disjunction | conjunction => exact ⟨h.numbered, fun hg ↦ ⟨trivial, h.nodes hg⟩⟩
  | equality | comparison | term | factor =>
    refine ⟨h.numbered, fun hg ↦ ⟨?_, h.nodes hg⟩⟩
    simp only [Level.operators, List.mem_cons, List.not_mem_nil, or_false] at ho
    simp only [proper, binaryOperators, List.mem_cons]
    grind
  | assignment | unary | call | primary => cases hl

mutual

theorem Expression.yields : ∀ {ℓ : Level} {n m : Nat} {ts : List Token} {e : Expr},
    Expression ℓ n ts e m → Yields n m ts e.refs (e.All proper)
  | _, n, _, _, _, .assign hn he hv => by
    obtain ⟨hnum, hnodes⟩ := hv.yields
    refine ⟨(hnum.append (.single (Nat.le_refl _))).mono (Nat.le_succ n), fun hg ↦ ?_⟩
    have hname := ordinary_of_identifier (hg _ (List.mem_cons_self ..)) hn
    exact ⟨hname, hnodes fun t ht ↦ hg t (by simp [ht])⟩
  | _, _, _, _, _, .set ho _ _ _ hv =>
    (ho.yields.append_swap hv.yields).among (by grind) fun h ↦ ⟨trivial, h⟩
  | _, _, _, _, _, .noAssign h => h.yields
  | _, _, _, _, _, .chain _ hf ho => ho.yields hf.yields
  | _, _, _, _, _, .unary ho he => he.yields.among (by grind) fun h ↦ ⟨ho, h⟩
  | _, _, _, _, _, .noUnary h => h.yields
  | _, _, _, _, _, .call hf hs => hs.yields hf.yields
  | _, n, _, _, _, .literal _ => ⟨.nil n, fun _ ↦ trivial⟩
  | _, n, _, _, _, .this ht =>
    ⟨.single (Nat.le_refl n), fun hg ↦ (hg _ (List.mem_singleton_self _)).keyword .kThis ht⟩
  | _, n, _, _, _, .var _ => ⟨.single (Nat.le_refl n), fun _ ↦ trivial⟩
  | _, n, _, _, _, .super ht _ _ =>
    ⟨.single (Nat.le_refl n), fun hg ↦ (hg _ (List.mem_cons_self ..)).keyword .kSuper ht⟩
  | _, _, _, _, _, .grouping _ he _ => he.yields.among (by grind) fun h ↦ ⟨trivial, h⟩

theorem Operands.yields : ∀ {ℓ : Level} {k n m : Nat} {ts₀ ts : List Token} {first e : Expr},
    Operands ℓ n ts first e m → Yields k n ts₀ first.refs (first.All proper) →
      Yields k m (ts₀ ++ ts) e.refs (e.All proper)
  | _, _, _, _, _, _, _, _, .nil, h => h.among (by grind) id
  | _, _, _, _, _, _, _, _, .cons ho hl hr ht, h =>
    (ht.yields ((h.append hr.yields).node ho hl)).among (by grind) id

theorem Suffixes.yields : ∀ {k n m : Nat} {ts₀ ts : List Token} {first e : Expr},
    Suffixes n ts first e m → Yields k n ts₀ first.refs (first.All proper) →
      Yields k m (ts₀ ++ ts) e.refs (e.All proper)
  | _, _, _, _, _, _, _, .nil, h => h.among (by grind) id
  | _, _, _, _, _, _, _, .call _ ha _ _ hs, h =>
    (hs.yields ((h.append ha.yields).among (fun _ ↦ id) fun h ↦ ⟨trivial, h⟩)).among
      (by grind) id
  | _, _, _, _, _, _, _, .get _ _ hs, h =>
    (hs.yields (h.among (fun _ ↦ id) fun h ↦ ⟨trivial, h⟩)).among (by grind) id

theorem Arguments.yields : ∀ {n m : Nat} {ts : List Token} {es : List Expr},
    Arguments n ts es m → Yields n m ts (Expr.refsOf es) (Expr.AllOf proper es)
  | n, _, _, _, .none => ⟨.nil n, fun _ ↦ trivial⟩
  | _, _, _, _, .some he hs => he.yields.append hs.yields

theorem MoreArguments.yields : ∀ {n m : Nat} {ts : List Token} {es : List Expr},
    MoreArguments n ts es m → Yields n m ts (Expr.refsOf es) (Expr.AllOf proper es)
  | n, _, _, _, .nil => ⟨.nil n, fun _ ↦ trivial⟩
  | _, _, _, _, .cons _ he hs => (he.yields.append hs.yields).among (by grind) id

end

theorem Optional.yields {n m : Nat} {ts : List Token} {o : Option Expr}
    (h : Optional (Expression .assignment) n ts o m) :
    Yields n m ts (Expr.optionalRefs o) (Expr.OptionalAll proper o) := by
  cases h with
  | none => exact ⟨.nil n, fun _ ↦ trivial⟩
  | some h => exact h.yields

theorem MoreParameters.ordinary {ts names : List Token} (h : MoreParameters ts names)
    (hg : ∀ t ∈ ts, t.Genuine) : ∀ p ∈ names, p.Ordinary := by
  induction h with
  | nil => simp
  | cons hc hn _ ih =>
    simp only [List.forall_mem_cons] at hg ⊢
    exact ⟨ordinary_of_identifier hg.2.1 hn, ih hg.2.2⟩

theorem Parameters.ordinary {ts names : List Token} (h : Parameters ts names)
    (hg : ∀ t ∈ ts, t.Genuine) : ∀ p ∈ names, p.Ordinary := by
  cases h with
  | none => simp
  | some hn hs =>
    simp only [List.forall_mem_cons] at hg ⊢
    exact ⟨ordinary_of_identifier hg.1 hn, hs.ordinary hg.2⟩

theorem VarDeclaration.yields {n m : Nat} {ts : List Token} {s : Stmt} (h : VarDeclaration n ts s m) :
    Yields n m ts s.refs (s.All proper) := by
  have hname {name : Token} (hg : name.Genuine) (hn : name.kind = .identifier) (initial : Option Expr) :
      ∀ t ∈ (Stmt.var name initial).declared?, t.Ordinary := by
    rintro _ ⟨⟩
    exact ordinary_of_identifier hg hn
  cases h with
  | plain _ hn _ => exact ⟨.nil n, fun hg ↦ ⟨hname (hg _ (by simp)) hn _, trivial⟩⟩
  | initial _ hn _ he _ =>
    refine ⟨he.yields.numbered, fun hg ↦ ⟨hname (hg _ (by simp)) hn _, he.yields.nodes fun t ht ↦ ?_⟩⟩
    exact hg t (by simp [ht])

theorem ExpressionStatement.yields {n m : Nat} {ts : List Token} {s : Stmt}
    (h : ExpressionStatement n ts s m) : Yields n m ts s.refs (s.All proper ∧ s.declared? = none) := by
  obtain ⟨he, -⟩ := h
  exact he.yields.among (by grind) fun h ↦ ⟨⟨nofun, h⟩, rfl⟩

def optionalRefs : Option Stmt → List Ref
  | none => []
  | some s => s.refs

theorem ForFirst.yields {n m : Nat} {ts : List Token} {o : Option Stmt} (h : ForFirst n ts o m) :
    Yields n m ts (optionalRefs o) (∀ s ∈ o, s.All proper) := by
  cases h with
  | none _ => exact ⟨.nil n, fun _ ↦ nofun⟩
  | var h =>
    refine h.yields.among (fun _ ↦ id) fun h ↦ ?_
    rintro _ ⟨⟩
    exact h
  | expr h =>
    refine h.yields.among (fun _ ↦ id) fun h ↦ ?_
    rintro _ ⟨⟩
    exact h.1

theorem refs_forLoop (line : Nat) (first : Option Stmt) (test step : Option Expr) (body : Stmt) :
    (optionalRefs first ++ Expr.optionalRefs test ++ Expr.optionalRefs step ++ body.refs).Perm
      (Stmt.forLoop line first test step body).refs := by
  cases first <;> cases test <;> cases step <;>
    simp [Stmt.forLoop, optionalRefs, Expr.optionalRefs, Stmt.refs, Stmt.refsOf, Expr.refs,
      List.perm_append_left_iff, List.perm_append_comm]

/-- A condition that asks of a loop only that its body declares nothing, and nothing of what may be put
in around it. -/
structure LeavesLoops (c : Condition) : Prop where
  literal : ∀ line, c.expr (.literal (.bool true) line)
  expr : ∀ e, c.stmt (.expr e)
  block : ∀ body, c.stmt (.block body)
  loop : ∀ test body, body.declared? = none → c.stmt (.loop test body)

theorem leavesLoops_proper : LeavesLoops proper :=
  ⟨fun _ ↦ trivial, fun _ ↦ nofun, fun _ ↦ nofun, fun _ _ h ↦ h⟩

theorem all_forLoop {c : Condition} (hc : LeavesLoops c) {first : Option Stmt} {test step : Option Expr}
    {body : Stmt} (line : Nat) (hf : ∀ s ∈ first, s.All c) (ht : Expr.OptionalAll c test)
    (hs : Expr.OptionalAll c step) (hb : body.All c) (hd : body.declared? = none) :
    (Stmt.forLoop line first test step body).All c ∧
      (Stmt.forLoop line first test step body).declared? = none := by
  have htest : (test.getD (.literal (.bool true) line)).All c := by
    cases test with
    | none => exact hc.literal _
    | some e => exact ht
  have hloop {s : Stmt} (h : s.All c) (hd : s.declared? = none) :
      (Stmt.loop (test.getD (.literal (.bool true) line)) s).All c := ⟨hc.loop _ _ hd, htest, h⟩
  have hbody {e : Expr} (he : e.All c) : (Stmt.block [body, .expr e]).All c :=
    ⟨hc.block _, hb, ⟨hc.expr e, he⟩, trivial⟩
  have hblock {s whole : Stmt} (h : s.All c) (hw : whole.All c) : (Stmt.block [s, whole]).All c :=
    ⟨hc.block _, h, hw, trivial⟩
  cases first with
  | none =>
    cases step with
    | none => exact ⟨hloop hb hd, rfl⟩
    | some e => exact ⟨hloop (hbody hs) rfl, rfl⟩
  | some s =>
    cases step with
    | none => exact ⟨hblock (hf s rfl) (hloop hb hd), rfl⟩
    | some e => exact ⟨hblock (hf s rfl) (hloop (hbody hs) rfl), rfl⟩

theorem Superclass.numbered {n m : Nat} {ts : List Token} {o : Option Ref} (h : Superclass n ts o m) :
    Numbered n m o.toList := by
  cases h with
  | none => exact .nil n
  | some _ _ => exact .single (Nat.le_refl n)

mutual

theorem Statement.yields {r : ElseRule} : ∀ {dangling : Bool} {n m : Nat} {ts : List Token} {s : Stmt},
    Statement r dangling n ts s m → Yields n m ts s.refs (s.All proper ∧ s.declared? = none)
  | _, _, _, _, _, .expr h => h.yields
  | _, _, _, _, _, .print _ he _ => he.yields.among (by grind) fun h ↦ ⟨⟨nofun, h⟩, rfl⟩
  | _, _, _, _, _, .ret _ he _ => he.yields.among (by grind) fun h ↦ ⟨⟨nofun, h⟩, rfl⟩
  | _, _, _, _, _, .block _ hb _ => hb.yields.among (by grind) fun h ↦ ⟨⟨nofun, h⟩, rfl⟩
  | _, _, _, _, _, .cond _ _ ht _ hy =>
    (ht.yields.append hy.yields).among (by grind) fun ⟨ht, hy, hd⟩ ↦ ⟨⟨hd, ht, hy⟩, rfl⟩
  | _, _, _, _, _, .condElse _ _ ht _ hy _ _ hn =>
    (ht.yields.append (hy.yields.append hn.yields)).among (by grind)
      fun ⟨ht, ⟨hy, hd⟩, hn, hd'⟩ ↦ ⟨⟨⟨hd, hd'⟩, ht, hy, hn⟩, rfl⟩
  | _, _, _, _, _, .loop _ _ ht _ hb =>
    (ht.yields.append hb.yields).among (by grind) fun ⟨ht, hb, hd⟩ ↦ ⟨⟨hd, ht, hb⟩, rfl⟩
  | _, _, _, _, _, .forLoop _ _ hf ht _ hi _ hb => by
    have h := ((hf.yields.append ht.yields).append hi.yields).append hb.yields
    rw [forTree_eq]
    refine ⟨h.numbered.perm (refs_forLoop ..), fun hg ↦ ?_⟩
    obtain ⟨⟨⟨hf, ht⟩, hi⟩, hb, hd⟩ := h.nodes fun t hm ↦ hg t (by grind)
    exact all_forLoop leavesLoops_proper _ hf ht hi hb hd

theorem Declaration.yields {r : ElseRule} : ∀ {n m : Nat} {ts : List Token} {s : Stmt},
    Declaration r n ts s m → Yields n m ts s.refs (s.All proper)
  | _, _, _, _, .statement h => h.yields.among (fun _ ↦ id) And.left
  | _, _, _, _, .var h => h.yields
  | _, _, _, _, .function _ hd => by
    refine hd.yields.among (by grind) fun ⟨hd, hn⟩ ↦ ⟨?_, hd⟩
    rintro _ ⟨⟩
    exact hn
  | _, _, _, _, .classDecl _ hn hs _ hm _ => by
    refine ⟨hs.numbered.append hm.yields.numbered, fun hg ↦
      ⟨?_, fun _ _ ↦ trivial, hm.yields.nodes fun t ht ↦ ?_⟩⟩
    · rintro _ ⟨⟩
      exact ordinary_of_identifier (hg _ (by simp)) hn
    · exact hg t (by simp [ht])

theorem Declarations.yields {r : ElseRule} : ∀ {n m : Nat} {ts : List Token} {ss : List Stmt},
    Declarations r n ts ss m → Yields n m ts (Stmt.refsOf ss) (Stmt.AllOf proper ss)
  | n, _, _, _, .nil => ⟨.nil n, fun _ ↦ trivial⟩
  | _, _, _, _, .cons h hs => h.yields.append hs.yields

theorem Function.yields {r : ElseRule} : ∀ {n m : Nat} {ts : List Token} {d : FunctionDecl},
    Function r n ts d m → Yields n m ts d.refs (d.All proper ∧ d.name.Ordinary)
  | _, _, _, _, .intro hn _ hp _ _ _ hb _ => by
    refine ⟨hb.yields.numbered, fun hg ↦ ⟨⟨hp.ordinary fun t ht ↦ ?_, hb.yields.nodes fun t ht ↦ ?_⟩, ?_⟩⟩
    · exact hg t (by simp [ht])
    · exact hg t (by simp [ht])
    · exact ordinary_of_identifier (hg _ (List.mem_append_left _ (List.mem_cons_self ..))) hn

theorem Functions.yields {r : ElseRule} : ∀ {n m : Nat} {ts : List Token} {ds : List FunctionDecl},
    Functions r n ts ds m → Yields n m ts (FunctionDecl.refsOf ds) (FunctionDecl.AllOf proper ds)
  | n, _, _, _, .nil => ⟨.nil n, fun _ ↦ trivial⟩
  | _, _, _, _, .cons h hs =>
    (h.yields.append hs.yields).among (fun _ ↦ id) fun ⟨⟨hd, _⟩, hs⟩ ↦ ⟨hd, hs⟩

end

end Grammar

end Lox
