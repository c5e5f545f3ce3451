import Lox.Proofs.Tree.Solid

namespace Lox

open Form

def Relabeling.erase : Relabeling := ⟨fun _ ↦ 0, fun _ ↦ 0⟩

theorem Lexeme.text_of_mark {text : List Char} {m : Mark} (h : Lexeme text (.mark m)) : text = m.text.toList := by
  cases h
  rfl

theorem Lexeme.text_of_keyword {text : List Char} {k : Keyword} (h : Lexeme text (.keyword k)) :
    text = k.text.toList := by
  cases h
  rfl

namespace Token

variable {t : Token} {kind : Kind}

def read (w : String) : Option Token := (words w).head?.map (·.relabel .erase)

theorem read_of_lexeme {w : String} (h : Lexeme w.toList kind) : read w = some ⟨kind, w, 0⟩ := by
  have hwords : words w = wordsFrom 1 [⟨.token kind, w.toList, []⟩] := by rw [words_eq, h.all_eq]
  have hkind : kind ≠ .eof := by
    rintro rfl
    generalize w.toList = text at h
    cases h
  rw [read, hwords, wordsFrom_cons (by simpa using hkind)]
  simp [ofSpan, relabel, Relabeling.erase]

theorem Is.read (h : t.Is kind) : read t.lexeme = some (t.relabel .erase) := by
  rw [read_of_lexeme h.spelled, ← h.kind_eq]
  rfl

theorem read_mark (m : Mark) : read m.text = some ⟨.mark m, m.text, 0⟩ := read_of_lexeme (.mark m)

theorem read_keyword (k : Keyword) : read k.text = some ⟨.keyword k, k.text, 0⟩ := read_of_lexeme (.keyword k)

theorem read_head {w : String} (h : w ∈ ["group", "call", "block"]) : read w = some ⟨.identifier, w, 0⟩ :=
  read_of_lexeme (lexeme_head h)

theorem Is.relabel_mark {m : Mark} (h : t.Is (.mark m)) : t.relabel .erase = ⟨.mark m, m.text, 0⟩ := by
  have hlexeme : t.lexeme = m.text := String.toList_inj.1 h.spelled.text_of_mark
  rw [← h.kind_eq, ← hlexeme]
  rfl

theorem Is.relabel_keyword {k : Keyword} (h : t.Is (.keyword k)) : t.relabel .erase = ⟨.keyword k, k.text, 0⟩ := by
  have hlexeme : t.lexeme = k.text := String.toList_inj.1 h.spelled.text_of_keyword
  rw [← h.kind_eq, ← hlexeme]
  rfl

end Token

def Expr.ofToken (t : Token) : Option Expr :=
  match t.kind with
  | .identifier => some (.var ⟨0, t⟩)
  | .keyword .kThis => some (.this ⟨0, t⟩)
  | kind => (Grammar.literal? kind).map (.literal · 0)

def Expr.combine (head : Token) (operands : List Expr) : Option Expr :=
  match head.kind, operands with
  | .identifier, [e] => some (if head.lexeme = "group" then .grouping e else .call e [] ⟨.mark .rightParen, ")", 0⟩)
  | .identifier, callee :: arguments => some (.call callee arguments ⟨.mark .rightParen, ")", 0⟩)
  | .keyword .kSuper, [.var ref] => some (.super ⟨0, head⟩ ref.name)
  | .keyword _, [left, right] => some (.logical left head right)
  | .mark .dot, [object, .var ref] => some (.get object ref.name)
  | .mark .equal, [.var ref, value] => some (.assign ref value)
  | .mark .equal, [.get object name, value] => some (.set object name value)
  | .mark _, [operand] => some (.unary head operand)
  | .mark _, [left, right] => some (.binary left head right)
  | _, _ => none

mutual

def Expr.ofForm : Form → Option Expr
  | .word w => (Token.read w).bind Expr.ofToken
  | .list (.word w :: operands) =>
    (Token.read w).bind fun head ↦ (Expr.ofForms operands).bind fun es ↦ Expr.combine head es
  | .list _ => none

def Expr.ofForms : List Form → Option (List Expr)
  | [] => some []
  | f :: fs => (Expr.ofForm f).bind fun e ↦ (Expr.ofForms fs).map fun es ↦ e :: es

end

def Token.ofForm : Form → Option Token
  | .word w => Token.read w
  | .list _ => none

def Stmt.functions : List Stmt → List FunctionDecl
  | [] => []
  | .function decl :: ss => decl :: Stmt.functions ss
  | _ :: ss => Stmt.functions ss

/-- Something behind the first word of a list, with what it is if it is a statement. -/
structure Item where
  form : Form
  stmt? : Option Stmt

/-- A statement from the word in front of it and what stands behind this word. Methods are written as functions are. -/
def Stmt.combine (head : Token) (items : List Item) : Option Stmt :=
  match head.kind, items with
  | .mark .semicolon, [e] => (Expr.ofForm e.form).map .expr
  | .keyword .kPrint, [e] => (Expr.ofForm e.form).map .print
  | .keyword .kVar, [name] => (Token.ofForm name.form).map fun name ↦ .var name none
  | .keyword .kVar, [name, e] =>
    (Token.ofForm name.form).bind fun name ↦ (Expr.ofForm e.form).map fun e ↦ .var name (some e)
  | .identifier, body => (body.mapM Item.stmt?).map .block
  | .keyword .kIf, [test, yes] =>
    (Expr.ofForm test.form).bind fun test ↦ yes.stmt?.map fun yes ↦ .cond test yes none
  | .keyword .kIf, [test, yes, no] =>
    (Expr.ofForm test.form).bind fun test ↦ yes.stmt?.bind fun yes ↦ no.stmt?.map fun no ↦ .cond test yes (some no)
  | .keyword .kWhile, [test, body] =>
    (Expr.ofForm test.form).bind fun test ↦ body.stmt?.map fun body ↦ .loop test body
  | .keyword .kFun, name :: ⟨.list params, _⟩ :: body =>
    (Token.ofForm name.form).bind fun name ↦ (params.mapM Token.ofForm).bind fun params ↦
      (body.mapM Item.stmt?).map fun body ↦ .function (.mk name params body)
  | .keyword .kReturn, [] => some (.ret head none)
  | .keyword .kReturn, [e] => (Expr.ofForm e.form).map fun e ↦ .ret head (some e)
  | .keyword .kClass, name :: ⟨.word _, _⟩ :: superclass :: methods =>
    (Token.ofForm name.form).bind fun name ↦ (Token.ofForm superclass.form).bind fun superclass ↦
      (methods.mapM Item.stmt?).map fun ss ↦ .classDecl name (some ⟨0, superclass⟩) (Stmt.functions ss)
  | .keyword .kClass, name :: methods =>
    (Token.ofForm name.form).bind fun name ↦
      (methods.mapM Item.stmt?).map fun ss ↦ .classDecl name none (Stmt.functions ss)
  | _, _ => none

mutual

def Stmt.ofForm : Form → Option Stmt
  | .list (.word w :: fs) => (Token.read w).bind fun head ↦ Stmt.combine head (Stmt.items fs)
  | _ => none

def Stmt.items : List Form → List Item
  | [] => []
  | f :: fs => ⟨f, Stmt.ofForm f⟩ :: Stmt.items fs

end

theorem Expr.ofToken_literal {t : Token} {v : Literal} (h : Grammar.literal? t.kind = some v) :
    Expr.ofToken t = some (.literal v 0) := by
  unfold Expr.ofToken
  split
  · next hk => simp [hk, Grammar.literal?] at h
  · next hk => simp [hk, Grammar.literal?] at h
  · rw [h, Option.map_some]

theorem Expr.combine_unary {op : Token} (h : op.kind ∈ unaryOperators) (e : Expr) :
    Expr.combine op [e] = some (.unary op e) := by
  simp only [unaryOperators, List.mem_cons, List.not_mem_nil, or_false] at h
  rcases h with h | h <;> simp [Expr.combine, h]

theorem Expr.combine_binary {op : Token} (h : op.kind ∈ binaryOperators) (left right : Expr) :
    Expr.combine op [left, right] = some (.binary left op right) := by
  simp only [binaryOperators, List.mem_cons, List.not_mem_nil, or_false] at h
  rcases h with h | h | h | h | h | h | h | h | h | h <;> simp [Expr.combine, h]

theorem Expr.combine_logical {op : Token} (h : op.kind = .keyword .kAnd ∨ op.kind = .keyword .kOr) (left right : Expr) :
    Expr.combine op [left, right] = some (.logical left op right) := by
  rcases h with h | h <;> simp [Expr.combine, h]

theorem Ref.relabel_erase (ref : Ref) : ref.relabel .erase = ⟨0, ref.name.relabel .erase⟩ := rfl

theorem Expr.ofForm_word {w : String} {t : Token} {e : Expr} (hw : Token.read w = some t)
    (he : Expr.ofToken t = some e) : Expr.ofForm (word w) = some e := by
  rw [Expr.ofForm, hw, Option.bind_some, he]

theorem Expr.ofForm_name {t : Token} (h : t.Is .identifier) :
    Expr.ofForm (word t.lexeme) = some (.var ⟨0, t.relabel .erase⟩) :=
  ofForm_word h.read (by simp [Expr.ofToken, h.kind_eq])

theorem Expr.ofForms_cons {f : Form} {fs : List Form} {e : Expr} {es : List Expr} (hf : Expr.ofForm f = some e)
    (hfs : Expr.ofForms fs = some es) : Expr.ofForms (f :: fs) = some (e :: es) := by
  rw [Expr.ofForms, hf, hfs]
  rfl

theorem Expr.ofForm_list {w : String} {fs : List Form} {head : Token} {e : Expr} {es : List Expr}
    (hw : Token.read w = some head) (hfs : Expr.ofForms fs = some es) (he : Expr.combine head es = some e) :
    Expr.ofForm (list (word w :: fs)) = some e := by
  rw [Expr.ofForm, hw, Option.bind_some, hfs, Option.bind_some, he]

mutual

/-- The form of an expression is read as this expression. -/
theorem Expr.ofForm_form : ∀ e : Expr, e.All spelled → (∀ v ∈ e.literals, v.Plain) →
    Expr.ofForm e.form = some (e.relabel .erase)
  | .literal v _, hs, hv => by
    obtain ⟨kind, hkind, -, hvalue⟩ := Literal.exists_lexeme hs (hv v (.head _))
    exact ofForm_word (Token.read_of_lexeme hkind) (ofToken_literal hvalue)
  | .var _, hs, _ => Expr.ofForm_name hs
  | .this ref, hs, _ => by
    rw [Expr.relabel, Ref.relabel_erase, Token.Is.relabel_keyword hs]
    exact ofForm_word (Token.read_keyword .kThis) rfl
  | .assign _ value, hs, hv =>
    have hvalue := value.ofForm_form hs.2 hv
    Expr.ofForm_list (Token.read_mark .equal) (ofForms_cons (ofForm_name hs.1) (ofForms_cons hvalue rfl)) rfl
  | .unary op operand, hs, hv => by
    obtain ⟨⟨kind, hk, hop⟩, hs⟩ := hs
    have hkind : (op.relabel .erase).kind ∈ unaryOperators := hop.kind_eq ▸ hk
    exact ofForm_list hop.read (ofForms_cons (operand.ofForm_form hs hv) rfl) (combine_unary hkind _)
  | .binary left op right, hs, hv => by
    obtain ⟨⟨kind, hk, hop⟩, hleft, hright⟩ := hs
    have hkind : (op.relabel .erase).kind ∈ binaryOperators := hop.kind_eq ▸ hk
    rw [Expr.literals, List.forall_mem_append] at hv
    have hleft := left.ofForm_form hleft hv.1
    have hright := right.ofForm_form hright hv.2
    exact ofForm_list hop.read (ofForms_cons hleft (ofForms_cons hright rfl)) (combine_binary hkind _ _)
  | .logical left op right, hs, hv => by
    obtain ⟨hop, hleft, hright⟩ := hs
    have hword : Token.read op.lexeme = some (op.relabel .erase) := hop.elim (·.read) (·.read)
    rw [Expr.literals, List.forall_mem_append] at hv
    have hleft := left.ofForm_form hleft hv.1
    have hright := right.ofForm_form hright hv.2
    exact ofForm_list hword (ofForms_cons hleft (ofForms_cons hright rfl))
      (combine_logical (hop.imp (·.kind_eq) (·.kind_eq)) _ _)
  | .grouping inner, hs, hv =>
    ofForm_list (Token.read_head (by decide)) (ofForms_cons (inner.ofForm_form hs.2 hv) rfl) rfl
  | .call callee arguments paren, hs, hv => by
    obtain ⟨hparen, hcallee, harguments⟩ := hs
    rw [Expr.literals, List.forall_mem_append] at hv
    have hcallee := callee.ofForm_form hcallee hv.1
    have harguments := Expr.ofForms_forms arguments harguments hv.2
    refine ofForm_list (Token.read_head (by decide)) (ofForms_cons hcallee harguments) ?_
    rw [Expr.relabel, Token.Is.relabel_mark hparen]
    cases arguments <;> rfl
  | .get object _, hs, hv =>
    have hobject := object.ofForm_form hs.2 hv
    ofForm_list (Token.read_mark .dot) (ofForms_cons hobject (ofForms_cons (ofForm_name hs.1) rfl)) rfl
  | .set object name value, hs, hv => by
    rw [Expr.literals, List.forall_mem_append] at hv
    have hobject := object.ofForm_form hs.2.1 hv.1
    have hvalue := value.ofForm_form hs.2.2 hv.2
    have hget : Expr.ofForm (list [word ".", object.form, word name.lexeme]) = some _ :=
      ofForm_list (Token.read_mark .dot) (ofForms_cons hobject (ofForms_cons (ofForm_name hs.1) rfl)) rfl
    exact ofForm_list (Token.read_mark .equal) (ofForms_cons hget (ofForms_cons hvalue rfl)) rfl
  | .super ref _, hs, _ => by
    rw [Expr.relabel, Ref.relabel_erase, hs.1.relabel_keyword]
    exact ofForm_list (Token.read_keyword .kSuper) (ofForms_cons (ofForm_name hs.2) rfl) rfl

theorem Expr.ofForms_forms : ∀ es : List Expr, Expr.AllOf spelled es → (∀ v ∈ Expr.literalsOf es, v.Plain) →
    Expr.ofForms (Expr.forms es) = some (Expr.relabelAll .erase es)
  | [], _, _ => rfl
  | e :: es, hs, hv => by
    rw [Expr.literalsOf, List.forall_mem_append] at hv
    exact ofForms_cons (e.ofForm_form hs.1 hv.1) (Expr.ofForms_forms es hs.2 hv.2)

end

theorem Token.mapM_ofForm {names : List Token} (h : ∀ t ∈ names, t.Is .identifier) :
    (nameForms names).mapM Token.ofForm = some (names.map (·.relabel .erase)) := by
  induction names with
  | nil => rfl
  | cons t names ih =>
    rw [List.forall_mem_cons] at h
    have hnames := ih h.2
    rw [nameForms] at hnames ⊢
    rw [List.map_cons, List.mapM_cons, Token.ofForm, h.1.read, hnames]
    rfl

theorem Stmt.functions_map (ds : List FunctionDecl) : Stmt.functions (ds.map Stmt.function) = ds := by
  induction ds with
  | nil => rfl
  | cons d ds ih => rw [List.map_cons, Stmt.functions, ih]

theorem Stmt.ofForm_list {w : String} {fs : List Form} {head : Token} {s : Stmt} (hw : Token.read w = some head)
    (hs : Stmt.combine head (Stmt.items fs) = some s) : Stmt.ofForm (list (word w :: fs)) = some s := by
  rw [Stmt.ofForm, hw, Option.bind_some, hs]

theorem Stmt.mapM_items_cons {f : Form} {fs : List Form} {s : Stmt} {ss : List Stmt} (hf : Stmt.ofForm f = some s)
    (hfs : (Stmt.items fs).mapM Item.stmt? = some ss) : (Stmt.items (f :: fs)).mapM Item.stmt? = some (s :: ss) := by
  rw [Stmt.items, List.mapM_cons, hf, hfs]
  rfl

mutual

/-- The form of a statement is read as this statement. -/
theorem Stmt.ofForm_form : ∀ s : Stmt, s.All spelled → (∀ v ∈ s.literals, v.Plain) →
    Stmt.ofForm s.form = some (s.relabel .erase)
  | .expr e, hs, hv => by
    refine Stmt.ofForm_list (Token.read_mark .semicolon) ?_
    simp [Stmt.items, Stmt.combine, e.ofForm_form hs.2 hv, Stmt.relabel]
  | .print e, hs, hv => by
    refine Stmt.ofForm_list (Token.read_keyword .kPrint) ?_
    simp [Stmt.items, Stmt.combine, e.ofForm_form hs.2 hv, Stmt.relabel]
  | .var name none, hs, _ => by
    refine Stmt.ofForm_list (Token.read_keyword .kVar) ?_
    simp [Stmt.items, Stmt.combine, Token.ofForm, hs.1.read, Stmt.relabel]
  | .var name (some e), hs, hv => by
    refine Stmt.ofForm_list (Token.read_keyword .kVar) ?_
    simp [Stmt.items, Stmt.combine, Token.ofForm, hs.1.read, e.ofForm_form hs.2 hv, Stmt.relabel]
  | .block body, hs, hv => by
    refine Stmt.ofForm_list (Token.read_head (by decide)) ?_
    simp [Stmt.combine, Stmt.mapM_items body hs.2 hv, Stmt.relabel]
  | .cond test yes none, hs, hv => by
    rw [Stmt.literals, List.forall_mem_append] at hv
    refine Stmt.ofForm_list (Token.read_keyword .kIf) ?_
    simp [Stmt.items, Stmt.combine, test.ofForm_form hs.2.1 hv.1, Stmt.ofForm_form yes hs.2.2 hv.2, Stmt.relabel]
  | .cond test yes (some no), hs, hv => by
    rw [Stmt.literals, List.forall_mem_append, List.forall_mem_append] at hv
    refine Stmt.ofForm_list (Token.read_keyword .kIf) ?_
    simp [Stmt.items, Stmt.combine, test.ofForm_form hs.2.1 hv.1, Stmt.ofForm_form yes hs.2.2.1 hv.2.1,
      Stmt.ofForm_form no hs.2.2.2 hv.2.2, Stmt.relabel]
  | .loop test body, hs, hv => by
    rw [Stmt.literals, List.forall_mem_append] at hv
    refine Stmt.ofForm_list (Token.read_keyword .kWhile) ?_
    simp [Stmt.items, Stmt.combine, test.ofForm_form hs.2.1 hv.1, Stmt.ofForm_form body hs.2.2 hv.2, Stmt.relabel]
  | .function decl, hs, hv => FunctionDecl.ofForm_form decl hs.2 hv
  | .ret keyword none, hs, _ => by
    rw [Stmt.relabel, hs.1.relabel_keyword]
    exact Stmt.ofForm_list (Token.read_keyword .kReturn) rfl
  | .ret keyword (some e), hs, hv => by
    rw [Stmt.relabel, hs.1.relabel_keyword]
    refine Stmt.ofForm_list (Token.read_keyword .kReturn) ?_
    simp [Stmt.items, Stmt.combine, e.ofForm_form hs.2 hv]
  | .classDecl name none methods, hs, hv => by
    have hmethods := FunctionDecl.mapM_items methods hs.2.2 hv
    refine Stmt.ofForm_list (Token.read_keyword .kClass) ?_
    cases methods with
    | nil => simp [FunctionDecl.forms, Stmt.items, Stmt.combine, Token.ofForm, hs.1.read, Stmt.relabel, Stmt.functions,
        FunctionDecl.relabelAll]
    | cons d ds =>
      cases d
      simp only [FunctionDecl.forms, FunctionDecl.form, Stmt.items] at hmethods ⊢
      simp [Stmt.combine, Token.ofForm, hs.1.read, hmethods, Stmt.functions_map, Stmt.relabel]
  | .classDecl name (some ref) methods, hs, hv => by
    have hmethods := FunctionDecl.mapM_items methods hs.2.2 hv
    have href : ref.name.Is .identifier := hs.2.1 ref rfl
    refine Stmt.ofForm_list (Token.read_keyword .kClass) ?_
    simp [Stmt.items, Stmt.combine, Token.ofForm, hs.1.read, href.read, hmethods, Stmt.functions_map,
      Stmt.relabel, Ref.relabel_erase]

theorem Stmt.mapM_items : ∀ ss : List Stmt, Stmt.AllOf spelled ss → (∀ v ∈ Stmt.literalsOf ss, v.Plain) →
    (Stmt.items (Stmt.forms ss)).mapM Item.stmt? = some (Stmt.relabelAll .erase ss)
  | [], _, _ => rfl
  | s :: ss, hs, hv => by
    rw [Stmt.literalsOf, List.forall_mem_append] at hv
    exact Stmt.mapM_items_cons (Stmt.ofForm_form s hs.1 hv.1) (Stmt.mapM_items ss hs.2 hv.2)

theorem FunctionDecl.ofForm_form : ∀ d : FunctionDecl, d.All spelled → (∀ v ∈ d.literals, v.Plain) →
    Stmt.ofForm d.form = some (.function (d.relabel .erase))
  | .mk name params body, hs, hv => by
    have hname : name.Is .identifier := hs.1.1
    have hparams : ∀ p ∈ params, p.Is .identifier := hs.1.2
    refine Stmt.ofForm_list (Token.read_keyword .kFun) ?_
    simp [Stmt.items, Stmt.combine, Token.ofForm, hname.read, Token.mapM_ofForm hparams,
      Stmt.mapM_items body hs.2 hv, FunctionDecl.relabel]

theorem FunctionDecl.mapM_items : ∀ ds : List FunctionDecl, FunctionDecl.AllOf spelled ds →
    (∀ v ∈ FunctionDecl.literalsOf ds, v.Plain) →
    (Stmt.items (FunctionDecl.forms ds)).mapM Item.stmt? = some ((FunctionDecl.relabelAll .erase ds).map Stmt.function)
  | [], _, _ => rfl
  | d :: ds, hs, hv => by
    rw [FunctionDecl.literalsOf, List.forall_mem_append] at hv
    exact Stmt.mapM_items_cons (FunctionDecl.ofForm_form d hs.1 hv.1) (FunctionDecl.mapM_items ds hs.2 hv.2)

end

mutual

def Stmt.parts : Stmt → List Stmt
  | .block body => .block body :: Stmt.partsOf body
  | .cond test yes none => .cond test yes none :: yes.parts
  | .cond test yes (some no) => .cond test yes (some no) :: (yes.parts ++ no.parts)
  | .loop test body => .loop test body :: body.parts
  | .function decl => .function decl :: decl.parts
  | .classDecl name superclass methods => .classDecl name superclass methods :: FunctionDecl.partsOf methods
  | s => [s]

def Stmt.partsOf : List Stmt → List Stmt
  | [] => []
  | s :: ss => s.parts ++ Stmt.partsOf ss

def FunctionDecl.parts : FunctionDecl → List Stmt
  | .mk _ _ body => Stmt.partsOf body

def FunctionDecl.partsOf : List FunctionDecl → List Stmt
  | [] => []
  | d :: ds => d.parts ++ FunctionDecl.partsOf ds

end

mutual

theorem Stmt.all_parts {c : Condition} : ∀ s : Stmt, s.All c → ∀ t ∈ s.parts, t.All c
  | .block body, h => List.forall_mem_cons.2 ⟨h, Stmt.all_partsOf body h.2⟩
  | .cond _ yes none, h => List.forall_mem_cons.2 ⟨h, Stmt.all_parts yes h.2.2⟩
  | .cond _ yes (some no), h =>
    List.forall_mem_cons.2 ⟨h, List.forall_mem_append.2 ⟨Stmt.all_parts yes h.2.2.1, Stmt.all_parts no h.2.2.2⟩⟩
  | .loop _ body, h => List.forall_mem_cons.2 ⟨h, Stmt.all_parts body h.2.2⟩
  | .function decl, h => List.forall_mem_cons.2 ⟨h, FunctionDecl.all_parts decl h.2⟩
  | .classDecl _ _ methods, h => List.forall_mem_cons.2 ⟨h, FunctionDecl.all_partsOf methods h.2.2⟩
  | .expr _, h | .print _, h | .var _ _, h | .ret _ _, h => List.forall_mem_singleton.2 h

theorem Stmt.all_partsOf {c : Condition} : ∀ ss : List Stmt, Stmt.AllOf c ss → ∀ t ∈ Stmt.partsOf ss, t.All c
  | [], _ => List.forall_mem_nil _
  | s :: ss, h => List.forall_mem_append.2 ⟨Stmt.all_parts s h.1, Stmt.all_partsOf ss h.2⟩

theorem FunctionDecl.all_parts {c : Condition} : ∀ d : FunctionDecl, d.All c → ∀ t ∈ d.parts, t.All c
  | .mk _ _ body, h => Stmt.all_partsOf body h.2

theorem FunctionDecl.all_partsOf {c : Condition} : ∀ ds : List FunctionDecl, FunctionDecl.AllOf c ds →
    ∀ t ∈ FunctionDecl.partsOf ds, t.All c
  | [], _ => List.forall_mem_nil _
  | d :: ds, h => List.forall_mem_append.2 ⟨FunctionDecl.all_parts d h.1, FunctionDecl.all_partsOf ds h.2⟩

end

namespace Parse

def statements (source : String) (nextId : Nat) : List Stmt :=
  match (parse (Token.tokensOf (Token.scan source)) nextId).outcome with
  | .ok program => Stmt.partsOf program
  | .error _ => []

theorem spelled_of_mem_statements {source : String} {n : Nat} {s : Stmt} (h : s ∈ statements source n) :
    s.All spelled := by
  unfold statements at h
  split at h
  · next program hok =>
    have hparse : parse (Token.tokensOf (Token.scan source)) n =
        ⟨.ok program, (parse (Token.tokensOf (Token.scan source)) n).nextId⟩ := by rw [← hok]
    exact Stmt.all_partsOf program (spelled_of_parse hparse) s h
  · cases h

theorem exists_statement (source : String) (n : Nat) (text : String)
    (h : (statements source n).any (fun s ↦ decide (∀ v ∈ s.literals, v.Plain) && s.render == text) = true) :
    ∃ s ∈ statements source n, (∀ v ∈ s.literals, v.Plain) ∧ s.render = text := by
  simpa only [List.any_eq_true, Bool.and_eq_true, decide_eq_true_eq, beq_iff_eq] using h

end Parse

/-- Two statements that come from sources, with no other literals than booleans, `nil` and finite numbers, have the same
text exactly if they are the same tree up to lines and ids. -/
theorem Stmt.render_eq_iff_relabel_eq {source source' : String} {n n' : Nat} {s s' : Stmt}
    (hs : s ∈ Parse.statements source n) (hs' : s' ∈ Parse.statements source' n')
    (hv : ∀ v ∈ s.literals, v.Plain) (hv' : ∀ v ∈ s'.literals, v.Plain) :
    s.render = s'.render ↔ s.relabel .erase = s'.relabel .erase := by
  have hspelled := Parse.spelled_of_mem_statements hs
  have hspelled' := Parse.spelled_of_mem_statements hs'
  constructor
  · intro h
    have htext : s.form.text = s'.form.text := by rw [← toList_render, ← toList_render, h]
    have hform := Form.text_inj (s.solid_form hspelled hv) (s'.solid_form hspelled' hv') htext
    have hread := s.ofForm_form hspelled hv
    rw [hform, s'.ofForm_form hspelled' hv'] at hread
    exact (Option.some.inj hread).symm
  · intro h
    rw [← render_relabel .erase s, h, render_relabel]

theorem Stmt.render_eq_iff_relabel_eq_else :
    ∃ s ∈ Parse.statements "fun f(a) \x7b if (a) if (b) a.c = -1.5; else print (nil); \x7d" 0,
    ∃ s' ∈ Parse.statements "if (a)\n if (b)\n a.c = -1.50;\n else print (nil);" 7,
      (∀ v ∈ s.literals, v.Plain) ∧ (∀ v ∈ s'.literals, v.Plain) ∧ s.render = s'.render ∧
      s.relabel .erase = s'.relabel .erase := by
  obtain ⟨s, hs, hv, htext⟩ := Parse.exists_statement "fun f(a) \x7b if (a) if (b) a.c = -1.5; else print (nil); \x7d" 0
    "(if a (if b (; (= (. a c) (- 1.5))) (print (group nil))))" (by decide +kernel)
  obtain ⟨s', hs', hv', htext'⟩ := Parse.exists_statement "if (a)\n if (b)\n a.c = -1.50;\n else print (nil);" 7
    "(if a (if b (; (= (. a c) (- 1.5))) (print (group nil))))" (by decide +kernel)
  have hsame : s.render = s'.render := htext.trans htext'.symm
  exact ⟨s, hs, s', hs', hv, hv', hsame, (render_eq_iff_relabel_eq hs hs' hv hv').1 hsame⟩

end Lox
