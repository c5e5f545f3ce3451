import Lox.Proofs.Grammar.Regular
import Lox.Proofs.Parse.Acceptance
import Lox.Proofs.Scope.Declare

namespace Lox.Scope

/-- What a part of a program can stand in. -/
inductive Enclosure where
  | block
  | function (d : FunctionDecl)
  | method (d : FunctionDecl)
  | cls (superclass : Option Ref)

namespace Enclosure

def isFunction : Enclosure → Bool
  | function _ | method _ => true
  | _ => false

def isClass : Enclosure → Bool
  | cls _ => true
  | _ => false

end Enclosure

/-- A part of a program and all that it stands in, innermost first. -/
structure Position where
  path : List Enclosure
  node : Node

def declaredIn (ss : List Stmt) : List String := (ss.filterMap Stmt.declared?).map Token.lexeme

namespace Position

def parts : Position → List Position
  | ⟨p, .expr e⟩ => match e with
    | .literal _ _ | .var _ | .this _ | .super _ _ => []
    | .assign _ e | .unary _ e | .grouping e | .get e _ => [⟨p, .expr e⟩]
    | .binary left _ right | .logical left _ right => [⟨p, .expr left⟩, ⟨p, .expr right⟩]
    | .call callee arguments _ => [⟨p, .expr callee⟩, ⟨p, .exprs arguments⟩]
    | .set object _ value => [⟨p, .expr object⟩, ⟨p, .expr value⟩]
  | ⟨p, .exprs es⟩ => es.map fun e ↦ ⟨p, .expr e⟩
  | ⟨p, .stmt s⟩ => match s with
    | .expr e | .print e => [⟨p, .expr e⟩]
    | .var _ value | .ret _ value => value.toList.map fun e ↦ ⟨p, .expr e⟩
    | .block body => [⟨.block :: p, .stmts body⟩]
    | .cond test yes no => ⟨p, .expr test⟩ :: ⟨p, .stmt yes⟩ :: no.toList.map fun s ↦ ⟨p, .stmt s⟩
    | .loop test body => [⟨p, .expr test⟩, ⟨p, .stmt body⟩]
    | .function d => [⟨.function d :: p, .function d⟩]
    | .classDecl _ superclass methods =>
      ⟨.cls superclass :: p, .functions methods⟩ :: superclass.toList.map fun ref ↦ ⟨p, .expr (.var ref)⟩
  | ⟨p, .stmts ss⟩ => ss.map fun s ↦ ⟨p, .stmt s⟩
  | ⟨p, .function d⟩ => [⟨p, .stmts d.body⟩]
  | ⟨p, .functions ds⟩ => ds.map fun d ↦ ⟨.method d :: p, .function d⟩

/-- A part inside another one, or that one itself. -/
inductive Contains : Position → Position → Prop
  | refl (q : Position) : Contains q q
  | step {q r x : Position} (hr : r ∈ q.parts) (h : Contains r x) : Contains q x

def Lawful : Position → Prop
  -- A block, or a function with its parameters, does not declare a name twice.
  | ⟨_, .stmt (.block body)⟩ => (declaredIn body).Nodup
  | ⟨_, .function d⟩ => (d.params.map Token.lexeme ++ declaredIn d.body).Nodup
  -- The initial value of a variable that is not at the top level does not read one of its name.
  | ⟨p, .stmt (.var name (some e))⟩ => p ≠ [] →
      ∀ q ref, Contains ⟨p, .expr e⟩ ⟨q, .expr (.var ref)⟩ → ref.name.lexeme ≠ name.lexeme
  -- A function is left from inside one, and with a value only if it is not a method `init`.
  | ⟨p, .stmt (.ret _ value)⟩ => (∃ f ∈ p, f.isFunction) ∧
      (value.isSome → ∀ d, p.find? (·.isFunction) = some (.method d) → d.name.lexeme ≠ "init")
  | ⟨p, .expr (.this _)⟩ => ∃ c ∈ p, c.isClass
  | ⟨p, .expr (.super _ _)⟩ => ∃ ref, p.find? (·.isClass) = some (.cls (some ref))
  | ⟨_, .stmt (.classDecl name (some ref) _)⟩ => ref.name.lexeme ≠ name.lexeme
  | _ => True

def Everywhere (R : Position → Prop) (q : Position) : Prop := ∀ r, q.Contains r → R r

theorem everywhere_iff {R : Position → Prop} {q : Position} :
    Everywhere R q ↔ R q ∧ ∀ r ∈ q.parts, Everywhere R r := by
  constructor
  · intro h
    exact ⟨h q (.refl q), fun r hr x hx ↦ h x (.step hr hx)⟩
  · rintro ⟨hq, hparts⟩ x hx
    cases hx with
    | refl => exact hq
    | step hr h => exact hparts _ hr x h

end Position

/-- A program in which every part obeys the rules on scopes. -/
def Legal (program : List Stmt) : Prop := Position.Everywhere Position.Lawful ⟨[], .stmts program⟩

def contextOf (p : List Enclosure) : Context where
  function := match p.find? (·.isFunction) with
    | some (.method d) => methodKind d
    | some _ => .function
    | none => .none
  cls := match p.find? (·.isClass) with
    | some (.cls superclass) => classKind superclass
    | _ => .none

theorem contextOf_function_eq_none {p : List Enclosure} :
    (contextOf p).function = .none ↔ ¬∃ f ∈ p, f.isFunction := by
  unfold contextOf
  cases h : p.find? (·.isFunction) with
  | none => simpa using List.find?_eq_none.1 h
  | some f =>
    have hmem : ∃ f ∈ p, f.isFunction := ⟨f, List.mem_of_find?_eq_some h, by simpa using List.find?_some h⟩
    simp only [hmem, not_true_eq_false, iff_false]
    cases f with
    | method d =>
      simp only [methodKind]
      split <;> simp
    | _ => simp

theorem contextOf_function_eq_initializer {p : List Enclosure} :
    (contextOf p).function = .initializer ↔
      ∃ d, p.find? (·.isFunction) = some (.method d) ∧ d.name.lexeme = "init" := by
  unfold contextOf
  cases h : p.find? (·.isFunction) with
  | none => simp
  | some f =>
    cases f with
    | method d => simp [methodKind]
    | _ => simp

theorem contextOf_cls_eq_none {p : List Enclosure} :
    (contextOf p).cls = .none ↔ ¬∃ c ∈ p, c.isClass := by
  unfold contextOf
  cases h : p.find? (·.isClass) with
  | none => simpa using List.find?_eq_none.1 h
  | some c =>
    have hc : c.isClass := by simpa using List.find?_some h
    have hmem : ∃ c ∈ p, c.isClass := ⟨c, List.mem_of_find?_eq_some h, hc⟩
    simp only [hmem, not_true_eq_false, iff_false]
    cases c with
    | cls o => cases o <;> simp [classKind]
    | _ => cases hc

theorem contextOf_cls_eq_subclass {p : List Enclosure} :
    (contextOf p).cls = .subclass ↔ ∃ ref, p.find? (·.isClass) = some (.cls (some ref)) := by
  unfold contextOf
  cases h : p.find? (·.isClass) with
  | none => simp
  | some c =>
    cases c with
    | cls o => cases o <;> simp [classKind]
    | _ => simp

theorem plainBranches_regular : PlainBranches Grammar.regular := ⟨id, id, id⟩

theorem Walk.effect_errorIf (w : Walk) (c : ScopeCause) (t : Token) (P : Prop) [Decidable P] :
    Effect [] w (if P then w.error c t else w) := by
  split
  · exact w.effect_error c t
  · exact .refl w

def Quiet (w w' : Walk) : Prop := w'.errors.size = w.errors.size

namespace Quiet

variable {w w₁ w₂ : Walk} {refs refs' : List Ref}

theorem refl (w : Walk) : Quiet w w := rfl

theorem trans_iff (h : Effect refs w w₁) (h₁ : Effect refs' w₁ w₂) :
    Quiet w w₂ ↔ Quiet w w₁ ∧ Quiet w₁ w₂ := by
  have hle := h.errors
  have hle₁ := h₁.errors
  unfold Quiet
  omega

theorem congr_right (h : Quiet w₁ w₂) : Quiet w w₂ ↔ Quiet w w₁ := by
  unfold Quiet at *
  rw [h]

theorem not_error (w : Walk) (c : ScopeCause) (t : Token) : ¬Quiet w (w.error c t) := by
  simp [Quiet, Walk.error]

theorem errorIf (w : Walk) (c : ScopeCause) (t : Token) (P : Prop) [Decidable P] :
    Quiet w (if P then w.error c t else w) ↔ ¬P := by
  split
  · next h => simp [h, not_error]
  · next h => simp [h, refl]

theorem bind (w : Walk) (name : String) : Quiet w (w.bind name) := by
  unfold Quiet Walk.bind
  split <;> rfl

theorem define (w : Walk) (t : Token) : Quiet w (w.define t) := bind w t.lexeme

theorem leave (w : Walk) : Quiet w w.leave := rfl

theorem locate (w : Walk) (ref : Ref) : Quiet w (w.locate ref) := by
  unfold Quiet Walk.locate
  split <;> rfl

theorem declare (w : Walk) (t : Token) : Quiet w (w.declare t) ↔ Fresh w.scopes t.lexeme := by
  unfold Walk.declare Fresh
  split
  · next hS => simp [hS, refl]
  · next s rest hS =>
    rw [hS]
    split
    · next hc => simp [hc, not_error]
    · next hc => simpa [Quiet] using hc

theorem declare_define (w : Walk) (t : Token) :
    Quiet w ((w.declare t).define t) ↔ Fresh w.scopes t.lexeme :=
  (congr_right (define _ t)).trans (declare w t)

theorem declareAll (ts : List Token) (w : Walk) :
    Quiet w (w.declareAll ts) ↔ FreshAll w.scopes ts := by
  induction ts generalizing w with
  | nil => exact iff_true_intro rfl
  | cons t ts ih =>
    have hfirst := (w.effect_declare t).silent (Walk.effect_define _ t)
    have hrest := Walk.effect_declareAll ((w.declare t).define t) ts
    have hscopes : ((w.declare t).define t).scopes = bindIn t.lexeme w.scopes := by
      rw [Walk.scopes_define, Walk.scopes_declare, bindIn_declareIn]
    calc Quiet w (w.declareAll (t :: ts))
      _ ↔ Quiet w ((w.declare t).define t) ∧
          Quiet ((w.declare t).define t) (((w.declare t).define t).declareAll ts) := trans_iff hfirst hrest
      _ ↔ FreshAll w.scopes (t :: ts) := by rw [declare_define, ih, hscopes, FreshAll]

theorem read (w : Walk) (ref : Ref) : Quiet w (w.read ref) ↔ ¬Pending w.scopes ref.name.lexeme := by
  have hpending : w.isPending ref.name.lexeme = true ↔ Pending w.scopes ref.name.lexeme := by
    unfold Walk.isPending Pending
    split <;> simp [*]
  rw [← hpending]
  unfold Walk.read
  split
  · next h =>
    rw [trans_iff (w.effect_error _ _) (Walk.effect_locate _ ref)]
    simp [h, not_error]
  · next h => simp [h, locate]

end Quiet

def Position.Permitted (S : List Names) (q : Position) : Prop :=
  q.Lawful ∧ ∀ ref, q.node = .expr (.var ref) → ¬Pending S ref.name.lexeme

section

open Position

mutual

theorem quiet_expr (p : List Enclosure) : ∀ (e : Expr) (w : Walk),
    Quiet w (expr (contextOf p) e w) ↔ Everywhere (Permitted w.scopes) ⟨p, .expr e⟩
  | .literal _ _, w => by
    rw [everywhere_iff, expr]
    simp [Permitted, Lawful, parts, Quiet.refl]
  | .var ref, w => by
    rw [everywhere_iff, expr, Quiet.read]
    simp [Permitted, Lawful, parts]
  | .assign ref value, w => by
    rw [everywhere_iff, expr, Quiet.trans_iff (effect_expr _ value w) (Walk.effect_locate _ ref),
      quiet_expr p value w]
    simp [Permitted, Lawful, parts, Quiet.locate]
  | .unary _ e, w | .grouping e, w | .get e _, w => by
    rw [everywhere_iff, expr, quiet_expr p e w]
    simp [Permitted, Lawful, parts]
  | .binary left _ right, w | .logical left _ right, w => by
    rw [everywhere_iff, expr, Quiet.trans_iff (effect_expr _ left w) (effect_expr _ right _),
      quiet_expr p left w, quiet_expr p right, scopes_expr]
    simp [Permitted, Lawful, parts]
  | .call callee arguments _, w => by
    rw [everywhere_iff, expr, Quiet.trans_iff (effect_expr _ callee w) (effect_exprs _ arguments _),
      quiet_expr p callee w, quiet_exprs p arguments, scopes_expr]
    simp [Permitted, Lawful, parts]
  | .set object _ value, w => by
    rw [everywhere_iff, expr, Quiet.trans_iff (effect_expr _ value w) (effect_expr _ object _),
      quiet_expr p value w, quiet_expr p object, scopes_expr]
    simp [Permitted, Lawful, parts, and_comm]
  | .this ref, w => by
    rw [everywhere_iff, expr]
    have hk := contextOf_cls_eq_none (p := p)
    split
    · next h => simpa [Permitted, Lawful, parts, Quiet.not_error] using hk.1 h
    · next h => simpa [Permitted, Lawful, parts, Quiet.locate] using mt hk.2 h
  | .super ref _, w => by
    rw [everywhere_iff, expr]
    have hk := contextOf_cls_eq_subclass (p := p)
    cases h : (contextOf p).cls with
    | subclass => simpa [Permitted, Lawful, parts, Quiet.locate] using hk.1 h
    | none | plain =>
      rw [Quiet.trans_iff (w.effect_error _ _) (Walk.effect_locate _ ref)]
      simpa [Permitted, Lawful, parts, Quiet.not_error, h] using hk

theorem quiet_exprs (p : List Enclosure) : ∀ (es : List Expr) (w : Walk),
    Quiet w (exprs (contextOf p) es w) ↔ Everywhere (Permitted w.scopes) ⟨p, .exprs es⟩
  | [], w => by
    rw [everywhere_iff, exprs]
    simp [Permitted, Lawful, parts, Quiet.refl]
  | e :: es, w => by
    rw [everywhere_iff, exprs, Quiet.trans_iff (effect_expr _ e w) (effect_exprs _ es _),
      quiet_expr p e w, quiet_exprs p es, scopes_expr, everywhere_iff (q := ⟨p, .exprs es⟩)]
    simp [Permitted, Lawful, parts]

end

theorem quiet_optional (p : List Enclosure) (o : Option Expr) (w : Walk) :
    Quiet w (optional (contextOf p) o w) ↔ ∀ e ∈ o, Everywhere (Permitted w.scopes) ⟨p, .expr e⟩ := by
  cases o with
  | none => simp [optional, Quiet.refl]
  | some e => simpa [optional] using quiet_expr p e w

theorem everywhere_permitted {S : List Names} (h : Settled S) {q : Position} :
    Everywhere (Permitted S) q ↔ Everywhere Lawful q :=
  ⟨fun hq r hr ↦ (hq r hr).1, fun hq r hr ↦ ⟨hq r hr, fun _ _ ↦ h.not_pending _⟩⟩

theorem Fresh.pending_declareIn {S : List Names} {x : String} (h : Fresh S x) (hS : S.isEmpty = false) :
    Pending (declareIn x S) x := by
  cases S with
  | nil => cases hS
  | cons s S =>
    rw [declareIn, if_neg (by simp [h s rfl])]
    exact ⟨_, rfl, by simp [Bindings.find?_insert]⟩

theorem everywhere_permitted_declareIn {S : List Names} (h : Settled S) {x : String} (hx : Fresh S x)
    {q : Position} : Everywhere (Permitted (declareIn x S)) q ↔ Everywhere Lawful q ∧
      (S.isEmpty = false → ∀ p ref, q.Contains ⟨p, .expr (.var ref)⟩ → ref.name.lexeme ≠ x) := by
  constructor
  · intro hq
    refine ⟨fun r hr ↦ (hq r hr).1, fun hS p ref hr heq ↦ ?_⟩
    apply (hq _ hr).2 ref rfl
    rw [heq]
    exact hx.pending_declareIn hS
  · intro ⟨hq, hreads⟩ r hr
    refine ⟨hq r hr, fun ref hnode hpending ↦ ?_⟩
    obtain ⟨heq, hS⟩ := h.of_pending_declareIn hpending
    obtain ⟨p, node⟩ := r
    cases hnode
    exact hreads hS p ref hr heq

end

theorem freshAll_nil (ts : List Token) : FreshAll [] ts := by
  induction ts with
  | nil => trivial
  | cons t ts ih => exact ⟨nofun, ih⟩

theorem freshAll_append {S : List Names} {ts ts' : List Token} :
    FreshAll S (ts ++ ts') ↔
      FreshAll S ts ∧ FreshAll (ts.foldl (fun S t ↦ bindIn t.lexeme S) S) ts' := by
  induction ts generalizing S with
  | nil => simp [FreshAll]
  | cons t ts ih => simp [FreshAll, ih, and_assoc]

theorem freshAll_cons {s : Names} {S : List Names} {ts : List Token} :
    FreshAll (s :: S) ts ↔
      (ts.map Token.lexeme).Nodup ∧ ∀ t ∈ ts, s.contains t.lexeme = false := by
  induction ts generalizing s with
  | nil => simp [FreshAll]
  | cons t ts ih =>
    rw [FreshAll, bindIn, ih]
    simp only [Fresh, List.head?_cons, Option.mem_def, Option.some.injEq, forall_eq', List.map_cons,
      List.nodup_cons, List.mem_map, not_exists, List.forall_mem_cons, Bindings.contains_insert]
    grind

theorem freshAll_enter {S : List Names} {ts : List Token} :
    FreshAll (.empty :: S) ts ↔ (ts.map Token.lexeme).Nodup := by
  rw [freshAll_cons]
  simp [Bindings.contains]

theorem freshAll_declared {S : List Names} {s : Stmt} {ss : List Stmt} :
    FreshAll S ((s :: ss).filterMap Stmt.declared?) ↔ (∀ t ∈ s.declared?, Fresh S t.lexeme) ∧
      FreshAll (afterDeclaring s.declared? S) (ss.filterMap Stmt.declared?) := by
  rw [List.filterMap_cons]
  cases s.declared? with
  | none => simp [afterDeclaring]
  | some t => simp [afterDeclaring, FreshAll]

theorem quiet_checkReturn (p : List Enclosure) (keyword : Token) (value : Option Expr) (w : Walk) :
    Quiet w (checkReturn (contextOf p) keyword value w) ↔
      Position.Lawful ⟨p, .stmt (.ret keyword value)⟩ := by
  rw [checkReturn, Quiet.trans_iff (Walk.effect_errorIf ..) (Walk.effect_errorIf ..), Quiet.errorIf,
    Quiet.errorIf, contextOf_function_eq_none, contextOf_function_eq_initializer, Decidable.not_not]
  simp only [Position.Lawful]
  grind

theorem quiet_className (name : Token) (ref : Ref) (w : Walk) :
    Quiet w (className name ref w) ↔ Fresh w.scopes name.lexeme ∧ ref.name.lexeme ≠ name.lexeme := by
  have hdeclare := (w.effect_declare name).silent (Walk.effect_define _ name)
  rw [className, Quiet.trans_iff hdeclare (Walk.effect_errorIf ..), Quiet.declare_define, Quiet.errorIf]

theorem quiet_classHead (name : Token) (o : Option Ref) (w : Walk) (h : Settled w.scopes) :
    Quiet w (classHead name o w) ↔
      Fresh w.scopes name.lexeme ∧ ∀ ref ∈ o, ref.name.lexeme ≠ name.lexeme := by
  cases o with
  | none =>
    have hthis : Quiet ((w.declare name).define name) (classHead name none w) := Quiet.bind _ _
    rw [Quiet.congr_right hthis, Quiet.declare_define]
    simp
  | some ref =>
    have hread : Quiet (className name ref w) ((className name ref w).read ref) := by
      rw [Quiet.read, scopes_className]
      exact (h.bindIn _).not_pending _
    have hrest : Quiet ((className name ref w).read ref) (classHead name (some ref) w) :=
      (Quiet.bind _ "this").trans (Quiet.bind ((className name ref w).read ref).enter "super")
    rw [Quiet.congr_right hrest, Quiet.congr_right hread, quiet_className]
    simp

theorem Quiet.classEnd (o : Option Ref) (w : Walk) : Quiet w (classEnd o w) := by
  cases o <;> rfl

section

open Position

mutual

/-- A statement of a parsed tree is walked over without error if and only if the name it declares is new
in its scope and all in it is lawful. -/
theorem quiet_stmt (p : List Enclosure) : ∀ (s : Stmt) (w : Walk), s.All Grammar.regular →
    Settled w.scopes → w.scopes.isEmpty = p.isEmpty →
    (Quiet w (stmt (contextOf p) s w) ↔
      (∀ t ∈ s.declared?, Fresh w.scopes t.lexeme) ∧ Everywhere Lawful ⟨p, .stmt s⟩)
  | .expr e, w, _, hS, _ | .print e, w, _, hS, _ => by
    rw [stmt, quiet_expr p e w, everywhere_permitted hS, everywhere_iff (q := ⟨p, .stmt _⟩)]
    simp [Lawful, parts, Stmt.declared?]
  | .var name initial, w, _, hS, hp => by
    rw [stmt, Quiet.congr_right (Quiet.define _ _), Quiet.trans_iff (w.effect_declare name)
      (effect_optional _ initial _), Quiet.declare, quiet_optional, Walk.scopes_declare, everywhere_iff]
    simp only [Stmt.declared?, Option.mem_def, Option.some.injEq, forall_eq']
    refine and_congr_right fun hfresh ↦ ?_
    cases initial with
    | none => simp [Lawful, parts]
    | some e =>
      simp only [Option.some.injEq, forall_eq', everywhere_permitted_declareIn hS hfresh, hp]
      simp [Lawful, parts, and_comm]
  | .block body, w, hs, hS, _ => by
    have hbody : Quiet w (stmts (contextOf p) body w.enter) ↔ _ :=
      quiet_stmts (.block :: p) body w.enter hs.2 hS.enter rfl
    rw [Walk.scopes_enter, freshAll_enter] at hbody
    rw [stmt, Quiet.congr_right (Quiet.leave _), everywhere_iff]
    simpa [Lawful, parts, Stmt.declared?, declaredIn] using hbody
  | .cond test yes none, w, hs, hS, hp => by
    have hw := scopes_expr (contextOf p) test w
    have hyes := quiet_stmt p yes _ hs.2.2 (hw ▸ hS) (hw ▸ hp)
    rw [hs.1] at hyes
    rw [stmt, Quiet.trans_iff (effect_expr _ test w) (effect_stmt _ yes _), hyes, quiet_expr p test w,
      everywhere_permitted hS, everywhere_iff (q := ⟨p, .stmt (.cond _ _ _)⟩)]
    simp [Lawful, parts, Stmt.declared?]
  | .cond test yes (some no), w, hs, hS, hp => by
    have hw := scopes_expr (contextOf p) test w
    have hw' := scopes_stmt_of_plainBranches plainBranches_regular (contextOf p) yes
      (expr (contextOf p) test w) hs.2.2.1
    have hyes := quiet_stmt p yes _ hs.2.2.1 (hw ▸ hS) (hw ▸ hp)
    rw [hs.1.1] at hyes hw'
    have hno := quiet_stmt p no _ hs.2.2.2 (by rw [hw']; exact hw ▸ hS) (by rw [hw']; exact hw ▸ hp)
    rw [hs.1.2] at hno
    rw [stmt, Quiet.trans_iff ((effect_expr _ test w).append (effect_stmt _ yes _)) (effect_stmt _ no _),
      Quiet.trans_iff (effect_expr _ test w) (effect_stmt _ yes _), hyes, hno, quiet_expr p test w,
      everywhere_permitted hS, everywhere_iff (q := ⟨p, .stmt (.cond _ _ _)⟩)]
    simp [Lawful, parts, Stmt.declared?, and_assoc]
  | .loop test body, w, hs, hS, hp => by
    have hw := scopes_expr (contextOf p) test w
    have hbody := quiet_stmt p body _ hs.2.2 (hw ▸ hS) (hw ▸ hp)
    rw [hs.1] at hbody
    rw [stmt, Quiet.trans_iff (effect_expr _ test w) (effect_stmt _ body _), hbody, quiet_expr p test w,
      everywhere_permitted hS, everywhere_iff (q := ⟨p, .stmt (.loop _ _)⟩)]
    simp [Lawful, parts, Stmt.declared?]
  | .function d, w, hs, hS, _ => by
    have hw : ((w.declare d.name).define d.name).scopes = bindIn d.name.lexeme w.scopes := by
      rw [Walk.scopes_define, Walk.scopes_declare, bindIn_declareIn]
    have hd := quiet_function (.function d :: p) rfl d _ hs.2 (hw ▸ hS.bindIn _)
    rw [stmt, Quiet.trans_iff ((w.effect_declare d.name).silent (Walk.effect_define _ _))
      (effect_function _ d _), Quiet.declare_define, everywhere_iff]
    simp only [Lawful, parts, Stmt.declared?, Option.mem_def, Option.some.injEq, forall_eq',
      List.mem_singleton, forall_eq, true_and]
    exact and_congr_right fun _ ↦ hd
  | .ret keyword value, w, _, hS, _ => by
    rw [stmt, ret_eq, Quiet.trans_iff (effect_checkReturn _ keyword value w) (effect_optional _ value _),
      quiet_checkReturn, quiet_optional, scopes_checkReturn, everywhere_iff]
    simp only [everywhere_permitted hS]
    simp [parts, Stmt.declared?]
  | .classDecl name superclass methods, w, hs, hS, _ => by
    have hw := scopes_classHead name superclass w
    have hmethods := quiet_functions (.cls superclass :: p) methods _ hs.2.2
      (hw ▸ (hS.bindIn _).methodScopes _)
    have hread (ref : Ref) : Everywhere Lawful ⟨p, .expr (.var ref)⟩ := everywhere_iff.2 ⟨trivial, nofun⟩
    rw [stmt, Quiet.congr_right (Quiet.classEnd _ _), Quiet.trans_iff (effect_classHead name superclass w)
      (effect_functions _ methods _), quiet_classHead name superclass w hS, everywhere_iff]
    refine (and_congr_right fun _ ↦ hmethods).trans ?_
    cases superclass <;> simp [Lawful, parts, Stmt.declared?, hread, and_assoc]

theorem quiet_stmts (p : List Enclosure) : ∀ (ss : List Stmt) (w : Walk), Stmt.AllOf Grammar.regular ss →
    Settled w.scopes → w.scopes.isEmpty = p.isEmpty →
    (Quiet w (stmts (contextOf p) ss w) ↔
      FreshAll w.scopes (ss.filterMap Stmt.declared?) ∧ Everywhere Lawful ⟨p, .stmts ss⟩)
  | [], w, _, _, _ => by
    rw [everywhere_iff, stmts]
    simp [Lawful, parts, FreshAll, Quiet.refl]
  | s :: ss, w, hs, hS, hp => by
    have hscopes := scopes_stmt_of_plainBranches plainBranches_regular (contextOf p) s w hs.1
    rw [stmts, Quiet.trans_iff (effect_stmt _ s w) (effect_stmts _ ss _), quiet_stmt p s w hs.1 hS hp,
      quiet_stmts p ss _ hs.2 (hscopes ▸ hS.afterDeclaring _) (by rw [hscopes, isEmpty_afterDeclaring, hp]),
      hscopes, freshAll_declared, everywhere_iff (q := ⟨p, .stmts _⟩), everywhere_iff (q := ⟨p, .stmts _⟩)]
    simp [Lawful, parts]
    grind

theorem quiet_function (p : List Enclosure) (hp : p.isEmpty = false) : ∀ (d : FunctionDecl) (w : Walk),
    d.All Grammar.regular → Settled w.scopes →
    (Quiet w (function (contextOf p) d w) ↔ Everywhere Lawful ⟨p, .function d⟩)
  | .mk name params body, w, hd, hS => by
    have hw := w.enter.scopes_declareAll params
    have hbody := quiet_stmts p body (w.enter.declareAll params) hd.2
      (by rw [hw]; exact hS.enter.parameters params) (by rw [hw, isEmpty_parameters, hp]; rfl)
    have hparams : Quiet w (w.enter.declareAll params) ↔ FreshAll w.enter.scopes params :=
      Quiet.declareAll params w.enter
    have hnames : FreshAll w.enter.scopes params ∧
        FreshAll (w.enter.declareAll params).scopes (body.filterMap Stmt.declared?) ↔
          (params.map Token.lexeme ++ declaredIn body).Nodup := by
      rw [hw, ← freshAll_append, Walk.scopes_enter, freshAll_enter, List.map_append, declaredIn]
    rw [function, Quiet.congr_right (Quiet.leave _),
      Quiet.trans_iff (w.effect_enter.silent (Walk.effect_declareAll _ params)) (effect_stmts _ body _),
      hparams, hbody, ← and_assoc, hnames, everywhere_iff (q := ⟨p, .function _⟩)]
    simp [Lawful, parts, FunctionDecl.params, FunctionDecl.body]

theorem quiet_functions (p : List Enclosure) : ∀ (ds : List FunctionDecl) (w : Walk),
    FunctionDecl.AllOf Grammar.regular ds → Settled w.scopes →
    (Quiet w (functions (contextOf p) ds w) ↔ Everywhere Lawful ⟨p, .functions ds⟩)
  | [], w, _, _ => by
    rw [everywhere_iff, functions]
    simp [Lawful, parts, Quiet.refl]
  | d :: ds, w, hd, hS => by
    have hd' := quiet_function (.method d :: p) rfl d w hd.1 hS
    have hds := quiet_functions p ds (function (contextOf (.method d :: p)) d w) hd.2
      (by rw [scopes_function]; exact hS)
    rw [everywhere_iff] at hds
    rw [everywhere_iff]
    calc Quiet w (functions (contextOf p) (d :: ds) w)
      _ ↔ Quiet w (function (contextOf (.method d :: p)) d w) ∧
          Quiet (function (contextOf (.method d :: p)) d w)
            (functions (contextOf p) ds (function (contextOf (.method d :: p)) d w)) :=
        Quiet.trans_iff (effect_function _ d w) (effect_functions _ ds _)
      _ ↔ _ := by
        rw [hd', hds]
        simp [Lawful, parts]

end

end

/-- The walk over a program that has been parsed finds an error if and only if the program breaks one
of the rules on scopes. -/
theorem resolve_errors_eq_nil_iff_legal {tokens : List Token} {n m : Nat} {program : List Stmt}
    (h : Parse.parse tokens n = ⟨.ok program, m⟩) (D : Distances) :
    (resolve program D).errors = [] ↔ Legal program := by
  have hregular := (Parse.parse_eq_ok_iff.1 h).regular
  have hwalk : Quiet ⟨[], #[], D⟩ (stmts topLevel program ⟨[], #[], D⟩) ↔ _ ∧ Legal program :=
    quiet_stmts [] program ⟨[], #[], D⟩ hregular nofun rfl
  have hfresh := freshAll_nil (program.filterMap Stmt.declared?)
  simpa [resolve, Quiet, hfresh] using hwalk

theorem valued_return_not_legal :
    ∃ program, Parse.parse [⟨.keyword .kClass, "class", 1⟩, ⟨.identifier, "A", 1⟩,
        ⟨.mark .leftBrace, "\x7b", 1⟩, ⟨.identifier, "init", 1⟩, ⟨.mark .leftParen, "(", 1⟩,
        ⟨.mark .rightParen, ")", 1⟩, ⟨.mark .leftBrace, "\x7b", 1⟩, ⟨.keyword .kReturn, "return", 1⟩,
        ⟨.keyword .kThis, "this", 1⟩, ⟨.mark .semicolon, ";", 1⟩, ⟨.mark .rightBrace, "\x7d", 1⟩,
        ⟨.mark .rightBrace, "\x7d", 1⟩, ⟨.eof, "", 1⟩] 0 = ⟨.ok program, 1⟩ ∧ ¬Legal program := by
  have hprogram (r : Parse.Result) (hr : r.nextId = 1)
      (he : r.outcome.toOption.any (fun program ↦ !(resolve program .empty).errors.isEmpty) = true) :
      ∃ program, r = ⟨.ok program, 1⟩ ∧ (resolve program .empty).errors ≠ [] := by
    obtain ⟨_ | program, n⟩ := r
    · cases he
    · obtain rfl : n = 1 := hr
      refine ⟨program, rfl, fun hnil ↦ ?_⟩
      simp [Except.toOption, hnil] at he
  refine (hprogram _ (by decide +kernel) (by decide +kernel)).imp fun program h ↦ ⟨h.1, fun hlegal ↦ ?_⟩
  exact h.2 ((resolve_errors_eq_nil_iff_legal h.1 .empty).2 hlegal)

end Lox.Scope
