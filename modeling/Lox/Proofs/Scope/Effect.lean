import Lox.Proofs.Scope.Walk

namespace Lox.Scope

/-- What a part of a walk does to what has been found before: errors stay, and distances change only
at the given occurrences. -/
structure Effect (refs : List Ref) (w w' : Walk) : Prop where
  errors : w.errors.size ≤ w'.errors.size
  distances : ∀ id, (∀ r ∈ refs, r.id ≠ id) → w'.distances.find? id = w.distances.find? id

namespace Effect

variable {refs refs' : List Ref} {w w₁ w₂ : Walk}

theorem refl (w : Walk) : Effect [] w w := ⟨Nat.le_refl _, fun _ _ ↦ rfl⟩

theorem append (h : Effect refs w w₁) (h₁ : Effect refs' w₁ w₂) : Effect (refs ++ refs') w w₂ := by
  refine ⟨Nat.le_trans h.errors h₁.errors, fun id hid ↦ ?_⟩
  rw [List.forall_mem_append] at hid
  exact (h₁.distances id hid.2).trans (h.distances id hid.1)

theorem silent (h : Effect [] w w₁) (h₁ : Effect refs w₁ w₂) : Effect refs w w₂ := h.append h₁

theorem then_silent (h : Effect refs w w₁) (h₁ : Effect [] w₁ w₂) : Effect refs w w₂ :=
  List.append_nil refs ▸ h.append h₁

end Effect

namespace Walk

variable (w : Walk)

theorem effect_error (c : ScopeCause) (t : Token) : Effect [] w (w.error c t) := by
  refine ⟨?_, fun _ _ ↦ rfl⟩
  simp [error]

theorem effect_enter : Effect [] w w.enter := ⟨Nat.le_refl _, fun _ _ ↦ rfl⟩

theorem effect_leave : Effect [] w w.leave := ⟨Nat.le_refl _, fun _ _ ↦ rfl⟩

theorem effect_bind (name : String) : Effect [] w (w.bind name) := by
  unfold bind
  split <;> exact ⟨Nat.le_refl _, fun _ _ ↦ rfl⟩

theorem effect_define (name : Token) : Effect [] w (w.define name) := w.effect_bind name.lexeme

theorem effect_declare (name : Token) : Effect [] w (w.declare name) := by
  unfold declare
  split
  · exact .refl w
  · split
    · exact w.effect_error .alreadyDeclared name
    · exact ⟨Nat.le_refl _, fun _ _ ↦ rfl⟩

theorem effect_declareAll (names : List Token) : Effect [] w (w.declareAll names) := by
  unfold declareAll
  induction names generalizing w with
  | nil => exact .refl w
  | cons name names ih =>
    exact ((w.effect_declare name).silent (effect_define _ name)).silent (ih _)

theorem effect_locate (ref : Ref) : Effect [ref] w (w.locate ref) := by
  unfold locate
  split
  · refine ⟨Nat.le_refl _, fun id hid ↦ ?_⟩
    have hne : id ≠ ref.id := fun h ↦ hid ref (List.mem_singleton_self ref) h.symm
    rw [Distances.find?_record, if_neg hne]
  · refine ⟨Nat.le_refl _, fun id hid ↦ ?_⟩
    have hne : id ≠ ref.id := fun h ↦ hid ref (List.mem_singleton_self ref) h.symm
    rw [Distances.find?_forget, if_neg hne]

/-- The entry of an occurrence is the distance of its name. -/
theorem find?_locate (ref : Ref) :
    (w.locate ref).distances.find? ref.id = w.distance? ref.name.lexeme := by
  unfold locate
  split
  · next d h => rw [Distances.find?_record, if_pos rfl, h]
  · next h => rw [Distances.find?_forget, if_pos rfl, h]

theorem effect_read (ref : Ref) : Effect [ref] w (w.read ref) := by
  unfold read
  split
  · exact (w.effect_error _ _).silent (effect_locate _ ref)
  · exact w.effect_locate ref

end Walk

mutual

theorem effect_expr (k : Context) : ∀ (e : Expr) (w : Walk), Effect e.refs w (expr k e w)
  | .literal _ _, w => .refl w
  | .var ref, w => w.effect_read ref
  | .assign ref value, w => (effect_expr k value w).append (Walk.effect_locate _ ref)
  | .unary _ operand, w => effect_expr k operand w
  | .binary left _ right, w => (effect_expr k left w).append (effect_expr k right _)
  | .logical left _ right, w => (effect_expr k left w).append (effect_expr k right _)
  | .grouping inner, w => effect_expr k inner w
  | .call callee arguments _, w => (effect_expr k callee w).append (effect_exprs k arguments _)
  | .get object _, w => effect_expr k object w
  | .set object _ value, w => (effect_expr k value w).append (effect_expr k object _)
  | .this ref, w => by
    unfold expr
    split
    · exact ⟨(w.effect_error _ _).errors, fun _ _ ↦ rfl⟩
    · exact w.effect_locate ref
  | .super ref _, w => by
    unfold expr
    split
    · exact (w.effect_error _ _).silent (Walk.effect_locate _ ref)
    · exact (w.effect_error _ _).silent (Walk.effect_locate _ ref)
    · exact w.effect_locate ref

theorem effect_exprs (k : Context) : ∀ (es : List Expr) (w : Walk),
    Effect (Expr.refsOf es) w (exprs k es w)
  | [], w => .refl w
  | e :: es, w => (effect_expr k e w).append (effect_exprs k es _)

end

theorem effect_optional (k : Context) (e : Option Expr) (w : Walk) :
    Effect (Expr.optionalRefs e) w (optional k e w) := by
  cases e with
  | none => exact .refl w
  | some e => exact effect_expr k e w

def checkReturn (k : Context) (keyword : Token) (value : Option Expr) (w : Walk) : Walk :=
  let w := if k.function = .none then w.error .returnAtTopLevel keyword else w
  if k.function = .initializer ∧ value.isSome then w.error .returnFromInitializer keyword else w

theorem ret_eq (k : Context) (keyword : Token) (value : Option Expr) (w : Walk) :
    ret k keyword value w = optional k value (checkReturn k keyword value w) := rfl

theorem effect_checkReturn (k : Context) (keyword : Token) (value : Option Expr) (w : Walk) :
    Effect [] w (checkReturn k keyword value w) := by
  have herror {p : Prop} [Decidable p] (cause : ScopeCause) (w : Walk) :
      Effect [] w (if p then w.error cause keyword else w) := by
    split
    · exact w.effect_error cause keyword
    · exact .refl w
  exact (herror .returnAtTopLevel w).silent (herror .returnFromInitializer _)

@[simp] theorem scopes_checkReturn (k : Context) (keyword : Token) (value : Option Expr) (w : Walk) :
    (checkReturn k keyword value w).scopes = w.scopes := by
  unfold checkReturn
  split <;> split <;> rfl

def className (name : Token) (superclass : Ref) (w : Walk) : Walk :=
  let w := (w.declare name).define name
  if superclass.name.lexeme = name.lexeme then w.error .selfInheritance superclass.name else w

theorem effect_className (name : Token) (superclass : Ref) (w : Walk) :
    Effect [] w (className name superclass w) := by
  have h := (w.effect_declare name).silent (Walk.effect_define _ name)
  unfold className
  split
  · exact h.silent (Walk.effect_error _ _ _)
  · exact h

@[simp] theorem scopes_className (name : Token) (superclass : Ref) (w : Walk) :
    (className name superclass w).scopes = bindIn name.lexeme w.scopes := by
  unfold className
  split <;> simp [bindIn_declareIn]

theorem effect_classHead_superclass (name : Token) (ref : Ref) (w : Walk) :
    Effect [] ((className name ref w).read ref) (classHead name (some ref) w) :=
  (((Walk.effect_enter _).silent (Walk.effect_bind _ _)).silent (Walk.effect_enter _)).silent
    (Walk.effect_bind _ _)

theorem effect_classHead (name : Token) (superclass : Option Ref) (w : Walk) :
    Effect superclass.toList w (classHead name superclass w) := by
  cases superclass with
  | none =>
    exact (((w.effect_declare name).silent (Walk.effect_define _ name)).silent
      (Walk.effect_enter _)).silent (Walk.effect_bind _ _)
  | some ref =>
    exact ((effect_className name ref w).silent (Walk.effect_read _ ref)).then_silent
      (effect_classHead_superclass name ref w)

theorem effect_classEnd (superclass : Option Ref) (w : Walk) : Effect [] w (classEnd superclass w) := by
  cases superclass with
  | none => exact w.effect_leave
  | some _ => exact w.effect_leave.silent (Walk.effect_leave _)

mutual

theorem effect_stmt (k : Context) : ∀ (s : Stmt) (w : Walk), Effect s.refs w (stmt k s w)
  | .expr e, w => effect_expr k e w
  | .print e, w => effect_expr k e w
  | .var name initial, w =>
    ((w.effect_declare name).silent (effect_optional k initial _)).then_silent (Walk.effect_define _ name)
  | .block body, w => (w.effect_enter.silent (effect_stmts k body _)).then_silent (Walk.effect_leave _)
  | .cond test yes none, w => (effect_expr k test w).append (effect_stmt k yes _)
  | .cond test yes (some no), w =>
    (effect_expr k test w).append ((effect_stmt k yes _).append (effect_stmt k no _))
  | .loop test body, w => (effect_expr k test w).append (effect_stmt k body _)
  | .function decl, w =>
    ((w.effect_declare decl.name).silent (Walk.effect_define _ _)).silent (effect_function _ decl _)
  | .ret keyword value, w => (effect_checkReturn k keyword value w).silent (effect_optional k value _)
  | .classDecl name superclass methods, w =>
    ((effect_classHead name superclass w).append (effect_functions _ methods _)).then_silent
      (effect_classEnd superclass _)

theorem effect_stmts (k : Context) : ∀ (ss : List Stmt) (w : Walk),
    Effect (Stmt.refsOf ss) w (stmts k ss w)
  | [], w => .refl w
  | s :: ss, w => (effect_stmt k s w).append (effect_stmts k ss _)

theorem effect_function (k : Context) : ∀ (d : FunctionDecl) (w : Walk),
    Effect d.refs w (function k d w)
  | .mk _ params body, w =>
    ((w.effect_enter.silent (Walk.effect_declareAll _ params)).silent
      (effect_stmts k body _)).then_silent (Walk.effect_leave _)

theorem effect_functions (k : Context) : ∀ (ds : List FunctionDecl) (w : Walk),
    Effect (FunctionDecl.refsOf ds) w (functions k ds w)
  | [], w => .refl w
  | d :: ds, w => (effect_function _ d w).append (effect_functions k ds _)

end

end Lox.Scope
