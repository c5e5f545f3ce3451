import Lox.Proofs.Scope.Legal
import Lox.Proofs.Scope.Relabel
import Lox.Proofs.Skip.Code

namespace Lox.Skip

open Scope

/-- Scopes of a walk, and the same ones but for one without names. -/
inductive Skips : Gap → List Names → List Names → Prop
  | same (S : List Names) : Skips .nowhere S S
  | here {S : List Names} (h : Settled S) : Skips (.out 0) (.empty :: S) S
  | inside {n : Nat} (s : Names) {S S' : List Names} (h : Skips (.out n) S S') :
      Skips (.out (n + 1)) (s :: S) (s :: S')

namespace Skips

variable {g : Gap} {S S' : List Names}

theorem cons (h : Skips g S S') (s : Names) : Skips g.inside (s :: S) (s :: S') := by
  cases g with
  | nowhere =>
    cases h
    exact .same _
  | out n => exact .inside s h

theorem distance (h : Skips g S S') (x : String) :
    Option.Rel (Reach g) (distanceIn S x) (distanceIn S' x) := by
  induction h with
  | same S =>
    cases distanceIn S x with
    | none => exact .none
    | some d => exact .some (.same d)
  | @here S =>
    rw [distanceIn_enter]
    cases distanceIn S x with
    | none => exact .none
    | some d => exact .some (.outer (Nat.zero_le d))
  | @inside n s S S' h ih =>
    rw [distanceIn, distanceIn, List.findIdx?_cons, List.findIdx?_cons]
    split
    · exact .some (.inner (Nat.succ_pos _))
    · change Option.Rel _ ((distanceIn S x).map _) ((distanceIn S' x).map _)
      cases hd : distanceIn S x <;> cases hd' : distanceIn S' x <;> rw [hd, hd'] at ih <;> cases ih
      · exact .none
      · next h => exact .some h.inside

theorem getElem?_out {n : Nat} (h : Skips (.out n) S S') : S[n]? = some .empty := by
  induction n generalizing S S' with
  | zero =>
    cases h
    rfl
  | succ n ih =>
    cases h with
    | inside s h => exact ih h

/-- The scope left out does not part `super` from `this`. -/
theorem distance_this (h : Skips g S S') (hS : Nested none S) :
    Option.Rel (fun d d' ↦ Reach g (d - 1) (d' - 1)) (distanceIn S "super") (distanceIn S' "super") := by
  have hd := h.distance "super"
  generalize hs : distanceIn S "super" = o at hd ⊢
  generalize distanceIn S' "super" = o' at hd ⊢
  cases hd with
  | none => exact .none
  | @some d d' hd =>
    refine .some ?_
    cases hd with
    | same => exact .same _
    | inner hlt => exact .inner (by omega)
    | @outer n _ hle =>
      obtain ⟨-, i, hi, -⟩ | ⟨j, hj, s, hthis, hx⟩ := hS.this_inside hs
      · cases hi
      · obtain rfl : d' = j := Nat.succ.inj hj
        have hne : n ≠ d' := by
          rintro rfl
          rw [h.getElem?_out] at hthis
          cases hthis
          cases hx
        obtain ⟨d, rfl⟩ := Nat.exists_eq_succ_of_ne_zero (show d' ≠ 0 by omega)
        exact .outer (by omega)

theorem pending_iff (h : Skips g S S') (x : String) : Pending S x ↔ Pending S' x := by
  cases h with
  | same => exact Iff.rfl
  | here h =>
    refine iff_of_false ?_ (h.not_pending x)
    rintro ⟨s, ⟨⟩, hx⟩
    cases hx
  | inside s h => exact Iff.rfl

theorem head?_eq (h : Skips g S S') (hg : g ≠ .out 0) : S'.head? = S.head? := by
  cases h with
  | same => rfl
  | here => exact absurd rfl hg
  | inside => rfl

theorem fresh_iff (h : Skips g S S') (hg : g ≠ .out 0) (x : String) : Fresh S x ↔ Fresh S' x := by
  rw [Fresh, Fresh, h.head?_eq hg]

theorem bindIn (h : Skips g S S') (hg : g ≠ .out 0) (x : String) :
    Skips g (bindIn x S) (bindIn x S') := by
  cases h with
  | same => exact .same _
  | here => exact absurd rfl hg
  | inside s h => exact .inside _ h

theorem declareIn (h : Skips g S S') (hg : g ≠ .out 0) (x : String) :
    Skips g (declareIn x S) (declareIn x S') := by
  cases h with
  | same => exact .same _
  | here => exact absurd rfl hg
  | inside s h =>
    rw [Scope.declareIn, Scope.declareIn]
    split
    · exact .inside _ h
    · exact .inside _ h

theorem afterDeclaring (h : Skips g S S') {o : Option Token} (hg : g = .out 0 → o = none) :
    Skips g (afterDeclaring o S) (afterDeclaring o S') := by
  cases o with
  | none => exact h
  | some t => exact h.bindIn (fun hg' ↦ absurd (hg hg') (by simp)) t.lexeme

theorem parameters (h : Skips g S S') (hg : g ≠ .out 0) (ts : List Token) :
    Skips g (ts.foldl (fun S t ↦ Scope.bindIn t.lexeme S) S)
      (ts.foldl (fun S t ↦ Scope.bindIn t.lexeme S) S') := by
  induction ts generalizing S S' with
  | nil => exact h
  | cons t ts ih => exact ih (h.bindIn hg t.lexeme)

theorem freshAll_iff (h : Skips g S S') (hg : g ≠ .out 0) (ts : List Token) :
    FreshAll S ts ↔ FreshAll S' ts := by
  induction ts generalizing S S' with
  | nil => exact Iff.rfl
  | cons t ts ih => exact and_congr (h.fresh_iff hg _) (ih (h.bindIn hg t.lexeme))

theorem methodScopes (h : Skips g S S') :
    ∀ o : Option Ref, Skips (if o.isSome then g.inside.inside else g.inside) (methodScopes o S)
      (methodScopes o S')
  | none => (h.cons .empty).bindIn g.inside_ne "this"
  | some _ => (((h.cons .empty).bindIn g.inside_ne "super").cons .empty).bindIn g.inside.inside_ne "this"

end Skips

section

variable {w w₁ w₂ w' w₁' w₂' : Walk} {refs refs₁ refs' refs₁' : List Ref}

theorem quiet_append_iff (he : Effect refs w w₁) (he₁ : Effect refs₁ w₁ w₂) (he' : Effect refs' w' w₁')
    (he₁' : Effect refs₁' w₁' w₂') (h : Quiet w w₁ ↔ Quiet w' w₁') (h₁ : Quiet w₁ w₂ ↔ Quiet w₁' w₂') :
    Quiet w w₂ ↔ Quiet w' w₂' := by
  rw [Quiet.trans_iff he he₁, Quiet.trans_iff he' he₁', h, h₁]

theorem quiet_congr_right (h : Quiet w w₁ ↔ Quiet w' w₁') (h₁ : Quiet w₁ w₂) (h₁' : Quiet w₁' w₂') :
    Quiet w w₂ ↔ Quiet w' w₂' := by
  rw [Quiet.congr_right h₁, Quiet.congr_right h₁', h]

mutual

theorem quiet_expr_iff (k : Context) : ∀ (e : Expr) {g : Gap} {w w' : Walk}, Skips g w.scopes w'.scopes →
    (Quiet w (expr k e w) ↔ Quiet w' (expr k e w'))
  | .literal _ _, _, _, _, _ => iff_of_true rfl rfl
  | .var ref, _, _, _, h => by rw [expr, expr, Quiet.read, Quiet.read, h.pending_iff]
  | .assign ref e, _, _, _, h => quiet_congr_right (quiet_expr_iff k e h) (.locate _ ref) (.locate _ ref)
  | .unary _ e, _, _, _, h | .grouping e, _, _, _, h | .get e _, _, _, _, h => quiet_expr_iff k e h
  | .binary l _ r, _, w, w', h | .logical l _ r, _, w, w', h =>
    quiet_append_iff (effect_expr k l w) (effect_expr k r _) (effect_expr k l w') (effect_expr k r _)
      (quiet_expr_iff k l h) (quiet_expr_iff k r (by simpa using h))
  | .call f es _, _, w, w', h =>
    quiet_append_iff (effect_expr k f w) (effect_exprs k es _) (effect_expr k f w') (effect_exprs k es _)
      (quiet_expr_iff k f h) (quiet_exprs_iff k es (by simpa using h))
  | .set o _ e, _, w, w', h =>
    quiet_append_iff (effect_expr k e w) (effect_expr k o _) (effect_expr k e w') (effect_expr k o _)
      (quiet_expr_iff k e h) (quiet_expr_iff k o (by simpa using h))
  | .this ref, _, w, w', _ => by
    rw [expr, expr]
    split
    · exact iff_of_false (Quiet.not_error w _ _) (Quiet.not_error w' _ _)
    · exact iff_of_true (.locate w ref) (.locate w' ref)
  | .super ref _, _, w, w', _ => by
    rw [expr, expr]
    refine quiet_congr_right ?_ (.locate _ ref) (.locate _ ref)
    cases k.cls with
    | none | plain => exact iff_of_false (Quiet.not_error w _ _) (Quiet.not_error w' _ _)
    | subclass => exact iff_of_true rfl rfl

theorem quiet_exprs_iff (k : Context) : ∀ (es : List Expr) {g : Gap} {w w' : Walk},
    Skips g w.scopes w'.scopes → (Quiet w (exprs k es w) ↔ Quiet w' (exprs k es w'))
  | [], _, _, _, _ => iff_of_true rfl rfl
  | e :: es, _, w, w', h =>
    quiet_append_iff (effect_expr k e w) (effect_exprs k es _) (effect_expr k e w') (effect_exprs k es _)
      (quiet_expr_iff k e h) (quiet_exprs_iff k es (by simpa using h))

end

theorem quiet_optional_iff (k : Context) (o : Option Expr) {g : Gap} (h : Skips g w.scopes w'.scopes) :
    Quiet w (optional k o w) ↔ Quiet w' (optional k o w') := by
  cases o with
  | none => exact iff_of_true rfl rfl
  | some e => exact quiet_expr_iff k e h

theorem quiet_checkReturn_iff (k : Context) (keyword : Token) (value : Option Expr) :
    Quiet w (checkReturn k keyword value w) ↔ Quiet w' (checkReturn k keyword value w') := by
  rw [checkReturn, checkReturn, Quiet.trans_iff (Walk.effect_errorIf ..) (Walk.effect_errorIf ..),
    Quiet.trans_iff (Walk.effect_errorIf ..) (Walk.effect_errorIf ..), Quiet.errorIf, Quiet.errorIf,
    Quiet.errorIf, Quiet.errorIf]

theorem quiet_classHead_iff (name : Token) (o : Option Ref) {g : Gap} (hg : g ≠ .out 0)
    (h : Skips g w.scopes w'.scopes) :
    Quiet w (classHead name o w) ↔ Quiet w' (classHead name o w') := by
  have hname : Quiet w ((w.declare name).define name) ↔ Quiet w' ((w'.declare name).define name) := by
    rw [Quiet.declare_define, Quiet.declare_define, h.fresh_iff hg]
  cases o with
  | none => exact quiet_congr_right hname (Quiet.bind _ "this") (Quiet.bind _ "this")
  | some ref =>
    have hself : Quiet w (className name ref w) ↔ Quiet w' (className name ref w') := by
      rw [quiet_className, quiet_className, h.fresh_iff hg]
    have hread : Quiet (className name ref w) ((className name ref w).read ref) ↔
        Quiet (className name ref w') ((className name ref w').read ref) := by
      rw [Quiet.read, Quiet.read, scopes_className, scopes_className, (h.bindIn hg _).pending_iff]
    have hrest (w : Walk) : Quiet ((className name ref w).read ref) (classHead name (some ref) w) :=
      (Quiet.bind _ "this").trans (Quiet.bind ((className name ref w).read ref).enter "super")
    exact quiet_congr_right (quiet_append_iff (effect_className ..) (Walk.effect_read _ ref)
      (effect_className ..) (Walk.effect_read _ ref) hself hread) (hrest w) (hrest w')

end

mutual

theorem quiet_stmt_iff (k : Context) : ∀ (s : Stmt) {g : Gap} {w w' : Walk}, s.All proper →
    (g = .out 0 → s.declared? = none) → Skips g w.scopes w'.scopes →
    (Quiet w (stmt k s w) ↔ Quiet w' (stmt k s w'))
  | .expr e, _, _, _, _, _, h | .print e, _, _, _, _, _, h => quiet_expr_iff k e h
  | .var name o, _, w, w', _, hg, h => by
    have hg' : _ ≠ Gap.out 0 := fun heq ↦ absurd (hg heq) (by simp [Stmt.declared?])
    refine quiet_congr_right (quiet_append_iff (w.effect_declare name) (effect_optional k o _)
      (w'.effect_declare name) (effect_optional k o _) ?_ ?_) (.define _ name) (.define _ name)
    · rw [Quiet.declare, Quiet.declare, h.fresh_iff hg']
    · exact quiet_optional_iff k o (by simpa using h.declareIn hg' name.lexeme)
  | .block ss, _, w, w', hp, _, h => by
    have hbody : Quiet w.enter (stmts k ss w.enter) ↔ Quiet w'.enter (stmts k ss w'.enter) :=
      quiet_stmts_iff k ss hp.2 (Gap.inside_ne _) (h.cons .empty)
    exact quiet_congr_right hbody (.leave _) (.leave _)
  | .cond e y none, _, w, w', hp, _, h =>
    quiet_append_iff (effect_expr k e w) (effect_stmt k y _) (effect_expr k e w') (effect_stmt k y _)
      (quiet_expr_iff k e h) (quiet_stmt_iff k y hp.2.2 (fun _ ↦ hp.1) (by simpa using h))
  | .cond e y (some n), g, w, w', hp, _, h => by
    have hy : Skips g (stmt k y (expr k e w)).scopes (stmt k y (expr k e w')).scopes := by
      rw [scopes_stmt k y _ hp.2.2.1, scopes_stmt k y _ hp.2.2.1, hp.1.1, scopes_expr, scopes_expr]
      exact h
    refine quiet_append_iff ((effect_expr k e w).append (effect_stmt k y _)) (effect_stmt k n _)
      ((effect_expr k e w').append (effect_stmt k y _)) (effect_stmt k n _) ?_
      (quiet_stmt_iff k n hp.2.2.2 (fun _ ↦ hp.1.2) hy)
    exact quiet_append_iff (effect_expr k e w) (effect_stmt k y _) (effect_expr k e w')
      (effect_stmt k y _) (quiet_expr_iff k e h)
      (quiet_stmt_iff k y hp.2.2.1 (fun _ ↦ hp.1.1) (by simpa using h))
  | .loop e s, _, w, w', hp, _, h =>
    quiet_append_iff (effect_expr k e w) (effect_stmt k s _) (effect_expr k e w') (effect_stmt k s _)
      (quiet_expr_iff k e h) (quiet_stmt_iff k s hp.2.2 (fun _ ↦ hp.1) (by simpa using h))
  | .function d, g, w, w', hp, hg, h => by
    have hg' : _ ≠ Gap.out 0 := fun heq ↦ absurd (hg heq) (by simp [Stmt.declared?])
    have hname : Skips g ((w.declare d.name).define d.name).scopes
        ((w'.declare d.name).define d.name).scopes := by
      simpa [bindIn_declareIn] using h.bindIn hg' d.name.lexeme
    refine quiet_append_iff ((w.effect_declare d.name).silent (Walk.effect_define _ _))
      (effect_function _ d _) ((w'.effect_declare d.name).silent (Walk.effect_define _ _))
      (effect_function _ d _) ?_ (quiet_function_iff _ d hp.2 hname)
    rw [Quiet.declare_define, Quiet.declare_define, h.fresh_iff hg']
  | .ret keyword o, _, w, w', _, _, h =>
    quiet_append_iff (effect_checkReturn k keyword o w) (effect_optional k o _)
      (effect_checkReturn k keyword o w') (effect_optional k o _) (quiet_checkReturn_iff k keyword o)
      (quiet_optional_iff k o (by simpa using h))
  | .classDecl name o ds, _, w, w', hp, hg, h => by
    have hg' : _ ≠ Gap.out 0 := fun heq ↦ absurd (hg heq) (by simp [Stmt.declared?])
    have hmethods := (h.bindIn hg' name.lexeme).methodScopes o
    rw [← scopes_classHead, ← scopes_classHead] at hmethods
    exact quiet_congr_right (quiet_append_iff (effect_classHead name o w) (effect_functions _ ds _)
      (effect_classHead name o w') (effect_functions _ ds _) (quiet_classHead_iff name o hg' h)
      (quiet_functions_iff _ ds hp.2.2 hmethods)) (.classEnd o _) (.classEnd o _)

theorem quiet_stmts_iff (k : Context) : ∀ (ss : List Stmt) {g : Gap} {w w' : Walk}, Stmt.AllOf proper ss →
    g ≠ .out 0 → Skips g w.scopes w'.scopes → (Quiet w (stmts k ss w) ↔ Quiet w' (stmts k ss w'))
  | [], _, _, _, _, _, _ => iff_of_true rfl rfl
  | s :: ss, _, w, w', hp, hg, h => by
    refine quiet_append_iff (effect_stmt k s w) (effect_stmts k ss _) (effect_stmt k s w')
      (effect_stmts k ss _) (quiet_stmt_iff k s hp.1 (fun heq ↦ absurd heq hg) h)
      (quiet_stmts_iff k ss hp.2 hg ?_)
    rw [scopes_stmt k s w hp.1, scopes_stmt k s w' hp.1]
    exact h.afterDeclaring fun heq ↦ absurd heq hg

theorem quiet_function_iff (k : Context) : ∀ (d : FunctionDecl) {g : Gap} {w w' : Walk}, d.All proper →
    Skips g w.scopes w'.scopes → (Quiet w (function k d w) ↔ Quiet w' (function k d w'))
  | .mk _ params body, g, w, w', hp, h => by
    have hparams : Quiet w (w.enter.declareAll params) ↔ Quiet w' (w'.enter.declareAll params) :=
      (Quiet.declareAll params w.enter).trans
        (((h.cons .empty).freshAll_iff g.inside_ne params).trans (Quiet.declareAll params w'.enter).symm)
    refine quiet_congr_right (quiet_append_iff (w.effect_enter.silent (Walk.effect_declareAll _ params))
      (effect_stmts k body _) (w'.effect_enter.silent (Walk.effect_declareAll _ params))
      (effect_stmts k body _) hparams (quiet_stmts_iff k body hp.2 g.inside_ne ?_)) (.leave _) (.leave _)
    rw [Walk.scopes_declareAll, Walk.scopes_declareAll]
    exact (h.cons .empty).parameters g.inside_ne params

theorem quiet_functions_iff (k : Context) : ∀ (ds : List FunctionDecl) {g : Gap} {w w' : Walk},
    FunctionDecl.AllOf proper ds → Skips g w.scopes w'.scopes →
    (Quiet w (functions k ds w) ↔ Quiet w' (functions k ds w'))
  | [], _, _, _, _, _ => iff_of_true rfl rfl
  | d :: ds, _, w, w', hp, h =>
    quiet_append_iff (effect_function _ d w) (effect_functions k ds _) (effect_function _ d w')
      (effect_functions k ds _) (quiet_function_iff _ d hp.1 h)
      (quiet_functions_iff k ds hp.2 (by simpa using h))

end

end Lox.Skip
