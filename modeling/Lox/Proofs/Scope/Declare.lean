import Lox.Proofs.Scope.Place

namespace Lox

mutual

def Expr.assigns (x : String) : Expr → Bool
  | .literal _ _ | .var _ | .this _ | .super _ _ => false
  | .assign ref value => ref.name.lexeme == x || value.assigns x
  | .unary _ e | .grouping e | .get e _ => e.assigns x
  | .binary left _ right | .logical left _ right => left.assigns x || right.assigns x
  | .call callee arguments _ => callee.assigns x || Expr.assignsAny x arguments
  | .set object _ value => object.assigns x || value.assigns x

def Expr.assignsAny (x : String) : List Expr → Bool
  | [] => false
  | e :: es => e.assigns x || Expr.assignsAny x es

end

mutual

/-- No local variable is assigned in its own initial value. A variable is local if it is declared in a
block or in a function. -/
def Stmt.selfFree (isLocal : Bool) : Stmt → Bool
  | .var name (some e) => !(isLocal && e.assigns name.lexeme)
  | .block body => Stmt.selfFreeAll true body
  | .cond _ yes none => yes.selfFree isLocal
  | .cond _ yes (some no) => yes.selfFree isLocal && no.selfFree isLocal
  | .loop _ body => body.selfFree isLocal
  | .function decl => decl.selfFree
  | .classDecl _ _ methods => FunctionDecl.selfFreeAll methods
  | _ => true

def Stmt.selfFreeAll (isLocal : Bool) : List Stmt → Bool
  | [] => true
  | s :: ss => s.selfFree isLocal && Stmt.selfFreeAll isLocal ss

def FunctionDecl.selfFree : FunctionDecl → Bool
  | .mk _ _ body => Stmt.selfFreeAll true body

def FunctionDecl.selfFreeAll : List FunctionDecl → Bool
  | [] => true
  | d :: ds => d.selfFree && FunctionDecl.selfFreeAll ds

end

namespace Scope

theorem Settled.not_pending {S : List Names} (h : Settled S) (x : String) : ¬Pending S x := by
  rintro ⟨s, hs, hx⟩
  exact h s (List.mem_of_mem_head? hs) x hx

theorem Settled.of_pending_declareIn {S : List Names} {x y : String} (h : Settled S)
    (hx : Pending (declareIn y S) x) : x = y ∧ S.isEmpty = false := by
  cases S with
  | nil =>
    obtain ⟨_, ⟨⟩, -⟩ := hx
  | cons s S =>
    refine ⟨?_, rfl⟩
    refine Decidable.byContradiction fun hne ↦ h.not_pending x ?_
    obtain ⟨s', hs', hx⟩ := hx
    rw [declareIn] at hs'
    split at hs'
    · exact ⟨s', hs', hx⟩
    · cases hs'
      rw [Bindings.find?_insert, if_neg hne] at hx
      exact ⟨s, rfl, hx⟩

theorem isEmpty_bindIn (x : String) (S : List Names) : (bindIn x S).isEmpty = S.isEmpty := by
  cases S <;> rfl

theorem isEmpty_afterDeclaring (o : Option Token) (S : List Names) :
    (afterDeclaring o S).isEmpty = S.isEmpty := by
  cases o with
  | none => rfl
  | some t => exact isEmpty_bindIn t.lexeme S

theorem isEmpty_parameters (ts : List Token) (S : List Names) :
    (ts.foldl (fun S t ↦ bindIn t.lexeme S) S).isEmpty = S.isEmpty := by
  induction ts generalizing S with
  | nil => rfl
  | cons t ts ih => exact (ih _).trans (isEmpty_bindIn t.lexeme S)

theorem distanceIn_enter (S : List Names) (x : String) :
    distanceIn (.empty :: S) x = (distanceIn S x).map (· + 1) := by
  simp [distanceIn, List.findIdx?_cons, Bindings.contains]

theorem distanceIn_insert (s : Names) (S : List Names) (y : String) (b : Bool) (x : String) :
    distanceIn (s.insert y b :: S) x = if x = y then some 0 else distanceIn (s :: S) x := by
  unfold distanceIn
  rw [List.findIdx?_cons, List.findIdx?_cons, Bindings.contains_insert]
  by_cases h : x = y <;> simp [h]

theorem distanceIn_bindIn {S : List Names} {x y : String} (h : x ≠ y) :
    distanceIn (bindIn y S) x = distanceIn S x := by
  cases S with
  | nil => rfl
  | cons s S => rw [bindIn, distanceIn_insert, if_neg h]

theorem distanceIn_declareIn {S : List Names} {x y : String} (h : x ≠ y) :
    distanceIn (declareIn y S) x = distanceIn S x := by
  cases S with
  | nil => rfl
  | cons s S =>
    rw [declareIn]
    split
    · rfl
    · rw [distanceIn_insert, if_neg h]

def Fresh (S : List Names) (x : String) : Prop := ∀ s ∈ S.head?, s.contains x = false

theorem Fresh.not_readable {S : List Names} {x : String} (h : Fresh S x) :
    ∀ s ∈ S.head?, s.find? x ≠ some true := by
  intro s hs hx
  have hnone := h s hs
  simp [Bindings.contains, hx] at hnone

theorem Fresh.not_readable_declareIn {S : List Names} {x : String} (h : Fresh S x) :
    ∀ s ∈ (declareIn x S).head?, s.find? x ≠ some true := by
  cases S with
  | nil => nofun
  | cons s S =>
    rw [declareIn, if_neg (by simp [h s rfl])]
    rintro _ ⟨⟩
    simp [Bindings.find?_insert]

def FreshAll : List Names → List Token → Prop
  | _, [] => True
  | S, t :: ts => Fresh S t.lexeme ∧ FreshAll (bindIn t.lexeme S) ts

theorem fresh_of_errors_declare {w : Walk} {t : Token} (h : (w.declare t).errors.size = 0) :
    Fresh w.scopes t.lexeme := by
  intro s hs
  rw [Bool.eq_false_iff]
  intro hc
  obtain ⟨rest, hS⟩ := List.head?_eq_some_iff.1 hs
  simp [Walk.declare, hS, hc, Walk.error] at h

theorem freshAll_of_errors_declareAll {ts : List Token} {w : Walk}
    (h : (w.declareAll ts).errors.size = 0) : FreshAll w.scopes ts := by
  induction ts generalizing w with
  | nil => trivial
  | cons t ts ih =>
    have hrest : (((w.declare t).define t).declareAll ts).errors.size = 0 := h
    have hdefine := (Walk.effect_define (w.declare t) t).errors
    have hall := (((w.declare t).define t).effect_declareAll ts).errors
    have hfresh := ih hrest
    rw [Walk.scopes_define, Walk.scopes_declare, bindIn_declareIn] at hfresh
    exact ⟨fresh_of_errors_declare (by omega), hfresh⟩

theorem errors_declare_le (k : Context) {s : Stmt} {t : Token} (h : s.declared? = some t) (w : Walk) :
    (w.declare t).errors.size ≤ (stmt k s w).errors.size := by
  have hdefine := (Walk.effect_define (w.declare t) t).errors
  cases s with
  | var _ initial =>
    cases h
    exact ((effect_optional k initial _).then_silent (Walk.effect_define _ t)).errors
  | function decl =>
    cases h
    exact Nat.le_trans hdefine (effect_function _ decl _).errors
  | classDecl _ superclass methods =>
    cases h
    have hrest := ((effect_functions { k with cls := classKind superclass } methods
      (classHead t superclass w)).then_silent (effect_classEnd superclass _)).errors
    refine Nat.le_trans (Nat.le_trans hdefine ?_) hrest
    cases superclass with
    | none => exact ((Walk.effect_enter _).silent (Walk.effect_bind _ _)).errors
    | some ref =>
      have hname : ((w.declare t).define t).errors.size ≤ (className t ref w).errors.size := by
        unfold className
        split
        · exact (Walk.effect_error _ _ _).errors
        · exact Nat.le_refl _
      exact Nat.le_trans hname ((Walk.effect_read _ ref).then_silent
        (effect_classHead_superclass t ref w)).errors
  | _ => cases h

section

variable {H : List Accepted} {S : List Names}

theorem At.fresh {s : Stmt} (h : At H (.stmt s) S) {t : Token} (ht : s.declared? = some t) :
    Fresh S t.lexeme := by
  obtain ⟨a, -, k, w, hv, rfl⟩ := h
  have herrors : (stmt k s w).errors.size = 0 := Accepted.errors_after hv
  have hle := errors_declare_le k ht w
  exact fresh_of_errors_declare (by omega)

theorem At.freshAll {d : FunctionDecl} (h : At H (.function d) S) : FreshAll (.empty :: S) d.params := by
  obtain ⟨a, -, k, w, hv, rfl⟩ := h
  cases d with
  | mk t ts ss =>
    have herrors : (Scope.function k (.mk t ts ss) w).errors.size = 0 := Accepted.errors_after hv
    have hle := ((effect_stmts k ss (w.enter.declareAll ts)).then_silent (Walk.effect_leave _)).errors
    have hzero : (w.enter.declareAll ts).errors.size = 0 := by
      rw [Scope.function] at herrors
      omega
    exact freshAll_of_errors_declareAll hzero

theorem At.settled_stmt {s : Stmt} (h : At H (.stmt s) S) : Settled S := by
  obtain ⟨a, -, k, w, hv, rfl⟩ := h
  exact Accepted.settles hv

theorem At.settled_function {d : FunctionDecl} (h : At H (.function d) S) : Settled S := by
  obtain ⟨a, -, k, w, hv, rfl⟩ := h
  exact Accepted.settles hv

end

/-- In the methods of a class there is a scope of `this`; if the class has a superclass, the innermost
one lies just inside the innermost scope of `super`. -/
def Seated (k : Context) (S : List Names) : Prop :=
  k.cls ≠ .none → ∃ j, distanceIn S "this" = some j ∧
    (k.cls = .subclass → distanceIn S "super" = some (j + 1))

namespace Seated

variable {k : Context} {S : List Names}

theorem enter (h : Seated k S) : Seated k (.empty :: S) := by
  intro hk
  obtain ⟨j, hthis, hsuper⟩ := h hk
  refine ⟨j + 1, by rw [distanceIn_enter, hthis]; rfl, fun hk ↦ ?_⟩
  rw [distanceIn_enter, hsuper hk]
  rfl

theorem bindIn (h : Seated k S) {t : Token} (ht : t.Ordinary) : Seated k (bindIn t.lexeme S) := by
  intro hk
  rw [distanceIn_bindIn ht.1.symm, distanceIn_bindIn ht.2.symm]
  exact h hk

theorem declareIn (h : Seated k S) {t : Token} (ht : t.Ordinary) :
    Seated k (declareIn t.lexeme S) := by
  intro hk
  rw [distanceIn_declareIn ht.1.symm, distanceIn_declareIn ht.2.symm]
  exact h hk

theorem parameters (h : Seated k S) {ts : List Token} (hts : ∀ t ∈ ts, t.Ordinary) :
    Seated k (ts.foldl (fun S t ↦ Scope.bindIn t.lexeme S) S) := by
  induction ts generalizing S with
  | nil => exact h
  | cons t ts ih =>
    rw [List.forall_mem_cons] at hts
    exact ih (h.bindIn hts.1) hts.2

theorem afterDeclaring (h : Seated k S) {s : Stmt} (hs : s.All proper) :
    Seated k (afterDeclaring s.declared? S) := by
  cases hd : s.declared? with
  | none => exact h
  | some t => exact h.bindIn (ordinary_of_declared hs t hd)

theorem methodScopes (k : Context) (o : Option Ref) (S : List Names) :
    Seated { k with cls := classKind o } (methodScopes o S) := by
  cases o with
  | none => exact fun _ ↦ ⟨0, rfl, nofun⟩
  | some _ => exact fun _ ↦ ⟨0, rfl, fun _ ↦ rfl⟩

end Seated

/-- Wherever `super` may stand its scopes are seated. -/
def Visit.Seated (v : Visit) : Prop :=
  (∃ ref, v.node = .expr (.var ref)) ∨ Scope.Seated v.context v.walk.scopes

theorem Visit.Part.seated {v u : Visit} (h : Part v u) (hp : v.node.All proper) (hv : v.Seated) :
    u.Seated := by
  obtain ⟨_, hvar⟩ | hv := hv
  · cases h <;> cases hvar
  cases h with
  | superclass => exact .inl ⟨_, rfl⟩
  | initial =>
    refine .inr ?_
    rw [Walk.scopes_declare]
    exact hv.declareIn (hp.1 _ rfl)
  | block => exact .inr hv.enter
  | function =>
    refine .inr ?_
    rw [Walk.scopes_define, Walk.scopes_declare, bindIn_declareIn]
    exact hv.bindIn (hp.1 _ rfl)
  | methods =>
    refine .inr ?_
    rw [scopes_classHead]
    exact .methodScopes _ _ _
  | tailStmts =>
    refine .inr ?_
    rw [scopes_stmt _ _ _ hp.1]
    exact hv.afterDeclaring hp.1
  | condNo =>
    refine .inr ?_
    rw [scopes_stmt _ _ _ hp.2.2.1, hp.1.1, scopes_expr]
    exact hv
  | body =>
    refine .inr ?_
    rw [Walk.scopes_declareAll]
    exact hv.enter.parameters hp.1
  | _ => exact .inr (by simpa [Scope.Seated] using hv)

theorem Accepted.seated {a : Accepted} {v : Visit} (h : a.Visits v) : v.Seated := by
  induction h with
  | program => exact .inr fun h ↦ absurd rfl h
  | part hv hp ih => exact hp.seated (Accepted.all hv) ih

theorem At.exists_this {H : List Accepted} {S : List Names} {ref : Ref} (h : At H (.expr (.this ref)) S) :
    ∃ j, distanceIn S "this" = some j := by
  obtain ⟨a, -, k, w, hv, rfl⟩ := h
  have herrors := Accepted.errors_after hv
  obtain ⟨_, ⟨⟩⟩ | hseated := Accepted.seated hv
  have hk : k.cls ≠ .none := by
    intro hk
    simp [Visit.after, Node.walk, Scope.expr, hk, Walk.error] at herrors
  obtain ⟨j, hj, -⟩ := hseated hk
  exact ⟨j, hj⟩

theorem At.seated {H : List Accepted} {S : List Names} {ref : Ref} {name : Token}
    (h : At H (.expr (.super ref name)) S) :
    ∃ j, distanceIn S "this" = some j ∧ distanceIn S "super" = some (j + 1) := by
  obtain ⟨a, -, k, w, hv, rfl⟩ := h
  have herrors := Accepted.errors_after hv
  obtain ⟨_, ⟨⟩⟩ | hseated := Accepted.seated hv
  suffices hk : k.cls = .subclass by
    obtain ⟨j, hthis, hsuper⟩ := hseated (by rw [hk]; nofun)
    exact ⟨j, hthis, hsuper hk⟩
  have herror (cause : ScopeCause) : ((w.error cause ref.name).locate ref).errors.size ≠ 0 := by
    intro hzero
    have hle := (Walk.effect_locate (w.error cause ref.name) ref).errors
    rw [hzero] at hle
    simp [Walk.error] at hle
  cases hk : k.cls with
  | subclass => rfl
  | none | plain =>
    simp only [Visit.after, Node.walk, Scope.expr, hk] at herrors
    exact absurd herrors (herror _)

/-- No variable that waits to be read is assigned, and none that is declared further on will be. -/
def Node.SelfFree (S : List Names) : Node → Prop
  | .expr e => ∀ x, Pending S x → e.assigns x = false
  | .exprs es => ∀ x, Pending S x → Expr.assignsAny x es = false
  | .stmt s => s.selfFree (!S.isEmpty) = true
  | .stmts ss => Stmt.selfFreeAll (!S.isEmpty) ss = true
  | .function d => d.selfFree = true
  | .functions ds => FunctionDecl.selfFreeAll ds = true

theorem Settled.selfFree {S : List Names} (h : Settled S) (e : Expr) : Node.SelfFree S (.expr e) :=
  fun x hx ↦ absurd hx (h.not_pending x)

theorem Visit.Part.selfFree {v u : Visit} (h : Part v u) (hp : v.node.All proper)
    (hs : v.node.Settles v.walk.scopes) (hv : v.node.SelfFree v.walk.scopes) :
    u.node.SelfFree u.walk.scopes := by
  cases h with
  | unary | grouping | get => exact hv
  | assign | binaryLeft | logicalLeft | callee | setObject | setValue | headExpr | binaryRight
  | logicalRight | arguments | tailExprs =>
    intro x hx
    have hnone := hv x (by simpa using hx)
    simp only [Expr.assigns, Expr.assignsAny, Bool.or_eq_false_iff] at hnone
    simp [hnone]
  | initial =>
    intro x hx
    rw [Walk.scopes_declare] at hx
    obtain ⟨rfl, hS⟩ := Settled.of_pending_declareIn hs hx
    simpa [Node.SelfFree, Stmt.selfFree, hS] using hv
  | block => exact hv
  | body =>
    simp only [Node.SelfFree]
    rw [Walk.scopes_declareAll, isEmpty_parameters]
    exact hv
  | function | methods => exact hv
  | headStmt | headFunction => exact (Bool.and_eq_true_iff.1 hv).1
  | tailStmts =>
    simp only [Node.SelfFree]
    rw [scopes_stmt _ _ _ hp.1, isEmpty_afterDeclaring]
    exact (Bool.and_eq_true_iff.1 hv).2
  | tailFunctions => exact (Bool.and_eq_true_iff.1 hv).2
  | @condYes _ _ _ _ n =>
    simp only [Node.SelfFree, scopes_expr]
    cases n with
    | none => exact hv
    | some n => exact (Bool.and_eq_true_iff.1 hv).1
  | condNo =>
    simp only [Node.SelfFree]
    rw [scopes_stmt _ _ _ hp.2.2.1, isEmpty_afterDeclaring, scopes_expr]
    exact (Bool.and_eq_true_iff.1 hv).2
  | loopBody =>
    simp only [Node.SelfFree, scopes_expr]
    exact hv
  | expr | print | condTest | loopTest => exact Settled.selfFree hs _
  | ret =>
    refine Settled.selfFree ?_ _
    rw [scopes_checkReturn]
    exact hs
  | superclass =>
    refine Settled.selfFree ?_ _
    rw [scopes_className]
    exact Settled.bindIn hs _

theorem Accepted.selfFree {a : Accepted} (ha : Stmt.selfFreeAll false a.program = true) {v : Visit}
    (h : a.Visits v) : v.node.SelfFree v.walk.scopes := by
  induction h with
  | program => exact ha
  | part hv hp ih => exact hp.selfFree (Accepted.all hv) (Accepted.settles hv) ih

/-- What is assigned does not wait to be read. -/
theorem At.not_pending_of_assign {a : Accepted} (ha : Stmt.selfFreeAll false a.program = true) {S : List Names}
    {ref : Ref} {e : Expr} (h : At [a] (.expr (.assign ref e)) S) : ¬Pending S ref.name.lexeme := by
  obtain ⟨_, hmem, k, w, hv, rfl⟩ := h
  obtain rfl := List.mem_singleton.1 hmem
  intro hpending
  have hfree := Accepted.selfFree ha hv _ hpending
  simp [Expr.assigns] at hfree

end Scope

end Lox
