import Lox.Proofs.Scope.Accepted

namespace Lox

def Expr.ref? : Expr → Option Ref
  | .var ref | .assign ref _ | .this ref | .super ref _ => some ref
  | _ => none

def Expr.read? : Expr → Option Ref
  | .var ref | .this ref | .super ref _ => some ref
  | _ => none

theorem Expr.ref?_of_read? {e : Expr} {ref : Ref} (h : e.read? = some ref) : e.ref? = some ref := by
  cases e with
  | var | this | super => exact h
  | _ => cases h

theorem Expr.mem_refs_of_ref? {e : Expr} {ref : Ref} (h : e.ref? = some ref) : ref ∈ e.refs := by
  cases e with
  | var | this | super => cases h; exact List.mem_singleton_self _
  | assign => cases h; exact List.mem_append_right _ (List.mem_singleton_self _)
  | _ => cases h

namespace Scope

def distanceIn (S : List Names) (x : String) : Option Nat := S.findIdx? (·.contains x)

def Pending (S : List Names) (x : String) : Prop := ∃ s ∈ S.head?, s.find? x = some false

def Readable (S : List Names) (d : Nat) (x : String) : Prop :=
  ∃ s, S[d]? = some s ∧ s.find? x = some true

theorem find?_locate_eq (w : Walk) (ref : Ref) :
    (w.locate ref).distances.find? ref.id = distanceIn w.scopes ref.name.lexeme := w.find?_locate ref

theorem find?_read_eq (w : Walk) (ref : Ref) :
    (w.read ref).distances.find? ref.id = distanceIn w.scopes ref.name.lexeme := by
  unfold Walk.read
  split <;> exact find?_locate_eq ..

theorem isPending_of_errors_read {w : Walk} {ref : Ref} (h : (w.read ref).errors.size = 0) :
    w.isPending ref.name.lexeme = false := by
  rw [Bool.eq_false_iff]
  intro hp
  have hsize := (Walk.effect_locate (w.error .ownInitializer ref.name) ref).errors
  rw [Walk.read, if_pos hp] at h
  simp only [Walk.error, Array.size_push] at hsize h
  omega

theorem readable_of_distanceIn {S : List Names} {x : String} {d : Nat} (hd : distanceIn S x = some d)
    (htail : Settled S.tail) (hhead : ¬Pending S x) : Readable S d x := by
  obtain ⟨hlt, hc, -⟩ := List.findIdx?_eq_some_iff_getElem.1 hd
  obtain ⟨b, hb⟩ := Option.isSome_iff_exists.1 hc
  refine ⟨S[d], List.getElem?_eq_getElem hlt, ?_⟩
  cases b with
  | true => exact hb
  | false =>
    exfalso
    cases S with
    | nil => cases hlt
    | cons s S =>
      cases d with
      | zero => exact hhead ⟨s, rfl, hb⟩
      | succ d => exact htail _ (List.getElem_mem ..) x hb

theorem Nested.this_inside {inner : Option Names} {S : List Names} (h : Nested inner S) {d : Nat}
    (hd : distanceIn S "super" = some d) :
    (d = 0 ∧ ∃ i ∈ inner, i.find? "this" = some true) ∨ ∃ j, d = j + 1 ∧ Readable S j "this" := by
  induction S generalizing inner d with
  | nil => cases hd
  | cons s S ih =>
    rw [distanceIn, List.findIdx?_cons] at hd
    split at hd
    · next hs =>
      cases hd
      exact .inl ⟨rfl, h.2.1 hs⟩
    · obtain ⟨d, hd', rfl⟩ := Option.map_eq_some_iff.1 hd
      obtain ⟨rfl, i, ⟨⟩, hi⟩ | ⟨j, rfl, hj⟩ := ih h.2.2 hd'
      · exact .inr ⟨0, rfl, s, rfl, hi⟩
      · exact .inr ⟨j + 1, rfl, hj⟩

/-- The entry of an occurrence is the distance of its name, unless it is a `this` outside of classes. -/
theorem find?_expr_eq {k : Context} {e : Expr} {w : Walk} {ref : Ref} (hr : e.ref? = some ref)
    (hk : e = .this ref → k.cls ≠ .none) :
    (expr k e w).distances.find? ref.id = distanceIn w.scopes ref.name.lexeme := by
  cases e with
  | var =>
    cases hr
    exact find?_read_eq w ref
  | assign _ value =>
    cases hr
    have heq := find?_locate_eq (expr k value w) ref
    rwa [scopes_expr] at heq
  | this =>
    cases hr
    rw [expr, if_neg (hk rfl)]
    exact find?_locate_eq w ref
  | super =>
    cases hr
    simp only [expr]
    split <;> exact find?_locate_eq ..
  | _ => cases hr

theorem Visits.distance_eq {program : List Stmt} {d : Distances} {k : Context} {e : Expr} {w : Walk}
    {ref : Ref} (h : Visits program d ⟨k, .expr e, w⟩)
    (hd : (Stmt.refsOf program).Pairwise (·.id ≠ ·.id)) (hr : e.ref? = some ref)
    (hk : e = .this ref → k.cls ≠ .none) :
    (resolve program d).distances.find? ref.id = distanceIn w.scopes ref.name.lexeme :=
  (h.find?_resolve hd (Expr.mem_refs_of_ref? hr)).trans (find?_expr_eq hr hk)

namespace Accepted

variable {a : Accepted} {v : Visit} {k : Context} {w : Walk}

abbrev Visits (a : Accepted) : Visit → Prop := Scope.Visits a.program a.before

def distances (a : Accepted) : Distances := (resolve a.program a.before).distances

theorem all (h : a.Visits v) : v.node.All proper := Scope.Visits.all h a.nodes

theorem nested (h : a.Visits v) : Nested none v.walk.scopes := Scope.Visits.nested h a.nodes

theorem settles (h : a.Visits v) : v.node.Settles v.walk.scopes := Scope.Visits.settles h a.nodes

theorem errors_after (h : a.Visits v) : v.after.errors.size = 0 := by
  obtain ⟨_, -, he⟩ := h.split
  have hnone : (stmts topLevel a.program ⟨[], #[], a.before⟩).errors.toList = [] := a.errors
  have hsize := he.errors
  rw [← Array.length_toList, ← Array.length_toList, hnone] at hsize
  rw [← Array.length_toList]
  exact Nat.le_zero.1 hsize

theorem distance_eq {e : Expr} (h : a.Visits ⟨k, .expr e, w⟩) {ref : Ref} (hr : e.ref? = some ref) :
    a.distances.find? ref.id = distanceIn w.scopes ref.name.lexeme := by
  refine Scope.Visits.distance_eq h a.distinct hr ?_
  rintro rfl hk
  have herrors := errors_after h
  simp [Visit.after, Node.walk, expr, hk, Walk.error] at herrors

theorem not_pending {e : Expr} (h : a.Visits ⟨k, .expr e, w⟩) {ref : Ref} (hr : e.read? = some ref) :
    ¬Pending w.scopes ref.name.lexeme := by
  have hnested := nested h
  have hnode := all h
  rintro ⟨s, hs, hx⟩
  obtain ⟨S, hS⟩ := List.head?_eq_some_iff.1 hs
  simp only [hS] at hnested
  cases e with
  | var =>
    cases hr
    have hp := isPending_of_errors_read (errors_after h)
    simp [Walk.isPending, hS, hx] at hp
  | this =>
    cases hr
    have hn : ref.name.lexeme = "this" := hnode
    exact hnested.1.1 (hn ▸ hx)
  | super =>
    cases hr
    have hn : ref.name.lexeme = "super" := hnode
    exact hnested.1.2 (hn ▸ hx)
  | _ => cases hr

theorem readable {e : Expr} (h : a.Visits ⟨k, .expr e, w⟩) {ref : Ref} (hr : e.read? = some ref) {d : Nat}
    (hd : distanceIn w.scopes ref.name.lexeme = some d) : Readable w.scopes d ref.name.lexeme :=
  readable_of_distanceIn hd (settles h) (not_pending h hr)

theorem this_of_super {e : Expr} (h : a.Visits ⟨k, .expr e, w⟩) {d : Nat}
    (hd : distanceIn w.scopes "super" = some d) : ∃ j, d = j + 1 ∧ Readable w.scopes j "this" := by
  obtain ⟨-, i, ⟨⟩, -⟩ | hj := (nested h).this_inside hd
  exact hj

theorem superclass_ne {t : Token} {ref : Ref} {ds : List FunctionDecl}
    (h : a.Visits ⟨k, .stmt (.classDecl t (some ref) ds), w⟩) : ref.name.lexeme ≠ t.lexeme := by
  intro heq
  have herrors : ((className t ref w).read ref).errors.size = 0 := errors_after (.part h .superclass)
  have hsize := (Walk.effect_read (className t ref w) ref).errors
  have hone : 0 < (className t ref w).errors.size := by
    rw [className, if_pos heq]
    simp [Walk.error]
  omega

end Accepted

def At (H : List Accepted) (node : Node) (S : List Names) : Prop :=
  ∃ a ∈ H, ∃ k w, a.Visits ⟨k, node, w⟩ ∧ w.scopes = S

namespace At

variable {H : List Accepted} {node node' : Node} {S S' : List Names}

theorem mono {H' : List Accepted} (h : At H node S) (hH : ∀ a ∈ H, a ∈ H') : At H' node S := by
  obtain ⟨a, ha, hv⟩ := h
  exact ⟨a, hH a ha, hv⟩

theorem all (h : At H node S) : node.All proper := by
  obtain ⟨a, -, k, w, hv, -⟩ := h
  exact Accepted.all hv

theorem part (h : At H node S) (hp : ∀ k w, node.All proper → w.scopes = S →
    ∃ k' w', Visit.Part ⟨k, node, w⟩ ⟨k', node', w'⟩ ∧ w'.scopes = S') : At H node' S' := by
  obtain ⟨a, ha, k, w, hv, hS⟩ := h
  obtain ⟨k', w', hp, hS'⟩ := hp k w (Accepted.all hv) hS
  exact ⟨a, ha, k', w', .part hv hp, hS'⟩

section

variable {e l r o : Expr} {es : List Expr} {s y n : Stmt} {ss : List Stmt} {d : FunctionDecl}
  {ds : List FunctionDecl} {t : Token} {ts : List Token} {ref : Ref} {sup : Option Ref}

theorem assign (h : At H (.expr (.assign ref e)) S) : At H (.expr e) S :=
  h.part fun _ _ _ hS ↦ ⟨_, _, .assign, hS⟩

theorem unary (h : At H (.expr (.unary t e)) S) : At H (.expr e) S :=
  h.part fun _ _ _ hS ↦ ⟨_, _, .unary, hS⟩

theorem binary (h : At H (.expr (.binary l t r)) S) : At H (.expr l) S ∧ At H (.expr r) S :=
  ⟨h.part fun _ _ _ hS ↦ ⟨_, _, .binaryLeft, hS⟩,
    h.part fun _ _ _ hS ↦ ⟨_, _, .binaryRight, (scopes_expr ..).trans hS⟩⟩

theorem logical (h : At H (.expr (.logical l t r)) S) : At H (.expr l) S ∧ At H (.expr r) S :=
  ⟨h.part fun _ _ _ hS ↦ ⟨_, _, .logicalLeft, hS⟩,
    h.part fun _ _ _ hS ↦ ⟨_, _, .logicalRight, (scopes_expr ..).trans hS⟩⟩

theorem grouping (h : At H (.expr (.grouping e)) S) : At H (.expr e) S :=
  h.part fun _ _ _ hS ↦ ⟨_, _, .grouping, hS⟩

theorem call (h : At H (.expr (.call e es t)) S) : At H (.expr e) S ∧ At H (.exprs es) S :=
  ⟨h.part fun _ _ _ hS ↦ ⟨_, _, .callee, hS⟩,
    h.part fun _ _ _ hS ↦ ⟨_, _, .arguments, (scopes_expr ..).trans hS⟩⟩

theorem get (h : At H (.expr (.get e t)) S) : At H (.expr e) S :=
  h.part fun _ _ _ hS ↦ ⟨_, _, .get, hS⟩

theorem set (h : At H (.expr (.set o t e)) S) : At H (.expr o) S ∧ At H (.expr e) S :=
  ⟨h.part fun _ _ _ hS ↦ ⟨_, _, .setObject, (scopes_expr ..).trans hS⟩,
    h.part fun _ _ _ hS ↦ ⟨_, _, .setValue, hS⟩⟩

theorem exprs (h : At H (.exprs (e :: es)) S) : At H (.expr e) S ∧ At H (.exprs es) S :=
  ⟨h.part fun _ _ _ hS ↦ ⟨_, _, .headExpr, hS⟩,
    h.part fun _ _ _ hS ↦ ⟨_, _, .tailExprs, (scopes_expr ..).trans hS⟩⟩

theorem expr (h : At H (.stmt (.expr e)) S) : At H (.expr e) S :=
  h.part fun _ _ _ hS ↦ ⟨_, _, .expr, hS⟩

theorem print (h : At H (.stmt (.print e)) S) : At H (.expr e) S :=
  h.part fun _ _ _ hS ↦ ⟨_, _, .print, hS⟩

theorem initial (h : At H (.stmt (.var t (some e))) S) : At H (.expr e) (declareIn t.lexeme S) :=
  h.part fun _ w _ hS ↦ ⟨_, _, .initial, hS ▸ w.scopes_declare t⟩

theorem block (h : At H (.stmt (.block ss)) S) : At H (.stmts ss) (.empty :: S) :=
  h.part fun _ w _ hS ↦ ⟨_, _, .block, hS ▸ w.scopes_enter⟩

theorem condTest {no : Option Stmt} (h : At H (.stmt (.cond e y no)) S) : At H (.expr e) S :=
  h.part fun _ _ _ hS ↦ ⟨_, _, .condTest, hS⟩

theorem condYes {no : Option Stmt} (h : At H (.stmt (.cond e y no)) S) : At H (.stmt y) S :=
  h.part fun _ _ _ hS ↦ ⟨_, _, .condYes, (scopes_expr ..).trans hS⟩

theorem condNo (h : At H (.stmt (.cond e y (some n))) S) : At H (.stmt n) S := by
  refine h.part fun k w hp hS ↦ ⟨_, _, .condNo, ?_⟩
  rw [scopes_stmt k y _ hp.2.2.1, hp.1.1, scopes_expr, hS]
  rfl

theorem loop (h : At H (.stmt (.loop e s)) S) : At H (.expr e) S ∧ At H (.stmt s) S :=
  ⟨h.part fun _ _ _ hS ↦ ⟨_, _, .loopTest, hS⟩,
    h.part fun _ _ _ hS ↦ ⟨_, _, .loopBody, (scopes_expr ..).trans hS⟩⟩

theorem function (h : At H (.stmt (.function d)) S) : At H (.function d) (bindIn d.name.lexeme S) := by
  refine h.part fun k w _ hS ↦ ⟨_, _, .function, ?_⟩
  rw [Walk.scopes_define, Walk.scopes_declare, bindIn_declareIn, hS]

theorem ret (h : At H (.stmt (.ret t (some e))) S) : At H (.expr e) S :=
  h.part fun _ _ _ hS ↦ ⟨_, _, .ret, (scopes_checkReturn ..).trans hS⟩

theorem superclass (h : At H (.stmt (.classDecl t (some ref) ds)) S) :
    At H (.expr (.var ref)) (bindIn t.lexeme S) :=
  h.part fun _ w _ hS ↦ ⟨_, _, .superclass, hS ▸ scopes_className t ref w⟩

theorem superclass_ne (h : At H (.stmt (.classDecl t (some ref) ds)) S) :
    ref.name.lexeme ≠ t.lexeme := by
  obtain ⟨a, -, k, w, hv, -⟩ := h
  exact Accepted.superclass_ne hv

theorem functions (h : At H (.functions ds) S) : ∀ d ∈ ds, At H (.function d) S := by
  induction ds with
  | nil => nofun
  | cons d ds ih =>
    rw [List.forall_mem_cons]
    exact ⟨h.part fun _ _ _ hS ↦ ⟨_, _, .headFunction, hS⟩,
      ih (h.part fun _ _ _ hS ↦ ⟨_, _, .tailFunctions, (scopes_function ..).trans hS⟩)⟩

theorem methods (h : At H (.stmt (.classDecl t sup ds)) S) :
    ∀ d ∈ ds, At H (.function d) (methodScopes sup (bindIn t.lexeme S)) :=
  functions (h.part fun _ w _ hS ↦ ⟨_, _, .methods, hS ▸ scopes_classHead t sup w⟩)

theorem stmts (h : At H (.stmts (s :: ss)) S) :
    At H (.stmt s) S ∧ At H (.stmts ss) (afterDeclaring s.declared? S) :=
  ⟨h.part fun _ _ _ hS ↦ ⟨_, _, .headStmt, hS⟩,
    h.part fun k w hp hS ↦ ⟨_, _, .tailStmts, hS ▸ scopes_stmt k s w hp.1⟩⟩

theorem body (h : At H (.function d) S) :
    At H (.stmts d.body) (d.params.foldl (fun S t ↦ bindIn t.lexeme S) (.empty :: S)) := by
  cases d with
  | mk t ts ss => exact h.part fun _ w _ hS ↦ ⟨_, _, .body, hS ▸ w.enter.scopes_declareAll ts⟩

end

end At

def Holds (H : List Accepted) (D : Distances) : Prop :=
  ∀ a ∈ H, ∀ r ∈ Stmt.refsOf a.program, D.find? r.id = a.distances.find? r.id

section

variable {H : List Accepted} {D : Distances} {e : Expr} {S : List Names} {ref : Ref}

theorem Holds.find?_eq (hD : Holds H D) (h : At H (.expr e) S) (hr : e.ref? = some ref) :
    D.find? ref.id = distanceIn S ref.name.lexeme := by
  obtain ⟨a, ha, k, w, hv, rfl⟩ := h
  have hmem := hv.refs_sublist.subset (Expr.mem_refs_of_ref? hr)
  exact (hD a ha ref hmem).trans (Accepted.distance_eq hv hr)

theorem At.not_pending (h : At H (.expr e) S) (hr : e.read? = some ref) : ¬Pending S ref.name.lexeme := by
  obtain ⟨a, -, k, w, hv, rfl⟩ := h
  exact Accepted.not_pending hv hr

theorem At.this_not_pending {node : Node} (h : At H node S) : ¬Pending S "this" := by
  obtain ⟨a, -, k, w, hv, rfl⟩ := h
  have hnested := Accepted.nested hv
  rintro ⟨s, hs, hx⟩
  obtain ⟨S, hS⟩ := List.head?_eq_some_iff.1 hs
  simp only [hS] at hnested
  exact hnested.1.1 hx

theorem At.readable (h : At H (.expr e) S) (hr : e.read? = some ref) {d : Nat}
    (hd : distanceIn S ref.name.lexeme = some d) : Readable S d ref.name.lexeme := by
  obtain ⟨a, -, k, w, hv, rfl⟩ := h
  exact Accepted.readable hv hr hd

theorem At.this_of_super (h : At H (.expr e) S) {d : Nat} (hd : distanceIn S "super" = some d) :
    ∃ j, d = j + 1 ∧ Readable S j "this" := by
  obtain ⟨a, -, k, w, hv, rfl⟩ := h
  exact Accepted.this_of_super hv hd

end

end Scope

end Lox
