import Lox.Proofs.Scope.Effect

namespace Lox.Scope

/-- The parts of a program that a walk visits one by one. -/
inductive Node where
  | expr (e : Expr)
  | exprs (es : List Expr)
  | stmt (s : Stmt)
  | stmts (ss : List Stmt)
  | function (d : FunctionDecl)
  | functions (ds : List FunctionDecl)

namespace Node

def walk (k : Context) : Node → Walk → Walk
  | expr e => Scope.expr k e
  | exprs es => Scope.exprs k es
  | stmt s => Scope.stmt k s
  | stmts ss => Scope.stmts k ss
  | function d => Scope.function k d
  | functions ds => Scope.functions k ds

def refs : Node → List Ref
  | expr e => e.refs
  | exprs es => Expr.refsOf es
  | stmt s => s.refs
  | stmts ss => Stmt.refsOf ss
  | function d => d.refs
  | functions ds => FunctionDecl.refsOf ds

def All (c : Condition) : Node → Prop
  | expr e => e.All c
  | exprs es => Expr.AllOf c es
  | stmt s => s.All c
  | stmts ss => Stmt.AllOf c ss
  | function d => d.All c
  | functions ds => FunctionDecl.AllOf c ds

end Node

/-- A node, with the walk at the moment when it comes to the node. -/
structure Visit where
  context : Context
  node : Node
  walk : Walk

namespace Visit

def after (v : Visit) : Walk := v.node.walk v.context v.walk

/-- A visit that the walk pays as the next smaller part of another. -/
inductive Part : Visit → Visit → Prop
  | assign {k w ref e} : Part ⟨k, .expr (.assign ref e), w⟩ ⟨k, .expr e, w⟩
  | unary {k w op e} : Part ⟨k, .expr (.unary op e), w⟩ ⟨k, .expr e, w⟩
  | binaryLeft {k w l op r} : Part ⟨k, .expr (.binary l op r), w⟩ ⟨k, .expr l, w⟩
  | binaryRight {k w l op r} : Part ⟨k, .expr (.binary l op r), w⟩ ⟨k, .expr r, expr k l w⟩
  | logicalLeft {k w l op r} : Part ⟨k, .expr (.logical l op r), w⟩ ⟨k, .expr l, w⟩
  | logicalRight {k w l op r} : Part ⟨k, .expr (.logical l op r), w⟩ ⟨k, .expr r, expr k l w⟩
  | grouping {k w e} : Part ⟨k, .expr (.grouping e), w⟩ ⟨k, .expr e, w⟩
  | callee {k w e es t} : Part ⟨k, .expr (.call e es t), w⟩ ⟨k, .expr e, w⟩
  | arguments {k w e es t} : Part ⟨k, .expr (.call e es t), w⟩ ⟨k, .exprs es, expr k e w⟩
  | get {k w e t} : Part ⟨k, .expr (.get e t), w⟩ ⟨k, .expr e, w⟩
  | setValue {k w o t e} : Part ⟨k, .expr (.set o t e), w⟩ ⟨k, .expr e, w⟩
  | setObject {k w o t e} : Part ⟨k, .expr (.set o t e), w⟩ ⟨k, .expr o, expr k e w⟩
  | headExpr {k w e es} : Part ⟨k, .exprs (e :: es), w⟩ ⟨k, .expr e, w⟩
  | tailExprs {k w e es} : Part ⟨k, .exprs (e :: es), w⟩ ⟨k, .exprs es, expr k e w⟩
  | expr {k w e} : Part ⟨k, .stmt (.expr e), w⟩ ⟨k, .expr e, w⟩
  | print {k w e} : Part ⟨k, .stmt (.print e), w⟩ ⟨k, .expr e, w⟩
  | initial {k w t e} : Part ⟨k, .stmt (.var t (some e)), w⟩ ⟨k, .expr e, w.declare t⟩
  | block {k w ss} : Part ⟨k, .stmt (.block ss), w⟩ ⟨k, .stmts ss, w.enter⟩
  | condTest {k w e y n} : Part ⟨k, .stmt (.cond e y n), w⟩ ⟨k, .expr e, w⟩
  | condYes {k w e y n} : Part ⟨k, .stmt (.cond e y n), w⟩ ⟨k, .stmt y, Scope.expr k e w⟩
  | condNo {k w e y n} :
      Part ⟨k, .stmt (.cond e y (some n)), w⟩ ⟨k, .stmt n, stmt k y (Scope.expr k e w)⟩
  | loopTest {k w e s} : Part ⟨k, .stmt (.loop e s), w⟩ ⟨k, .expr e, w⟩
  | loopBody {k w e s} : Part ⟨k, .stmt (.loop e s), w⟩ ⟨k, .stmt s, Scope.expr k e w⟩
  | function {k w d} : Part ⟨k, .stmt (.function d), w⟩
      ⟨{ k with function := .function }, .function d, (w.declare d.name).define d.name⟩
  | ret {k w t e} :
      Part ⟨k, .stmt (.ret t (some e)), w⟩ ⟨k, .expr e, checkReturn k t (some e) w⟩
  | superclass {k w t ref ds} : Part ⟨k, .stmt (.classDecl t (some ref) ds), w⟩
      ⟨{ k with cls := .subclass }, .expr (.var ref), className t ref w⟩
  | methods {k w t o ds} : Part ⟨k, .stmt (.classDecl t o ds), w⟩
      ⟨{ k with cls := classKind o }, .functions ds, classHead t o w⟩
  | headStmt {k w s ss} : Part ⟨k, .stmts (s :: ss), w⟩ ⟨k, .stmt s, w⟩
  | tailStmts {k w s ss} : Part ⟨k, .stmts (s :: ss), w⟩ ⟨k, .stmts ss, stmt k s w⟩
  | body {k w t ts ss} :
      Part ⟨k, .function (.mk t ts ss), w⟩ ⟨k, .stmts ss, w.enter.declareAll ts⟩
  | headFunction {k w d ds} : Part ⟨k, .functions (d :: ds), w⟩
      ⟨{ k with function := methodKind d }, .function d, w⟩
  | tailFunctions {k w d ds} : Part ⟨k, .functions (d :: ds), w⟩
      ⟨k, .functions ds, Scope.function { k with function := methodKind d } d w⟩

variable {v u : Visit}

theorem Part.all {c : Condition} (h : Part v u) (hv : v.node.All c) : u.node.All c := by
  cases h with
  | @condTest _ _ _ _ n => cases n <;> exact hv.2.1
  | @condYes _ _ _ _ n =>
    cases n with
    | none => exact hv.2.2
    | some n => exact hv.2.2.1
  | condNo => exact hv.2.2.2
  | superclass => exact hv.2.1 _ rfl
  | methods => exact hv.2.2
  | assign | unary | grouping | get | expr | print | initial | block | function | ret | body => exact hv.2
  | binaryLeft | logicalLeft | callee | setObject | loopTest => exact hv.2.1
  | binaryRight | logicalRight | arguments | setValue | loopBody => exact hv.2.2
  | headExpr | headStmt | headFunction => exact hv.1
  | tailExprs | tailStmts | tailFunctions => exact hv.2

theorem Part.split (h : Part v u) :
    ∃ before behind, v.node.refs = before ++ (u.node.refs ++ behind) ∧ Effect behind u.after v.after := by
  have last {before : List Ref} (hr : v.node.refs = before ++ u.node.refs)
      (he : Effect [] u.after v.after) : ∃ before behind,
        v.node.refs = before ++ (u.node.refs ++ behind) ∧ Effect behind u.after v.after :=
    ⟨before, [], by rw [List.append_nil, hr], he⟩
  have only (hr : v.node.refs = [] ++ u.node.refs) := last hr
  cases h with
  | assign => exact ⟨[], _, rfl, Walk.effect_locate _ _⟩
  | unary | grouping | get | expr | print | function | ret => exact only rfl (.refl _)
  | initial => exact only rfl (Walk.effect_define _ _)
  | block | body => exact only rfl (Walk.effect_leave _)
  | binaryLeft | logicalLeft | setValue => exact ⟨[], _, rfl, effect_expr ..⟩
  | callee | headExpr => exact ⟨[], _, rfl, effect_exprs ..⟩
  | loopTest => exact ⟨[], _, rfl, effect_stmt ..⟩
  | headStmt => exact ⟨[], _, rfl, effect_stmts ..⟩
  | headFunction => exact ⟨[], _, rfl, effect_functions ..⟩
  | @condTest _ _ _ _ n =>
    cases n with
    | none => exact ⟨[], _, rfl, effect_stmt ..⟩
    | some n => exact ⟨[], _, rfl, (effect_stmt ..).append (effect_stmt ..)⟩
  | @condYes _ _ _ _ n =>
    cases n with
    | none => exact last rfl (.refl _)
    | some n => exact ⟨_, _, rfl, effect_stmt ..⟩
  | @condNo _ _ e y n =>
    have hr : (Stmt.cond e y (some n)).refs = e.refs ++ y.refs ++ n.refs := (List.append_assoc ..).symm
    exact last hr (.refl _)
  | @superclass k w t ref ds =>
    have h := (effect_classHead_superclass t ref w).silent
      ((effect_functions { k with cls := .subclass } ds _).then_silent (effect_classEnd (some ref) _))
    exact ⟨[], _, rfl, h⟩
  | @methods _ _ _ o => exact last rfl (effect_classEnd o _)
  | binaryRight | logicalRight | setObject | arguments | tailExprs | loopBody => exact last rfl (.refl _)
  | tailStmts | tailFunctions => exact last rfl (.refl _)

theorem Part.sizeOf_lt (h : Part v u) : sizeOf u.node < sizeOf v.node := by
  cases h <;> simp <;> omega

/-- Different parts of one visit have no occurrence in common. -/
theorem Part.eq_of_mem {u' : Visit} (h : Part v u) (h' : Part v u')
    (hd : v.node.refs.Pairwise (·.id ≠ ·.id)) {r r' : Ref} (hr : r ∈ u.node.refs)
    (hr' : r' ∈ u'.node.refs) (hid : r.id = r'.id) : u = u' := by
  have apart {a b : List Ref} (hd : (a ++ b).Pairwise (·.id ≠ ·.id)) :
      ∀ r ∈ a, ∀ r' ∈ b, r.id ≠ r'.id := (List.pairwise_append.1 hd).2.2
  cases h with
  | assign | unary | grouping | get | expr | print | initial | block | function | ret | body =>
    cases h'
    rfl
  | binaryLeft | logicalLeft | callee | setValue | headExpr | loopTest | headStmt | headFunction =>
    cases h'
    · rfl
    · exact absurd hid (apart hd r hr r' hr')
  | binaryRight | logicalRight | arguments | setObject | tailExprs | loopBody | tailStmts | tailFunctions =>
    cases h'
    · exact absurd hid.symm (apart hd r' hr' r hr)
    · rfl
  | superclass =>
    cases h'
    · rfl
    · exact absurd hid (apart hd r hr r' hr')
  | methods =>
    cases h'
    · exact absurd hid.symm (apart hd r' hr' r hr)
    · rfl
  | @condTest _ _ e y n =>
    cases h' with
    | condTest => rfl
    | condYes =>
      cases n with
      | none => exact absurd hid (apart hd r hr r' hr')
      | some n => exact absurd hid (apart hd r hr r' (List.mem_append_left _ hr'))
    | condNo => exact absurd hid (apart hd r hr r' (List.mem_append_right _ hr'))
  | @condYes _ _ e y n =>
    cases h' with
    | condTest =>
      cases n with
      | none => exact absurd hid.symm (apart hd r' hr' r hr)
      | some n => exact absurd hid.symm (apart hd r' hr' r (List.mem_append_left _ hr))
    | condYes => rfl
    | condNo => exact absurd hid (apart (List.pairwise_append.1 hd).2.1 r hr r' hr')
  | condNo =>
    cases h' with
    | condTest => exact absurd hid.symm (apart hd r' hr' r (List.mem_append_right _ hr))
    | condYes => exact absurd hid.symm (apart (List.pairwise_append.1 hd).2.1 r' hr' r hr)
    | condNo => rfl

/-- A visit inside another one, or that one itself. -/
inductive Inside : Visit → Visit → Prop
  | refl (v : Visit) : Inside v v
  | step {v u x : Visit} (hp : Part v u) (h : Inside u x) : Inside v x

theorem Inside.part {x : Visit} (h : Inside v u) (hp : Part u x) : Inside v x := by
  induction h with
  | refl v => exact .step hp (.refl _)
  | step hp' _ ih => exact .step hp' (ih hp)

theorem Part.refs_sublist (h : Part v u) : u.node.refs.Sublist v.node.refs := by
  obtain ⟨before, behind, hr, -⟩ := h.split
  rw [hr]
  exact (List.sublist_append_left ..).trans (List.sublist_append_right ..)

theorem Inside.refs_sublist (h : Inside v u) : u.node.refs.Sublist v.node.refs := by
  induction h with
  | refl => exact .refl _
  | step hp _ ih => exact ih.trans hp.refs_sublist

theorem Inside.eq_or_lt (h : Inside v u) : v = u ∨ sizeOf u.node < sizeOf v.node := by
  induction h with
  | refl => exact .inl rfl
  | step hp _ ih =>
    have hlt := hp.sizeOf_lt
    obtain rfl | ih := ih
    · exact .inr hlt
    · exact .inr (Nat.lt_trans ih hlt)

end Visit

/-- The visits of a walk over a program, with the distances known before. -/
inductive Visits (program : List Stmt) (d : Distances) : Visit → Prop
  | program : Visits program d ⟨topLevel, .stmts program, ⟨[], #[], d⟩⟩
  | part {v u : Visit} (h : Visits program d v) (hp : v.Part u) : Visits program d u

namespace Visits

variable {program : List Stmt} {d : Distances} {v u : Visit}

theorem all {c : Condition} (h : Visits program d v) (hc : Stmt.AllOf c program) : v.node.All c := by
  induction h with
  | program => exact hc
  | part _ hp ih => exact hp.all ih

theorem split (h : Visits program d v) : ∃ behind, (v.node.refs ++ behind).Sublist (Stmt.refsOf program) ∧
    Effect behind v.after (stmts topLevel program ⟨[], #[], d⟩) := by
  induction h with
  | program => exact ⟨[], by simp [Node.refs], .refl _⟩
  | part _ hp ih =>
    obtain ⟨behind, hs, he⟩ := ih
    obtain ⟨before, between, hr, hb⟩ := hp.split
    refine ⟨between ++ behind, List.Sublist.trans ?_ hs, hb.append he⟩
    rw [hr, ← List.append_assoc, List.append_assoc before]
    exact List.sublist_append_right ..

theorem refs_sublist (h : Visits program d v) : v.node.refs.Sublist (Stmt.refsOf program) := by
  obtain ⟨behind, hs, -⟩ := h.split
  exact (List.sublist_append_left ..).trans hs

/-- The entry of an occurrence does not change behind it. -/
theorem find?_resolve (h : Visits program d v) (hd : (Stmt.refsOf program).Pairwise (·.id ≠ ·.id))
    {r : Ref} (hr : r ∈ v.node.refs) :
    (resolve program d).distances.find? r.id = v.after.distances.find? r.id := by
  obtain ⟨behind, hs, he⟩ := h.split
  refine he.distances r.id fun r' hr' ↦ ?_
  exact ((List.pairwise_append.1 (hd.sublist hs)).2.2 r hr r' hr').symm

theorem inside_program (h : Visits program d v) :
    Visit.Inside ⟨topLevel, .stmts program, ⟨[], #[], d⟩⟩ v := by
  induction h with
  | program => exact .refl _
  | part _ hp ih => exact ih.part hp

/-- Of two visits with a common occurrence one lies inside the other. -/
theorem inside_or_inside (h : Visits program d v) (h' : Visits program d u)
    (hd : (Stmt.refsOf program).Pairwise (·.id ≠ ·.id)) {r r' : Ref} (hr : r ∈ v.node.refs)
    (hr' : r' ∈ u.node.refs) (hid : r.id = r'.id) : v.Inside u ∨ u.Inside v := by
  induction h with
  | program => exact .inl h'.inside_program
  | @part x v hx hp ih =>
    obtain hin | hin := ih (hp.refs_sublist.subset hr)
    · cases hin with
      | refl => exact .inr (.step hp (.refl _))
      | step hp' hin =>
        have heq := hp.eq_of_mem hp' (hd.sublist hx.refs_sublist) hr (hin.refs_sublist.subset hr') hid
        exact .inl (heq ▸ hin)
    · exact .inr (hin.part hp)

/-- A node in which a name occurs is visited once. -/
theorem unique (h : Visits program d v) (h' : Visits program d u)
    (hd : (Stmt.refsOf program).Pairwise (·.id ≠ ·.id)) (hn : v.node = u.node)
    (hr : v.node.refs ≠ []) : v = u := by
  obtain ⟨r, hr⟩ := List.exists_mem_of_ne_nil _ hr
  obtain hin | hin := h.inside_or_inside h' hd hr (hn ▸ hr) rfl
  · obtain heq | hlt := hin.eq_or_lt
    · exact heq
    · exact absurd hlt (hn ▸ Nat.lt_irrefl _)
  · obtain heq | hlt := hin.eq_or_lt
    · exact heq.symm
    · exact absurd hlt (hn ▸ Nat.lt_irrefl _)

end Visits

end Lox.Scope
