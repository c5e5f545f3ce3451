import Lox.Machine.Basic
import Lox.Proofs.Scope.Legal

namespace Lox.Scope

/-- A local scope around a part of a program. Of its statements it has those up to and including the one
that the part stands in: the names they declare come before the part. -/
inductive Region where
  | block (front : List Stmt)
  | function (params : List Token) (front : List Stmt)
  | this
  | super

namespace Region

def names : Region → List String
  | block front => declaredIn front
  | function params front => params.map Token.lexeme ++ declaredIn front
  | this => ["this"]
  | super => ["super"]

def declares (r : Region) (x : String) : Bool := r.names.contains x

def ofClass : Option Ref → List Region
  | none => [this]
  | some _ => [this, super]

end Region

/-- A part of a program and the regions around it, innermost first. The top level is no region. -/
inductive Lies (program : List Stmt) : List Region → Node → Prop
  | program {s} (hs : s ∈ program) : Lies program [] (.stmt s)
  | block {p before s behind} (h : Lies program p (.stmt (.block (before ++ s :: behind)))) :
      Lies program (.block (before ++ [s]) :: p) (.stmt s)
  | function {p name params before s behind}
      (h : Lies program p (.stmt (.function (.mk name params (before ++ s :: behind))))) :
      Lies program (.function params (before ++ [s]) :: p) (.stmt s)
  | method {p cls superclass methods name params before s behind}
      (h : Lies program p (.stmt (.classDecl cls superclass methods)))
      (hm : .mk name params (before ++ s :: behind) ∈ methods) :
      Lies program (.function params (before ++ [s]) :: (Region.ofClass superclass ++ p)) (.stmt s)
  | part {p n n'} (h : Lies program p n) (hn : ⟨[], n'⟩ ∈ Position.parts ⟨[], n⟩) : Lies program p n'

/-- The region `k` steps out is the innermost one that declares the name. -/
structure Innermost (p : List Region) (x : String) (k : Nat) : Prop where
  declares : ∃ r, p[k]? = some r ∧ x ∈ r.names
  inner : ∀ j < k, ∀ r, p[j]? = some r → x ∉ r.names

theorem innermost_iff {p : List Region} {x : String} {k : Nat} :
    Innermost p x k ↔ p.findIdx? (·.declares x) = some k := by
  rw [List.findIdx?_eq_some_iff_getElem]
  constructor
  · rintro ⟨⟨r, hr, hx⟩, hinner⟩
    obtain ⟨hlt, rfl⟩ := List.getElem?_eq_some_iff.1 hr
    refine ⟨hlt, by simpa [Region.declares] using hx, fun j hj ↦ ?_⟩
    simpa [Region.declares] using hinner j hj _ (List.getElem?_eq_getElem _)
  · rintro ⟨hlt, hx, hinner⟩
    refine ⟨⟨p[k], List.getElem?_eq_getElem hlt, by simpa [Region.declares] using hx⟩, ?_⟩
    intro j hj r hr
    obtain ⟨_, rfl⟩ := List.getElem?_eq_some_iff.1 hr
    simpa [Region.declares] using hinner j hj

def Matches (S : List Names) (p : List Region) : Prop := S.map Bindings.contains = p.map Region.declares

namespace Matches

variable {S : List Names} {p : List Region}

theorem distanceIn_eq (h : Matches S p) (x : String) :
    distanceIn S x = p.findIdx? (·.declares x) := by
  have heq := congrArg (List.findIdx? fun f : String → Bool ↦ f x) h
  rw [List.findIdx?_map, List.findIdx?_map] at heq
  exact heq

theorem contains_declareIn (x : String) (S : List Names) :
    (declareIn x S).map Bindings.contains = (bindIn x S).map Bindings.contains := by
  cases S with
  | nil => rfl
  | cons s S =>
    rw [declareIn]
    split
    · next hx =>
      rw [bindIn, List.map_cons, List.map_cons]
      congr 1
      funext y
      rw [Bindings.contains_insert]
      by_cases hy : y = x
      · simp [hy, hx]
      · simp [hy]
    · rw [bindIn, List.map_cons, List.map_cons]
      congr 1
      funext y
      rw [Bindings.contains_insert, Bindings.contains_insert]

theorem declareIn {x : String} (h : Matches (bindIn x S) p) : Matches (declareIn x S) p :=
  (contains_declareIn x S).trans h

theorem foldl_bindIn (ts : List Token) (s : Names) (S : List Names) :
    (ts.foldl (fun S t ↦ bindIn t.lexeme S) (s :: S)).map Bindings.contains =
      (fun x ↦ (ts.map Token.lexeme).contains x || s.contains x) :: S.map Bindings.contains := by
  induction ts generalizing s with
  | nil => simp
  | cons t ts ih =>
    rw [List.foldl_cons, bindIn, ih]
    congr 1
    funext x
    rw [Bindings.contains_insert, List.map_cons, List.contains_cons, Bool.or_assoc, Bool.or_left_comm]

theorem enter (h : Matches S p) {r : Region} {ts : List Token} (hr : r.names = ts.map Token.lexeme) :
    Matches (ts.foldl (fun S t ↦ bindIn t.lexeme S) (.empty :: S)) (r :: p) := by
  have hempty (x : String) : (Bindings.empty : Names).contains x = false := rfl
  rw [Matches, foldl_bindIn, List.map_cons, h]
  congr 1
  funext x
  rw [hempty, Bool.or_false, Region.declares, hr]

theorem methodScopes (h : Matches S p) (o : Option Ref) :
    Matches (methodScopes o S) (Region.ofClass o ++ p) := by
  have enterOne {S : List Names} {p : List Region} (h : Matches S p) {r : Region} {x : String}
      (hr : r.names = [x]) : Matches (bindIn x (.empty :: S)) (r :: p) := by
    rw [Matches, bindIn, List.map_cons, List.map_cons, h]
    congr 1
    funext y
    rw [Bindings.contains_insert, Region.declares, hr, List.contains_cons]
    rfl
  cases o with
  | none => exact enterOne h rfl
  | some _ => exact enterOne (enterOne h rfl) rfl

end Matches

namespace Visit

variable {v u : Visit}

theorem Part.front (h : Part v u) :
    ∃ before behind, v.node.refs = before ++ (u.node.refs ++ behind) ∧ Effect before v.walk u.walk := by
  have last {before : List Ref} (hr : v.node.refs = before ++ u.node.refs)
      (he : Effect before v.walk u.walk) : ∃ before behind,
        v.node.refs = before ++ (u.node.refs ++ behind) ∧ Effect before v.walk u.walk :=
    ⟨before, [], by rw [List.append_nil, hr], he⟩
  cases h with
  | assign | binaryLeft | logicalLeft | callee | setValue | headExpr | loopTest | headStmt | headFunction =>
    exact ⟨[], _, rfl, .refl _⟩
  | unary | grouping | get | expr | print => exact last rfl (.refl _)
  | initial => exact last rfl (Walk.effect_declare _ _)
  | block => exact last rfl (Walk.effect_enter _)
  | body => exact last rfl ((Walk.effect_enter _).silent (Walk.effect_declareAll _ _))
  | function => exact last rfl ((Walk.effect_declare _ _).silent (Walk.effect_define _ _))
  | ret => exact last rfl (effect_checkReturn ..)
  | superclass => exact ⟨[], _, rfl, effect_className ..⟩
  | methods => exact last rfl (effect_classHead ..)
  | @condTest _ _ _ _ n => cases n <;> exact ⟨[], _, rfl, .refl _⟩
  | @condYes _ _ _ _ n =>
    cases n with
    | none => exact last rfl (effect_expr ..)
    | some n => exact ⟨_, _, rfl, effect_expr ..⟩
  | @condNo _ _ e y n =>
    have hr : (Stmt.cond e y (some n)).refs = e.refs ++ y.refs ++ n.refs := (List.append_assoc ..).symm
    exact last hr ((effect_expr ..).append (effect_stmt ..))
  | binaryRight | logicalRight | setObject | arguments | tailExprs | loopBody => exact last rfl (effect_expr ..)
  | tailStmts => exact last rfl (effect_stmt ..)
  | tailFunctions => exact last rfl (effect_function ..)

end Visit

namespace Visits

variable {program : List Stmt} {d : Distances} {v : Visit} {k : Context} {w : Walk} {r : Ref}

theorem front (h : Visits program d v) : ∃ before,
    (before ++ v.node.refs).Sublist (Stmt.refsOf program) ∧ Effect before ⟨[], #[], d⟩ v.walk := by
  induction h with
  | program => exact ⟨[], .refl _, .refl _⟩
  | part _ hp ih =>
    obtain ⟨before, hs, he⟩ := ih
    obtain ⟨between, behind, hr, hb⟩ := hp.front
    refine ⟨before ++ between, List.Sublist.trans ?_ hs, he.append hb⟩
    rw [hr, ← List.append_assoc, ← List.append_assoc]
    exact List.sublist_append_left ..

theorem find?_walk (h : Visits program d v) (hd : (Stmt.refsOf program).Pairwise (·.id ≠ ·.id))
    (hr : r ∈ v.node.refs) : v.walk.distances.find? r.id = d.find? r.id := by
  obtain ⟨before, hs, he⟩ := h.front
  exact he.distances r.id fun r' hr' ↦ (List.pairwise_append.1 (hd.sublist hs)).2.2 r' hr' r hr

theorem stmt {before behind : List Stmt} {s : Stmt}
    (h : Visits program d ⟨k, .stmts (before ++ s :: behind), w⟩) :
    Visits program d ⟨k, .stmt s, stmts k before w⟩ := by
  induction before generalizing w with
  | nil => exact h.part .headStmt
  | cons s' before ih => exact ih (h.part .tailStmts)

theorem mem_exprs {es : List Expr} {e : Expr} (h : Visits program d ⟨k, .exprs es, w⟩) (he : e ∈ es) :
    ∃ w', Visits program d ⟨k, .expr e, w'⟩ ∧ w'.scopes = w.scopes := by
  induction es generalizing w with
  | nil => cases he
  | cons e' es ih =>
    obtain rfl | he := List.mem_cons.1 he
    · exact ⟨w, h.part .headExpr, rfl⟩
    · obtain ⟨w', hv, hw⟩ := ih (h.part .tailExprs) he
      exact ⟨w', hv, hw.trans (scopes_expr k e' w)⟩

theorem mem_functions {ds : List FunctionDecl} {f : FunctionDecl}
    (h : Visits program d ⟨k, .functions ds, w⟩) (hf : f ∈ ds) :
    ∃ w', Visits program d ⟨{ k with function := methodKind f }, .function f, w'⟩ ∧
      w'.scopes = w.scopes := by
  induction ds generalizing w with
  | nil => cases hf
  | cons f' ds ih =>
    obtain rfl | hf := List.mem_cons.1 hf
    · exact ⟨w, h.part .headFunction, rfl⟩
    · obtain ⟨w', hv, hw⟩ := ih (h.part .tailFunctions) hf
      exact ⟨w', hv, hw.trans (scopes_function _ f' w)⟩

end Visits

theorem afterDeclaring_stmts {k : Context} {before behind : List Stmt} {s : Stmt}
    (h : Stmt.AllOf Grammar.regular (before ++ s :: behind)) (w : Walk) :
    afterDeclaring s.declared? (stmts k before w).scopes =
      ((before ++ [s]).filterMap Stmt.declared?).foldl (fun S t ↦ bindIn t.lexeme S) w.scopes := by
  induction before generalizing w with
  | nil =>
    rw [List.nil_append, List.filterMap_cons]
    cases s.declared? <;> rfl
  | cons s' before ih =>
    have hs' := scopes_stmt_of_plainBranches plainBranches_regular k s' w h.1
    rw [stmts, ih h.2, hs', List.cons_append, List.filterMap_cons]
    cases s'.declared? <;> rfl

/-- The walk comes to the node, in a context of a class if one of the regions is that of `this`, and finds
the names of the regions in its scopes. The name that a statement declares is among them, though the walk
enters it only in the statement. -/
def Seen (program : List Stmt) (d : Distances) (p : List Region) : Node → Prop
  | .stmt s => ∃ k w, Visits program d ⟨k, .stmt s, w⟩ ∧
      Matches (afterDeclaring s.declared? w.scopes) p ∧ (k.cls = .none ↔ .this ∉ p)
  | .exprs es => ∃ k w, Visits program d ⟨k, .exprs es, w⟩ ∧ Matches w.scopes p ∧ (k.cls = .none ↔ .this ∉ p)
  | .expr e => ∃ k w, Visits program d ⟨k, .expr e, w⟩ ∧ Matches w.scopes p ∧
      ((∃ ref, e = .var ref) ∨ (k.cls = .none ↔ .this ∉ p))
  | _ => False

namespace Seen

variable {program : List Stmt} {d : Distances} {p : List Region}

theorem stmt (hregular : Stmt.AllOf Grammar.regular program) {k : Context} {w : Walk} {ts : List Token}
    {S : List Names} {before behind : List Stmt} {s : Stmt} {r : Region}
    (h : Visits program d ⟨k, .stmts (before ++ s :: behind), w⟩)
    (hw : w.scopes = ts.foldl (fun S t ↦ bindIn t.lexeme S) (.empty :: S)) (hS : Matches S p)
    (hr : r.names = ts.map Token.lexeme ++ declaredIn (before ++ [s])) (hk : k.cls = .none ↔ .this ∉ r :: p) :
    Seen program d (r :: p) (.stmt s) := by
  refine ⟨k, _, h.stmt, ?_, hk⟩
  rw [afterDeclaring_stmts (h.all hregular), hw, ← List.foldl_append]
  exact hS.enter (by rw [hr, List.map_append, declaredIn])

theorem body (hregular : Stmt.AllOf Grammar.regular program) {k : Context} {w : Walk} {name : Token}
    {params : List Token} {before behind : List Stmt} {s : Stmt}
    (h : Visits program d ⟨k, .function (.mk name params (before ++ s :: behind)), w⟩)
    (hS : Matches w.scopes p) (hk : k.cls = .none ↔ .this ∉ p) :
    Seen program d (.function params (before ++ [s]) :: p) (.stmt s) :=
  stmt hregular (h.part .body) (Walk.scopes_declareAll _ _) hS rfl (by simpa using hk)

theorem mem_stmts {before behind : List Stmt} {s : Stmt} (h : program = before ++ s :: behind)
    (hregular : Stmt.AllOf Grammar.regular program) : Seen program d [] (.stmt s) := by
  have hv : Visits program d ⟨topLevel, .stmts (before ++ s :: behind), ⟨[], #[], d⟩⟩ := h ▸ .program
  refine ⟨topLevel, _, hv.stmt, ?_, by simp [topLevel]⟩
  rw [afterDeclaring_stmts (hv.all hregular)]
  generalize (before ++ [s]).filterMap Stmt.declared? = ts
  induction ts with
  | nil => rfl
  | cons t ts ih => exact ih

theorem part_expr {e : Expr} {n : Node} (h : Seen program d p (.expr e))
    (hn : ⟨[], n⟩ ∈ Position.parts ⟨[], .expr e⟩) : Seen program d p n := by
  obtain ⟨k, w, hv, hm, ⟨ref, rfl⟩ | hk⟩ := h
  · cases hn
  have sub {e' : Expr} {w' : Walk} (hp : Visit.Part ⟨k, .expr e, w⟩ ⟨k, .expr e', w'⟩)
      (hw : w'.scopes = w.scopes) : Seen program d p (.expr e') :=
    ⟨k, w', hv.part hp, by rwa [hw], .inr hk⟩
  cases e with
  | literal | var | this | super => cases hn
  | assign | unary | grouping | get =>
    obtain _ | ⟨_, ⟨⟩⟩ := hn
    exact sub (by constructor) rfl
  | binary left _ right =>
    obtain _ | ⟨_, _ | ⟨_, ⟨⟩⟩⟩ := hn
    · exact sub .binaryLeft rfl
    · exact sub .binaryRight (scopes_expr k left w)
  | logical left _ right =>
    obtain _ | ⟨_, _ | ⟨_, ⟨⟩⟩⟩ := hn
    · exact sub .logicalLeft rfl
    · exact sub .logicalRight (scopes_expr k left w)
  | call callee arguments =>
    obtain _ | ⟨_, _ | ⟨_, ⟨⟩⟩⟩ := hn
    · exact sub .callee rfl
    · exact ⟨k, _, hv.part .arguments, by rwa [scopes_expr], hk⟩
  | set object _ value =>
    obtain _ | ⟨_, _ | ⟨_, ⟨⟩⟩⟩ := hn
    · exact sub .setObject (scopes_expr k value w)
    · exact sub .setValue rfl

theorem part_exprs {es : List Expr} {n : Node} (h : Seen program d p (.exprs es))
    (hn : ⟨[], n⟩ ∈ Position.parts ⟨[], .exprs es⟩) : Seen program d p n := by
  obtain ⟨k, w, hv, hm, hk⟩ := h
  obtain ⟨e, he, ⟨⟩⟩ := List.mem_map.1 hn
  obtain ⟨w', hv', hw⟩ := hv.mem_exprs he
  exact ⟨k, w', hv', by rwa [hw], .inr hk⟩

theorem part_stmt (hregular : Stmt.AllOf Grammar.regular program) {s : Stmt} {n : Node}
    (h : Seen program d p (.stmt s)) (hn : ⟨[], n⟩ ∈ Position.parts ⟨[], .stmt s⟩) : Seen program d p n := by
  obtain ⟨k, w, hv, hm, hk⟩ := h
  have hall := hv.all hregular
  have branch {s' : Stmt} {w' : Walk} (hp : Visit.Part ⟨k, .stmt s, w⟩ ⟨k, .stmt s', w'⟩)
      (hs : s.declared? = none) (hs' : s'.declared? = none) (hw : w'.scopes = w.scopes) :
      Seen program d p (.stmt s') := by
    refine ⟨k, w', hv.part hp, ?_, hk⟩
    rw [hs] at hm
    rwa [hs', hw]
  cases s with
  | expr e =>
    obtain _ | ⟨_, ⟨⟩⟩ := hn
    exact ⟨k, w, hv.part .expr, hm, .inr hk⟩
  | print e =>
    obtain _ | ⟨_, ⟨⟩⟩ := hn
    exact ⟨k, w, hv.part .print, hm, .inr hk⟩
  | var t o =>
    obtain ⟨e, he, ⟨⟩⟩ := List.mem_map.1 hn
    obtain rfl := Option.mem_toList.1 he
    refine ⟨k, _, hv.part .initial, ?_, .inr hk⟩
    rw [Walk.scopes_declare]
    exact hm.declareIn
  | ret t o =>
    obtain ⟨e, he, ⟨⟩⟩ := List.mem_map.1 hn
    obtain rfl := Option.mem_toList.1 he
    exact ⟨k, _, hv.part .ret, by rwa [scopes_checkReturn], .inr hk⟩
  | block | function => obtain _ | ⟨_, ⟨⟩⟩ := hn
  | loop test body =>
    obtain _ | ⟨_, _ | ⟨_, ⟨⟩⟩⟩ := hn
    · exact ⟨k, w, hv.part .loopTest, hm, .inr hk⟩
    · exact branch .loopBody rfl hall.1 (scopes_expr k test w)
  | cond test yes no =>
    obtain _ | ⟨_, _ | ⟨_, hn⟩⟩ := hn
    · exact ⟨k, w, hv.part .condTest, hm, .inr hk⟩
    · refine branch .condYes rfl ?_ (scopes_expr k test w)
      cases no with
      | none => exact hall.1
      | some no => exact hall.1.1
    · obtain ⟨s', hs', ⟨⟩⟩ := List.mem_map.1 hn
      obtain rfl := Option.mem_toList.1 hs'
      have hyes := scopes_stmt_of_plainBranches plainBranches_regular k yes (expr k test w) hall.2.2.1
      rw [hall.1.1] at hyes
      exact branch .condNo rfl hall.1.2 (hyes.trans (scopes_expr k test w))
  | classDecl t o ds =>
    obtain _ | ⟨_, hn⟩ := hn
    obtain ⟨ref, href, ⟨⟩⟩ := List.mem_map.1 hn
    obtain rfl := Option.mem_toList.1 href
    refine ⟨_, _, hv.part .superclass, ?_, .inl ⟨ref, rfl⟩⟩
    rwa [scopes_className]

end Seen

theorem Lies.seen {program : List Stmt} {p : List Region} {n : Node} (h : Lies program p n) (d : Distances)
    (hregular : Stmt.AllOf Grammar.regular program) : Seen program d p n := by
  induction h with
  | program hs =>
    obtain ⟨before, behind, heq⟩ := List.append_of_mem hs
    exact Seen.mem_stmts heq hregular
  | block _ ih =>
    obtain ⟨k, w, hv, hm, hk⟩ := ih
    have hopen : w.enter.scopes =
      ([] : List Token).foldl (fun S t ↦ bindIn t.lexeme S) (.empty :: w.scopes) := rfl
    exact Seen.stmt hregular (hv.part .block) hopen hm rfl (by simpa using hk)
  | function _ ih =>
    obtain ⟨k, w, hv, hm, hk⟩ := ih
    refine Seen.body hregular (hv.part .function) ?_ hk
    rwa [Walk.scopes_define, Walk.scopes_declare, bindIn_declareIn]
  | @method p _ superclass _ _ _ _ _ _ _ hf ih =>
    obtain ⟨k, w, hv, hm, -⟩ := ih
    obtain ⟨w', hv', hw⟩ := (hv.part .methods).mem_functions hf
    refine Seen.body hregular hv' ?_ ?_
    · rw [hw, scopes_classHead]
      exact hm.methodScopes superclass
    · cases superclass <;> simp [classKind, Region.ofClass]
  | @part p n _ _ hn ih =>
    cases n with
    | expr => exact ih.part_expr hn
    | exprs => exact ih.part_exprs hn
    | stmt => exact ih.part_stmt hregular hn
    | stmts | function | functions => exact ih.elim

def Occurs (program : List Stmt) (ref : Ref) : Prop :=
  ∃ p e, Lies program p (.expr e) ∧ e.ref? = some ref

section

variable {program : List Stmt} {ref : Ref}

mutual

theorem occurs_expr {p : List Region} : ∀ e : Expr, Lies program p (.expr e) → ref ∈ e.refs →
    Occurs program ref
  | .literal _ _, _, hr => nomatch hr
  | .var r, h, hr | .this r, h, hr | .super r _, h, hr => ⟨p, _, h, by rw [List.mem_singleton.1 hr, Expr.ref?]⟩
  | .assign r e, h, hr => by
    rcases List.mem_append.1 hr with hr | hr
    · exact occurs_expr e (h.part (.head _)) hr
    · exact ⟨p, _, h, by rw [List.mem_singleton.1 hr, Expr.ref?]⟩
  | .unary _ e, h, hr | .grouping e, h, hr | .get e _, h, hr => occurs_expr e (h.part (.head _)) hr
  | .binary left _ right, h, hr | .logical left _ right, h, hr => by
    rcases List.mem_append.1 hr with hr | hr
    · exact occurs_expr left (h.part (.head _)) hr
    · exact occurs_expr right (h.part (.tail _ (.head _))) hr
  | .call callee arguments _, h, hr => by
    rcases List.mem_append.1 hr with hr | hr
    · exact occurs_expr callee (h.part (.head _)) hr
    · exact occurs_exprs arguments
        (fun e he ↦ (h.part (.tail _ (.head _))).part (List.mem_map_of_mem he)) hr
  | .set object _ value, h, hr => by
    rcases List.mem_append.1 hr with hr | hr
    · exact occurs_expr value (h.part (.tail _ (.head _))) hr
    · exact occurs_expr object (h.part (.head _)) hr

theorem occurs_exprs {p : List Region} : ∀ es : List Expr, (∀ e ∈ es, Lies program p (.expr e)) →
    ref ∈ Expr.refsOf es → Occurs program ref
  | [], _, hr => nomatch hr
  | e :: es, h, hr => by
    rw [List.forall_mem_cons] at h
    rcases List.mem_append.1 hr with hr | hr
    · exact occurs_expr e h.1 hr
    · exact occurs_exprs es h.2 hr

end

theorem occurs_optional {p : List Region} {o : Option Expr} (h : ∀ e ∈ o, Lies program p (.expr e))
    (hr : ref ∈ Expr.optionalRefs o) : Occurs program ref := by
  cases o with
  | none => cases hr
  | some e => exact occurs_expr e (h e rfl) hr

mutual

theorem occurs_stmt {p : List Region} : ∀ s : Stmt, Lies program p (.stmt s) → ref ∈ s.refs →
    Occurs program ref
  | .expr e, h, hr | .print e, h, hr => occurs_expr e (h.part (.head _)) hr
  | .var _ o, h, hr | .ret _ o, h, hr =>
    occurs_optional (fun e he ↦ h.part (List.mem_map_of_mem (Option.mem_toList.2 he))) hr
  | .block body, h, hr => by
    refine occurs_stmts body (fun s hs ↦ ?_) hr
    obtain ⟨before, behind, rfl⟩ := List.append_of_mem hs
    exact ⟨_, h.block⟩
  | .cond test yes none, h, hr => by
    rcases List.mem_append.1 hr with hr | hr
    · exact occurs_expr test (h.part (.head _)) hr
    · exact occurs_stmt yes (h.part (.tail _ (.head _))) hr
  | .cond test yes (some no), h, hr => by
    rcases List.mem_append.1 hr with hr | hr
    · exact occurs_expr test (h.part (.head _)) hr
    · rcases List.mem_append.1 hr with hr | hr
      · exact occurs_stmt yes (h.part (.tail _ (.head _))) hr
      · exact occurs_stmt no (h.part (.tail _ (.tail _ (.head _)))) hr
  | .loop test body, h, hr => by
    rcases List.mem_append.1 hr with hr | hr
    · exact occurs_expr test (h.part (.head _)) hr
    · exact occurs_stmt body (h.part (.tail _ (.head _))) hr
  | .function (.mk _ _ body), h, hr => by
    refine occurs_stmts body (fun s hs ↦ ?_) hr
    obtain ⟨before, behind, rfl⟩ := List.append_of_mem hs
    exact ⟨_, h.function⟩
  | .classDecl _ o methods, h, hr => by
    rcases List.mem_append.1 hr with hr | hr
    · exact ⟨p, .var ref, h.part (List.mem_cons_of_mem _ (List.mem_map_of_mem hr)), rfl⟩
    · refine occurs_functions methods (fun d hd s hs ↦ ?_) hr
      obtain ⟨name, params, body⟩ := d
      obtain ⟨before, behind, rfl⟩ := List.append_of_mem hs
      exact ⟨_, h.method hd⟩

theorem occurs_stmts : ∀ ss : List Stmt, (∀ s ∈ ss, ∃ p, Lies program p (.stmt s)) →
    ref ∈ Stmt.refsOf ss → Occurs program ref
  | [], _, hr => nomatch hr
  | s :: ss, h, hr => by
    rw [List.forall_mem_cons] at h
    rcases List.mem_append.1 hr with hr | hr
    · obtain ⟨p, hs⟩ := h.1
      exact occurs_stmt s hs hr
    · exact occurs_stmts ss h.2 hr

theorem occurs_functions : ∀ ds : List FunctionDecl,
    (∀ d ∈ ds, ∀ s ∈ d.body, ∃ p, Lies program p (.stmt s)) → ref ∈ FunctionDecl.refsOf ds →
    Occurs program ref
  | [], _, hr => nomatch hr
  | .mk _ _ body :: ds, h, hr => by
    rw [List.forall_mem_cons] at h
    rcases List.mem_append.1 hr with hr | hr
    · exact occurs_stmts body h.1 hr
    · exact occurs_functions ds h.2 hr

end

end

/-- The entry of an occurrence is how far out the innermost region lies that declares its name in front of
it; a `this` outside of classes gets none. -/
theorem Lies.find?_resolve {program : List Stmt} {p : List Region} {e : Expr} {ref : Ref} {D : Distances}
    (h : Lies program p (.expr e)) (hregular : Stmt.AllOf Grammar.regular program)
    (hd : (Stmt.refsOf program).Pairwise (·.id ≠ ·.id)) (hr : e.ref? = some ref)
    (hD : ∀ ref ∈ Stmt.refsOf program, D.find? ref.id = none) :
    ((e = .this ref → .this ∈ p) →
      (resolve program D).distances.find? ref.id = p.findIdx? (·.declares ref.name.lexeme)) ∧
    (e = .this ref → .this ∉ p → (resolve program D).distances.find? ref.id = none) := by
  obtain ⟨k, w, hv, hm, hk⟩ := h.seen D hregular
  have hcls (hthis : e = .this ref) : k.cls = .none ↔ .this ∉ p := by
    rcases hk with ⟨ref', rfl⟩ | hk
    · cases hthis
    · exact hk
  refine ⟨fun hthis ↦ ?_, fun hthis hout ↦ ?_⟩
  · rw [hv.distance_eq hd hr fun he hnone ↦ (hcls he).1 hnone (hthis he), hm.distanceIn_eq]
  · have hmem := Expr.mem_refs_of_ref? hr
    rw [hv.find?_resolve hd hmem, ← hD ref (hv.refs_sublist.subset hmem), ← hv.find?_walk hd hmem]
    subst hthis
    rw [Visit.after, Node.walk, expr, if_pos ((hcls rfl).2 hout), Walk.error]

/-- The walk over a program that has been parsed records for each occurrence of a name how far out the
innermost region lies that declares the name in front of it. Without such a region, and for a `this` outside
of classes, the occurrence means a global name. -/
theorem resolve_records_innermost {tokens : List Token} {n m : Nat} {program : List Stmt}
    (h : Parse.parse tokens n = ⟨.ok program, m⟩) {D : Distances}
    (hD : ∀ ref ∈ Stmt.refsOf program, D.find? ref.id = none) :
    (∀ ref ∈ Stmt.refsOf program, Occurs program ref) ∧
    ∀ p e ref, Lies program p (.expr e) → e.ref? = some ref →
      (∀ k, (resolve program D).distances.find? ref.id = some k ↔
        (e = .this ref → .this ∈ p) ∧ Innermost p ref.name.lexeme k) ∧
      ((∀ k, ¬Innermost p ref.name.lexeme k) ∨ e = .this ref ∧ .this ∉ p →
        (resolve program D).distances.find? ref.id = none ∧
        ∀ i : Interpreter, i.distances = (resolve program D).distances →
          i.target? ref = i.store.locate? i.globalEnv ref.name.lexeme) := by
  have hregular := (Parse.parse_eq_ok_iff.1 h).regular
  have hd := (Parse.parse_eq_ok_iff.1 h).yields.numbered.distinct
  refine ⟨fun ref hr ↦ occurs_stmts program (fun s hs ↦ ⟨[], .program hs⟩) hr, ?_⟩
  intro p e ref hl hr
  obtain ⟨hinside, houtside⟩ := hl.find?_resolve hregular hd hr hD
  have hiff (k : Nat) : (resolve program D).distances.find? ref.id = some k ↔
      (e = .this ref → .this ∈ p) ∧ Innermost p ref.name.lexeme k := by
    by_cases hthis : e = .this ref → .this ∈ p
    · rw [hinside hthis, innermost_iff]
      exact (and_iff_right hthis).symm
    · obtain ⟨he, hout⟩ := Classical.not_imp.1 hthis
      rw [houtside he hout]
      exact ⟨nofun, fun hk ↦ absurd hk.1 hthis⟩
  refine ⟨hiff, fun hglobal ↦ ?_⟩
  have hnone : (resolve program D).distances.find? ref.id = none := by
    rw [Option.eq_none_iff_forall_ne_some]
    intro k hk
    obtain ⟨hthis, hk⟩ := (hiff k).1 hk
    rcases hglobal with hno | ⟨he, hout⟩
    · exact hno k hk
    · exact hout (hthis he)
  refine ⟨hnone, fun i hi ↦ ?_⟩
  rw [Interpreter.target?, hi, hnone]

theorem own_initializer_innermost :
    ∃ program, Parse.parse (Token.tokensOf (Token.scan "\x7b var a = 1; \x7b var a = a; \x7d \x7d")) 0 =
        ⟨.ok program, 1⟩ ∧ (resolve program .empty).errors ≠ [] ∧
      ∃ p e ref, Lies program p (.expr e) ∧ e.ref? = some ref ∧ ref.id = 0 ∧
        Innermost p ref.name.lexeme 0 := by
  have hprogram (r : Parse.Result) (hr : r.nextId = 1)
      (he : r.outcome.toOption.any (fun program ↦ !(resolve program .empty).errors.isEmpty &&
        (Stmt.refsOf program).any (·.id == 0) &&
        (resolve program .empty).distances.find? 0 == some 0) = true) :
      ∃ program, r = ⟨.ok program, 1⟩ ∧ (resolve program .empty).errors ≠ [] ∧
        (∃ ref ∈ Stmt.refsOf program, ref.id = 0) ∧
        (resolve program .empty).distances.find? 0 = some 0 := by
    obtain ⟨_ | program, n⟩ := r
    · cases he
    · obtain rfl : n = 1 := hr
      refine ⟨program, rfl, ?_⟩
      simpa [Except.toOption, and_assoc] using he
  obtain ⟨program, hparse, herrors, ⟨ref, hmem, hid⟩, hfind⟩ :=
    hprogram (Parse.parse (Token.tokensOf (Token.scan "\x7b var a = 1; \x7b var a = a; \x7d \x7d")) 0)
      (by decide +kernel) (by decide +kernel)
  have hD : ∀ r ∈ Stmt.refsOf program, Distances.find? .empty r.id = none := fun _ _ ↦ rfl
  obtain ⟨hoccurs, hentries⟩ := resolve_records_innermost hparse hD
  obtain ⟨p, e, hlies, hr⟩ := hoccurs ref hmem
  have hinner := ((hentries p e ref hlies hr).1 0).1 (hid ▸ hfind)
  exact ⟨program, hparse, herrors, p, e, ref, hlies, hr, hid, hinner.2⟩

end Lox.Scope
