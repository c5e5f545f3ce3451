import Lox.Proofs.Scope.Visit

namespace Lox.Scope

/-- A program that is free of scope errors, with the distances known before it. Its tree comes from a
source, and its occurrences of names bear different ids. -/
structure Accepted where
  program : List Stmt
  before : Distances
  nodes : Stmt.AllOf proper program
  distinct : (Stmt.refsOf program).Pairwise (·.id ≠ ·.id)
  errors : (resolve program before).errors = []

/-- No name waits to be read. -/
def Settled (S : List Names) : Prop := ∀ s ∈ S, ∀ x, s.find? x ≠ some false

/-- The names of the objects of methods never wait to be read, and a scope of `super` has one of `this`
just inside it; `inner` is the scope inside the given ones. -/
def Nested (inner : Option Names) : List Names → Prop
  | [] => True
  | s :: S => (s.find? "this" ≠ some false ∧ s.find? "super" ≠ some false) ∧
      (s.contains "super" = true → ∃ i ∈ inner, i.find? "this" = some true) ∧ Nested (some s) S

theorem Settled.bindIn {S : List Names} (h : Settled S) (name : String) : Settled (bindIn name S) := by
  cases S with
  | nil => exact h
  | cons s S =>
    intro s' hs'
    obtain rfl | hs' := List.mem_cons.1 hs'
    · intro x
      rw [Bindings.find?_insert]
      split
      · simp
      · exact h s (List.mem_cons_self ..) x
    · exact h s' (List.mem_cons_of_mem _ hs')

theorem Settled.enter {S : List Names} (h : Settled S) : Settled (.empty :: S) := by
  intro s hs
  obtain rfl | hs := List.mem_cons.1 hs
  · simp
  · exact h s hs

theorem Settled.tail {S : List Names} (h : Settled S) : Settled S.tail :=
  fun s hs ↦ h s (List.mem_of_mem_tail hs)

theorem Settled.methodScopes {S : List Names} (h : Settled S) (o : Option Ref) :
    Settled (methodScopes o S) := by
  cases o with
  | none => exact h.enter.bindIn _
  | some _ => exact (h.enter.bindIn _).enter.bindIn _

theorem Nested.of_none {S : List Names} (h : Nested none S) (inner : Option Names) : Nested inner S := by
  cases S with
  | nil => trivial
  | cons s S =>
    refine ⟨h.1, fun hs ↦ ?_, h.2.2⟩
    obtain ⟨i, hi, -⟩ := h.2.1 hs
    cases hi

theorem Nested.enter {S : List Names} (h : Nested none S) : Nested none (.empty :: S) :=
  ⟨by simp, nofun, h.of_none _⟩

theorem Nested.insert {inner : Option Names} {s : Names} {S : List Names} (h : Nested inner (s :: S))
    {name : String} (hsuper : name ≠ "super") {b : Bool} (hb : name = "this" → b = true) :
    Nested inner (s.insert name b :: S) := by
  obtain ⟨hw, hs, hS⟩ := h
  refine ⟨?_, fun hc ↦ hs ?_, ?_⟩
  · rw [Bindings.find?_insert, Bindings.find?_insert, if_neg hsuper.symm]
    refine ⟨?_, hw.2⟩
    split
    · next heq => simp [hb heq.symm]
    · exact hw.1
  · rw [Bindings.contains_insert] at hc
    simpa [hsuper.symm] using hc
  · cases S with
    | nil => trivial
    | cons s' S =>
      refine ⟨hS.1, fun hc ↦ ?_, hS.2.2⟩
      obtain ⟨_, ⟨⟩, hthis⟩ := hS.2.1 hc
      refine ⟨_, rfl, ?_⟩
      rw [Bindings.find?_insert]
      split
      · next heq => rw [hb heq.symm]
      · exact hthis

theorem Nested.bindIn {S : List Names} (h : Nested none S) {name : String} (hn : name ≠ "super") :
    Nested none (bindIn name S) := by
  cases S with
  | nil => trivial
  | cons s S => exact h.insert hn fun _ ↦ rfl

theorem Nested.declareIn {S : List Names} (h : Nested none S) {name : Token} (hn : name.Ordinary) :
    Nested none (declareIn name.lexeme S) := by
  cases S with
  | nil => trivial
  | cons s S =>
    rw [Scope.declareIn]
    split
    · exact h
    · exact h.insert hn.2 fun ht ↦ absurd ht hn.1

theorem Nested.methodScopes {S : List Names} (h : Nested none S) (o : Option Ref) :
    Nested none (methodScopes o S) := by
  cases o with
  | none => exact h.enter.bindIn (by decide)
  | some _ =>
    have hthis : (Bindings.empty.insert "this" true : Names).find? "this" = some true := rfl
    have hsuper : Nested (some (Bindings.empty.insert "super" true)) S := h.of_none _
    exact ⟨by decide, nofun, by decide, fun _ ↦ ⟨_, rfl, hthis⟩, hsuper⟩

theorem ordinary_of_declared {s : Stmt} (h : s.All proper) : ∀ t ∈ s.declared?, t.Ordinary := by
  cases s with
  | var | function | classDecl => exact h.1
  | _ =>
    intro t ht
    cases ht

theorem Nested.afterDeclaring {S : List Names} (h : Nested none S) {s : Stmt} (hs : s.All proper) :
    Nested none (afterDeclaring s.declared? S) := by
  cases hd : s.declared? with
  | none => exact h
  | some t => exact h.bindIn (ordinary_of_declared hs t hd).2

theorem Settled.afterDeclaring {S : List Names} (h : Settled S) (o : Option Token) :
    Settled (afterDeclaring o S) := by
  cases o with
  | none => exact h
  | some t => exact h.bindIn t.lexeme

theorem Nested.parameters {ts : List Token} {S : List Names} (h : Nested none S)
    (hts : ∀ t ∈ ts, t.Ordinary) : Nested none (ts.foldl (fun S t ↦ Scope.bindIn t.lexeme S) S) := by
  induction ts generalizing S with
  | nil => exact h
  | cons t ts ih =>
    rw [List.forall_mem_cons] at hts
    exact ih (h.bindIn hts.1.2) hts.2

theorem Settled.parameters {S : List Names} (h : Settled S) (ts : List Token) :
    Settled (ts.foldl (fun S t ↦ Scope.bindIn t.lexeme S) S) := by
  induction ts generalizing S with
  | nil => exact h
  | cons t ts ih => exact ih (h.bindIn t.lexeme)

/-- Only while an expression is visited may a name of the innermost scope wait to be read. -/
def Node.Settles (S : List Names) : Node → Prop
  | .expr _ | .exprs _ => Settled S.tail
  | _ => Settled S

namespace Visit

variable {v u : Visit}

theorem Part.nested (h : Part v u) (hp : v.node.All proper) (hv : Nested none v.walk.scopes) :
    Nested none u.walk.scopes := by
  cases h with
  | initial =>
    rw [Walk.scopes_declare]
    exact hv.declareIn (hp.1 _ rfl)
  | block => exact hv.enter
  | function =>
    rw [Walk.scopes_define, Walk.scopes_declare, bindIn_declareIn]
    exact hv.bindIn (hp.1 _ rfl).2
  | superclass =>
    rw [scopes_className]
    exact hv.bindIn (hp.1 _ rfl).2
  | methods =>
    rw [scopes_classHead]
    exact (hv.bindIn (hp.1 _ rfl).2).methodScopes _
  | tailStmts =>
    rw [scopes_stmt _ _ _ hp.1]
    exact hv.afterDeclaring hp.1
  | condNo =>
    rw [scopes_stmt _ _ _ hp.2.2.1, hp.1.1, scopes_expr]
    exact hv
  | body =>
    rw [Walk.scopes_declareAll]
    exact hv.enter.parameters hp.1
  | _ => simpa using hv

theorem Part.settles (h : Part v u) (hp : v.node.All proper) (hv : v.node.Settles v.walk.scopes) :
    u.node.Settles u.walk.scopes := by
  cases h with
  | initial =>
    show Settled _
    rw [Walk.scopes_declare, tail_declareIn]
    exact Settled.tail hv
  | block => exact Settled.enter hv
  | function =>
    show Settled _
    rw [Walk.scopes_define, Walk.scopes_declare, bindIn_declareIn]
    exact Settled.bindIn hv _
  | superclass =>
    show Settled _
    rw [scopes_className, tail_bindIn]
    exact Settled.tail hv
  | methods =>
    show Settled _
    rw [scopes_classHead]
    exact (Settled.bindIn hv _).methodScopes _
  | tailStmts =>
    show Settled _
    rw [scopes_stmt _ _ _ hp.1]
    exact Settled.afterDeclaring hv _
  | condNo =>
    show Settled _
    rw [scopes_stmt _ _ _ hp.2.2.1, hp.1.1, scopes_expr]
    exact hv
  | body =>
    show Settled _
    rw [Walk.scopes_declareAll]
    exact (Settled.enter hv).parameters _
  | expr | print | ret | condTest | loopTest => exact Settled.tail (by simpa [Node.Settles] using hv)
  | _ => simpa [Node.Settles] using hv

end Visit

namespace Visits

variable {program : List Stmt} {d : Distances} {v : Visit}

theorem nested (h : Visits program d v) (hp : Stmt.AllOf proper program) : Nested none v.walk.scopes := by
  induction h with
  | program => trivial
  | part hv hpart ih => exact hpart.nested (hv.all hp) ih

theorem settles (h : Visits program d v) (hp : Stmt.AllOf proper program) :
    v.node.Settles v.walk.scopes := by
  induction h with
  | program => exact nofun
  | part hv hpart ih => exact hpart.settles (hv.all hp) ih

end Visits

end Lox.Scope
