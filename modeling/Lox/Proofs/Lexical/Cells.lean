import Lox.Proofs.Lexical.Step

namespace Lox.Lexical

/-- Cells keep their values, and there may be more of them. -/
structure Keeps (cells cells' : Array Value) : Prop where
  cell : ∀ (c : Cell) (v : Value), cells[c]? = some v → cells'[c]? = some v

namespace Keeps

theorem refl (cells : Array Value) : Keeps cells cells := ⟨fun _ _ h ↦ h⟩

theorem trans {cells cells₁ cells₂ : Array Value} (h : Keeps cells cells₁) (h₁ : Keeps cells₁ cells₂) :
    Keeps cells cells₂ := ⟨fun c v hc ↦ h₁.cell c v (h.cell c v hc)⟩

theorem push (cells : Array Value) (v : Value) : Keeps cells (cells.push v) := by
  refine ⟨fun c u hc ↦ ?_⟩
  obtain ⟨hlt, -⟩ := Array.getElem?_eq_some_iff.1 hc
  rw [Array.getElem?_push_lt hlt, ← Array.getElem?_eq_getElem hlt, hc]

theorem declare (s : State) (x : String) (v : Value) : Keeps s.cells (s.declare x v).cells := by
  unfold State.declare
  split
  · exact .refl _
  · exact .push ..

theorem declareAll (l : List (Token × Value)) (s : State) :
    Keeps s.cells (l.foldl (fun s (p, v) ↦ s.declare p.lexeme v) s).cells := by
  induction l generalizing s with
  | nil => exact .refl _
  | cons pv l ih => exact (Keeps.declare s pv.1.lexeme pv.2).trans (ih _)

end Keeps

namespace Machine

variable (s : State) (k : Stack)

theorem keeps_ofExcept (line : Nat) (r : Except FaultCause Value) : Keeps s.cells (ofExcept s k line r).state.cells := by
  cases r <;> exact .refl _

theorem keeps_enterClosure (c : Closure) (vs : List Value) : Keeps s.cells (enterClosure s k c vs).state.cells :=
  Keeps.declareAll _ { s with env := c.env.inside }

theorem keeps_bindMethod (m : Closure) (o : ObjectId) : Keeps s.cells (bindMethod s k m o).state.cells := .push ..

theorem keeps_construct (c : Class) (vs : List Value) : Keeps s.cells (construct s k c vs).state.cells := by
  unfold construct
  dsimp only
  split
  · exact .refl _
  · refine (Keeps.push s.cells (.object s.objects.size)).trans ?_
    exact keeps_enterClosure { s with cells := _, objects := _ } ..

theorem keeps_apply (f : Value) (vs : List Value) (paren : Token) : Keeps s.cells (apply s k f vs paren).state.cells := by
  unfold apply
  split
  · split
    · unfold invoke
      split
      · exact .refl _
      · split
        · exact .refl _
        · exact keeps_enterClosure { s with depth := s.depth + 1 } ..
      · split
        · exact .refl _
        · exact keeps_construct { s with depth := s.depth + 1 } ..
    · exact .refl _
  · exact .refl _

theorem keeps_property (o : ObjectId) (name : Token) : Keeps s.cells (property s k o name).state.cells := by
  unfold property
  split
  · exact .refl _
  · split
    · exact .refl _
    · split
      · exact keeps_bindMethod ..
      · exact .refl _

theorem keeps_superMethod (keyword name : Token) : Keeps s.cells (superMethod s k keyword name).state.cells := by
  unfold superMethod
  split
  · exact .refl _
  · split
    · exact .refl _
    · split
      · exact keeps_bindMethod ..
      · exact .refl _
    · exact .refl _
  · exact .refl _

theorem keeps_defineClass (name : Token) (c : Option Class) (ds : List FunctionDecl) (ρ : Env) :
    Keeps s.cells (defineClass s k name c ds ρ).state.cells :=
  Keeps.declare { s with nextIdentity := s.nextIdentity + 1 } ..

theorem keeps_declareClass (name : Token) (superclass : Option Ref) (ds : List FunctionDecl) :
    Keeps s.cells (declareClass s k name superclass ds).state.cells := by
  unfold declareClass
  split
  · exact keeps_defineClass ..
  · split
    · exact .refl _
    · exact (Keeps.push ..).trans (keeps_defineClass { s with cells := _ } ..)
    · exact .refl _

theorem keeps_eval (e : Expr) : Keeps s.cells (eval s k e).state.cells := by
  cases e with
  | var | this =>
    simp only [eval]
    split <;> exact .refl _
  | super => exact keeps_superMethod ..
  | _ => exact .refl _

theorem keeps_exec (stmt : Stmt) : Keeps s.cells (exec s k stmt).state.cells := by
  cases stmt with
  | var name initial =>
    cases initial with
    | none => exact .declare ..
    | some e => exact .refl _
  | function decl => exact Keeps.declare { s with nextIdentity := s.nextIdentity + 1 } ..
  | classDecl => exact keeps_declareClass ..
  | ret _ value => cases value <;> exact .refl _
  | _ => exact .refl _

theorem keeps_resume {f : Frame} (hf : ∀ name, f ≠ .assign name) (v : Value) {m : Machine}
    (h : resume s k v f = some m) : Keeps s.cells m.state.cells := by
  cases f with
  | assign name => exact absurd rfl (hf name)
  | callee arguments paren =>
    cases arguments with
    | nil =>
      cases h
      exact keeps_apply ..
    | cons =>
      cases h
      exact .refl _
  | argument callee known rest paren =>
    cases rest with
    | nil =>
      cases h
      exact keeps_apply ..
    | cons =>
      cases h
      exact .refl _
  | get name =>
    cases v with
    | object o =>
      cases h
      exact keeps_property ..
    | _ =>
      cases h
      exact .refl _
  | define name =>
    cases h
    exact .declare ..
  | unary | binaryRight =>
    cases h
    exact keeps_ofExcept ..
  | body | block | program | result => cases h
  | setObject =>
    cases v with
    | _ =>
      cases h
      exact .refl _
  | logical | print | test =>
    rw [resume] at h
    split at h <;> cases h <;> exact .refl _
  | branch yes no =>
    simp only [resume] at h
    split at h
    · cases h
      exact .refl _
    · cases no <;> cases h <;> exact .refl _
  | _ =>
    cases h
    exact .refl _

theorem keeps_finish (flow : Flow) (f : Frame) {m : Machine} (h : finish s k flow f = some m) :
    Keeps s.cells m.state.cells := by
  unfold finish at h
  split at h
  · split at h <;> cases h <;> exact .refl _
  · split at h <;> cases h <;> exact .refl _
  · cases h
    exact .refl _
  · cases h
    exact .refl _
  · split at h
    · split at h <;> cases h <;> exact .refl _
    · cases h
      exact .refl _
  · cases h

theorem keeps_unwind (fault : Fault) (f : Frame) : Keeps s.cells (unwind s k fault f).state.cells := by
  unfold unwind
  split <;> exact .refl _

/-- Only an assignment changes what a cell holds, so what a closure sees stays as it is when other
names are declared. -/
theorem keeps_step {m m' : Machine} (h : m.step = some m') (ha : m.assigns = false) :
    Keeps m.state.cells m'.state.cells := by
  obtain ⟨c, k, s⟩ := m
  cases c with
  | eval e =>
    cases h
    exact keeps_eval s k e
  | exec stmt =>
    cases h
    exact keeps_exec s k stmt
  | reading seconds =>
    cases h
    cases seconds <;> exact .refl _
  | value v =>
    cases k with
    | nil => cases h
    | cons f k =>
      refine keeps_resume s k (fun name hf ↦ ?_) v h
      rw [hf] at ha
      cases ha
  | done flow =>
    cases k with
    | nil => cases h
    | cons f k => exact keeps_finish s k flow f h
  | fault fault =>
    cases k with
    | nil => cases h
    | cons f k =>
      cases h
      exact keeps_unwind s k fault f

end Machine

end Lox.Lexical
