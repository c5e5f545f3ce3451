import Lox.Proofs.Scope.Legal

namespace Lox.Scope

open Position

def insideInit? (p : List Enclosure) : Option Bool :=
  (p.find? (·.isFunction)).map fun
    | .method d => d.name.lexeme == "init"
    | _ => false

def Obeys (inside : Option Bool) (node : Node) : Prop :=
  ∃ p, insideInit? p = inside ∧ Everywhere Lawful ⟨p, node⟩

theorem Obeys.part {p : List Enclosure} {node : Node} (h : Everywhere Lawful ⟨p, node⟩) {r : Position}
    (hr : r ∈ parts ⟨p, node⟩) : Obeys (insideInit? r.path) r.node :=
  ⟨r.path, rfl, (everywhere_iff.1 h).2 r hr⟩

namespace Obeys

variable {inside : Option Bool}

theorem of_stmts {ss : List Stmt} (h : Obeys inside (.stmts ss)) : ∀ s ∈ ss, Obeys inside (.stmt s) := by
  obtain ⟨p, rfl, h⟩ := h
  intro s hs
  exact part h (List.mem_map.2 ⟨s, hs, rfl⟩)

theorem of_block {body : List Stmt} (h : Obeys inside (.stmt (.block body))) : Obeys inside (.stmts body) := by
  obtain ⟨p, rfl, h⟩ := h
  exact part h (List.mem_singleton_self _)

theorem of_cond {test : Expr} {yes : Stmt} {no : Option Stmt} (h : Obeys inside (.stmt (.cond test yes no))) :
    Obeys inside (.stmt yes) ∧ ∀ s ∈ no, Obeys inside (.stmt s) := by
  obtain ⟨p, rfl, h⟩ := h
  refine ⟨part h (.tail _ (.head _)), fun s hs ↦ part (r := ⟨p, .stmt s⟩) h (.tail _ (.tail _ ?_))⟩
  exact List.mem_map.2 ⟨s, Option.mem_toList.2 hs, rfl⟩

theorem of_loop {test : Expr} {body : Stmt} (h : Obeys inside (.stmt (.loop test body))) :
    Obeys inside (.stmt body) := by
  obtain ⟨p, rfl, h⟩ := h
  exact part h (.tail _ (.head _))

/-- Inside a function everything is up to that function. -/
theorem of_function {d : FunctionDecl} (h : Obeys inside (.stmt (.function d))) :
    Obeys (some false) (.stmts d.body) := by
  obtain ⟨p, rfl, h⟩ := h
  obtain ⟨-, hfunction⟩ := everywhere_iff.1 h
  exact part (hfunction _ (List.mem_singleton_self _)) (List.mem_singleton_self _)

theorem of_classDecl {name : Token} {superclass : Option Ref} {methods : List FunctionDecl}
    (h : Obeys inside (.stmt (.classDecl name superclass methods))) :
    ∀ d ∈ methods, Obeys (some (d.name.lexeme == "init")) (.stmts d.body) := by
  obtain ⟨p, rfl, h⟩ := h
  intro d hd
  obtain ⟨-, hparts⟩ := everywhere_iff.1 h
  obtain ⟨-, hmethods⟩ := everywhere_iff.1 (hparts _ (List.mem_cons_self ..))
  exact part (hmethods _ (List.mem_map.2 ⟨d, hd, rfl⟩)) (List.mem_singleton_self _)

theorem of_ret {keyword : Token} {value : Option Expr} (h : Obeys inside (.stmt (.ret keyword value))) :
    inside.isSome ∧ (inside = some true → value = none) := by
  obtain ⟨p, rfl, h⟩ := h
  obtain ⟨⟨f, hf, hfunction⟩, hinit⟩ := (everywhere_iff.1 h).1
  have hsome : (p.find? (·.isFunction)).isSome := List.find?_isSome.2 ⟨f, hf, hfunction⟩
  refine ⟨by rw [insideInit?, Option.isSome_map]; exact hsome, fun hinside ↦ ?_⟩
  obtain ⟨enclosure, henclosure, hname⟩ := Option.map_eq_some_iff.1 hinside
  cases enclosure with
  | method d =>
    cases value with
    | none => rfl
    | some e => exact absurd (beq_iff_eq.1 hname) (hinit rfl d henclosure)
  | _ => cases hname

end Obeys

/-- A parsed program without errors of scope obeys the rules, outside of all functions. -/
theorem obeys_of_errors_eq_nil {program : List Stmt} (hregular : Stmt.AllOf Grammar.regular program)
    {D : Distances} (h : (resolve program D).errors = []) : Obeys none (.stmts program) := by
  have hwalk := quiet_stmts [] program ⟨[], #[], D⟩ hregular nofun rfl
  have hquiet : Quiet ⟨[], #[], D⟩ (stmts topLevel program ⟨[], #[], D⟩) := by
    simpa [resolve, Quiet] using h
  exact ⟨[], rfl, (hwalk.1 hquiet).2⟩

end Lox.Scope
