import Lox.Proofs.Lexical.Step
import Lox.Proofs.Machine.Scoped
import Lox.Proofs.Scope.Declare
import Mathlib.Data.List.Forall2

namespace Lox.Lexical

open Scope

namespace Env

@[simp] theorem find?_inside (ρ : Env) (x : String) : ρ.inside.find? x = ρ.find? x := by
  obtain ⟨_ | b⟩ := ρ <;> rfl

@[simp] theorem find?_extend (ρ : Env) (y : String) (c : Cell) (x : String) :
    (ρ.extend y c).find? x = if x = y then some c else ρ.find? x := by
  obtain ⟨_ | b⟩ := ρ <;> exact Bindings.find?_insert ..

end Env

/-- Which variables of scopes stand for which cells, as far as a run of a program has come. Each of the
cells so far belongs to at most one variable of one local scope. -/
structure Link where
  program : Accepted
  selfFree : Stmt.selfFreeAll false program.program = true
  globals : ScopeId
  scopes : Nat
  cells : Nat
  cell : ScopeId → String → Option Cell
  globals_lt : globals < scopes
  within : ∀ {id x c}, cell id x = some c → id ≠ globals ∧ id < scopes ∧ c < cells
  injective : ∀ {id x id' x' c}, cell id x = some c → cell id' x' = some c → id = id' ∧ x = x'

namespace Link

/-- A link that has grown. -/
structure Le (L L' : Link) : Prop where
  program : L'.program = L.program
  globals : L'.globals = L.globals
  scopes : L.scopes ≤ L'.scopes
  cell : ∀ {id x c}, L.cell id x = some c → L'.cell id x = some c

/-- A link that has grown in new scopes only. -/
structure Beside (L L' : Link) : Prop extends L.Le L' where
  old : ∀ {id}, id < L.scopes → ∀ x, L'.cell id x = L.cell id x

def addScope (L : Link) : Link where
  program := L.program
  selfFree := L.selfFree
  globals := L.globals
  scopes := L.scopes + 1
  cells := L.cells
  cell := L.cell
  globals_lt := Nat.lt_succ_of_lt L.globals_lt
  within h := ⟨(L.within h).1, Nat.lt_succ_of_lt (L.within h).2.1, (L.within h).2.2⟩
  injective := L.injective

/-- One more variable, which stands for the next cell. Globals stand for none. -/
def bind (L : Link) (id : ScopeId) (x : String) : Link :=
  if h : id ≠ L.globals ∧ id < L.scopes ∧ L.cell id x = none then
    { program := L.program
      selfFree := L.selfFree
      globals := L.globals
      scopes := L.scopes
      cells := L.cells + 1
      cell := fun id' x' ↦ if id' = id ∧ x' = x then some L.cells else L.cell id' x'
      globals_lt := L.globals_lt
      within := by
        intro id' x' c hc
        split at hc
        · next heq =>
          cases hc
          exact heq.1 ▸ ⟨h.1, h.2.1, Nat.lt_succ_self _⟩
        · exact ⟨(L.within hc).1, (L.within hc).2.1, Nat.lt_succ_of_lt (L.within hc).2.2⟩
      injective := by
        intro id₁ x₁ id₂ x₂ c h₁ h₂
        have hnew {id' x'} (hc : L.cell id' x' = some L.cells) : False :=
          Nat.lt_irrefl _ (L.within hc).2.2
        split at h₁ <;> split at h₂
        · next h h' => exact ⟨h.1.trans h'.1.symm, h.2.trans h'.2.symm⟩
        · cases h₁
          exact (hnew h₂).elim
        · cases h₂
          exact (hnew h₁).elim
        · exact L.injective h₁ h₂ }
  else L

variable {L L' L'' : Link}

theorem Le.refl (L : Link) : L.Le L := ⟨rfl, rfl, Nat.le_refl _, id⟩

theorem Le.trans (h : L.Le L') (h' : L'.Le L'') : L.Le L'' :=
  ⟨h'.program.trans h.program, h'.globals.trans h.globals, Nat.le_trans h.scopes h'.scopes,
    fun hc ↦ h'.cell (h.cell hc)⟩

theorem Beside.refl (L : Link) : L.Beside L := ⟨.refl L, fun _ _ ↦ rfl⟩

theorem beside_addScope (L : Link) : L.Beside L.addScope :=
  ⟨⟨rfl, rfl, Nat.le_succ _, id⟩, fun _ _ ↦ rfl⟩

theorem cell_fresh (L : Link) {id : ScopeId} (h : L.scopes ≤ id) (x : String) : L.cell id x = none := by
  cases hc : L.cell id x with
  | none => rfl
  | some c => exact absurd (L.within hc).2.1 (Nat.not_lt.2 h)

section

variable (L) {id : ScopeId} {x : String}

theorem bind_globals (x : String) : L.bind L.globals x = L := dif_neg fun h ↦ h.1 rfl

theorem cell_bind (h : id ≠ L.globals ∧ id < L.scopes ∧ L.cell id x = none) (id' : ScopeId)
    (x' : String) : (L.bind id x).cell id' x' =
      if id' = id ∧ x' = x then some L.cells else L.cell id' x' := by
  rw [bind, dif_pos h]

theorem cells_bind (h : id ≠ L.globals ∧ id < L.scopes ∧ L.cell id x = none) :
    (L.bind id x).cells = L.cells + 1 := by
  rw [bind, dif_pos h]

@[simp] theorem scopes_bind (id : ScopeId) (x : String) : (L.bind id x).scopes = L.scopes := by
  unfold bind
  split <;> rfl

@[simp] theorem globals_bind (id : ScopeId) (x : String) : (L.bind id x).globals = L.globals := by
  unfold bind
  split <;> rfl

@[simp] theorem program_bind (id : ScopeId) (x : String) : (L.bind id x).program = L.program := by
  unfold bind
  split <;> rfl

theorem cell_bind_of_ne {id' : ScopeId} {x' : String} (h : ¬(id' = id ∧ x' = x)) :
    (L.bind id x).cell id' x' = L.cell id' x' := by
  unfold bind
  split
  · exact if_neg h
  · rfl

theorem le_bind (id : ScopeId) (x : String) : L.Le (L.bind id x) := by
  refine ⟨L.program_bind id x, L.globals_bind id x, Nat.le_of_eq (L.scopes_bind id x).symm, ?_⟩
  intro id' x' c hc
  unfold bind
  split
  · next h =>
    refine (if_neg fun h' ↦ ?_).trans hc
    rw [h'.1, h'.2, h.2.2] at hc
    cases hc
  · exact hc

theorem bind_fresh (x : String) : L.scopes ≠ L.addScope.globals ∧ L.scopes < L.addScope.scopes ∧
    L.addScope.cell L.scopes x = none :=
  ⟨Nat.ne_of_gt L.globals_lt, Nat.lt_succ_self _, L.cell_fresh (Nat.le_refl _) x⟩

def addCell (x : String) : Link := L.addScope.bind L.scopes x

theorem cell_addCell (x : String) : (L.addCell x).cell L.scopes x = some L.cells := by
  rw [addCell, cell_bind _ (L.bind_fresh x), if_pos ⟨rfl, rfl⟩]
  rfl

theorem beside_addCell (x : String) : L.Beside (L.addCell x) := by
  refine ⟨L.beside_addScope.toLe.trans (le_bind ..), fun {id} hid y ↦ ?_⟩
  exact cell_bind_of_ne _ fun h ↦ Nat.ne_of_lt hid h.1

end

end Link

end Lox.Lexical
