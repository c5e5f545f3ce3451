import Lox.Proofs.Grammar.Tree
import Lox.Proofs.Parse.Acceptance
import Lox.Session

namespace Lox.Session

theorem readAll_ok_iff {source : String} {n m : Nat} {program : List Stmt} :
    readAll source n = (.ok program, m) ↔ Token.errorsOf (Token.scan source) = [] ∧
      Grammar.Declarations .nearest n (Parse.beforeEof (Token.tokensOf (Token.scan source))) program m := by
  rw [← Parse.parse_eq_ok_iff]
  unfold readAll
  generalize Token.scan source = items
  cases hr : Parse.parse (Token.tokensOf items) n with
  | mk outcome m' =>
    cases outcome with
    | error es => simp [hr]
    | ok program' => cases hl : Token.errorsOf items <;> simp [hr, hl]

theorem le_readAll (source : String) (n : Nat) : n ≤ (readAll source n).2 := by
  have h := Parse.le_nextId_parse (Token.tokensOf (Token.scan source)) n
  unfold readAll
  dsimp only
  split <;> exact h

theorem beforeEof_genuine {source : String} {t : Token}
    (h : t ∈ Parse.beforeEof (Token.tokensOf (Token.scan source))) : t.Genuine :=
  Token.genuine_of_mem_scan ((List.takeWhile_sublist _).subset h)

/-- The tree of a source is a proper one, and its ids are new. -/
theorem readAll_yields {source : String} {n m : Nat} {program : List Stmt}
    (h : readAll source n = (.ok program, m)) :
    Numbered n m (Stmt.refsOf program) ∧ Stmt.AllOf proper program := by
  have hy := (readAll_ok_iff.1 h).2.yields
  exact ⟨hy.numbered, hy.nodes fun _ ht ↦ beforeEof_genuine ht⟩

end Lox.Session
