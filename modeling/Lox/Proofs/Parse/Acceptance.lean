import Lox.Proofs.Grammar.Else
import Lox.Proofs.Parse.CompleteStatement

namespace Lox.Parse

open Rule Grammar

def beforeEof (tokens : List Token) : List Token := tokens.takeWhile fun t ↦ !t.kind.isEof

theorem endOf_kind (tokens : List Token) : (endOf tokens).kind = .eof := by
  unfold endOf
  split
  · next t h =>
    have ht := List.find?_some h
    unfold Kind.isEof at ht
    split at ht
    · assumption
    · cases ht
  · rfl

/-- A parse succeeds with the one program that its tokens make up. -/
theorem parse_eq_ok_iff {tokens : List Token} {n m : Nat} {ss : List Stmt} :
    parse tokens n = ⟨.ok ss, m⟩ ↔ Declarations .nearest n (beforeEof tokens) ss m := by
  constructor
  · intro h
    have hread := program_reads (beforeEof tokens).length (.ofTokens tokens n) (endOf_kind tokens)
    change Result.ofReply (program (beforeEof tokens).length (.ofTokens tokens n)) = ⟨.ok ss, m⟩ at h
    cases hp : program (beforeEof tokens).length (.ofTokens tokens n) with
    | fail e s => simp [hp, Result.ofReply] at h
    | ok ss' s =>
      rw [hp] at h hread
      simp only [Result.ofReply, Result.mk.injEq] at h
      obtain ⟨h, rfl⟩ := h
      split at h
      · next hempty =>
        cases h
        obtain ⟨ts, rest, m, hr, rfl, hd, hrest⟩ := hread.2 (by simpa [State.ofTokens] using hempty)
        have hr : beforeEof tokens = ts ++ rest := hr
        cases hrest (Nat.le_of_eq (by rw [hr]))
        rw [hr, List.append_nil]
        exact hd
      · cases h
  · intro h
    have htake := program_takes h (Nat.le_refl _) (.ofTokens tokens n)
    rw [List.append_nil] at htake
    show Result.ofReply (program (beforeEof tokens).length (.ofTokens tokens n)) = _
    have hstate : (State.ofTokens tokens n).ahead (beforeEof tokens) n = .ofTokens tokens n := rfl
    rw [← hstate, htake]
    rfl

/-- A parse never goes back to ids that were given out, even if it fails. -/
theorem le_nextId_parse (tokens : List Token) (n : Nat) : n ≤ (parse tokens n).nextId := by
  have h := program_reads (beforeEof tokens).length (.ofTokens tokens n) (endOf_kind tokens)
  show n ≤ (Result.ofReply (program (beforeEof tokens).length (.ofTokens tokens n))).nextId
  cases hp : program (beforeEof tokens).length (.ofTokens tokens n) with
  | ok ss s =>
    rw [hp] at h
    exact h.1.nextId
  | fail e s =>
    rw [hp] at h
    exact h.nextId

/-- The parser accepts the language of the grammar, and gives the one tree of the tokens in which each
`else` belongs to the nearest `if`. -/
theorem parse_accepts_grammar (tokens : List Token) (n : Nat) :
    ((∃ ss m, parse tokens n = ⟨.ok ss, m⟩) ↔ ∃ ss m, Declarations .any n (beforeEof tokens) ss m) ∧
    (∀ ss m, parse tokens n = ⟨.ok ss, m⟩ ↔ Declarations .nearest n (beforeEof tokens) ss m) ∧
    ∀ ss ss' m m', Declarations .nearest n (beforeEof tokens) ss m →
      Declarations .nearest n (beforeEof tokens) ss' m' → ss = ss' ∧ m = m' := by
  refine ⟨⟨?_, ?_⟩, fun ss m ↦ parse_eq_ok_iff, ?_⟩
  · rintro ⟨ss, m, h⟩
    exact ⟨ss, m, (parse_eq_ok_iff.1 h).any⟩
  · rintro ⟨ss, m, h⟩
    obtain ⟨ss, h⟩ := h.nearest
    exact ⟨ss, m, parse_eq_ok_iff.2 h⟩
  · intro ss ss' m m' h h'
    have heq := (parse_eq_ok_iff.2 h).symm.trans (parse_eq_ok_iff.2 h')
    simp only [Result.mk.injEq, Except.ok.injEq] at heq
    exact heq

end Lox.Parse
