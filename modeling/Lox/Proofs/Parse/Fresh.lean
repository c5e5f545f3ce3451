import Lox.Proofs.Grammar.Tree
import Lox.Proofs.Parse.Acceptance

namespace Lox.Parse

def Result.refs (r : Result) : List Ref :=
  match r.outcome with
  | .ok program => Stmt.refsOf program
  | .error _ => []

/-- Parses one after the other, each with ids from where the one before it stopped. -/
def parses (nextId : Nat) : List (List Token) → List Result
  | [] => []
  | tokens :: inputs =>
    let r := parse tokens nextId
    r :: parses r.nextId inputs

def freeAfter (nextId : Nat) : List (List Token) → Nat
  | [] => nextId
  | tokens :: inputs => freeAfter (parse tokens nextId).nextId inputs

/-- One parse uses ids between the one that is free before it and the one that is free after it, each at most once. -/
theorem numbered_parse (tokens : List Token) (n : Nat) :
    Numbered n (parse tokens n).nextId (parse tokens n).refs := by
  have hle := le_nextId_parse tokens n
  unfold Result.refs
  cases hp : (parse tokens n).outcome with
  | error es => exact ⟨hle, by simp, .nil⟩
  | ok program =>
    have hparse : parse tokens n = ⟨.ok program, (parse tokens n).nextId⟩ := by rw [← hp]
    exact (parse_eq_ok_iff.1 hparse).yields.numbered

theorem numbered_parses (inputs : List (List Token)) (n : Nat) :
    Numbered n (freeAfter n inputs) ((parses n inputs).flatMap Result.refs) := by
  induction inputs generalizing n with
  | nil => exact .nil n
  | cons tokens inputs ih => exact (numbered_parse tokens n).append (ih _)

/-- Whatever is parsed one after the other, with or without success: no two occurrences of names share an id, within a
tree or across trees, every occurrence of a later parse has a larger id than every one of an earlier parse, and all ids
lie between the one that is free at first and the one that is free in the end. -/
theorem parses_ids_fresh (n : Nat) (inputs : List (List Token)) :
    ((parses n inputs).flatMap Result.refs).Pairwise (·.id ≠ ·.id) ∧
    (parses n inputs).Pairwise (fun r r' ↦ ∀ ref ∈ r.refs, ∀ ref' ∈ r'.refs, ref.id < ref'.id) ∧
    ∀ r ∈ parses n inputs, ∀ ref ∈ r.refs, n ≤ ref.id ∧ ref.id < freeAfter n inputs := by
  have hall := numbered_parses inputs n
  refine ⟨hall.distinct, ?_, fun r hr ref href ↦ hall.within ref (List.mem_flatMap.2 ⟨r, hr, href⟩)⟩
  induction inputs generalizing n with
  | nil => exact .nil
  | cons tokens inputs ih =>
    have hlater := numbered_parses inputs (parse tokens n).nextId
    refine .cons (fun r' hr' ref href ref' href' ↦ ?_) (ih _ hlater)
    have hbefore := (numbered_parse tokens n).within ref href
    have hafter := hlater.within ref' (List.mem_flatMap.2 ⟨r', hr', href'⟩)
    omega

end Lox.Parse
