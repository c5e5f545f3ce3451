namespace Lox

/-- For the occurrences of names, by their ids: how many scopes out the binding lies. An occurrence
without an entry belongs to the globals. -/
structure Distances where
  entries : Array (Option Nat)

namespace Distances

def empty : Distances := ⟨#[]⟩

def find? (d : Distances) (id : Nat) : Option Nat := d.entries[id]?.join

def record (d : Distances) (id distance : Nat) : Distances :=
  if id < d.entries.size then ⟨d.entries.setIfInBounds id (some distance)⟩
  else ⟨(d.entries ++ Array.replicate (id - d.entries.size) none).push (some distance)⟩

def forget (d : Distances) (id : Nat) : Distances := ⟨d.entries.setIfInBounds id none⟩

theorem find?_record (d : Distances) (id distance i : Nat) :
    (d.record id distance).find? i = if i = id then some distance else d.find? i := by
  unfold record find?
  split
  · grind
  · grind

theorem find?_forget (d : Distances) (id i : Nat) :
    (d.forget id).find? i = if i = id then none else d.find? i := by
  unfold forget find?
  grind

end Distances

end Lox
