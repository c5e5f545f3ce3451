namespace Lox

/-- Values under names, in the order in which the names were first bound. -/
structure Bindings (α : Type) where
  entries : List (String × α)

namespace Bindings

variable {α : Type}

def empty : Bindings α := ⟨[]⟩

def findIn (name : String) : List (String × α) → Option α
  | [] => none
  | (x, a) :: rest => if x = name then some a else findIn name rest

def find? (b : Bindings α) (name : String) : Option α := findIn name b.entries

def contains (b : Bindings α) (name : String) : Bool := (b.find? name).isSome

def insertIn (name : String) (value : α) : List (String × α) → List (String × α)
  | [] => [(name, value)]
  | (x, a) :: rest => if x = name then (x, value) :: rest else (x, a) :: insertIn name value rest

def insert (b : Bindings α) (name : String) (value : α) : Bindings α :=
  ⟨insertIn name value b.entries⟩

def names (b : Bindings α) : List String := b.entries.map Prod.fst

@[simp] theorem find?_empty (name : String) : (empty : Bindings α).find? name = none := rfl

theorem findIn_insertIn (name x : String) (value : α) (l : List (String × α)) :
    findIn x (insertIn name value l) = if x = name then some value else findIn x l := by
  induction l with
  | nil => grind [insertIn, findIn]
  | cons p rest ih => grind [insertIn, findIn]

theorem find?_insert (b : Bindings α) (name x : String) (value : α) :
    (b.insert name value).find? x = if x = name then some value else b.find? x :=
  findIn_insertIn name x value b.entries

end Bindings

end Lox
