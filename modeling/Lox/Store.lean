import Lox.Value.Basic

namespace Lox

structure Object where
  cls : Class
  fields : Bindings Value

/-- Everything that a program can change and share: scopes and objects, by their ids. -/
structure Store where
  scopes : Array (Bindings Value)
  objects : Array Object
  /-- The next id of a function or a class. -/
  nextIdentity : Nat

namespace Store

def empty : Store := ⟨#[], #[], 0⟩

def nextScope (σ : Store) : ScopeId := σ.scopes.size

def addScope (σ : Store) (b : Bindings Value) : Store := { σ with scopes := σ.scopes.push b }

def addGlobal (σ : Store) : Env × Store := (⟨σ.nextScope, []⟩, σ.addScope .empty)

def addEnclosed (σ : Store) (env : Env) : Env × Store := (env.enclose σ.nextScope, σ.addScope .empty)

def scope (σ : Store) (id : ScopeId) : Bindings Value := σ.scopes.getD id .empty

def contains (σ : Store) (id : ScopeId) (name : String) : Bool := (σ.scope id).contains name

def define (σ : Store) (id : ScopeId) (name : String) (v : Value) : Store :=
  { σ with scopes := σ.scopes.modify id (·.insert name v) }

def locate? (σ : Store) (env : Env) (name : String) : Option ScopeId :=
  env.chain.find? (σ.contains · name)

def locateAt? (σ : Store) (env : Env) (distance : Nat) (name : String) : Option ScopeId :=
  env.chain[distance]?.filter (σ.contains · name)

def read? (σ : Store) (id : ScopeId) (name : String) : Option Value := (σ.scope id).find? name

def get? (σ : Store) (env : Env) (name : String) : Option Value :=
  (σ.locate? env name).bind (σ.read? · name)

def getAt? (σ : Store) (env : Env) (distance : Nat) (name : String) : Option Value :=
  (σ.locateAt? env distance name).bind (σ.read? · name)

def assign? (σ : Store) (env : Env) (name : String) (v : Value) : Option Store :=
  (σ.locate? env name).map (σ.define · name v)

def assignAt? (σ : Store) (env : Env) (distance : Nat) (name : String) (v : Value) : Option Store :=
  (σ.locateAt? env distance name).map (σ.define · name v)

def nextObject (σ : Store) : ObjectId := σ.objects.size

def addObject (σ : Store) (c : Class) : Store :=
  { σ with objects := σ.objects.push ⟨c, .empty⟩ }

def object? (σ : Store) (id : ObjectId) : Option Object := σ.objects[id]?

def setField (σ : Store) (id : ObjectId) (name : String) (v : Value) : Store :=
  { σ with objects := σ.objects.modify id fun o ↦ { o with fields := o.fields.insert name v } }

def freshIdentity (σ : Store) : Store := { σ with nextIdentity := σ.nextIdentity + 1 }

def display (σ : Store) : Value → String
  | .nil => "nil"
  | .bool b => if b then "true" else "false"
  | .number x => Number.display x
  | .string s => s
  | .callable c => c.display
  | .object id => "<" ++ ((σ.object? id).map (·.cls.name)).getD "" ++ " instance>"

end Store

end Lox
