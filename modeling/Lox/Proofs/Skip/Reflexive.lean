import Lox.Machine.Stock
import Lox.Proofs.Heap.Step
import Lox.Proofs.Skip.State

namespace Lox.Skip

section

variable {D : Distances} {E : Heap} (h : E.Valid)
include h

theorem chain_self {env : Env} (henv : E.HasEnv env) :
    List.Forall₂ (Link.self E.store.scopes.size).rel env.chain env.chain := by
  have hchain := h.chain env.inner henv.1
  rw [← henv.2] at hchain
  exact List.forall₂_same.2 fun id hid ↦ ⟨rfl, hchain.valid id hid⟩

theorem closureLinked_self {c : Closure} (hc : E.HasEnv c.env) :
    ClosureLinked D (.self E.store.scopes.size) c c :=
  ⟨rfl, .nowhere, (by simp), .refl D c.decl, .same (chain_self h hc)⟩

theorem methodLinked_self {c : Closure} (hc : E.HasEnv c.env) :
    MethodLinked D (.self E.store.scopes.size) c c :=
  ⟨rfl, .nowhere, .refl D c.decl, .same (chain_self h hc)⟩

theorem classLinked_self {c : Class} (hc : E.HasClass c) :
    ClassLinked D (.self E.store.scopes.size) c c := by
  have hmethods {c : Class} (hc : E.HasClass c) (x : String) :
      Option.Rel (MethodLinked D (.self E.store.scopes.size)) (c.methods.find? x) (c.methods.find? x) := by
    cases hx : c.methods.find? x with
    | none => exact .none
    | some m => exact .some (methodLinked_self h (h.methods _ c x m hc hx))
  induction c using Class.lineage.induct with
  | case1 id name methods => exact .base (hmethods hc)
  | case2 id name superclass methods ih =>
    exact .derived (ih (h.superclass _ _ superclass hc rfl).2) (hmethods hc)

theorem valueLinked_self {v : Value} (hv : E.HasValue v) : ValueLinked D (.self E.store.scopes.size) v v := by
  cases v with
  | nil => exact .nil
  | bool b => exact .bool b
  | number x => exact .number x
  | string s => exact .string s
  | object id => exact .object id
  | callable c =>
    cases c with
    | native f => exact .callable (.native f)
    | function id c => exact .callable (.function id (closureLinked_self h hv))
    | cls c => exact .callable (.cls (classLinked_self h hv))

theorem find?_self {b : Bindings Value} (hb : ∀ x v, b.find? x = some v → E.HasValue v) (x : String) :
    Option.Rel (ValueLinked D (.self E.store.scopes.size)) (b.find? x) (b.find? x) := by
  cases hx : b.find? x with
  | none => exact .none
  | some v => exact .some (valueLinked_self h (hb x v hx))

theorem storeLinked_self : StoreLinked D (.self E.store.scopes.size) E.store E.store := by
  refine ⟨rfl, rfl, ?_, fun o ↦ ?_, rfl, rfl⟩
  · rintro a _ ⟨rfl, -⟩ x
    cases hx : E.store.read? a x with
    | none => exact .none
    | some v => exact .some (valueLinked_self h (h.values.scopes a x v hx))
  · cases ho : E.store.object? o with
    | none => exact .none
    | some ob =>
      exact .some ⟨classLinked_self h (h.values.classes o ob ho), find?_self h (h.values.fields o ob ho)⟩

end

theorem StateLinked.self {G : Layout} {i : Interpreter} (hi : i.In G)
    (hu : ∀ f ∈ i.hosts, Uniform i.distances f) :
    StateLinked i.distances (.self i.store.scopes.size) i i :=
  ⟨⟨rfl, rfl⟩, storeLinked_self hi.valid, ⟨rfl, hi.valid.globals⟩, rfl, rfl, hu, rfl, rfl⟩

theorem uniform_clock (D : Distances) : Uniform D HostFunction.clock := fun _ ↦ .time fun x ↦ .done (.number x)

end Lox.Skip
