import Lox.Store

namespace Lox

theorem rel_imp {α β : Type} {r r' : α → β → Prop} {a : Option α} {b : Option β} (h : Option.Rel r a b)
    (hr : ∀ a b, r a b → r' a b) : Option.Rel r' a b := by
  cases h with
  | some h => exact .some (hr _ _ h)
  | none => exact .none

namespace Store

variable (σ : Store)

theorem contains_eq (id : ScopeId) (x : String) : σ.contains id x = (σ.read? id x).isSome := rfl

theorem read?_of_le {id : ScopeId} (h : σ.scopes.size ≤ id) (x : String) : σ.read? id x = none := by
  have hs : σ.scope id = .empty := by
    unfold scope
    rw [Array.getD_eq_getD_getElem?, Array.getElem?_eq_none h]
    rfl
  rw [read?, hs]
  rfl

@[simp] theorem size_addScope (b : Bindings Value) :
    (σ.addScope b).scopes.size = σ.scopes.size + 1 := by
  simp [addScope]

@[simp] theorem size_define (id : ScopeId) (x : String) (v : Value) :
    (σ.define id x v).scopes.size = σ.scopes.size := by
  simp [define]

@[simp] theorem read?_addScope (b : Bindings Value) (id : ScopeId) (x : String) :
    (σ.addScope b).read? id x = if id = σ.nextScope then b.find? x else σ.read? id x := by
  unfold read? scope addScope nextScope
  simp only [Array.getD_eq_getD_getElem?, Array.getElem?_push]
  split <;> simp_all

theorem scope_define (id : ScopeId) (x : String) (v : Value) (id' : ScopeId) :
    (σ.define id x v).scope id' =
      if id' = id ∧ id < σ.scopes.size then (σ.scope id).insert x v else σ.scope id' := by
  unfold scope define
  simp only [Array.getD_eq_getD_getElem?, Array.getElem?_modify]
  by_cases h : id = id'
  · subst h
    by_cases hlt : id < σ.scopes.size
    · simp [hlt]
    · simp [hlt]
  · simp [h, Ne.symm h]

@[simp] theorem read?_define (id : ScopeId) (x : String) (v : Value) (id' : ScopeId) (y : String) :
    (σ.define id x v).read? id' y =
      if id' = id ∧ y = x ∧ id < σ.scopes.size then some v else σ.read? id' y := by
  unfold read?
  rw [scope_define]
  split
  · next h =>
    rw [Bindings.find?_insert, h.1]
    simp [h.2]
  · next h =>
    rw [if_neg fun h' ↦ h ⟨h'.1, h'.2.2⟩]

theorem addScope_insert (b : Bindings Value) (x : String) (v : Value) :
    σ.addScope (b.insert x v) = (σ.addScope b).define σ.nextScope x v := by
  have hscopes : σ.scopes.push (b.insert x v) =
      (σ.scopes.push b).modify σ.scopes.size (·.insert x v) := by
    ext i hi hi' <;> grind
  rw [addScope, hscopes]
  rfl

@[simp] theorem read?_addObject (c : Class) (id : ScopeId) (x : String) :
    (σ.addObject c).read? id x = σ.read? id x := rfl

@[simp] theorem read?_setField (o : ObjectId) (f : String) (v : Value) (id : ScopeId) (x : String) :
    (σ.setField o f v).read? id x = σ.read? id x := rfl

@[simp] theorem read?_freshIdentity (id : ScopeId) (x : String) :
    σ.freshIdentity.read? id x = σ.read? id x := rfl

@[simp] theorem object?_addScope (b : Bindings Value) (o : ObjectId) :
    (σ.addScope b).object? o = σ.object? o := rfl

@[simp] theorem object?_define (id : ScopeId) (x : String) (v : Value) (o : ObjectId) :
    (σ.define id x v).object? o = σ.object? o := rfl

@[simp] theorem object?_freshIdentity (o : ObjectId) : σ.freshIdentity.object? o = σ.object? o := rfl

@[simp] theorem object?_addObject (c : Class) (o : ObjectId) :
    (σ.addObject c).object? o = if o = σ.nextObject then some ⟨c, .empty⟩ else σ.object? o := by
  unfold object? addObject nextObject
  rw [Array.getElem?_push]

@[simp] theorem object?_setField (id : ObjectId) (f : String) (v : Value) (o : ObjectId) :
    (σ.setField id f v).object? o = if o = id then
      (σ.object? o).map fun o ↦ { o with fields := o.fields.insert f v } else σ.object? o := by
  unfold object? setField
  rw [Array.getElem?_modify]
  split <;> split <;> simp_all

/-- Scopes are only added, and a name once bound in a scope stays bound in it. -/
structure Le (σ σ' : Store) : Prop where
  size : σ.scopes.size ≤ σ'.scopes.size
  bound : ∀ id x, (σ.read? id x).isSome → (σ'.read? id x).isSome

theorem Le.refl : σ.Le σ := ⟨Nat.le_refl _, fun _ _ ↦ id⟩

theorem Le.trans {σ σ₁ σ₂ : Store} (h : σ.Le σ₁) (h₁ : σ₁.Le σ₂) : σ.Le σ₂ :=
  ⟨Nat.le_trans h.size h₁.size, fun id x hx ↦ h₁.bound id x (h.bound id x hx)⟩

theorem le_addScope (b : Bindings Value) : σ.Le (σ.addScope b) := by
  refine ⟨by simp, fun id x hx ↦ ?_⟩
  rw [read?_addScope, if_neg]
  · exact hx
  · rintro rfl
    rw [read?_of_le σ (Nat.le_refl σ.nextScope)] at hx
    cases hx

theorem le_define (id : ScopeId) (x : String) (v : Value) : σ.Le (σ.define id x v) := by
  refine ⟨by simp, fun id' y hy ↦ ?_⟩
  rw [read?_define]
  split
  · rfl
  · exact hy

theorem le_addObject (c : Class) : σ.Le (σ.addObject c) := ⟨Nat.le_refl _, fun _ _ ↦ id⟩

theorem le_setField (o : ObjectId) (f : String) (v : Value) : σ.Le (σ.setField o f v) :=
  ⟨Nat.le_refl _, fun _ _ ↦ id⟩

theorem le_freshIdentity : σ.Le σ.freshIdentity := ⟨Nat.le_refl _, fun _ _ ↦ id⟩

end Store

end Lox
