import Lox.Proofs.Tree.Relabel
import Lox.Store
import Lox.Value.Operator

namespace Lox

namespace Bindings

variable {α β γ : Type}

def map (f : α → β) (b : Bindings α) : Bindings β := ⟨b.entries.map fun p ↦ (p.1, f p.2)⟩

variable (f : α → β) (b : Bindings α)

@[simp] theorem map_empty : (empty : Bindings α).map f = .empty := rfl

@[simp] theorem find?_map (x : String) : (b.map f).find? x = (b.find? x).map f := by
  obtain ⟨l⟩ := b
  induction l with
  | nil => rfl
  | cons p l ih =>
    simp only [find?, map, List.map_cons, findIn] at ih ⊢
    split
    · rfl
    · exact ih

@[simp] theorem contains_map (x : String) : (b.map f).contains x = b.contains x := by
  unfold contains
  rw [find?_map, Option.isSome_map]

theorem map_insertIn (x : String) (a : α) (l : List (String × α)) :
    (insertIn x a l).map (fun p ↦ (p.1, f p.2)) = insertIn x (f a) (l.map fun p ↦ (p.1, f p.2)) := by
  induction l with
  | nil => rfl
  | cons p l ih =>
    simp only [List.map_cons, insertIn]
    split
    · rfl
    · rw [List.map_cons, ih]

@[simp] theorem map_insert (x : String) (a : α) : (b.insert x a).map f = (b.map f).insert x (f a) :=
  congrArg Bindings.mk (map_insertIn f x a b.entries)

theorem map_map (g : β → γ) : (b.map f).map g = b.map (g ∘ f) := by
  unfold map
  rw [List.map_map]
  rfl

theorem map_id {g : α → α} (hg : ∀ a, g a = a) : b.map g = b := by
  unfold map
  simp only [hg, List.map_id']

end Bindings

section

variable (r : Relabeling)

def Closure.relabel (c : Closure) : Closure := { c with decl := c.decl.relabel r }

def Class.relabel : Class → Class
  | .mk id name none methods => .mk id name none (methods.map (·.relabel r))
  | .mk id name (some superclass) methods =>
    .mk id name (some superclass.relabel) (methods.map (·.relabel r))

def Callable.relabel : Callable → Callable
  | .native f => .native f
  | .function id closure => .function id (closure.relabel r)
  | .cls c => .cls (c.relabel r)

def Value.relabel : Value → Value
  | .callable c => .callable (c.relabel r)
  | v => v

def Object.relabel (o : Object) : Object := ⟨o.cls.relabel r, o.fields.map (·.relabel r)⟩

def Store.relabel (σ : Store) : Store :=
  { σ with scopes := σ.scopes.map (·.map (·.relabel r)), objects := σ.objects.map (·.relabel r) }

end

section

variable (r : Relabeling)

@[simp] theorem Closure.arity_relabel (c : Closure) : (c.relabel r).arity = c.arity := by
  simp [Closure.arity, Closure.relabel]

@[simp] theorem Closure.name_relabel (c : Closure) : (c.relabel r).name = c.name := by
  simp [Closure.name, Closure.relabel]

@[simp] theorem Class.id_relabel (c : Class) : (c.relabel r).id = c.id := by
  cases c using Class.relabel.induct <;> rfl

@[simp] theorem Class.name_relabel (c : Class) : (c.relabel r).name = c.name := by
  cases c using Class.relabel.induct <;> rfl

@[simp] theorem Class.findMethod?_relabel (name : String) (c : Class) :
    (c.relabel r).findMethod? name = (c.findMethod? name).map (·.relabel r) := by
  induction c using Class.relabel.induct with
  | case1 id className methods => simp [Class.relabel, Class.findMethod?]
  | case2 id className superclass methods ih =>
    simp only [Class.relabel, Class.findMethod?, Bindings.find?_map, ih]
    cases methods.find? name <;> rfl

@[simp] theorem Class.initializer?_relabel (c : Class) :
    (c.relabel r).initializer? = c.initializer?.map (·.relabel r) := c.findMethod?_relabel r "init"

@[simp] theorem Class.arity_relabel (c : Class) : (c.relabel r).arity = c.arity := by
  unfold Class.arity
  rw [Class.initializer?_relabel]
  cases c.initializer? <;> simp

@[simp] theorem Callable.arity_relabel (c : Callable) : (c.relabel r).arity = c.arity := by
  cases c <;> simp [Callable.relabel, Callable.arity]

@[simp] theorem Callable.same_relabel (c d : Callable) :
    (c.relabel r).same (d.relabel r) = c.same d := by
  cases c <;> cases d <;> simp [Callable.relabel, Callable.same]

@[simp] theorem Callable.display_relabel (c : Callable) : (c.relabel r).display = c.display := by
  cases c <;> simp [Callable.relabel, Callable.display]

namespace Value

@[simp] theorem relabel_function (id : Nat) (c : Closure) :
    relabel r (.callable (.function id c)) = .callable (.function id (c.relabel r)) := rfl

@[simp] theorem relabel_cls (c : Class) :
    relabel r (.callable (.cls c)) = .callable (.cls (c.relabel r)) := rfl

@[simp] theorem relabel_object (id : ObjectId) : relabel r (.object id) = .object id := rfl

@[simp] theorem isTruthy_relabel (v : Value) : (v.relabel r).isTruthy = v.isTruthy := by
  cases v <;> rfl

@[simp] theorem same_relabel (v w : Value) : (v.relabel r).same (w.relabel r) = v.same w := by
  cases v <;> cases w <;> simp [relabel, same]

@[simp] theorem decides_relabel (op : Kind) (v : Value) : (v.relabel r).decides op = v.decides op := by
  unfold decides
  rw [isTruthy_relabel]

theorem unary_relabel (op : Kind) (v : Value) :
    (v.relabel r).unary op = (v.unary op).map (·.relabel r) := by
  by_cases hminus : op = .mark .minus
  · subst hminus
    cases v <;> rfl
  · by_cases hbang : op = .mark .bang
    · subst hbang
      cases v <;> rfl
    · have hother (u : Value) : u.unary op = .error .invalidUnary := by
        unfold unary
        split <;> first | rfl | contradiction
      rw [hother, hother]
      rfl

theorem plus_relabel (v w : Value) :
    (v.relabel r).plus (w.relabel r) = (v.plus w).map (·.relabel r) := by
  cases v <;> cases w <;> rfl

theorem arithmetic_relabel (op : Kind) (a b : Float) :
    (arithmetic op a b).map (·.relabel r) = arithmetic op a b := by
  unfold arithmetic
  split <;> rfl

theorem binary_relabel (op : Kind) (v w : Value) :
    binary op (v.relabel r) (w.relabel r) = (binary op v w).map (·.relabel r) := by
  unfold binary
  split
  · rw [same_relabel]
    rfl
  · rw [same_relabel]
    rfl
  · exact plus_relabel r v w
  · cases v with
    | number a =>
      cases w with
      | number b => exact (arithmetic_relabel r _ a b).symm
      | _ => rfl
    | _ => rfl

end Value

namespace Store

variable (σ : Store)

@[simp] theorem nextScope_relabel : (σ.relabel r).nextScope = σ.nextScope := by
  simp [nextScope, relabel]

@[simp] theorem nextObject_relabel : (σ.relabel r).nextObject = σ.nextObject := by
  simp [nextObject, relabel]

@[simp] theorem nextIdentity_relabel : (σ.relabel r).nextIdentity = σ.nextIdentity := rfl

theorem scope_relabel (id : ScopeId) : (σ.relabel r).scope id = (σ.scope id).map (·.relabel r) := by
  unfold scope relabel
  simp only [Array.getD_eq_getD_getElem?, Array.getElem?_map]
  cases σ.scopes[id]? <;> rfl

@[simp] theorem contains_relabel (id : ScopeId) (x : String) :
    (σ.relabel r).contains id x = σ.contains id x := by
  rw [contains, scope_relabel, Bindings.contains_map]
  rfl

@[simp] theorem read?_relabel (id : ScopeId) (x : String) :
    (σ.relabel r).read? id x = (σ.read? id x).map (·.relabel r) := by
  rw [read?, scope_relabel, Bindings.find?_map]
  rfl

@[simp] theorem locate?_relabel (env : Env) (x : String) :
    (σ.relabel r).locate? env x = σ.locate? env x := by
  simp [locate?]

@[simp] theorem locateAt?_relabel (env : Env) (d : Nat) (x : String) :
    (σ.relabel r).locateAt? env d x = σ.locateAt? env d x := by
  simp [locateAt?]

@[simp] theorem getAt?_relabel (env : Env) (d : Nat) (x : String) :
    (σ.relabel r).getAt? env d x = (σ.getAt? env d x).map (·.relabel r) := by
  rw [getAt?, locateAt?_relabel, getAt?]
  cases σ.locateAt? env d x <;> simp

@[simp] theorem object?_relabel (id : ObjectId) :
    (σ.relabel r).object? id = (σ.object? id).map (·.relabel r) := by
  simp [object?, relabel]

@[simp] theorem display_relabel (v : Value) : (σ.relabel r).display (v.relabel r) = σ.display v := by
  cases v with
  | callable c => exact c.display_relabel r
  | object id =>
    simp only [display, Value.relabel, object?_relabel]
    cases σ.object? id <;> simp [Object.relabel]
  | _ => rfl

@[simp] theorem relabel_addScope (b : Bindings Value) :
    (σ.addScope b).relabel r = (σ.relabel r).addScope (b.map (·.relabel r)) := by
  simp [addScope, relabel]

theorem map_modify {α β : Type} {f : α → β} {g : α → α} {g' : β → β} (h : ∀ a, f (g a) = g' (f a))
    (xs : Array α) (i : Nat) : (xs.modify i g).map f = (xs.map f).modify i g' := by
  ext j hj hj'
  · simp
  · simp only [Array.getElem_map, Array.getElem_modify]
    split
    · exact h _
    · rfl

@[simp] theorem relabel_define (id : ScopeId) (x : String) (v : Value) :
    (σ.define id x v).relabel r = (σ.relabel r).define id x (v.relabel r) := by
  have h : (σ.scopes.modify id (·.insert x v)).map (·.map (·.relabel r)) =
      (σ.scopes.map (·.map (·.relabel r))).modify id (·.insert x (v.relabel r)) :=
    map_modify (fun b ↦ b.map_insert _ x v) σ.scopes id
  simp only [define, relabel, h]

@[simp] theorem relabel_addObject (c : Class) :
    (σ.addObject c).relabel r = (σ.relabel r).addObject (c.relabel r) := by
  simp [addObject, relabel, Object.relabel]

@[simp] theorem relabel_setField (id : ObjectId) (x : String) (v : Value) :
    (σ.setField id x v).relabel r = (σ.relabel r).setField id x (v.relabel r) := by
  have h : (σ.objects.modify id fun o ↦ { o with fields := o.fields.insert x v }).map (·.relabel r) =
      (σ.objects.map (·.relabel r)).modify id
        fun o ↦ { o with fields := o.fields.insert x (v.relabel r) } :=
    map_modify (fun o ↦ congrArg (Object.mk (o.cls.relabel r)) (o.fields.map_insert _ x v)) σ.objects id
  simp only [setField, relabel, h]

@[simp] theorem relabel_freshIdentity : σ.freshIdentity.relabel r = (σ.relabel r).freshIdentity := rfl

end Store

end

section

@[simp] theorem Closure.relabel_refl (c : Closure) : c.relabel .refl = c := by
  simp [Closure.relabel]

@[simp] theorem Class.relabel_refl (c : Class) : c.relabel .refl = c := by
  induction c using Class.relabel.induct with
  | case1 => simp [Class.relabel, Bindings.map_id]
  | case2 id name superclass methods ih => simp [Class.relabel, Bindings.map_id, ih]

@[simp] theorem Value.relabel_refl (v : Value) : v.relabel .refl = v := by
  cases v with
  | callable c => cases c <;> simp [Value.relabel, Callable.relabel]
  | _ => rfl

@[simp] theorem Object.relabel_refl (o : Object) : o.relabel .refl = o := by
  simp [Object.relabel, Bindings.map_id]

@[simp] theorem Store.relabel_refl (σ : Store) : σ.relabel .refl = σ := by
  simp [Store.relabel, Bindings.map_id]

variable (r r' : Relabeling)

@[simp] theorem Closure.relabel_relabel (c : Closure) :
    (c.relabel r).relabel r' = c.relabel (r'.comp r) := by
  simp [Closure.relabel]

@[simp] theorem Class.relabel_relabel (c : Class) :
    (c.relabel r).relabel r' = c.relabel (r'.comp r) := by
  induction c using Class.relabel.induct with
  | case1 => simp [Class.relabel, Bindings.map_map, Function.comp_def]
  | case2 id name superclass methods ih => simp [Class.relabel, Bindings.map_map, Function.comp_def, ih]

@[simp] theorem Value.relabel_relabel (v : Value) :
    (v.relabel r).relabel r' = v.relabel (r'.comp r) := by
  cases v with
  | callable c => cases c <;> simp [Value.relabel, Callable.relabel]
  | _ => rfl

@[simp] theorem Object.relabel_relabel (o : Object) :
    (o.relabel r).relabel r' = o.relabel (r'.comp r) := by
  simp [Object.relabel, Bindings.map_map, Function.comp_def]

@[simp] theorem Store.relabel_relabel (σ : Store) :
    (σ.relabel r).relabel r' = σ.relabel (r'.comp r) := by
  simp [Store.relabel, Bindings.map_map, Function.comp_def]

end

section

def Bindings.lines {α : Type} (of : α → List Nat) (b : Bindings α) : List Nat := b.entries.flatMap fun p ↦ of p.2

def Class.lines : Class → List Nat
  | .mk _ _ none methods => methods.lines (·.decl.lines)
  | .mk _ _ (some superclass) methods => superclass.lines ++ methods.lines (·.decl.lines)

def Callable.lines : Callable → List Nat
  | .native _ => []
  | .function _ closure => closure.decl.lines
  | .cls c => c.lines

def Value.lines : Value → List Nat
  | .callable c => c.lines
  | _ => []

def Object.lines (o : Object) : List Nat := o.cls.lines ++ o.fields.lines Value.lines

def Store.lines (σ : Store) : List Nat :=
  σ.scopes.toList.flatMap (·.lines Value.lines) ++ σ.objects.toList.flatMap Object.lines

theorem Store.exists_lines_le (σ : Store) : ∃ L, ∀ l ∈ σ.lines, l ≤ L :=
  ⟨σ.lines.max?.getD 0, fun _ hl ↦ List.le_max?_getD_of_mem hl⟩

variable {f g : Nat → Nat}

theorem Bindings.map_congr_lines {α : Type} {of : α → List Nat} {u v : α → α}
    (huv : ∀ a, (∀ l ∈ of a, f l = g l) → u a = v a) {b : Bindings α} (h : ∀ l ∈ b.lines of, f l = g l) :
    b.map u = b.map v := by
  refine congrArg Bindings.mk (List.map_congr_left fun p hp ↦ ?_)
  rw [huv p.2 fun l hl ↦ h l (List.mem_flatMap.2 ⟨p, hp, hl⟩)]

theorem Closure.relabel_congr (c : Closure) (h : ∀ l ∈ c.decl.lines, f l = g l) :
    c.relabel (.lines f) = c.relabel (.lines g) := by
  have hdecl : c.decl.relabel (.lines f) = c.decl.relabel (.lines g) := c.decl.relabel_congr h fun _ _ ↦ rfl
  unfold Closure.relabel
  rw [hdecl]

theorem Class.relabel_congr (c : Class) (h : ∀ l ∈ c.lines, f l = g l) :
    c.relabel (.lines f) = c.relabel (.lines g) := by
  induction c using Class.relabel.induct with
  | case1 id name methods =>
    rw [Class.relabel, Class.relabel, Bindings.map_congr_lines Closure.relabel_congr h]
  | case2 id name superclass methods ih =>
    rw [Class.lines, List.forall_mem_append] at h
    rw [Class.relabel, Class.relabel, ih h.1, Bindings.map_congr_lines Closure.relabel_congr h.2]

theorem Value.relabel_congr (v : Value) (h : ∀ l ∈ v.lines, f l = g l) :
    v.relabel (.lines f) = v.relabel (.lines g) := by
  cases v with
  | callable c =>
    cases c with
    | native => rfl
    | function id closure => rw [relabel_function, relabel_function, closure.relabel_congr h]
    | cls c => rw [relabel_cls, relabel_cls, c.relabel_congr h]
  | _ => rfl

theorem Object.relabel_congr (o : Object) (h : ∀ l ∈ o.lines, f l = g l) :
    o.relabel (.lines f) = o.relabel (.lines g) := by
  rw [Object.lines, List.forall_mem_append] at h
  unfold Object.relabel
  rw [o.cls.relabel_congr h.1, Bindings.map_congr_lines Value.relabel_congr h.2]

theorem Store.relabel_congr (σ : Store) (h : ∀ l ∈ σ.lines, f l = g l) :
    σ.relabel (.lines f) = σ.relabel (.lines g) := by
  rw [Store.lines, List.forall_mem_append, List.forall_mem_flatMap, List.forall_mem_flatMap] at h
  have hscopes : σ.scopes.map (·.map (·.relabel (.lines f))) = σ.scopes.map (·.map (·.relabel (.lines g))) :=
    Array.map_congr_left fun b hb ↦ Bindings.map_congr_lines Value.relabel_congr (h.1 b hb.val)
  have hobjects : σ.objects.map (·.relabel (.lines f)) = σ.objects.map (·.relabel (.lines g)) :=
    Array.map_congr_left fun o ho ↦ o.relabel_congr (h.2 o ho.val)
  unfold Store.relabel
  rw [hscopes, hobjects]

end

end Lox
