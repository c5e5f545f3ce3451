import Lox.Machine.Step
import Lox.Proofs.Store

namespace Lox

/-- A value that refers to nothing that a program has made. -/
def Value.IsData : Value → Prop
  | .nil | .bool _ | .number _ | .string _ | .callable (.native _) => True
  | .callable (.function _ _) | .callable (.cls _) | .object _ => False

theorem Value.isData_of_unary {op : Kind} {v u : Value} (h : v.unary op = .ok u) : u.IsData := by
  unfold unary at h
  split at h <;> cases h <;> trivial

theorem Value.isData_of_binary {op : Kind} {left right u : Value} (h : binary op left right = .ok u) :
    u.IsData := by
  unfold binary at h
  split at h
  · cases h
    trivial
  · cases h
    trivial
  · unfold plus at h
    split at h <;> cases h <;> trivial
  · split at h
    · unfold arithmetic at h
      split at h <;> cases h <;> trivial
    · cases h

theorem Store.read?_of_getAt? {σ : Store} {env : Env} {d : Nat} {x : String} {v : Value}
    (h : σ.getAt? env d x = some v) : ∃ id, σ.read? id x = some v := by
  obtain ⟨id, -, hv⟩ := Option.bind_eq_some_iff.1 h
  exact ⟨id, hv⟩

namespace Interpreter

variable {i : Interpreter} {ref : Ref}

theorem read?_of_lookup {v : Value} (h : i.lookup ref = .ok v) :
    ∃ id, i.store.read? id ref.name.lexeme = some v := by
  unfold lookup at h
  split at h
  · next hv =>
    cases h
    obtain ⟨id, -, hv⟩ := Option.bind_eq_some_iff.1 hv
    exact ⟨id, hv⟩
  · cases h

theorem contains_of_target? {id : ScopeId} (h : i.target? ref = some id) :
    i.store.contains id ref.name.lexeme = true := by
  unfold target? at h
  split at h
  · exact (Option.filter_eq_some_iff.1 h).2
  · exact (List.find?_eq_some_iff_append.1 h).1

end Interpreter

namespace Machine

/-- Under each name the table holds the last method declared with it. -/
theorem find?_methodTable_eq (ds : List FunctionDecl) (env : Env) (x : String) :
    (methodTable ds env).find? x =
      (ds.reverse.find? (·.name.lexeme == x)).map fun d ↦ ⟨d, env, d.name.lexeme == "init"⟩ := by
  have hfold (l : List FunctionDecl) (b : Bindings Closure) :
      (l.foldl (fun b d ↦ b.insert d.name.lexeme ⟨d, env, d.name.lexeme == "init"⟩) b).find? x =
        ((l.reverse.find? (·.name.lexeme == x)).map fun d ↦ ⟨d, env, d.name.lexeme == "init"⟩).or
          (b.find? x) := by
    induction l generalizing b with
    | nil => rfl
    | cons d l ih =>
      rw [List.foldl_cons, ih, List.reverse_cons, List.find?_append, Bindings.find?_insert]
      cases l.reverse.find? (·.name.lexeme == x) with
      | some d' => rfl
      | none =>
        by_cases hx : x = d.name.lexeme
        · simp [hx]
        · simp [hx, Ne.symm hx]
  rw [methodTable, hfold, Bindings.find?_empty, Option.or_none]

theorem find?_methodTable {ds : List FunctionDecl} {env : Env} {x : String} {m : Closure}
    (h : (methodTable ds env).find? x = some m) :
    ∃ d ∈ ds, m = ⟨d, env, d.name.lexeme == "init"⟩ := by
  rw [find?_methodTable_eq] at h
  obtain ⟨d, hd, rfl⟩ := Option.map_eq_some_iff.1 h
  exact ⟨d, List.mem_reverse.1 (List.mem_of_find?_eq_some hd), rfl⟩

theorem isInitializer_of_methodTable {ds : List FunctionDecl} {env : Env} {x : String} {m : Closure}
    (h : (methodTable ds env).find? x = some m) : m.isInitializer = (x == "init") := by
  rw [find?_methodTable_eq] at h
  obtain ⟨d, hd, rfl⟩ := Option.map_eq_some_iff.1 h
  have hname := List.find?_some hd
  obtain rfl : d.name.lexeme = x := eq_of_beq hname
  rfl

theorem find?_parameterScope {ts : List Token} {vs : List Value} {x : String} {v : Value}
    (h : (parameterScope ts vs).find? x = some v) : v ∈ vs := by
  have hfold (l : List (Token × Value)) (b : Bindings Value)
      (h : (l.foldl (fun b p ↦ b.insert p.1.lexeme p.2) b).find? x = some v) :
      b.find? x = some v ∨ v ∈ l.map Prod.snd := by
    induction l generalizing b with
    | nil => exact .inl h
    | cons p l ih =>
      obtain hb | hl := ih (b.insert p.1.lexeme p.2) h
      · rw [Bindings.find?_insert] at hb
        split at hb
        · cases hb
          exact .inr (List.mem_cons_self ..)
        · exact .inl hb
      · exact .inr (List.mem_cons_of_mem _ hl)
  obtain hb | hv := hfold (ts.zip vs) .empty h
  · cases hb
  · obtain ⟨p, hp, rfl⟩ := List.mem_map.1 hv
    exact (List.of_mem_zip hp).2

theorem find?_foldl_insert {l : List (Token × Value)} {x : String} (hl : ∀ p ∈ l, p.1.lexeme ≠ x)
    (b : Bindings Value) : (l.foldl (fun b p ↦ b.insert p.1.lexeme p.2) b).find? x = b.find? x := by
  induction l generalizing b with
  | nil => rfl
  | cons p l ih =>
    rw [List.forall_mem_cons] at hl
    rw [List.foldl_cons, ih hl.2, Bindings.find?_insert, if_neg hl.1.symm]

theorem find?_parameterScope_eq_none {ts : List Token} {vs : List Value} {x : String}
    (h : ∀ t ∈ ts, t.lexeme ≠ x) : (parameterScope ts vs).find? x = none :=
  find?_foldl_insert (fun p hp ↦ h p.1 (List.of_mem_zip hp).1) .empty

/-- Parameters with different names take the arguments in order. -/
theorem find?_parameterScope_eq {ts : List Token} {vs : List Value} (hd : (ts.map Token.lexeme).Nodup)
    (hl : vs.length = ts.length) {n : Nat} {t : Token} (ht : ts[n]? = some t) :
    (parameterScope ts vs).find? t.lexeme = vs[n]? := by
  have hfold (l : List (Token × Value)) (hd : (l.map (·.1.lexeme)).Nodup) (b : Bindings Value)
      (p : Token × Value) (hp : p ∈ l) :
      (l.foldl (fun b p ↦ b.insert p.1.lexeme p.2) b).find? p.1.lexeme = some p.2 := by
    induction l generalizing b with
    | nil => cases hp
    | cons q l ih =>
      obtain ⟨hq, hd⟩ := List.nodup_cons.1 hd
      obtain rfl | hp := List.mem_cons.1 hp
      · have hother : ∀ p' ∈ l, p'.1.lexeme ≠ p.1.lexeme := fun p' hp' heq ↦
          hq (List.mem_map.2 ⟨p', hp', heq⟩)
        rw [List.foldl_cons, find?_foldl_insert hother, Bindings.find?_insert, if_pos rfl]
      · exact ih hd _ hp
  obtain ⟨hn, rfl⟩ := List.getElem?_eq_some_iff.1 ht
  have hv : vs[n]? = some vs[n] := List.getElem?_eq_getElem (hl ▸ hn)
  have hnames : (ts.zip vs).map (·.1.lexeme) = ts.map Token.lexeme := by
    change (ts.zip vs).map (Token.lexeme ∘ Prod.fst) = _
    rw [← List.map_map, List.map_fst_zip (Nat.le_of_eq hl.symm)]
  have hmem : (ts[n], vs[n]) ∈ ts.zip vs := by
    have hlt : n < (ts.zip vs).length := by rw [List.length_zip, hl, Nat.min_self]; exact hn
    rw [← List.getElem_zip]
    exact List.getElem_mem hlt
  rw [hv]
  exact hfold _ (hnames ▸ hd) .empty _ hmem

theorem find?_thisScope {o : ObjectId} {x : String} {v : Value} (h : (thisScope o).find? x = some v) :
    v = .object o := by
  rw [thisScope, Bindings.find?_insert] at h
  split at h <;> cases h
  rfl

def superScope (c : Class) : Bindings Value := Bindings.empty.insert "super" (.callable (.cls c))

theorem find?_superScope {c : Class} {x : String} {v : Value} (h : (superScope c).find? x = some v) :
    v = .callable (.cls c) := by
  rw [superScope, Bindings.find?_insert] at h
  split at h <;> cases h
  rfl

end Machine

end Lox
