import Lox.Proofs.Dispatch.Basic

namespace Lox

/-- The scopes around each scope and the classes declared so far, by their ids. -/
structure Layout where
  outer : ScopeId → List ScopeId
  classes : Nat → Option Class

structure Heap extends Layout where
  store : Store
  globals : ScopeId

namespace Heap

/-- The innermost scope lies in just those scopes that it was made in. -/
def HasEnv (E : Heap) (env : Env) : Prop :=
  env.inner < E.store.scopes.size ∧ env.outer = E.outer env.inner

def HasClass (E : Heap) (c : Class) : Prop := E.classes c.id = some c

def HasValue (E : Heap) : Value → Prop
  | .callable (.function _ c) => E.HasEnv c.env
  | .callable (.cls c) => E.HasClass c
  | _ => True

/-- Scopes lie in older ones and at last in the globals, and classes inherit from older ones. -/
structure Valid (E : Heap) : Prop where
  globals : E.globals < E.store.scopes.size
  outermost : E.outer E.globals = []
  enclosed : ∀ id < E.store.scopes.size, id ≠ E.globals → ∃ p < id, E.outer id = p :: E.outer p
  identity : ∀ n c, E.classes n = some c → c.id = n ∧ n < E.store.nextIdentity
  superclass : ∀ n c s, E.classes n = some c → c.superclass = some s → s.id < n ∧ E.HasClass s
  methods : ∀ n c x m, E.classes n = some c → c.methods.find? x = some m → E.HasEnv m.env
  /-- Initializers are told by their name. -/
  marked : ∀ n c x m, E.classes n = some c → c.methods.find? x = some m → m.isInitializer = (x == "init")
  values : E.store.All E.HasValue E.HasClass

/-- A later heap: nothing of the layout changes, bindings stay, and objects keep their class. -/
structure Le (E E' : Heap) : Prop where
  store : E.store.Le E'.store
  globals : E'.globals = E.globals
  outer : ∀ id < E.store.scopes.size, E'.outer id = E.outer id
  classes : ∀ n c, E.classes n = some c → E'.classes n = some c
  objects : ∀ o ob, E.store.object? o = some ob → ∃ ob', E'.store.object? o = some ob' ∧ ob'.cls = ob.cls

section

variable {E E' E'' : Heap}

theorem Le.refl (E : Heap) : E.Le E :=
  ⟨.refl _, rfl, fun _ _ ↦ rfl, fun _ _ h ↦ h, fun _ ob h ↦ ⟨ob, h, rfl⟩⟩

theorem Le.trans (h : E.Le E') (h' : E'.Le E'') : E.Le E'' := by
  refine ⟨h.store.trans h'.store, h'.globals.trans h.globals, ?_, ?_, ?_⟩
  · intro id hid
    exact (h'.outer id (Nat.lt_of_lt_of_le hid h.store.size)).trans (h.outer id hid)
  · intro n c hc
    exact h'.classes n c (h.classes n c hc)
  · intro o ob ho
    obtain ⟨ob', ho', hc'⟩ := h.objects o ob ho
    obtain ⟨ob'', ho'', hc''⟩ := h'.objects o ob' ho'
    exact ⟨ob'', ho'', hc''.trans hc'⟩

theorem HasEnv.mono (h : E.Le E') {env : Env} (henv : E.HasEnv env) : E'.HasEnv env :=
  ⟨Nat.lt_of_lt_of_le henv.1 h.store.size, henv.2.trans (h.outer _ henv.1).symm⟩

theorem HasClass.mono (h : E.Le E') {c : Class} (hc : E.HasClass c) : E'.HasClass c := h.classes _ _ hc

theorem HasValue.mono (h : E.Le E') {v : Value} (hv : E.HasValue v) : E'.HasValue v := by
  cases v with
  | callable c =>
    cases c with
    | native => trivial
    | function => exact HasEnv.mono h hv
    | cls => exact HasClass.mono h hv
  | _ => trivial

theorem values_mono (h : E.Le E') {σ : Store} (hσ : σ.All E.HasValue E.HasClass) :
    σ.All E'.HasValue E'.HasClass := hσ.imp (fun _ ↦ HasValue.mono h) fun _ ↦ HasClass.mono h

end

section

variable (E : Heap)

def addScope (env : Env) (b : Bindings Value) : Heap :=
  { E with
    store := E.store.addScope b
    outer := fun id ↦ if id = E.store.nextScope then env.chain else E.outer id }

def addClass (c : Class) : Heap :=
  { E with
    store := E.store.freshIdentity
    classes := fun n ↦ if n = E.store.nextIdentity then some c else E.classes n }

def define (id : ScopeId) (x : String) (v : Value) : Heap := { E with store := E.store.define id x v }

def addObject (c : Class) : Heap := { E with store := E.store.addObject c }

def setField (o : ObjectId) (f : String) (v : Value) : Heap := { E with store := E.store.setField o f v }

def freshIdentity : Heap := { E with store := E.store.freshIdentity }

theorem le_addScope (env : Env) (b : Bindings Value) : E.Le (E.addScope env b) := by
  refine ⟨E.store.le_addScope b, rfl, fun id hid ↦ ?_, fun _ _ h ↦ h, fun _ ob h ↦ ⟨ob, h, rfl⟩⟩
  exact if_neg (Nat.ne_of_lt hid)

theorem le_define (id : ScopeId) (x : String) (v : Value) : E.Le (E.define id x v) :=
  ⟨E.store.le_define id x v, rfl, fun _ _ ↦ rfl, fun _ _ h ↦ h, fun _ ob h ↦ ⟨ob, h, rfl⟩⟩

theorem le_addObject (c : Class) : E.Le (E.addObject c) :=
  ⟨E.store.le_addObject c, rfl, fun _ _ ↦ rfl, fun _ _ h ↦ h, (Store.Preserves.addObject E.store c).cls⟩

theorem le_setField (o : ObjectId) (f : String) (v : Value) : E.Le (E.setField o f v) :=
  ⟨E.store.le_setField o f v, rfl, fun _ _ ↦ rfl, fun _ _ h ↦ h, (Store.Preserves.setField E.store o f v).cls⟩

theorem le_freshIdentity : E.Le E.freshIdentity :=
  ⟨E.store.le_freshIdentity, rfl, fun _ _ ↦ rfl, fun _ _ h ↦ h, fun _ ob h ↦ ⟨ob, h, rfl⟩⟩

end

namespace Valid

variable {E : Heap}

theorem le_addClass (h : E.Valid) (c : Class) : E.Le (E.addClass c) := by
  refine ⟨E.store.le_freshIdentity, rfl, fun _ _ ↦ rfl, fun n d hd ↦ ?_, fun _ ob h ↦ ⟨ob, h, rfl⟩⟩
  have hne : n ≠ E.store.nextIdentity := Nat.ne_of_lt (h.identity n d hd).2
  exact (if_neg hne).trans hd

theorem hasEnv_globals (h : E.Valid) : E.HasEnv ⟨E.globals, []⟩ := ⟨h.globals, h.outermost.symm⟩

theorem withStore (h : E.Valid) {σ : Store} (hE : E.Le { E with store := σ })
    (hid : E.store.nextIdentity ≤ σ.nextIdentity) (hsize : σ.scopes.size = E.store.scopes.size)
    (hσ : σ.All E.HasValue E.HasClass) : Valid { E with store := σ } := by
  refine ⟨?_, h.outermost, fun id hlt ↦ h.enclosed id (hsize ▸ hlt), fun n c hc ↦ ?_, h.superclass, ?_,
    h.marked, ?_⟩
  · exact Nat.lt_of_lt_of_le h.globals hE.store.size
  · exact ⟨(h.identity n c hc).1, Nat.lt_of_lt_of_le (h.identity n c hc).2 hid⟩
  · exact fun n c x m hc hm ↦ (h.methods n c x m hc hm).mono hE
  · exact values_mono hE hσ

theorem define (h : E.Valid) (id : ScopeId) (x : String) {v : Value} (hv : E.HasValue v) :
    (E.define id x v).Valid :=
  h.withStore (E.le_define id x v) (Nat.le_refl _) (E.store.size_define id x v) (h.values.define hv)

theorem addObject (h : E.Valid) {c : Class} (hc : E.HasClass c) : (E.addObject c).Valid :=
  h.withStore (E.le_addObject c) (Nat.le_refl _) rfl (h.values.addObject hc)

theorem setField (h : E.Valid) (o : ObjectId) (f : String) {v : Value} (hv : E.HasValue v) :
    (E.setField o f v).Valid :=
  h.withStore (E.le_setField o f v) (Nat.le_refl _) rfl (h.values.setField hv)

theorem freshIdentity (h : E.Valid) : E.freshIdentity.Valid :=
  h.withStore E.le_freshIdentity (Nat.le_succ _) rfl h.values.freshIdentity

theorem hasEnv_enclose (env : Env) (b : Bindings Value) :
    (E.addScope env b).HasEnv (env.enclose E.store.nextScope) := by
  refine ⟨?_, ?_⟩
  · exact Nat.lt_of_lt_of_eq (Nat.lt_succ_self _) (E.store.size_addScope b).symm
  · exact (if_pos rfl).symm

theorem addScope (h : E.Valid) {env : Env} (henv : E.HasEnv env) {b : Bindings Value}
    (hb : ∀ x v, b.find? x = some v → E.HasValue v) : (E.addScope env b).Valid := by
  have hle := E.le_addScope env b
  have hglobals : E.globals ≠ E.store.nextScope := Nat.ne_of_lt h.globals
  refine ⟨?_, ?_, fun id hid hne ↦ ?_, h.identity, h.superclass, ?_, h.marked, ?_⟩
  · exact Nat.lt_of_lt_of_le h.globals hle.store.size
  · exact (hle.outer _ h.globals).trans h.outermost
  · by_cases hnew : id = E.store.nextScope
    · refine ⟨env.inner, hnew ▸ henv.1, ?_⟩
      rw [hle.outer _ henv.1, ← henv.2]
      exact if_pos hnew
    · have hsize : id < E.store.scopes.size + 1 := Nat.lt_of_lt_of_eq hid (E.store.size_addScope b)
      have hold : id < E.store.scopes.size := Nat.lt_of_le_of_ne (Nat.le_of_lt_succ hsize) hnew
      obtain ⟨p, hp, hout⟩ := h.enclosed id hold hne
      refine ⟨p, hp, ?_⟩
      rw [hle.outer id hold, hle.outer p (Nat.lt_trans hp hold), hout]
  · exact fun n c x m hc hm ↦ (h.methods n c x m hc hm).mono hle
  · exact values_mono hle (h.values.addScope hb)

theorem addClass (h : E.Valid) {name : String} {superclass : Option Class} {methods : Bindings Closure}
    (hs : ∀ s, superclass = some s → E.HasClass s)
    (hm : ∀ x m, methods.find? x = some m → E.HasEnv m.env)
    (hinit : ∀ x m, methods.find? x = some m → m.isInitializer = (x == "init")) :
    (E.addClass (.mk E.store.nextIdentity name superclass methods)).Valid := by
  let new := Class.mk E.store.nextIdentity name superclass methods
  have hle := h.le_addClass new
  have hcases {n : Nat} {c : Class} (hc : (E.addClass new).classes n = some c) :
      n = E.store.nextIdentity ∧ c = .mk n name superclass methods ∨ E.classes n = some c := by
    unfold Heap.addClass at hc
    dsimp only at hc
    split at hc
    · next hn =>
      cases hc
      exact .inl ⟨hn, by rw [hn]⟩
    · exact .inr hc
  refine ⟨h.globals, h.outermost, h.enclosed, ?_, ?_, ?_, ?_, values_mono hle h.values.freshIdentity⟩
  · intro n c hc
    obtain ⟨rfl, rfl⟩ | hc := hcases hc
    · exact ⟨rfl, Nat.lt_succ_self _⟩
    · exact ⟨(h.identity n c hc).1, Nat.lt_succ_of_lt (h.identity n c hc).2⟩
  · intro n c s hc hsup
    obtain ⟨rfl, rfl⟩ | hc := hcases hc
    · have hclass := hs s hsup
      exact ⟨(h.identity _ s hclass).2, hclass.mono hle⟩
    · obtain ⟨hlt, hclass⟩ := h.superclass n c s hc hsup
      exact ⟨hlt, hclass.mono hle⟩
  · intro n c x m hc hx
    obtain ⟨rfl, rfl⟩ | hc := hcases hc
    · exact hm x m hx
    · exact h.methods n c x m hc hx
  · intro n c x m hc hx
    obtain ⟨rfl, rfl⟩ | hc := hcases hc
    · exact hinit x m hx
    · exact h.marked n c x m hc hx

theorem hasClass_addClass {c : Class} (hc : c.id = E.store.nextIdentity) : (E.addClass c).HasClass c :=
  if_pos hc

end Valid

/-- The chain of a scope leads from younger to older scopes, down to the globals, and the rest of it from
any scope on is the chain of that scope. -/
structure Chain (E : Heap) (ids : List ScopeId) : Prop where
  descending : ids.Pairwise (· > ·)
  last : ids.getLast? = some E.globals
  valid : ∀ id ∈ ids, id < E.store.scopes.size
  suffix : ∀ id outer, id :: outer <:+ ids → outer = E.outer id

theorem Chain.cons {E : Heap} {p id : ScopeId} {ids : List ScopeId} (h : E.Chain (p :: ids)) (hp : p < id)
    (hid : id < E.store.scopes.size) (hout : E.outer id = p :: ids) : E.Chain (id :: p :: ids) := by
  refine ⟨List.pairwise_cons.2 ⟨fun j hj ↦ ?_, h.descending⟩, ?_, List.forall_mem_cons.2 ⟨hid, h.valid⟩, ?_⟩
  · obtain rfl | hj := List.mem_cons.1 hj
    · exact hp
    · exact Nat.lt_trans (List.rel_of_pairwise_cons h.descending hj) hp
  · rw [List.getLast?_cons_cons, h.last]
  · intro j outer hj
    obtain heq | hj := List.suffix_cons_iff.1 hj
    · obtain ⟨rfl, rfl⟩ := List.cons.inj heq
      exact hout.symm
    · exact h.suffix j outer hj

theorem Valid.chain {E : Heap} (h : E.Valid) (id : ScopeId) (hid : id < E.store.scopes.size) :
    E.Chain (id :: E.outer id) := by
  induction id using Nat.strongRecOn with
  | ind id ih =>
    by_cases hg : id = E.globals
    · subst hg
      rw [h.outermost]
      refine ⟨List.pairwise_singleton .., rfl, List.forall_mem_singleton.2 hid, fun j outer hj ↦ ?_⟩
      obtain heq | hj := List.suffix_cons_iff.1 hj
      · obtain ⟨rfl, rfl⟩ := List.cons.inj heq
        exact h.outermost.symm
      · cases List.suffix_nil.1 hj
    · obtain ⟨p, hp, hout⟩ := h.enclosed id hid hg
      rw [hout]
      exact (ih p hp (Nat.lt_trans hp hid)).cons hp hid hout

theorem Valid.lineage {E : Heap} (h : E.Valid) {c : Class} (hc : E.HasClass c) :
    (c.lineage.map Class.id).Pairwise (· > ·) ∧ ∀ d ∈ c.lineage, E.HasClass d ∧ d.id ≤ c.id := by
  induction c using Class.lineage.induct with
  | case1 id name methods =>
    exact ⟨List.pairwise_singleton .., List.forall_mem_singleton.2 ⟨hc, Nat.le_refl _⟩⟩
  | case2 id name superclass methods ih =>
    obtain ⟨hlt, hsuper⟩ := h.superclass _ _ superclass hc rfl
    obtain ⟨hpairwise, hall⟩ := ih hsuper
    have hless : ∀ d ∈ superclass.lineage, d.id < id := fun d hd ↦ Nat.lt_of_le_of_lt (hall d hd).2 hlt
    refine ⟨List.pairwise_cons.2 ⟨List.forall_mem_map.2 hless, hpairwise⟩, List.forall_mem_cons.2 ⟨?_, ?_⟩⟩
    · exact ⟨hc, Nat.le_refl _⟩
    · exact fun d hd ↦ ⟨(hall d hd).1, Nat.le_of_lt (hless d hd)⟩

theorem length_le_of_descending {ids : List Nat} {n : Nat} (h : ids.Pairwise (· > ·))
    (hn : ∀ id ∈ ids, id < n) : ids.length ≤ n := by
  induction ids generalizing n with
  | nil => exact Nat.zero_le n
  | cons id ids ih =>
    obtain ⟨hid, h⟩ := List.pairwise_cons.1 h
    exact Nat.lt_of_le_of_lt (ih h hid) (hn id (List.mem_cons_self ..))

end Heap

end Lox
