import Lox.Machine.Stock
import Lox.Proofs.Heap.Step
import Lox.Proofs.Session.Dispatch

namespace Lox

/-- A chain of scopes that a program could still come upon. -/
inductive Machine.HasEnv (m : Machine) : Env → Prop
  | current : HasEnv m m.state.env
  | saved {rest : List Stmt} {env : Env} (h : .block rest env ∈ m.stack) : HasEnv m env
  | function {c : Closure} (h : m.HasFunction c) : HasEnv m c.env
  | method {d : Class} {x : String} {c : Closure} (hd : m.HasClass d) (h : d.methods.find? x = some c) :
      HasEnv m c.env

/-- Chains of scopes end in the globals and those of superclasses in a class without one, and neither
comes back to where it has been. No search along them goes on for longer than there are scopes or
classes. -/
structure Machine.WellFormed (m : Machine) : Prop where
  scopes : ∀ env, m.HasEnv env → env.chain.Nodup ∧ env.chain.getLast? = some m.state.globals ∧
    env.chain.length ≤ m.state.store.scopes.size
  classes : ∀ c, m.HasClass c → (c.lineage.map Class.id).Nodup ∧
    c.lineage.length ≤ m.state.store.nextIdentity

/-- What is the same at a later moment: the globals, the scopes around a scope and the names bound in it,
the superclass and the methods of a class, and the class of an object. -/
structure Machine.Kept (m m' : Machine) : Prop where
  globals : m'.state.globals = m.state.globals
  outer : ∀ env env', m.HasEnv env → m'.HasEnv env' → ∀ id outer outer',
    id :: outer <:+ env.chain → id :: outer' <:+ env'.chain → outer' = outer
  bound : ∀ id x, m.state.store.contains id x = true → m'.state.store.contains id x = true
  classes : ∀ c c', m.HasClass c → m'.HasClass c' → c'.id = c.id → c' = c
  objects : ∀ o ob, m.state.store.object? o = some ob →
    ∃ ob', m'.state.store.object? o = some ob' ∧ ob'.cls = ob.cls

def Interpreter.idle (i : Interpreter) : Machine := ⟨.done .normal, [], i⟩

theorem Interpreter.idle_accounts {i : Interpreter} (h : i.IsHome) : Machine.Accounts i .flow i.idle := by
  have hlimit : i.depth ≤ maxCallDepth := by
    rw [h.2]
    exact Nat.zero_le _
  exact ⟨⟨.flow, rfl⟩, rfl, rfl, hlimit, rfl, rfl, .refl _⟩

/-- The moments of an interpreter that follow a given one: sources are run on it one after the other, and
functions of the host registered in between. -/
inductive Machine.Life (m : Machine) : Machine → Prop
  | refl : Life m m
  | register {i : Interpreter} (h : Life m i.idle) (name : String) (arity : Nat) {f : HostFunction}
      (hf : f.Honest) : Life m (i.defineNative name arity f).idle
  | reject {s s' : Session} {source : String} {ds : List Diagnostic} (h : Life m s.interpreter.idle)
      (hp : s.prepare source = (.error ds, s')) : Life m s'.interpreter.idle
  | accept {s s' : Session} {source : String} {program : List Stmt} (h : Life m s.interpreter.idle)
      (hp : s.prepare source = (.ok program, s')) : Life m (s'.interpreter.start program)
  | step {m₁ m₂ : Machine} (h : Life m m₁) (hs : m₁.step = some m₂) : Life m m₂
  | conclude {m₁ : Machine} {ds : List Diagnostic} {i : Interpreter} (h : Life m m₁)
      (hf : m₁.isFinal = true) (hc : Interpreter.conclude m₁ = some (ds, i)) : Life m i.idle

namespace Machine

variable {m m₁ m₂ : Machine} {G : Layout}

theorem Life.steps (h : Life m m₁) (hs : Steps m₁ m₂) : Life m m₂ := by
  induction hs with
  | refl => exact h
  | step _ hs ih => exact .step ih hs

theorem Life.run {s s' : Session} (h : Life m s.interpreter.idle) {fuel : Nat} {source : String}
    {ds : List Diagnostic} (hr : s.run fuel source = some (ds, s')) : Life m s'.interpreter.idle := by
  unfold Session.run at hr
  split at hr
  · next hp =>
    cases hr
    exact .reject h hp
  · next hp =>
    split at hr
    · next hi =>
      cases hr
      obtain ⟨m₁, hrun, hc⟩ := Option.bind_eq_some_iff.1 hi
      obtain ⟨hsteps, hf⟩ := steps_of_run hrun
      exact .conclude ((Life.accept h hp).steps hsteps) hf hc
    · cases hr

theorem idle_in {i : Interpreter} (h : i.In G) : i.idle.In G := ⟨h, trivial, List.forall_mem_nil _⟩

/-- Along the life of an interpreter the heap grows and nothing else. -/
theorem Life.grows (h : Life m m₁) (hm : m.In G) : m₁.Grows (m.state.heap G) := by
  induction h with
  | refl => exact ⟨G, .refl _, hm⟩
  | @register i _ name arity f hf ih =>
    obtain ⟨G₁, hle, hi, -, -⟩ := ih
    let v := Value.callable (.native ⟨i.hosts.size, name, arity⟩)
    have hle' := (i.heap G₁).le_define i.globals name v
    have hhosts : ∀ g ∈ i.hosts.push f, g.Honest := by
      intro g hg
      obtain hg | rfl := Array.mem_push.1 hg
      · exact hi.hosts g hg
      · exact hf
    exact ⟨G₁, hle.trans hle', idle_in ⟨hi.valid.define i.globals name trivial, hi.env.mono hle', hhosts⟩⟩
  | reject _ hp ih =>
    obtain ⟨G₁, hle, hi, -, -⟩ := ih
    obtain ⟨D, hs'⟩ := Session.prepare_interpreter hp
    rw [hs']
    exact ⟨G₁, hle, idle_in ⟨hi.valid, hi.env, hi.hosts⟩⟩
  | accept _ hp ih =>
    obtain ⟨G₁, hle, hi, -, -⟩ := ih
    obtain ⟨D, hs'⟩ := Session.prepare_interpreter hp
    rw [hs']
    exact ⟨G₁, hle, ⟨hi.valid, hi.env, hi.hosts⟩, trivial, List.forall_mem_singleton.2 trivial⟩
  | step _ hs ih =>
    obtain ⟨G₁, hle, hm₁⟩ := ih
    exact (step_grows hm₁ hs).of_le hle
  | conclude _ _ hc ih =>
    obtain ⟨G₁, hle, hi, -, -⟩ := ih
    rcases Interpreter.conclude_state hc with rfl | rfl
    · exact ⟨G₁, hle, idle_in hi⟩
    · exact ⟨G₁, hle, idle_in ⟨hi.valid, hi.valid.hasEnv_globals, hi.hosts⟩⟩

theorem honest_clock : HostFunction.clock.Honest := fun _ ↦ .time fun _ ↦ .done (.inl trivial)

theorem new_in (sink : Sink) (clock : Clock) : ∃ G, (Interpreter.new sink clock).idle.In G := by
  let bare : Interpreter :=
    { store := Store.empty.addScope .empty, globals := 0, env := ⟨0, []⟩, depth := 0
      distances := .empty, hosts := #[], clock := clock, sink := sink }
  let G : Layout := ⟨fun _ ↦ [], fun _ ↦ none⟩
  have hvalues : bare.store.All (bare.heap G).HasValue (bare.heap G).HasClass := .bare
  have hvalid : (bare.heap G).Valid := by
    refine ⟨Nat.zero_lt_one, rfl, fun id hid hne ↦ ?_, nofun, nofun, nofun, nofun, hvalues⟩
    exact absurd (Nat.lt_one_iff.1 hid) hne
  have hbare : bare.In G := ⟨hvalid, ⟨Nat.zero_lt_one, rfl⟩, nofun⟩
  obtain ⟨G, -, hnew⟩ := (Life.refl.register "clock" 0 honest_clock).grows (idle_in hbare)
  exact ⟨G, hnew⟩

section

variable (hm : m.In G)
include hm

theorem In.value {v : Value} (hv : m.Has v) : (m.state.heap G).HasValue v := by
  have hcontrol := hm.control
  cases hv with
  | scope hv => exact hm.state.valid.values.scopes _ _ v hv
  | field ho hv => exact hm.state.valid.values.fields _ _ ho _ v hv
  | outcome hc =>
    rw [hc] at hcontrol
    exact hcontrol
  | returned hc =>
    rw [hc] at hcontrol
    exact hcontrol
  | @frame frame _ hf hv =>
    have hframe := hm.stack frame hf
    cases frame with
    | binaryRight =>
      obtain rfl := List.mem_singleton.1 hv
      exact hframe
    | argument =>
      obtain rfl | hv := List.mem_cons.1 hv
      · exact hframe.1
      · exact hframe.2 v hv
    | _ => cases hv

theorem In.cls {c : Class} (hc : m.HasClass c) : (m.state.heap G).HasClass c := by
  have hlineage {d : Class} (hd : (m.state.heap G).HasClass d) (hc : c ∈ d.lineage) :=
    ((hm.state.valid.lineage hd).2 c hc).1
  obtain ⟨d, hd, hv | ⟨o, ob, ho, rfl⟩⟩ := hc
  · exact hlineage (hm.value hv) hd
  · exact hlineage (hm.state.valid.values.classes o ob ho) hd

theorem In.env {env : Env} (henv : m.HasEnv env) : (m.state.heap G).HasEnv env := by
  cases henv with
  | current => exact hm.state.env
  | saved hf => exact hm.stack _ hf
  | function hc =>
    obtain ⟨id, hv⟩ | hf := hc
    · exact hm.value hv
    · exact hm.stack _ hf
  | method hd hx => exact hm.state.valid.methods _ _ _ _ (hm.cls hd) hx

theorem In.chain {env : Env} (henv : m.HasEnv env) : (m.state.heap G).Chain env.chain := by
  obtain ⟨hinner, houter⟩ := hm.env henv
  rw [Env.chain, houter]
  exact hm.state.valid.chain env.inner hinner

theorem In.wellFormed : m.WellFormed := by
  refine ⟨fun env henv ↦ ?_, fun c hc ↦ ?_⟩
  · have hchain := hm.chain henv
    exact ⟨hchain.descending.imp Nat.ne_of_gt, hchain.last,
      Heap.length_le_of_descending hchain.descending hchain.valid⟩
  · have hclass := hm.cls hc
    obtain ⟨hdescending, hall⟩ := hm.state.valid.lineage hclass
    refine ⟨hdescending.imp Nat.ne_of_gt, ?_⟩
    rw [← List.length_map Class.id]
    refine Heap.length_le_of_descending hdescending (List.forall_mem_map.2 fun d hd ↦ ?_)
    exact (hm.state.valid.identity _ d (hall d hd).1).2

theorem In.kept {G' : Layout} (hm' : m₁.In G') (hle : (m.state.heap G).Le (m₁.state.heap G')) :
    m.Kept m₁ := by
  refine ⟨hle.globals, ?_, hle.store.bound, ?_, hle.objects⟩
  · intro env env' henv henv' id outer outer' hid hid'
    have hchain := hm.chain henv
    have hlt : id < m.state.store.scopes.size := hchain.valid id (hid.subset (List.mem_cons_self ..))
    rw [(hm'.chain henv').suffix id outer' hid', hle.outer id hlt, hchain.suffix id outer hid]
  · intro c c' hc hc' heq
    have hclass : (m₁.state.heap G').classes c.id = some c' := heq ▸ hm'.cls hc'
    exact Option.some.inj (hclass.symm.trans ((hm.cls hc).mono hle))

end

/-- The scope of the globals is there at all times. -/
theorem Life.globals_lt {sink : Sink} {clock : Clock} (h : Life (Interpreter.new sink clock).idle m) :
    m.state.globals < m.state.store.scopes.size := by
  obtain ⟨_, hnew⟩ := new_in sink clock
  obtain ⟨G, -, hm⟩ := h.grows hnew
  exact hm.state.valid.globals

/-- At every moment in the life of an interpreter its heap is well-formed, and stays what it is. -/
theorem Life.heap_wellFormed {sink : Sink} {clock : Clock} (h : Life (Interpreter.new sink clock).idle m)
    (h₁ : Life m m₁) : m.WellFormed ∧ m.Kept m₁ := by
  obtain ⟨_, hnew⟩ := new_in sink clock
  obtain ⟨G, -, hm⟩ := h.grows hnew
  obtain ⟨G₁, hle, hm₁⟩ := h₁.grows hm
  exact ⟨hm.wellFormed, hm.kept hm₁ hle⟩

end Machine

def Value.cls? : Value → Option Class
  | .callable (.cls c) => some c
  | _ => none

theorem Value.eq_of_cls? {v : Value} {c : Class} (h : v.cls? = some c) : v = .callable (.cls c) := by
  unfold Value.cls? at h
  split at h
  · cases h
    rfl
  · cases h

def Value.closure? : Value → Option Closure
  | .callable (.function _ c) => some c
  | _ => none

theorem Value.eq_of_closure? {v : Value} {c : Closure} (h : v.closure? = some c) :
    ∃ id, v = .callable (.function id c) := by
  unfold Value.closure? at h
  split at h
  · cases h
    exact ⟨_, rfl⟩
  · cases h

theorem Machine.honest_call0 (line : Nat) : (HostFunction.call0 line).Honest := by
  intro vs
  cases vs with
  | nil => exact .fail _
  | cons f vs =>
    cases f with
    | callable c =>
      refine .call (.inr (List.mem_cons_self ..)) (List.forall_mem_nil _) (fun v ↦ ?_) fun f ↦ .fail _
      exact .done (.inr (List.mem_cons_self ..))
    | _ => exact .fail _

/-- A class that takes the name of a superclass of its own, and a function that is bound in a scope which
it refers to. -/
theorem Machine.redeclared_class_wellFormed : ∃ s s' : Session,
    Life (Interpreter.new .unbounded .ticking).idle s.interpreter.idle ∧
    Life s.interpreter.idle s'.interpreter.idle ∧
    (∃ c, (s'.interpreter.store.read? 0 "A").bind Value.cls? = some c ∧
      c.lineage.map Class.name = ["A", "B", "A"]) ∧
    (∃ c, (s'.interpreter.store.read? 0 "f").bind Value.closure? = some c ∧ 0 ∈ c.env.chain) ∧
    s.interpreter.idle.WellFormed ∧ s.interpreter.idle.Kept s'.interpreter.idle := by
  let withCall0 (s : Session) : Session :=
    { s with interpreter := s.interpreter.defineNative "call0" 1 (HostFunction.call0 77) }
  let inherits (s : Session) : Bool := ((s.interpreter.store.read? 0 "A").bind Value.cls?).any
    (·.lineage.map Class.name == ["A", "B", "A"])
  let captures (s : Session) : Bool := ((s.interpreter.store.read? 0 "f").bind Value.closure?).any
    (·.env.chain.contains 0)
  have hruns : ((Session.new .unbounded .ticking).run 100
      "class A {} class B < A {} fun f() { return f; }").any (fun r ↦
        ((withCall0 r.2).run 100 "class A < B {} call0(f);").any fun r' ↦
          inherits r'.2 && captures r'.2) = true := by
    decide +kernel
  obtain ⟨⟨ds, s⟩, hs, hruns⟩ := (Option.any_eq_true _ _).1 hruns
  obtain ⟨⟨ds', s'⟩, hs', hboth⟩ := (Option.any_eq_true _ _).1 hruns
  obtain ⟨hinherits, hcaptures⟩ := Bool.and_eq_true_iff.1 hboth
  obtain ⟨c, hc, hlineage⟩ := (Option.any_eq_true _ _).1 hinherits
  obtain ⟨f, hf, hchain⟩ := (Option.any_eq_true _ _).1 hcaptures
  have hlife : Life (Interpreter.new .unbounded .ticking).idle s.interpreter.idle := Life.refl.run hs
  have hlater : Life s.interpreter.idle s'.interpreter.idle :=
    (Life.refl.register "call0" 1 (honest_call0 77)).run hs'
  refine ⟨s, s', hlife, hlater, ⟨c, hc, eq_of_beq hlineage⟩, ⟨f, hf, List.contains_iff_mem.1 hchain⟩, ?_⟩
  exact hlife.heap_wellFormed hlater

end Lox
