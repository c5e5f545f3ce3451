import Lox.Proofs.Loop.Simulation
import Lox.Proofs.Session.Heap
import Lox.Proofs.Skip.Reflexive

namespace Lox

namespace Machine.Through

variable {P : Machine → Prop} {m m' : Machine}

theorem split (h : Through P m m') (n : Nat) :
    (∃ m₁, m.after n = some m₁ ∧ P m₁) ∨ ∃ k ≤ n, m.after n = m'.after k := by
  induction h generalizing n with
  | refl m => exact .inr ⟨n, Nat.le_refl n, rfl⟩
  | @head m m₁ m' hP hs _ ih =>
    cases n with
    | zero => exact .inl ⟨m, rfl, hP⟩
    | succ n =>
      rw [after, hs, Option.bind_some]
      obtain h | ⟨k, hk, heq⟩ := ih n
      · exact .inl h
      · exact .inr ⟨k, Nat.le_succ_of_le hk, heq⟩

theorem after_add (h : Through P m m') : ∃ k, ∀ n, m.after (k + n) = m'.after n := by
  induction h with
  | refl m => exact ⟨0, fun n ↦ by rw [Nat.zero_add]⟩
  | head _ hs _ ih =>
    obtain ⟨k, hk⟩ := ih
    refine ⟨k + 1, fun n ↦ ?_⟩
    rw [Nat.add_right_comm, after, hs, Option.bind_some, hk]

end Machine.Through

namespace Skip

variable {D : Distances} {B : Bottom} {L : Link} {m m' : Machine}

theorem MachineLinked.state (h : MachineLinked D B L m m') : StateLinked D L m.state m'.state := by
  cases h with
  | eval _ h | exec _ h | value _ h | done _ h | fault _ h | act _ _ h => exact h.scene.toStateLinked

theorem StackLinked.ne_nil {g : Gap} {env env' : Env} {k k' : Stack}
    (h : StackLinked D L B g env env' k k') (hB : B.below ≠ []) : k ≠ [] := by
  cases h with
  | nil _ _ hk => exact hk ▸ hB
  | frame _ _ => exact List.cons_ne_nil _ _
  | block _ _ _ => exact List.cons_ne_nil _ _

theorem MachineLinked.outcome?_eq_none (h : MachineLinked D B L m m') (hB : B.below ≠ []) :
    m.outcome? = none := by
  cases h with
  | eval _ h | exec _ h | value _ h | done _ h | fault _ h | act _ _ h =>
    exact Machine.outcome?_of_stack (h.stack.ne_nil hB)

end Skip

namespace ForLoop

open Skip Machine

/-- The effects are the same so far, and so is the outcome, if there is one yet. -/
structure AgreesBy (D : Distances) (L : Link) (m : Machine) (p : Progress) : Prop where
  state : StateLinked D L m.state p.state
  outcome : Option.Rel (ResultLinked D L) m.outcome? p.outcome?
  env : p.outcome? ≠ none → m.state.env = p.state.env

/-- A moment of one run and a moment of another, seen from scopes that both had from the start. -/
def Agree (D : Distances) (L₀ : Link) (m : Machine) (p : Progress) : Prop :=
  ∃ L, L₀.Le L ∧ AgreesBy D L m p

section

variable {D : Distances} {L₀ : Link} {l : ForLoop} {a : Activation} {m : Machine} {p : Progress}

theorem Simulates.agree (h : Simulates D L₀ l a m p) : Agree D L₀ m p := by
  cases h with
  | running c hL _ _ _ h =>
    refine ⟨_, hL.le, h.state, ?_, fun hp ↦ absurd rfl hp⟩
    rw [h.outcome?_eq_none (l.below_ne_nil a.outer a.inner c)]
    exact .none
  | ended hL hm hr hs henv =>
    refine ⟨_, hL.le, hs, ?_, fun _ ↦ henv.1.trans henv.2.symm⟩
    rw [hm]
    exact .some hr

theorem Between.agree (h : Between D L₀ p.state m) (hp : p.outcome? = none) : Agree D L₀ m p := by
  obtain ⟨hm, L, hL, hs⟩ := h
  refine ⟨L, hL, hs, ?_, fun hne ↦ absurd hp hne⟩
  rw [hm, hp]
  exact .none

theorem Activation.outcome?_of_next {p' : Progress} (h : a.next p = some p') : p.outcome? = none := by
  cases p with
  | running => rfl
  | ended => cases h

namespace Setting

variable (h : Setting D l a)
include h

theorem forward (hp : Simulates D L₀ l a m p) (n : Nat) :
    ∃ n', Option.Rel (Agree D L₀) (m.after n) (a.after n' p) := by
  induction n using Nat.strongRecOn generalizing m p with
  | ind n ih =>
    cases n with
    | zero => exact ⟨0, .some hp.agree⟩
    | succ n =>
      have hnext := h.next_linked hp
      rw [Machine.after]
      generalize m.step = o at hnext ⊢
      cases hp' : a.next p with
      | none =>
        rw [hp'] at hnext
        cases hnext
        refine ⟨1, ?_⟩
        rw [Activation.after, hp']
        exact .none
      | some p₁ =>
        rw [hp'] at hnext
        cases hnext with
        | some hleads =>
          obtain ⟨m₂, ht, hp₁⟩ := hleads
          obtain ⟨m', hm', hb⟩ | ⟨k, hk, heq⟩ := ht.split n
          · refine ⟨0, ?_⟩
            rw [Option.bind_some, hm']
            exact .some (hb.agree (Activation.outcome?_of_next hp'))
          · obtain ⟨n', hn'⟩ := ih k (Nat.lt_succ_of_le hk) hp₁
            refine ⟨n' + 1, ?_⟩
            rw [Option.bind_some, heq, Activation.after, hp', Option.bind_some]
            exact hn'

theorem backward (hp : Simulates D L₀ l a m p) (n' : Nat) :
    ∃ n, Option.Rel (Simulates D L₀ l a) (m.after n) (a.after n' p) := by
  induction n' generalizing m p with
  | zero => exact ⟨0, .some hp⟩
  | succ n' ih =>
    have hnext := h.next_linked hp
    rw [Activation.after]
    generalize a.next p = o at hnext ⊢
    cases hm : m.step with
    | none =>
      rw [hm] at hnext
      cases hnext
      refine ⟨1, ?_⟩
      rw [Machine.after, hm]
      exact .none
    | some m₁ =>
      rw [hm] at hnext
      cases hnext with
      | some hleads =>
        obtain ⟨m₂, ht, hp₁⟩ := hleads
        obtain ⟨k, hk⟩ := ht.after_add
        obtain ⟨n, hn⟩ := ih hp₁
        refine ⟨k + n + 1, ?_⟩
        rw [Machine.after, hm, Option.bind_some, hk]
        exact hn

end Setting

end

section

variable {D : Distances} {l l' : ForLoop} {i : Interpreter} (hs : StateLinked D (.self i.store.scopes.size) i i)
  (henv : List.Forall₂ (Link.self i.store.scopes.size).rel i.env.chain i.env.chain)
include hs henv

theorem leads_start_test (h : Setting D l (l'.activation i)) (hl : l.first = none) (hl' : l'.first = none) :
    Leads D (.self i.store.scopes.size) l (l'.activation i) (l'.start i).state ⟨.exec l.tree, [], i⟩
      (l'.start i) := by
  have hinner := inner_activation_of_none hl' i
  have hbelow : l.below i.env i.env .test = [.test l.condition l.round] := by
    simp only [below, around, hl]
  have hrun (c : Clause) (control : Control) : ((l'.activation i).run c control i).state = i := by
    rw [Activation.run, hinner]
    rfl
  have hstate : ((l'.activation i).test i).state = i := by
    rw [Activation.test]
    split
    · exact hrun _ _
    · exact hrun _ _
  have hleads := h.leads_test (i := i) ⟨.refl _, hinner ▸ henv⟩ hs hinner.symm
  change Leads _ _ _ _ _ ⟨_, l.below i.env (l'.activation i).inner .test, i⟩ _ at hleads
  rw [hinner, hbelow] at hleads
  have hstart : l'.start i = (l'.activation i).test i := by simp only [start, hl']
  rw [hstart, hstate, tree_of_none hl]
  exact .head rfl (.refl _) hs rfl hleads

theorem leads_start_first {s s' : Stmt} (hl : l.first = some s) (hl' : l'.first = some s')
    (hss : StmtLinked D .nowhere s s') :
    Leads D (.self i.store.scopes.size) l (l'.activation i) (l'.start i).state ⟨.exec l.tree, [], i⟩
      (l'.start i) := by
  let L := Link.self i.store.scopes.size
  let inner := i.env.enclose i.store.nextScope
  let entered : Interpreter := { i with store := i.store.addScope .empty, env := inner }
  have hinner : (l'.activation i).inner = inner := by simp only [activation, hl', inner]
  have hstart : l'.start i = (l'.activation i).run .first (.exec s') entered := by
    simp only [start, hl', Activation.run, entered]
  have hstate : (l'.start i).state = entered := by
    rw [hstart, Activation.run, hinner]
    rfl
  have hentered : StateLinked D L.add entered entered :=
    (hs.withStore L.le_add (hs.store.addScope fun _ ↦ .none)).withEnv inner inner
  have hkeeps : Keeps L (l'.activation i) L.add := by
    refine ⟨L.le_add, ?_⟩
    rw [hinner]
    exact .cons L.add_rel (henv.imp fun _ _ ↦ L.le_add.rel)
  have hclause : l.first ≠ none := by simp [hl]
  rw [hstate, hstart, tree_of_some hl]
  refine .head rfl L.le_addRight (hs.addRight.withEnv i.env inner) rfl ?_
  refine .head rfl L.le_add hentered rfl ?_
  exact (simulates_run .first hkeeps (fun _ ↦ hclause) (.same hkeeps.inner) (fun _ ↦ rfl) hentered
    hinner.symm fun hr ↦ .exec hss hr).leads

theorem leads_start (h : Setting D l (l'.activation i)) : Leads D (.self i.store.scopes.size) l (l'.activation i) (l'.start i).state
    ⟨.exec l.tree, [], i⟩ (l'.start i) := by
  have hfirst : Option.Rel (StmtLinked D .nowhere) l.first l'.first := h.clauses.first
  cases hl : l.first <;> cases hl' : l'.first <;> rw [hl, hl'] at hfirst <;> cases hfirst
  · exact leads_start_test hs henv h hl hl'
  · next hss => exact leads_start_first hs henv hl hl' hss

end

theorem outcome?_start (l : ForLoop) (i : Interpreter) : (l.start i).outcome? = none := by
  rw [start]
  split
  · rfl
  · rw [Activation.test]
    split
    · rfl
    · rfl

/-- The ends of two runs, seen from scopes that both had from the start: the same outcome, printed text,
clock and depth, the same in all scopes and objects, and the same environment. -/
def SameEnd (D : Distances) (L₀ : Link) (r : Except Fault Flow) (j : Interpreter) (r' : Except Fault Flow)
    (j' : Interpreter) : Prop :=
  ∃ L, L₀.Le L ∧ ResultLinked D L r r' ∧ StateLinked D L j j' ∧ j.env = j'.env

section

variable {D : Distances} {L₀ : Link} {l : ForLoop} {a : Activation} {m : Machine} {p : Progress}

theorem Agree.sameEnd {r : Except Fault Flow} (h : Agree D L₀ m p) (hm : m.outcome? = some r) :
    ∃ r' j, p = .ended r' j ∧ SameEnd D L₀ r m.state r' j := by
  obtain ⟨L, hL, hagrees⟩ := h
  have hr := hagrees.outcome
  rw [hm] at hr
  cases p with
  | running => cases hr
  | ended r' j =>
    cases hr with
    | some hr => exact ⟨r', j, rfl, L, hL, hr, hagrees.state, hagrees.env (by simp [Progress.outcome?])⟩

theorem Agree.exists_outcome {r' : Except Fault Flow} {j : Interpreter} (h : Agree D L₀ m (.ended r' j)) :
    ∃ r, m.outcome? = some r ∧ SameEnd D L₀ r m.state r' j := by
  obtain ⟨L, hL, hagrees⟩ := h
  have hr := hagrees.outcome
  cases hm : m.outcome? with
  | none =>
    rw [hm] at hr
    cases hr
  | some r =>
    rw [hm] at hr
    cases hr with
    | some hr => exact ⟨r, rfl, L, hL, hr, hagrees.state, hagrees.env (by simp [Progress.outcome?])⟩

variable (h : Setting D l a) (hp : Leads D L₀ l a p.state m p) (hout : p.outcome? = none)
include h hp

theorem Leads.backward (n' : Nat) : ∃ n, Option.Rel (Agree D L₀) (m.after n) (a.after n' p) := by
  obtain ⟨m', ht, hp⟩ := hp
  obtain ⟨k, hk⟩ := ht.after_add
  obtain ⟨n, hn⟩ := h.backward hp n'
  refine ⟨k + n, ?_⟩
  rw [hk]
  exact rel_imp hn fun _ _ ↦ Simulates.agree

include hout

theorem Leads.forward (n : Nat) : ∃ n', Option.Rel (Agree D L₀) (m.after n) (a.after n' p) := by
  obtain ⟨m', ht, hp⟩ := hp
  obtain ⟨m₁, hm₁, hb⟩ | ⟨k, -, heq⟩ := ht.split n
  · refine ⟨0, ?_⟩
    rw [hm₁]
    exact .some (hb.agree hout)
  · rw [heq]
    exact h.forward hp k

end

end ForLoop

namespace Interpreter

open Machine

theorem exists_after_of_execute {i j : Interpreter} {fuel : Nat} {s : Stmt} {r : Except Fault Flow}
    (h : i.execute fuel s = some (r, j)) :
    ∃ n m, Machine.after n ⟨.exec s, [], i⟩ = some m ∧ m.outcome? = some r ∧ m.state = j := by
  obtain ⟨m, hrun, hm⟩ := Option.bind_eq_some_iff.1 h
  obtain ⟨hsteps, hf⟩ := steps_of_run hrun
  obtain ⟨n, hn⟩ := hsteps.exists_after
  refine ⟨n, m, hn, ?_, flowOf_state hm⟩
  obtain ⟨c, k, i'⟩ := m
  cases k with
  | cons => cases c <;> cases hf
  | nil => cases c <;> cases hm <;> rfl

theorem execute_of_after {i : Interpreter} {n : Nat} {s : Stmt} {m : Machine} {r : Except Fault Flow}
    (hn : Machine.after n ⟨.exec s, [], i⟩ = some m) (hm : m.outcome? = some r) :
    ∃ fuel, i.execute fuel s = some (r, m.state) := by
  have hf : m.isFinal = true ∧ flowOf m = some (r, m.state) := by
    obtain ⟨c, k, i'⟩ := m
    cases k with
    | cons => cases c <;> cases hm
    | nil => cases c <;> cases hm <;> exact ⟨rfl, rfl⟩
  obtain ⟨fuel, hrun⟩ := (steps_of_after hn).run (run_of_isFinal hf.1)
  exact ⟨fuel, by rw [execute, hrun, Option.bind_some, hf.2]⟩

end Interpreter

namespace ForLoop

open Skip

/-- To execute the tree is to run the clauses round by round: one ends if and only if the other does, with
the same result, and at every moment what one has done by then is what the other has done at some moment. -/
structure TreeRuns (l l' : ForLoop) (i : Interpreter) : Prop where
  ends : ∀ fuel r j, i.execute fuel l.tree = some (r, j) → ∃ n r' j',
    (l'.activation i).after n (l'.start i) = some (.ended r' j') ∧
      SameEnd i.distances (.self i.store.scopes.size) r j r' j'
  ended : ∀ n r' j', (l'.activation i).after n (l'.start i) = some (.ended r' j') → ∃ fuel r j,
    i.execute fuel l.tree = some (r, j) ∧ SameEnd i.distances (.self i.store.scopes.size) r j r' j'
  forward : ∀ n, ∃ n', Option.Rel (Agree i.distances (.self i.store.scopes.size))
    (Machine.after n ⟨.exec l.tree, [], i⟩) ((l'.activation i).after n' (l'.start i))
  backward : ∀ n', ∃ n, Option.Rel (Agree i.distances (.self i.store.scopes.size))
    (Machine.after n ⟨.exec l.tree, [], i⟩) ((l'.activation i).after n' (l'.start i))

theorem Setting.treeRuns {l l' : ForLoop} {i : Interpreter} (h : Setting i.distances l (l'.activation i))
    (hs : StateLinked i.distances (.self i.store.scopes.size) i i)
    (henv : List.Forall₂ (Link.self i.store.scopes.size).rel i.env.chain i.env.chain) : l.TreeRuns l' i := by
  have hleads := leads_start hs henv h
  have hforward := hleads.forward h (l'.outcome?_start i)
  have hbackward := hleads.backward h
  refine ⟨fun fuel r j hr ↦ ?_, fun n r' j' hend ↦ ?_, hforward, hbackward⟩
  · obtain ⟨n, m, hn, hm, rfl⟩ := Interpreter.exists_after_of_execute hr
    obtain ⟨n', hrel⟩ := hforward n
    rw [hn] at hrel
    generalize hend : (l'.activation i).after n' (l'.start i) = o at hrel
    cases hrel with
    | some hagree =>
      obtain ⟨r', j', rfl, hsame⟩ := hagree.sameEnd hm
      exact ⟨n', r', j', hend, hsame⟩
  · obtain ⟨n', hrel⟩ := hbackward n
    rw [hend] at hrel
    generalize hm : Machine.after n' ⟨.exec l.tree, [], i⟩ = o at hrel
    cases hrel with
    | some hagree =>
      obtain ⟨r, hr, hsame⟩ := hagree.exists_outcome
      obtain ⟨fuel, hexec⟩ := Interpreter.execute_of_after hm hr
      exact ⟨fuel, r, _, hexec, hsame⟩

end ForLoop

namespace Skip

open Scope

theorem Recorded.congr {D D' : Distances} {v : Visit} (h : Recorded D v)
    (hD : ∀ ref ∈ v.node.refs, D'.find? ref.id = D.find? ref.id) : Recorded D' v :=
  ⟨h.distinct, fun ref href ↦ (hD ref href).trans (h.entries ref href)⟩

end Skip

namespace ForLoop.Parsed

open Skip Scope

variable {n : Nat} {s s' : Parse.State} {l : ForLoop} {program : List Stmt} {d D : Distances} {k : Context}
  {w : Walk}

/-- The clauses as they stand in a program, and as they are resolved on their own. -/
theorem clausesLinked (h : l.Parsed n s s') (hp : Stmt.AllOf proper program)
    (hv : Visits program d ⟨k, .stmt l.tree, w⟩) (hw : (stmt k l.tree w).errors.size = 0)
    (hD : ∀ ref ∈ l.refs ++ (l.copy s'.nextId).refs,
      D.find? ref.id = (l.resolve s'.nextId k w).distances.find? ref.id) :
    ClausesLinked D l (l.copy s'.nextId) := by
  rw [List.forall_mem_append] at hD
  have htree : Recorded D ⟨k, .stmt l.tree, w⟩ :=
    (h.recorded_tree k w).congr fun ref href ↦ hD.1 ref (l.perm_refs_tree.mem_iff.2 href)
  have hcopy : Recorded D ⟨k, (l.copy s'.nextId).node, stmt k l.tree w⟩ := by
    refine (h.recorded_copy k w).congr fun ref href ↦ hD.2 ref ?_
    rwa [← refs_node]
  exact ForLoop.clausesLinked _ (hv.settles hp) (h.scopes_tree k w) h.numbered_and_proper.2
    ⟨htree, hv.all hp, hv.nested hp, hw⟩ hcopy

/-- The tree of a `for` means what the `for` says. Take one that the parser reads anywhere in a program,
and an interpreter that knows the distances of its names: those found in the tree, and under other ids
those found in the clauses themselves, where each is resolved in the scope of the loop. The clauses have
errors if and only if the tree has some, and without errors the tree does what they do. -/
theorem tree_means_loop (h : l.Parsed n s s') (hp : Stmt.AllOf proper program)
    (hv : Visits program d ⟨k, .stmt l.tree, w⟩) {i : Interpreter} {G : Layout} (hi : i.In G)
    (hu : ∀ f ∈ i.hosts, Uniform i.distances f)
    (hD : ∀ ref ∈ l.refs ++ (l.copy s'.nextId).refs,
      i.distances.find? ref.id = (l.resolve s'.nextId k w).distances.find? ref.id) :
    Parse.forStatement n (Parse.statement n) l.line s = .ok l.tree s' ∧
    (Quiet w (stmt k l.tree w) ↔ Quiet (stmt k l.tree w) (l.resolve s'.nextId k w)) ∧
    ((stmt k l.tree w).errors.size = 0 → l.TreeRuns (l.copy s'.nextId) i) := by
  refine ⟨?_, ?_, fun hw ↦ ?_⟩
  · rw [Parse.forStatement_eq, Parse.Rule.map_apply, h.reads]
  · exact quiet_node_iff _ (hv.settles hp) (h.scopes_tree k w) h.numbered_and_proper.2
  · have hset : Setting i.distances l ((l.copy s'.nextId).activation i) := by
      refine ⟨h.clausesLinked hp hv hw hD, fun hfirst ↦ inner_activation_of_none ?_ i⟩
      rw [copy, relabel, hfirst]
      rfl
    exact hset.treeRuns (.self hi hu) (chain_self hi.valid hi.env)

end ForLoop.Parsed

def Parse.Reply.ok? {α : Type} : Parse.Reply α → Option (α × Parse.State)
  | .ok a s => some (a, s)
  | .fail _ _ => none

theorem Parse.Reply.eq_ok_of_ok? {α : Type} {r : Parse.Reply α} {a : α} {s : Parse.State}
    (h : r.ok? = some (a, s)) : r = .ok a s := by
  cases r <;> cases h
  rfl

theorem ForLoop.captured_variable_means_loop : ∃ n s s' l i, ForLoop.Parsed n s s' l ∧
    (l.first.isSome ∧ l.test.isSome ∧ l.step.isSome) ∧ l.TreeRuns (l.copy s'.nextId) i ∧
    ∃ m r j, ((l.copy s'.nextId).activation i).after m ((l.copy s'.nextId).start i) = some (.ended r j) ∧
      j.sink.output = "true\n" := by
  let s := Parse.State.ofTokens (Token.tokensOf
    (Token.scan "(var a = true; a; a = false) \x7b fun f() \x7b return a; \x7d print f(); \x7d")) 0
  let w : Scope.Walk := ⟨[], #[], .empty⟩
  let i (l : ForLoop) (s' : Parse.State) : Interpreter :=
    { Interpreter.new .unbounded .ticking with distances := (l.resolve s'.nextId Scope.topLevel w).distances }
  have hcheck : (Parse.forClauses 40 (Parse.statement 40) 1 s).ok?.any (fun r ↦
      r.1.line == 1 && r.1.first.isSome && r.1.test.isSome && r.1.step.isSome && r.2.errors.size == 0 &&
        (Scope.stmt Scope.topLevel r.1.tree w).errors.size == 0 &&
        ((i r.1 r.2).execute 60 r.1.tree).any (·.2.sink.output == "true\n")) = true := by
    decide +kernel
  obtain ⟨⟨l, s'⟩, hl, hcheck⟩ := (Option.any_eq_true _ _).1 hcheck
  simp only [Bool.and_eq_true, beq_iff_eq] at hcheck
  obtain ⟨⟨⟨⟨⟨⟨hline, hfirst⟩, htest⟩, hstep⟩, hquiet⟩, herrors⟩, hrun⟩ := hcheck
  obtain ⟨⟨r, j⟩, hexec, houtput⟩ := (Option.any_eq_true _ _).1 hrun
  have hparsed : ForLoop.Parsed 40 s s' l := by
    refine ⟨?_, hquiet, Parse.endOf_kind _, fun t ht ↦ Session.beforeEof_genuine ht⟩
    rw [hline]
    exact Parse.Reply.eq_ok_of_ok? hl
  have hproper : Stmt.AllOf proper [l.tree] := ⟨hparsed.numbered_and_proper.2.tree.1, trivial⟩
  obtain ⟨G, hnew⟩ := Machine.new_in .unbounded .ticking
  have hi : (i l s').In G := ⟨hnew.state.valid, hnew.state.env, hnew.state.hosts⟩
  have hu : ∀ f ∈ (i l s').hosts, Skip.Uniform (i l s').distances f := by
    intro f hf
    obtain rfl : f = HostFunction.clock := by simpa [i, Interpreter.new, Interpreter.defineNative] using hf
    exact Skip.uniform_clock _
  obtain ⟨-, -, hmeans⟩ := hparsed.tree_means_loop hproper (.part .program .headStmt) hi hu fun _ _ ↦ rfl
  have hruns := hmeans herrors
  obtain ⟨m, r', j', hend, L, -, -, hstate, -⟩ := hruns.ends 60 r j hexec
  refine ⟨40, s, s', l, i l s', hparsed, ⟨hfirst, htest, hstep⟩, hruns, m, r', j', hend, ?_⟩
  rw [hstate.sink]
  exact eq_of_beq houtput

end Lox
