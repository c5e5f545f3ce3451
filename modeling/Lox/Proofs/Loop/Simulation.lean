import Lox.Proofs.Loop.Resolved
import Lox.Proofs.Machine.Run
import Lox.Proofs.Skip.Lockstep

namespace Lox

namespace Machine

def outcome? : Machine → Option (Except Fault Flow)
  | ⟨.done flow, [], _⟩ => some (.ok flow)
  | ⟨.fault f, [], _⟩ => some (.error f)
  | _ => none

theorem outcome?_of_stack {c : Control} {k : Stack} {i : Interpreter} (h : k ≠ []) :
    outcome? ⟨c, k, i⟩ = none := by
  cases k with
  | nil => exact absurd rfl h
  | cons => cases c <;> rfl

theorem step_of_outcome? {m : Machine} {r : Except Fault Flow} (h : m.outcome? = some r) :
    m.step = none := by
  obtain ⟨c, k, i⟩ := m
  cases k with
  | nil => cases c <;> trivial
  | cons => cases c <;> cases h

end Machine

namespace ForLoop

open Skip Machine

def around (l : ForLoop) (outer : Env) : Stack :=
  match l.first with
  | some _ => [.block [] outer]
  | none => []

def rounds (l : ForLoop) (outer : Env) : Stack := .body l.condition l.round :: l.around outer

def below (l : ForLoop) (outer inner : Env) : Clause → Stack
  | .first => [.block [.loop l.condition l.round] outer]
  | .test => .test l.condition l.round :: l.around outer
  | .step => .discard :: .block [] inner :: l.rounds outer
  | .body =>
    match l.step with
    | some e => .block [.expr e] inner :: l.rounds outer
    | none => l.rounds outer

theorem below_ne_nil (l : ForLoop) (outer inner : Env) (c : Clause) : l.below outer inner c ≠ [] := by
  cases c with
  | body =>
    rw [below]
    split
    · exact List.cons_ne_nil _ _
    · exact List.cons_ne_nil _ _
  | _ => exact List.cons_ne_nil _ _

inductive ResultLinked (D : Distances) (L : Link) : Except Fault Flow → Except Fault Flow → Prop
  | ok {f f' : Flow} (h : FlowLinked D L f f') : ResultLinked D L (.ok f) (.ok f')
  | error (f : Fault) : ResultLinked D L (.error f) (.error f)

/-- A `for` with clauses that are linked to those of the tree. -/
structure Setting (D : Distances) (l : ForLoop) (a : Activation) : Prop where
  clauses : ClausesLinked D l a.loop
  outer : l.first = none → a.inner = a.outer

/-- The scopes in which the clauses run stand for themselves. -/
structure Keeps (L₀ : Link) (a : Activation) (L : Link) : Prop where
  le : L₀.Le L
  inner : List.Forall₂ L.rel a.inner.chain a.inner.chain

theorem Keeps.trans {L₀ L L' : Link} {a : Activation} (h : Keeps L₀ a L) (hL : L.Le L') :
    Keeps L₀ a L' := ⟨h.le.trans hL, h.inner.imp fun _ _ ↦ hL.rel⟩

section

variable (D : Distances) (L₀ : Link) (l : ForLoop) (a : Activation)

/-- The tree is where the `for` is. -/
inductive Simulates : Machine → Progress → Prop
  | running {L : Link} (c : Clause) {left : Env} {m m' : Machine} (hL : Keeps L₀ a L)
      (hc : c = .first → l.first ≠ none) (henv : EnvLinked L (l.gap c) left a.inner)
      (hleft : l.gap c = .nowhere → left = a.inner)
      (h : MachineLinked D ⟨left, a.inner, l.below a.outer a.inner c⟩ L m m') :
      Simulates m (.running c m')
  | ended {L : Link} {m : Machine} {r r' : Except Fault Flow} {j : Interpreter} (hL : Keeps L₀ a L)
      (hm : m.outcome? = some r) (hr : ResultLinked D L r r') (hs : StateLinked D L m.state j)
      (henv : m.state.env = a.outer ∧ j.env = a.outer) : Simulates m (.ended r' j)

def Between (j : Interpreter) (m : Machine) : Prop :=
  m.outcome? = none ∧ ∃ L, L₀.Le L ∧ StateLinked D L m.state j

/-- The tree comes to where the `for` is. -/
def Leads (j : Interpreter) (m : Machine) (p : Progress) : Prop :=
  ∃ m', Through (Between D L₀ j) m m' ∧ Simulates D L₀ l a m' p

end

section

variable {D : Distances} {L₀ L : Link} {l : ForLoop} {a : Activation} {i j : Interpreter}

theorem Simulates.leads {m : Machine} {p : Progress} (h : Simulates D L₀ l a m p) : Leads D L₀ l a j m p :=
  ⟨m, .refl m, h⟩

theorem Leads.head {c : Control} {k : Stack} (hk : outcome? ⟨c, k, i⟩ = none) (hL : L₀.Le L)
    (hs : StateLinked D L i j) {m : Machine} (hm : Machine.step ⟨c, k, i⟩ = some m) {p : Progress}
    (h : Leads D L₀ l a j m p) : Leads D L₀ l a j ⟨c, k, i⟩ p := by
  obtain ⟨m', ht, hp⟩ := h
  exact ⟨m', .head ⟨hk, L, hL, hs⟩ hm ht, hp⟩

theorem simulates_run (c : Clause) (hL : Keeps L₀ a L) (hc : c = .first → l.first ≠ none) {left : Env}
    (henv : EnvLinked L (l.gap c) left a.inner) (hleft : l.gap c = .nowhere → left = a.inner)
    (hs : StateLinked D L i j) (hi : i.env = left)
    {control control' : Control}
    (hm : Ready D L ⟨left, a.inner, l.below a.outer a.inner c⟩ (l.gap c) i { j with env := a.inner }
        (l.below a.outer a.inner c) [] →
      MachineLinked D ⟨left, a.inner, l.below a.outer a.inner c⟩ L
        ⟨control, l.below a.outer a.inner c, i⟩ ⟨control', [], { j with env := a.inner }⟩) :
    Simulates D L₀ l a ⟨control, l.below a.outer a.inner c, i⟩ (a.run c control' j) := by
  refine .running c hL hc henv hleft (hm ⟨⟨hs.withEnv i.env a.inner, ?_⟩, .nil hi rfl rfl⟩)
  rw [hi]
  exact henv

namespace Setting

variable (h : Setting D l a)
include h

theorem leads_body (hL : Keeps L₀ a L) (hs : StateLinked D L i j) (hi : i.env = a.inner) :
    Leads D L₀ l a j ⟨.exec l.round, l.rounds a.outer, i⟩ (a.body j) := by
  have hbody := h.clauses.body
  cases hstep : l.step with
  | none =>
    have hgap : l.gap .body = .nowhere := by simp only [gap, hstep]
    have hbelow : l.below a.outer a.inner .body = l.rounds a.outer := by simp only [below, hstep]
    have hround : l.round = l.body := by simp only [round, hstep]
    rw [hround, ← hbelow]
    refine (simulates_run .body hL (fun h ↦ by cases h) ?_ (fun _ ↦ rfl) hs hi fun hr ↦ .exec hbody hr).leads
    rw [hgap]
    exact .same hL.inner
  | some e =>
    have hgap : l.gap .body = .out 0 := by simp only [gap, hstep]
    have hbelow : l.below a.outer a.inner .body = .block [.expr e] a.inner :: l.rounds a.outer := by
      simp only [below, hstep]
    have hround : l.round = .block [l.body, .expr e] := by simp only [round, hstep]
    have hL' := hL.trans L.le_addLeft
    have hentered := hs.addLeft.withEnv (a.inner.enclose i.store.nextScope) j.env
    have hexec : Machine.step ⟨.exec (.block [l.body, .expr e]), l.rounds a.outer, i⟩ =
        some ⟨.done .normal, .block [l.body, .expr e] a.inner :: l.rounds a.outer,
          { i with store := i.store.addScope .empty, env := a.inner.enclose i.store.nextScope }⟩ := by
      rw [← hi]
      rfl
    rw [hround]
    refine .head (outcome?_of_stack (List.cons_ne_nil _ _)) hL.le hs hexec ?_
    refine .head (outcome?_of_stack (List.cons_ne_nil _ _)) hL'.le hentered rfl ?_
    rw [← hbelow]
    refine (simulates_run .body hL' (fun h ↦ by cases h) ?_ ?_ hentered rfl fun hr ↦ .exec hbody hr).leads
    · rw [hgap]
      exact .here _ hL'.inner
    · rw [hgap]
      exact fun heq ↦ by cases heq

theorem leads_test (hL : Keeps L₀ a L) (hs : StateLinked D L i j) (hi : i.env = a.inner) :
    Leads D L₀ l a j ⟨.eval l.condition, l.below a.outer a.inner .test, i⟩ (a.test j) := by
  have htest := h.clauses.test
  rw [Activation.test, condition]
  generalize l.test = o at htest ⊢
  generalize a.loop.test = o' at htest ⊢
  cases htest with
  | some he =>
    exact (simulates_run .test hL (fun h ↦ by cases h) (.same hL.inner) (fun _ ↦ rfl) hs hi fun hr ↦
      .eval he hr).leads
  | none =>
    refine .head (outcome?_of_stack (List.cons_ne_nil _ _)) hL.le hs rfl ?_
    refine .head (outcome?_of_stack (List.cons_ne_nil _ _)) hL.le hs rfl ?_
    exact h.leads_body hL hs hi

theorem leads_leave_done (hL : Keeps L₀ a L) (hs : StateLinked D L i j) (hi : i.env = a.inner)
    {f f' : Flow} (hf : FlowLinked D L f f') :
    Leads D L₀ l a j ⟨.done f, l.around a.outer, i⟩ (a.leave (.ok f') j) := by
  cases hfirst : l.first with
  | none =>
    have haround : l.around a.outer = [] := by simp only [around, hfirst]
    rw [haround]
    exact (Simulates.ended hL rfl (.ok hf) (hs.withEnv i.env a.outer) ⟨hi.trans (h.outer hfirst), rfl⟩).leads
  | some s =>
    have haround : l.around a.outer = [.block [] a.outer] := by simp only [around, hfirst]
    rw [haround]
    refine .head rfl hL.le hs (m := ⟨.done f, [], { i with env := a.outer }⟩) ?_ ?_
    · cases f <;> rfl
    · exact (Simulates.ended hL rfl (.ok hf) (hs.withEnv a.outer a.outer) ⟨rfl, rfl⟩).leads

theorem leads_leave_fault (hL : Keeps L₀ a L) (hs : StateLinked D L i j) (hi : i.env = a.inner) (f : Fault) :
    Leads D L₀ l a j ⟨.fault f, l.around a.outer, i⟩ (a.leave (.error f) j) := by
  cases hfirst : l.first with
  | none =>
    have haround : l.around a.outer = [] := by simp only [around, hfirst]
    rw [haround]
    exact (Simulates.ended hL rfl (.error f) (hs.withEnv i.env a.outer) ⟨hi.trans (h.outer hfirst), rfl⟩).leads
  | some s =>
    have haround : l.around a.outer = [.block [] a.outer] := by simp only [around, hfirst]
    rw [haround]
    refine .head rfl hL.le hs rfl ?_
    exact (Simulates.ended hL rfl (.error f) (hs.withEnv a.outer a.outer) ⟨rfl, rfl⟩).leads

theorem leads_round_normal (hL : Keeps L₀ a L) (hs : StateLinked D L i j) (hi : i.env = a.inner) :
    Leads D L₀ l a j ⟨.done .normal, l.rounds a.outer, i⟩ (a.test j) :=
  .head (outcome?_of_stack (List.cons_ne_nil _ _)) hL.le hs rfl (h.leads_test hL hs hi)

theorem leads_round_returned (hL : Keeps L₀ a L) (hs : StateLinked D L i j) (hi : i.env = a.inner)
    {v v' : Value} (hv : ValueLinked D L v v') :
    Leads D L₀ l a j ⟨.done (.returned v), l.rounds a.outer, i⟩ (a.leave (.ok (.returned v')) j) :=
  .head (outcome?_of_stack (List.cons_ne_nil _ _)) hL.le hs rfl (h.leads_leave_done hL hs hi (.returned hv))

theorem leads_round_fault (hL : Keeps L₀ a L) (hs : StateLinked D L i j) (hi : i.env = a.inner) (f : Fault) :
    Leads D L₀ l a j ⟨.fault f, l.rounds a.outer, i⟩ (a.leave (.error f) j) :=
  .head (outcome?_of_stack (List.cons_ne_nil _ _)) hL.le hs rfl (h.leads_leave_fault hL hs hi f)

theorem value_concludes (c : Clause) (hL : Keeps L₀ a L) (hs : StateLinked D L i j)
    (hi : l.gap c = .nowhere → i.env = a.inner) {v v' : Value} (hv : ValueLinked D L v v') :
    Option.Rel (Leads D L₀ l a j) (Machine.step ⟨.value v, l.below a.outer a.inner c, i⟩)
      (a.conclude c ⟨.value v', [], j⟩) := by
  cases c with
  | first => exact .none
  | body =>
    simp only [below]
    split
    · exact .none
    · exact .none
  | test =>
    simp only [below, Machine.step, resume, Activation.conclude, hv.isTruthy_eq]
    split
    · exact .some (h.leads_body hL hs (hi rfl))
    · exact .some (h.leads_leave_done hL hs (hi rfl) .normal)
  | step =>
    refine .some (.head (outcome?_of_stack (List.cons_ne_nil _ _)) hL.le hs rfl ?_)
    exact h.leads_round_normal hL (hs.withEnv a.inner j.env) rfl

theorem first_concludes (hL : Keeps L₀ a L) (hfirst : l.first ≠ none) (hs : StateLinked D L i j)
    (hi : i.env = a.inner) {f f' : Flow} (hf : FlowLinked D L f f') :
    Option.Rel (Leads D L₀ l a j) (Machine.step ⟨.done f, l.below a.outer a.inner .first, i⟩)
      (a.conclude .first ⟨.done f', [], j⟩) := by
  cases hf with
  | normal =>
    have haround : [.block [] a.outer] = l.around a.outer := by
      obtain ⟨s, hs⟩ := Option.ne_none_iff_exists'.1 hfirst
      simp only [around, hs]
    refine .some (.head (outcome?_of_stack (List.cons_ne_nil _ _)) hL.le hs rfl ?_)
    rw [haround]
    exact h.leads_test hL hs hi
  | returned hv =>
    exact .some (Simulates.ended hL rfl (.ok (.returned hv)) (hs.withEnv a.outer a.outer) ⟨rfl, rfl⟩).leads

/-- With a step, the tree runs it in the scope of the round, where it sees what the loop does. -/
theorem body_concludes (hL : Keeps L₀ a L) (hs : StateLinked D L i j)
    (henv : EnvLinked L (l.gap .body) i.env a.inner) (hi : l.gap .body = .nowhere → i.env = a.inner)
    {f f' : Flow} (hf : FlowLinked D L f f') :
    Option.Rel (Leads D L₀ l a j) (Machine.step ⟨.done f, l.below a.outer a.inner .body, i⟩)
      (a.conclude .body ⟨.done f', [], j⟩) := by
  have hclause := h.clauses.step
  cases hstep : l.step with
  | none =>
    have hbelow : l.below a.outer a.inner .body = l.rounds a.outer := by simp only [below, hstep]
    have hgap : l.gap .body = .nowhere := by simp only [gap, hstep]
    have hstep' : a.loop.step = none := by
      rw [hstep] at hclause
      generalize a.loop.step = o at hclause
      cases hclause
      rfl
    rw [hbelow]
    cases hf with
    | normal =>
      rw [Activation.conclude, Activation.step, hstep']
      exact .some (h.leads_test hL hs (hi hgap))
    | returned hv => exact .some (h.leads_leave_done hL hs (hi hgap) (.returned hv))
  | some e =>
    have hbelow : l.below a.outer a.inner .body = .block [.expr e] a.inner :: l.rounds a.outer := by
      simp only [below, hstep]
    have hgap : l.gap .body = .out 0 := by simp only [gap, hstep]
    obtain ⟨e', hstep', he⟩ : ∃ e', a.loop.step = some e' ∧ ExprLinked D (.out 0) e e' := by
      rw [hstep] at hclause
      generalize a.loop.step = o at hclause
      cases hclause with
      | some he => exact ⟨_, rfl, he⟩
    rw [hbelow]
    rw [hgap] at henv
    cases hf with
    | normal =>
      rw [Activation.conclude, Activation.step, hstep']
      refine .some (.head (outcome?_of_stack (List.cons_ne_nil _ _)) hL.le hs rfl ?_)
      exact (simulates_run .step hL (fun h ↦ by cases h) henv (fun h ↦ by cases h) hs rfl fun hr ↦
        .eval he hr).leads
    | returned hv => exact .some (h.leads_round_returned hL (hs.withEnv a.inner j.env) rfl hv)

theorem done_concludes (c : Clause) (hL : Keeps L₀ a L) (hc : c = .first → l.first ≠ none)
    (hs : StateLinked D L i j) (henv : EnvLinked L (l.gap c) i.env a.inner)
    (hi : l.gap c = .nowhere → i.env = a.inner) {f f' : Flow} (hf : FlowLinked D L f f') :
    Option.Rel (Leads D L₀ l a j) (Machine.step ⟨.done f, l.below a.outer a.inner c, i⟩)
      (a.conclude c ⟨.done f', [], j⟩) := by
  cases c with
  | first => exact h.first_concludes hL (hc rfl) hs (hi rfl) hf
  | body => exact h.body_concludes hL hs henv hi hf
  | test => exact .none
  | step => exact .none

theorem fault_concludes (c : Clause) (hL : Keeps L₀ a L) (hs : StateLinked D L i j)
    (hi : l.gap c = .nowhere → i.env = a.inner) (f : Fault) :
    Option.Rel (Leads D L₀ l a j) (Machine.step ⟨.fault f, l.below a.outer a.inner c, i⟩)
      (a.conclude c ⟨.fault f, [], j⟩) := by
  have hin := hs.withEnv a.inner j.env
  cases c with
  | first => exact .some (Simulates.ended hL rfl (.error f) (hs.withEnv a.outer a.outer) ⟨rfl, rfl⟩).leads
  | test => exact .some (h.leads_leave_fault hL hs (hi rfl) f)
  | step =>
    refine .some (.head (outcome?_of_stack (List.cons_ne_nil _ _)) hL.le hs rfl ?_)
    exact h.leads_round_fault hL hin rfl f
  | body =>
    cases hstep : l.step with
    | none =>
      have hgap : l.gap .body = .nowhere := by simp only [gap, hstep]
      simp only [below, hstep]
      exact .some (h.leads_leave_fault hL hs (hi hgap) f)
    | some e =>
      simp only [below, hstep]
      exact .some (h.leads_round_fault hL hin rfl f)

/-- For a step of the `for` the tree takes some steps, and one at least. -/
theorem next_linked {m : Machine} {p : Progress} (hp : Simulates D L₀ l a m p) :
    Option.Rel (Leads D L₀ l a p.state) m.step (a.next p) := by
  cases hp with
  | ended _ hm _ _ _ => exact step_of_outcome? hm ▸ .none
  | @running L c left m m' hL hc henv hleft hm =>
    rw [Activation.next]
    split
    · next hfinal =>
      cases hm with
      | eval _ _ => cases hfinal
      | exec _ _ => cases hfinal
      | act _ _ _ => cases hfinal
      | @value _ _ _ k k' i i' hv hr =>
        cases k' with
        | cons => cases hfinal
        | nil =>
          obtain ⟨rfl, hi, -⟩ := hr.bottom
          exact h.value_concludes c hL hr.scene.toStateLinked (fun hg ↦ hi.trans (hleft hg)) hv
      | @done _ _ _ k k' i i' hf hr =>
        cases k' with
        | cons => cases hfinal
        | nil =>
          obtain ⟨rfl, hi, -⟩ := hr.bottom
          refine h.done_concludes c hL hc hr.scene.toStateLinked ?_ (fun hg ↦ hi.trans (hleft hg)) hf
          rw [hi]
          exact henv
      | @fault _ f k k' i i' hr =>
        cases k' with
        | cons => cases hfinal
        | nil =>
          obtain ⟨rfl, hi, -⟩ := hr.bottom
          exact h.fault_concludes c hL hr.scene.toStateLinked (fun hg ↦ hi.trans (hleft hg)) f
    · next hfinal =>
      have hstep := step_linked hm (Bool.eq_false_iff.2 hfinal)
      generalize m.step = o at hstep ⊢
      generalize m'.step = o' at hstep ⊢
      cases hstep with
      | none => exact .none
      | some hlater =>
        obtain ⟨L', hL', hm'⟩ := hlater
        exact .some (Simulates.running c (hL.trans hL') hc (ChainLinked.mono henv hL') hleft hm').leads

end Setting

end

end ForLoop

end Lox
