import Lox.Proofs.Machine.Run
import Lox.Proofs.Machine.ScopedStep
import Lox.Proofs.Session.Read

namespace Lox

open Scope

namespace Session

def accepts (source : String) (s : Session) : List (List Stmt × Distances) :=
  match s.prepare source with
  | (.ok program, _) => [(program, s.interpreter.distances)]
  | (.error _, _) => []

/-- A session that has come about by runs from a new interpreter, and the programs accepted in it, the
last one first. -/
inductive History : List (List Stmt × Distances) → Session → Prop
  | new (sink : Sink) (clock : Clock) (nextId : Nat) (programs : Bindings (List Stmt)) :
      History [] ⟨.new sink clock, nextId, programs⟩
  | run {H : List (List Stmt × Distances)} {s s' : Session} {fuel : Nat} {source : String}
      {ds : List Diagnostic} (h : History H s) (hr : s.run fuel source = some (ds, s')) :
      History (s.accepts source ++ H) s'

end Session

def Scope.Separate (A : List Accepted) : Prop :=
  ∀ a ∈ A, ∀ a' ∈ A, ∀ r ∈ Stmt.refsOf a.program, ∀ r' ∈ Stmt.refsOf a'.program, r.id = r'.id → a = a'

/-- What holds of a session between two runs. -/
structure Session.Fits (A : List Accepted) (s : Session) : Prop where
  interpreter : s.interpreter.Fits A
  env : s.interpreter.env = s.interpreter.globalEnv
  separate : Separate A
  ids : ∀ a ∈ A, ∀ r ∈ Stmt.refsOf a.program, r.id < s.nextId

namespace Session

theorem new_fits (sink : Sink) (clock : Clock) (n : Nat) (programs : Bindings (List Stmt)) :
    Fits [] ⟨.new sink clock, n, programs⟩ := by
  refine ⟨⟨nofun, rfl, ⟨fun id x v hv ↦ ?_, nofun⟩⟩, rfl, nofun, nofun⟩
  have hv : ((Store.empty.addScope .empty).define 0 "clock" _).read? id x = some v := hv
  rw [Store.read?_define, Store.read?_addScope] at hv
  split at hv
  · cases hv
    trivial
  · split at hv
    · cases hv
    · cases hv

/-- Resolving a program with new ids leaves the distances of earlier ones as they are. -/
theorem Fits.holds_resolve {A : List Accepted} {s : Session} (hs : s.Fits A) {m : Nat}
    {program : List Stmt} (hn : Numbered s.nextId m (Stmt.refsOf program)) :
    Holds A (resolve program s.interpreter.distances).distances := by
  intro a ha r hr
  have hlt := hs.ids a ha r hr
  have heffect := effect_stmts topLevel program ⟨[], #[], s.interpreter.distances⟩
  refine (heffect.distances r.id fun r' hr' ↦ ?_).trans (hs.interpreter.distances a ha r hr)
  have hle := (hn.within r' hr').1
  omega

theorem Fits.mono_nextId {A : List Accepted} {s : Session} (hs : s.Fits A) {n : Nat}
    (hn : s.nextId ≤ n) {D : Distances} (hD : Holds A D) :
    Fits A { s with nextId := n, interpreter := { s.interpreter with distances := D } } :=
  ⟨⟨hD, hs.interpreter.hosts, hs.interpreter.world⟩, hs.env, hs.separate,
    fun a ha r hr ↦ Nat.lt_of_lt_of_le (hs.ids a ha r hr) hn⟩

theorem prepare_error_fits {A : List Accepted} {s s' : Session} (hs : s.Fits A) {source : String}
    {ds : List Diagnostic} (h : s.prepare source = (.error ds, s')) : s'.Fits A := by
  have hle := le_readAll source s.nextId
  unfold prepare at h
  split at h
  · next es n hr =>
    cases h
    rw [hr] at hle
    exact hs.mono_nextId hle hs.interpreter.distances
  · next program n hr =>
    obtain ⟨-, rfl⟩ := Prod.mk.inj h
    rw [hr] at hle
    exact hs.mono_nextId hle (hs.holds_resolve (readAll_yields hr).1)

theorem prepare_ok_iff {s s' : Session} {source : String} {program : List Stmt} :
    s.prepare source = (.ok program, s') ↔ ∃ n, readAll source s.nextId = (.ok program, n) ∧
      (resolve program s.interpreter.distances).errors = [] ∧
      s' = { s with nextId := n, interpreter := (s.interpreter.resolve program).2 } := by
  unfold prepare
  generalize readAll source s.nextId = r
  obtain ⟨(es | program'), n⟩ := r
  · simp
  · cases he : (resolve program' s.interpreter.distances).errors with
    | nil =>
      have hds : (s.interpreter.resolve program').1 = [] := by simp [Interpreter.resolve, he]
      grind
    | cons e es =>
      have hds : (s.interpreter.resolve program').1 ≠ [] := by simp [Interpreter.resolve, he]
      grind

theorem run_of_prepare {s s' : Session} {source : String} {program : List Stmt}
    (h : s.prepare source = (.ok program, s')) (fuel : Nat) : s.run fuel source =
      (s'.interpreter.interpret fuel program).map fun r ↦ (r.1, { s' with interpreter := r.2 }) := by
  rw [run, h]
  dsimp only
  cases s'.interpreter.interpret fuel program <;> rfl

theorem prepare_ok_fits {A : List Accepted} {s s' : Session} (hs : s.Fits A) {source : String}
    {program : List Stmt} (h : s.prepare source = (.ok program, s')) :
    ∃ a : Accepted, a.program = program ∧ a.before = s.interpreter.distances ∧ s'.Fits (a :: A) := by
  obtain ⟨n, hr, he, rfl⟩ := prepare_ok_iff.1 h
  obtain ⟨hn, hp⟩ := readAll_yields hr
  let a : Accepted := ⟨program, s.interpreter.distances, hp, hn.distinct, he⟩
  have hold := hs.ids
  have hnew : ∀ r ∈ Stmt.refsOf a.program, s.nextId ≤ r.id ∧ r.id < n := hn.within
  have hD : Holds (a :: A) a.distances := by
    rintro b hb r hr
    obtain rfl | hb := List.mem_cons.1 hb
    · rfl
    · exact hs.holds_resolve hn b hb r hr
  refine ⟨a, rfl, rfl, ⟨hD, hs.interpreter.hosts, hs.interpreter.world.accept a⟩, hs.env, ?_, ?_⟩
  · intro b hb b' hb' r hr r' hr' heq
    obtain rfl | hb := List.mem_cons.1 hb
    · obtain rfl | hb' := List.mem_cons.1 hb'
      · rfl
      · have := hnew r hr
        have := hold b' hb' r' hr'
        omega
    · obtain rfl | hb' := List.mem_cons.1 hb'
      · have := hold b hb r hr
        have := hnew r' hr'
        omega
      · exact hs.separate b hb b' hb' r hr r' hr' heq
  · intro b hb r hr
    obtain rfl | hb := List.mem_cons.1 hb
    · exact (hnew r hr).2
    · exact Nat.lt_of_lt_of_le (hold b hb r hr) hn.le

end Session

namespace Interpreter

variable {A : List Accepted} {i : Interpreter}

theorem start_fits (hi : i.Fits A) (henv : i.env = i.globalEnv) {a : Accepted} (ha : a ∈ A) :
    (i.start a.program).Fits A := by
  have hat : (i.world A).At (.stmts a.program) [] := ⟨a, ha, _, _, .program, rfl⟩
  have hagrees : (i.world A).Agrees i.env [] := henv ▸ .globals
  exact ⟨hi, trivial, [], hagrees, .program hat (.nil henv)⟩

theorem reset_fits (hi : i.Fits A) : i.reset.Fits A := ⟨hi.distances, hi.hosts, hi.world⟩

theorem flush_snd (i : Interpreter) (ds : List Diagnostic) : (i.flush ds).2 = i := by
  unfold flush
  split <;> rfl

theorem conclude_fits {m : Machine} (hm : m.Fits A) (hf : m.isFinal = true) {ds : List Diagnostic}
    (h : conclude m = some (ds, i)) : i.Fits A ∧ i.env = i.globalEnv := by
  obtain ⟨c, k, j⟩ := m
  cases k with
  | cons => cases c <;> cases hf
  | nil =>
    cases c with
    | done flow =>
      obtain ⟨-, S, -, ⟨henv⟩⟩ := hm.control
      obtain rfl : j = i := by
        rw [← flush_snd j []]
        exact congrArg Prod.snd (Option.some.inj h)
      exact ⟨hm.state, henv⟩
    | fault f =>
      obtain rfl : j.reset = i := by
        rw [← flush_snd j.reset [.fault f]]
        exact congrArg Prod.snd (Option.some.inj h)
      exact ⟨reset_fits hm.state, rfl⟩
    | value => cases h
    | _ => cases hf

theorem interpret_fits {i' : Interpreter} (hi : i.Fits A) (henv : i.env = i.globalEnv) {a : Accepted}
    (ha : a ∈ A) {fuel : Nat} {ds : List Diagnostic} (h : i.interpret fuel a.program = some (ds, i')) :
    i'.Fits A ∧ i'.env = i'.globalEnv := by
  obtain ⟨m, hrun, hend⟩ := Option.bind_eq_some_iff.1 h
  obtain ⟨hsteps, hf⟩ := Machine.steps_of_run hrun
  have hm : m.Fits A := hsteps.invariant (start_fits hi henv ha) fun _ _ ↦ Machine.step_fits
  exact conclude_fits hm hf hend

end Interpreter

/-- Every session that comes about by runs fits the programs that were accepted in it. -/
theorem Session.History.fits {H : List (List Stmt × Distances)} {s : Session} (h : History H s) :
    ∃ A : List Accepted, A.map (fun a ↦ (a.program, a.before)) = H ∧ s.Fits A := by
  induction h with
  | new sink clock n programs => exact ⟨[], rfl, new_fits sink clock n programs⟩
  | @run H s s' fuel source ds _ hr ih =>
    obtain ⟨A, rfl, hs⟩ := ih
    rw [accepts]
    unfold Session.run at hr
    generalize hp : s.prepare source = r at hr ⊢
    obtain ⟨(es | program), s₁⟩ := r
    · cases hr
      exact ⟨A, rfl, prepare_error_fits hs hp⟩
    · obtain ⟨a, rfl, hbefore, hs₁⟩ := prepare_ok_fits hs hp
      refine ⟨a :: A, by simp [hbefore], ?_⟩
      dsimp only at hr
      split at hr
      · next hi =>
        cases hr
        obtain ⟨hfits, henv⟩ := Interpreter.interpret_fits hs₁.interpreter hs₁.env (.head A) hi
        exact ⟨hfits, henv, hs₁.separate, hs₁.ids⟩
      · cases hr

end Lox
