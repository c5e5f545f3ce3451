import Lox.Proofs.Session.Heap

namespace Lox

open Scope

/-- The machine as it is at the moment, and the session as it was when the last source was taken up. -/
structure Moment where
  session : Session
  machine : Machine

namespace Moment

def new (sink : Sink) (clock : Clock) (nextId : Nat) (programs : Bindings (List Stmt)) : Moment :=
  ⟨⟨.new sink clock, nextId, programs⟩, (Interpreter.new sink clock).idle⟩

/-- The moments that follow a given one while sources are run, one after the other. -/
inductive Later (x : Moment) : Moment → Prop
  | refl : Later x x
  | reject {s s' : Session} {source : String} {ds : List Diagnostic} (h : Later x ⟨s, s.interpreter.idle⟩)
      (hp : s.prepare source = (.error ds, s')) : Later x ⟨s', s'.interpreter.idle⟩
  | accept {s s' : Session} {source : String} {program : List Stmt} (h : Later x ⟨s, s.interpreter.idle⟩)
      (hp : s.prepare source = (.ok program, s')) : Later x ⟨s', s'.interpreter.start program⟩
  | step {s : Session} {m m' : Machine} (h : Later x ⟨s, m⟩) (hs : m.step = some m') : Later x ⟨s, m'⟩
  | conclude {s : Session} {m : Machine} {ds : List Diagnostic} {i : Interpreter} (h : Later x ⟨s, m⟩)
      (hf : m.isFinal = true) (hc : Interpreter.conclude m = some (ds, i)) :
      Later x ⟨{ s with interpreter := i }, i.idle⟩

/-- A moment that a new session can come to. -/
def Reached (x : Moment) : Prop := ∃ sink clock nextId programs, (new sink clock nextId programs).Later x

variable {x y : Moment} {A : List Accepted} {s s' : Session} {m m' : Machine}

theorem Later.steps (h : x.Later ⟨s, m⟩) (hs : Machine.Steps m m') : x.Later ⟨s, m'⟩ := by
  induction hs with
  | refl => exact h
  | step _ hs ih => exact .step ih hs

theorem Later.run (h : x.Later ⟨s, s.interpreter.idle⟩) {fuel : Nat} {source : String} {ds : List Diagnostic}
    (hr : s.run fuel source = some (ds, s')) : x.Later ⟨s', s'.interpreter.idle⟩ := by
  unfold Session.run at hr
  split at hr
  · next hp =>
    cases hr
    exact .reject h hp
  · next hp =>
    split at hr
    · next hi =>
      cases hr
      obtain ⟨m, hrun, hc⟩ := Option.bind_eq_some_iff.1 hi
      obtain ⟨hsteps, hf⟩ := Machine.steps_of_run hrun
      exact .conclude ((Later.accept h hp).steps hsteps) hf hc
    · cases hr

/-- The moments of a session are moments in the life of its interpreter. -/
theorem Later.life (h : x.Later y) : Machine.Life x.machine y.machine := by
  induction h with
  | refl => exact .refl
  | reject _ hp ih => exact .reject ih hp
  | accept _ hp ih => exact .accept ih hp
  | step _ hs ih => exact .step ih hs
  | conclude _ hf hc ih => exact .conclude ih hf hc

/-- What holds at every moment: the machine runs code of programs accepted so far, in a run that began at the
top level. -/
structure Sound (A : List Accepted) (x : Moment) : Prop where
  fits : x.machine.Fits A
  separate : Separate A
  ids : ∀ a ∈ A, ∀ r ∈ Stmt.refsOf a.program, r.id < x.session.nextId
  since : ∃ i : Interpreter, i.IsHome ∧ i.Sound ∧ Machine.Accounts i .flow x.machine ∧ x.machine.Sound i.store

/-- What holds of a session between two runs. -/
structure AtRest (A : List Accepted) (s : Session) : Prop where
  fits : s.Fits A
  isHome : s.interpreter.IsHome
  sound : s.interpreter.Sound

theorem AtRest.idle (h : AtRest A s) : Sound A ⟨s, s.interpreter.idle⟩ := by
  have hagrees : (s.interpreter.world A).Agrees s.interpreter.env [] := h.fits.env ▸ .globals
  exact ⟨⟨h.fits.interpreter, trivial, [], hagrees, .nil h.fits.env⟩, h.fits.separate, h.fits.ids, s.interpreter,
    h.isHome, h.sound, Interpreter.idle_accounts h.isHome, .refl _, h.sound.store, trivial, .nil⟩

theorem Sound.atRest (h : Sound A ⟨s, s.interpreter.idle⟩) : AtRest A s := by
  obtain ⟨-, S, -, ⟨henv⟩⟩ := h.fits.control
  obtain ⟨i, hhome, hi, haccounts, hsound⟩ := h.since
  have hdepth : s.interpreter.depth = 0 := haccounts.depth.trans hhome.2
  have hglobals : s.interpreter.globalEnv = i.globalEnv := congrArg (Env.mk · []) haccounts.globals
  exact ⟨⟨h.fits.state, henv, h.separate, h.ids⟩, ⟨henv, hdepth⟩, hsound.store,
    fun own ↦ hglobals ▸ (hi.globals own).mono hsound.since⟩

theorem AtRest.new (sink : Sink) (clock : Clock) (nextId : Nat) (programs : Bindings (List Stmt)) :
    AtRest [] ⟨.new sink clock, nextId, programs⟩ :=
  ⟨Session.new_fits sink clock nextId programs, ⟨rfl, rfl⟩, Interpreter.new_sound sink clock⟩

theorem AtRest.reject (h : AtRest A s) {source : String} {ds : List Diagnostic}
    (hp : s.prepare source = (.error ds, s')) : AtRest A s' := by
  obtain ⟨D, hD⟩ := Session.prepare_interpreter hp
  refine ⟨Session.prepare_error_fits h.fits hp, ?_, ?_⟩
  · rw [hD]
    exact h.isHome
  · rw [hD]
    exact ⟨h.sound.store, h.sound.globals⟩

theorem AtRest.accept (h : AtRest A s) {source : String} {program : List Stmt}
    (hp : s.prepare source = (.ok program, s')) :
    ∃ a : Accepted, Sound (a :: A) ⟨s', s'.interpreter.start program⟩ := by
  obtain ⟨D, hD⟩ := Session.prepare_interpreter hp
  obtain ⟨a, rfl, -, hs'⟩ := Session.prepare_ok_fits h.fits hp
  have hhome : s'.interpreter.IsHome := by
    rw [hD]
    exact h.isHome
  have hsound : s'.interpreter.Sound := by
    rw [hD]
    exact ⟨h.sound.store, h.sound.globals⟩
  exact ⟨a, Interpreter.start_fits hs'.interpreter hs'.env (.head A), hs'.separate, hs'.ids, s'.interpreter,
    hhome, hsound, Interpreter.start_accounts hhome a.program, Interpreter.start_sound hsound hs'.env a.program⟩

theorem Sound.step (h : Sound A ⟨s, m⟩) (hs : m.step = some m') :
    Sound A ⟨s, m'⟩ ∧ m.state.store.Preserves m'.state.store := by
  obtain ⟨i, hhome, hi, haccounts, hsound⟩ := h.since
  have hnow : m.Sound m.state.store := ⟨.refl _, hsound.store, hsound.control⟩
  exact ⟨⟨Machine.step_fits h.fits hs, h.separate, h.ids, i, hhome, hi, haccounts.step hs,
    Machine.step_sound h.separate h.fits hsound hs⟩, (Machine.step_sound h.separate h.fits hnow hs).since⟩

theorem Sound.conclude (h : Sound A ⟨s, m⟩) (hf : m.isFinal = true) {ds : List Diagnostic} {i : Interpreter}
    (hc : Interpreter.conclude m = some (ds, i)) : AtRest A { s with interpreter := i } := by
  obtain ⟨j, hhome, hj, haccounts, hsound⟩ := h.since
  obtain ⟨hfits, henv⟩ := Interpreter.conclude_fits h.fits hf hc
  exact ⟨⟨hfits, henv, h.separate, h.ids⟩, (Interpreter.conclude_follows hhome haccounts hf hc).isHome,
    (Interpreter.conclude_sound hhome hj haccounts hsound hf hc).2⟩

/-- All along, the machine runs code of accepted programs, and what methods rely on stays. -/
theorem Later.sound (h : x.Later y) (hx : Sound A x) :
    ∃ A', Sound A' y ∧ x.machine.state.store.Preserves y.machine.state.store := by
  induction h with
  | refl => exact ⟨A, hx, .refl _⟩
  | reject _ hp ih =>
    obtain ⟨A', hy, hkept⟩ := ih
    obtain ⟨D, hD⟩ := Session.prepare_interpreter hp
    refine ⟨A', (hy.atRest.reject hp).idle, ?_⟩
    rw [hD]
    exact hkept
  | accept _ hp ih =>
    obtain ⟨A', hy, hkept⟩ := ih
    obtain ⟨D, hD⟩ := Session.prepare_interpreter hp
    obtain ⟨a, ha⟩ := hy.atRest.accept hp
    refine ⟨a :: A', ha, ?_⟩
    rw [hD]
    exact hkept
  | step _ hs ih =>
    obtain ⟨A', hy, hkept⟩ := ih
    obtain ⟨hy', hkept'⟩ := hy.step hs
    exact ⟨A', hy', hkept.trans hkept'⟩
  | conclude _ hf hc ih =>
    obtain ⟨A', hy, hkept⟩ := ih
    refine ⟨A', (hy.conclude hf hc).idle, ?_⟩
    rcases Interpreter.conclude_state hc with rfl | rfl <;> exact hkept

theorem Reached.sound (h : x.Reached) : ∃ A, Sound A x := by
  obtain ⟨sink, clock, nextId, programs, h⟩ := h
  obtain ⟨A, hx, -⟩ := h.sound (AtRest.new sink clock nextId programs).idle
  exact ⟨A, hx⟩

end Moment

end Lox
