import Lox.Machine.Step

namespace Lox.Machine

/-- The machine comes from one state to another in any number of steps. -/
inductive Steps : Machine → Machine → Prop
  | refl (m : Machine) : Steps m m
  | step {m m₁ m₂ : Machine} (h : Steps m m₁) (hs : m₁.step = some m₂) : Steps m m₂

theorem Steps.head {m m₁ m₂ : Machine} (hs : m.step = some m₁) (h : Steps m₁ m₂) : Steps m m₂ := by
  induction h with
  | refl => exact .step (.refl m) hs
  | step _ hs' ih => exact .step ih hs'

theorem Steps.trans {m m₁ m₂ : Machine} (h : Steps m m₁) (h₁ : Steps m₁ m₂) : Steps m m₂ := by
  induction h₁ with
  | refl => exact h
  | step _ hs ih => exact .step ih hs

theorem Steps.eq_or_head {m m' : Machine} (h : Steps m m') :
    m = m' ∨ ∃ m₁, m.step = some m₁ ∧ Steps m₁ m' := by
  induction h with
  | refl => exact .inl rfl
  | @step m₁ m₂ _ hs ih =>
    rcases ih with rfl | ⟨m', hs', h'⟩
    · exact .inr ⟨m₂, hs, .refl m₂⟩
    · exact .inr ⟨m', hs', .step h' hs⟩

theorem step_of_isFinal {m : Machine} (h : m.isFinal = true) : m.step = none := by
  obtain ⟨c, k, i⟩ := m
  cases k with
  | nil => cases c <;> trivial
  | cons frame k => cases c <;> cases h

/-- What each step keeps holds of all that a run comes to. -/
theorem Steps.invariant {P : Machine → Prop} {m m' : Machine} (h : Steps m m') (hm : P m)
    (hstep : ∀ m₁ m₂, P m₁ → m₁.step = some m₂ → P m₂) : P m' := by
  induction h with
  | refl => exact hm
  | step _ hs ih => exact hstep _ _ ih hs

def after : Nat → Machine → Option Machine
  | 0, m => some m
  | n + 1, m => m.step.bind (after n)

theorem after_succ (n : Nat) (m : Machine) : m.after (n + 1) = (m.after n).bind step := by
  induction n generalizing m with
  | zero =>
    rw [after, after, Option.bind_some]
    cases m.step <;> rfl
  | succ n ih =>
    rw [after]
    cases hs : m.step with
    | none => rw [after, hs]; rfl
    | some m' => rw [after, hs, Option.bind_some, Option.bind_some, ih]

theorem after_eq_none_of_le {a b : Nat} {m : Machine} (h : m.after a = none) (hab : a ≤ b) :
    m.after b = none := by
  induction hab with
  | refl => exact h
  | step _ ih => rw [after_succ, ih, Option.bind_none]

theorem steps_of_after {n : Nat} {m m' : Machine} (h : m.after n = some m') : Steps m m' := by
  induction n generalizing m with
  | zero =>
    cases h
    exact .refl _
  | succ n ih =>
    obtain ⟨m₁, hs, h⟩ := Option.bind_eq_some_iff.1 h
    exact .head hs (ih h)

theorem Steps.exists_after {m m' : Machine} (h : Steps m m') : ∃ n, m.after n = some m' := by
  induction h with
  | refl => exact ⟨0, rfl⟩
  | step _ hs ih =>
    obtain ⟨n, hn⟩ := ih
    exact ⟨n + 1, by rw [after_succ, hn, Option.bind_some, hs]⟩

theorem steps_of_run {fuel : Nat} {m m' : Machine} (h : run fuel m = some m') :
    Steps m m' ∧ m'.isFinal = true := by
  induction fuel generalizing m with
  | zero => cases h
  | succ fuel ih =>
    rw [run] at h
    split at h
    · next hf =>
      cases h
      exact ⟨.refl _, hf⟩
    · split at h
      · next hs =>
        obtain ⟨hsteps, hf⟩ := ih h
        exact ⟨.head hs hsteps, hf⟩
      · cases h

theorem run_succ {m m₁ : Machine} (hs : m.step = some m₁) (fuel : Nat) : run (fuel + 1) m = run fuel m₁ := by
  have hm : m.isFinal ≠ true := fun hm ↦ by simp [step_of_isFinal hm] at hs
  rw [run, if_neg hm, hs]

theorem Steps.run {m m' m'' : Machine} (h : Steps m m') {fuel : Nat} (hr : run fuel m' = some m'') :
    ∃ fuel', Machine.run fuel' m = some m'' := by
  induction h generalizing fuel with
  | refl => exact ⟨fuel, hr⟩
  | step _ hs ih => exact ih ((run_succ hs fuel).trans hr)

theorem run_rest {m m₁ m' : Machine} {fuel : Nat} (hr : run fuel m = some m') (h : Steps m m₁) :
    ∃ fuel', run fuel' m₁ = some m' := by
  induction h with
  | refl => exact ⟨fuel, hr⟩
  | step _ hs ih =>
    obtain ⟨fuel', hr'⟩ := ih
    cases fuel' with
    | zero => cases hr'
    | succ fuel' => exact ⟨fuel', (run_succ hs fuel').symm.trans hr'⟩

theorem run_of_isFinal {m : Machine} (h : m.isFinal = true) : run 1 m = some m := by rw [run, if_pos h]

/-- A run has one end. -/
theorem run_eq_of_isFinal {m m₁ m' : Machine} {fuel : Nat} (hr : run fuel m = some m') (h : Steps m m₁)
    (hf : m₁.isFinal = true) : m' = m₁ := by
  obtain ⟨fuel', hr'⟩ := run_rest hr h
  cases fuel' with
  | zero => cases hr'
  | succ fuel' =>
    rw [run, if_pos hf] at hr'
    exact (Option.some.inj hr').symm

/-- A number of steps, up to a machine that the others before it need not be like. -/
inductive Through (P : Machine → Prop) : Machine → Machine → Prop
  | refl (m : Machine) : Through P m m
  | head {m m₁ m' : Machine} (hP : P m) (hs : m.step = some m₁) (h : Through P m₁ m') : Through P m m'

namespace Through

variable {P : Machine → Prop} {m m₁ m' : Machine}

theorem steps (h : Through P m m') : Steps m m' := by
  induction h with
  | refl m => exact .refl m
  | head _ hs _ ih => exact .head hs ih

theorem trans {m₂ : Machine} (h : Through P m m') (h' : Through P m' m₂) : Through P m m₂ := by
  induction h with
  | refl => exact h'
  | head hP hs _ ih => exact .head hP hs (ih h')

theorem mono {Q : Machine → Prop} (h : Through P m m') (hPQ : ∀ m, P m → Q m) : Through Q m m' := by
  induction h with
  | refl m => exact .refl m
  | head hP hs _ ih => exact .head (hPQ _ hP) hs ih

/-- What comes behind the first step. -/
theorem tail (h : Through P m m') (hne : m ≠ m') (hs : m.step = some m₁) : Through P m₁ m' := by
  cases h with
  | refl => exact absurd rfl hne
  | head _ hs' h =>
    cases hs.symm.trans hs'
    exact h

theorem eq_of_not (h : Through P m m') (hP : ¬P m) : m = m' := by
  cases h with
  | refl => rfl
  | head hP' => exact absurd hP' hP

end Through

end Lox.Machine
