import Lox.Proofs.Machine.ScopedStep
import Lox.Proofs.Machine.VariantStep

namespace Lox.Machine

open Scope

section

variable {A : List Accepted} {m : Machine} (h : m.Fits A)
include h

/-- Every occurrence that is looked up comes from one of the accepted programs. -/
theorem Fits.occurrence {ref : Ref} (hr : m.occurrence? = some ref) :
    ∃ a ∈ A, ref ∈ Stmt.refsOf a.program := by
  have hat {node : Node} {S : List Names} (hat : At A node S) (hmem : ref ∈ node.refs) :
      ∃ a ∈ A, ref ∈ Stmt.refsOf a.program := by
    obtain ⟨a, ha, k, w, hv, -⟩ := hat
    exact ⟨a, ha, hv.refs_sublist.subset hmem⟩
  have hcontrol := h.control
  unfold occurrence? at hr
  split at hr
  · cases hr
    obtain ⟨S, he, -⟩ := hcontrol
    exact hat he (.head _)
  · cases hr
    obtain ⟨S, he, -⟩ := hcontrol
    exact hat he (.head _)
  · cases hr
    obtain ⟨S, he, -⟩ := hcontrol
    exact hat he (.head _)
  · next name superclass methods k i =>
    obtain ⟨S, hs, -⟩ := hcontrol
    refine hat hs ?_
    show ref ∈ superclass.toList ++ FunctionDecl.refsOf methods
    rw [hr]
    exact .head _
  · next v ref' k i =>
    cases hr
    obtain ⟨-, S, -, hk⟩ := hcontrol
    cases hk with
    | keep hf _ =>
      obtain ⟨e, he⟩ := hf
      refine hat he ?_
      show ref ∈ e.refs ++ [ref]
      exact List.mem_append_right _ (.head _)
  · cases hr

theorem Fits.plain : m.Plain := by
  obtain ⟨c, k, i⟩ := m
  have hcontrol := h.control
  refine ⟨h.state.hosts, ?_, ?_⟩
  · intro line action hc
    have hc : c = .act line action := hc
    subst hc
    exact hcontrol.1
  · intro line next k' hk
    have hk : k = .host line next :: k' := hk
    subst hk
    have hno {W : World} {env : Env} {S : List Names} : ¬Stack.Fits W env S (.host line next :: k') := by
      intro hfits
      cases hfits with
      | keep hf _ => exact hf
    cases c with
    | eval e =>
      obtain ⟨S, -, -, hk⟩ := hcontrol
      exact hno hk
    | exec s =>
      obtain ⟨S, -, -, hk⟩ := hcontrol
      exact hno hk
    | value u | done flow | act line action =>
      obtain ⟨-, S, -, hk⟩ := hcontrol
      exact hno hk
    | fault f =>
      obtain ⟨env, S, hk⟩ := hcontrol
      exact hno hk

/-- Tables that hold the distances of the accepted programs are read alike. -/
theorem Fits.readsAlike {v : Variant} (hid : ∀ n, v.labels.id n = n) (hD : Holds A v.distances) :
    m.ReadsAlike v := by
  intro ref hr
  obtain ⟨a, ha, hmem⟩ := h.occurrence hr
  rw [hid, hD a ha ref hmem, h.state.distances a ha ref hmem]

end

/-- Whatever the machine comes to takes its next step in the variant, too. -/
def Allows (v : Variant) (m : Machine) : Prop := ∀ m', Steps m m' → m'.Plain ∧ m'.ReadsAlike v

section

variable {v : Variant} {m m' : Machine}

theorem Allows.steps (h : m.Allows v) (hs : Steps m m') : m'.Allows v :=
  fun _ hs' ↦ h _ (hs.trans hs')

theorem Allows.step_vary (h : m.Allows v) (hend : m.isFinal = true → v.below = []) :
    (m.vary v).step = m.step.map (·.vary v) :=
  Machine.step_vary v (h m (.refl m)).1 (h m (.refl m)).2 hend

/-- A run in a variant, with no frames below, is the run itself. -/
theorem run_vary (h : m.Allows v) (hbelow : v.below = []) (fuel : Nat) :
    run fuel (m.vary v) = (run fuel m).map (·.vary v) := by
  induction fuel generalizing m with
  | zero => rfl
  | succ fuel ih =>
    rw [run, run, isFinal_vary v m hbelow, h.step_vary fun _ ↦ hbelow]
    split
    · rfl
    · cases hs : m.step with
      | none => rfl
      | some m₁ => exact ih (h.steps (.step (.refl m) hs))

/-- Above other frames the machine comes to what it comes to by itself. -/
theorem Allows.steps_vary (h : m.Allows v) (hs : Steps m m') : Steps (m.vary v) (m'.vary v) := by
  induction hs with
  | refl => exact .refl _
  | @step m₁ m₂ hs hstep ih =>
    refine .step ih ?_
    have hm₁ : m₁.isFinal ≠ true := fun hf ↦ by simp [step_of_isFinal hf] at hstep
    rw [(h.steps hs).step_vary fun hf ↦ absurd hf hm₁, hstep]
    rfl

/-- If there is an end above other frames, there is one without them. -/
theorem Allows.exists_run (h : m.Allows v) {fuel : Nat} (hr : run fuel (m.vary v) = some m') :
    ∃ m₁, Steps m m₁ ∧ m₁.isFinal = true := by
  induction fuel generalizing m with
  | zero => cases hr
  | succ fuel ih =>
    by_cases hf : m.isFinal = true
    · exact ⟨m, .refl m, hf⟩
    · rw [run, if_neg (not_isFinal_vary v hf), h.step_vary fun h ↦ absurd h hf] at hr
      cases hs : m.step with
      | none =>
        rw [hs] at hr
        cases hr
      | some m₂ =>
        rw [hs] at hr
        obtain ⟨m₁, hsteps, hfinal⟩ := ih (h.steps (.step (.refl m) hs)) hr
        exact ⟨m₁, .head hs hsteps, hfinal⟩

theorem id_eq_of_vary_eq (h : m.vary v = m) {ref : Ref} (hr : m.occurrence? = some ref) :
    v.labels.id ref.id = ref.id := by
  have hc := congrArg Machine.control h
  unfold occurrence? at hr
  split at hr
  · cases hr
    exact congrArg Ref.id (Expr.var.inj (Control.eval.inj hc))
  · cases hr
    exact congrArg Ref.id (Expr.this.inj (Control.eval.inj hc))
  · cases hr
    exact congrArg Ref.id (Expr.super.inj (Control.eval.inj hc)).1
  · next name superclass methods k i =>
    have hsuper : superclass.map (·.relabel v.labels) = superclass :=
      (Stmt.classDecl.inj (Control.exec.inj hc)).2.1
    rw [hr] at hsuper
    exact congrArg Ref.id (Option.some.inj hsuper)
  · cases hr
    have hk := congrArg Machine.stack h
    exact congrArg Ref.id (Frame.assign.inj (List.cons.inj hk).1)
  · cases hr

theorem readsAlike_of_vary_eq (h : m.vary v = m) : m.ReadsAlike v := by
  have hD : v.distances = m.state.distances := congrArg (·.state.distances) h
  intro ref hr
  rw [id_eq_of_vary_eq h hr, hD]

/-- What a variant leaves as it is stays so along a run. -/
theorem vary_eq_of_steps (hplain : ∀ m', Steps m m' → m'.Plain) (hbelow : v.below = [])
    (h : m.vary v = m) (hs : Steps m m') : m'.vary v = m' := by
  induction hs with
  | refl => exact h
  | step hs hstep ih =>
    have hvary := step_vary v (hplain _ hs) (readsAlike_of_vary_eq ih) fun _ ↦ hbelow
    rw [ih, hstep] at hvary
    exact (Option.some.inj hvary).symm

end

end Lox.Machine
