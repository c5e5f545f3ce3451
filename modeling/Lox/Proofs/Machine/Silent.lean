import Lox.Proofs.Machine.Run
import Lox.Proofs.Machine.Transition

namespace Lox

def Interpreter.withSink (s : Sink) (i : Interpreter) : Interpreter := { i with sink := s }

namespace Machine

def withSink (s : Sink) (m : Machine) : Machine := { m with state := m.state.withSink s }

def prints? : Machine → Option (Nat × String)
  | ⟨.value v, .print line :: _, i⟩ => some (line, i.store.display v)
  | _ => none

/-- What a machine does that neither looks at the sink nor begins to print, by the sink that it has. -/
structure Silent (k : Stack) (f : Sink → Machine) : Prop where
  blind : ∀ s s', f s' = (f s).withSink s'
  sink : ∀ s, (f s).state.sink = s
  stack : ∀ s, ∃ pushed, (f s).stack = pushed ++ k ∧ ∀ line, .print line ∉ pushed

section

variable {i : Interpreter} {k : Stack}

theorem Silent.intro (c : Control) {pushed : Stack} (h : ∀ line, .print line ∉ pushed) (i : Interpreter) :
    Silent k fun s ↦ ⟨c, pushed ++ k, i.withSink s⟩ :=
  ⟨fun _ _ ↦ rfl, fun _ ↦ rfl, fun _ ↦ ⟨pushed, rfl, h⟩⟩

theorem Silent.handOn (c : Control) (i : Interpreter) : Silent k fun s ↦ ⟨c, k, i.withSink s⟩ :=
  .intro c (fun _ ↦ List.not_mem_nil) i

theorem Silent.push (c : Control) {frame : Frame} (h : ∀ line, frame ≠ .print line) (i : Interpreter) :
    Silent k fun s ↦ ⟨c, frame :: k, i.withSink s⟩ :=
  .intro c (fun line hmem ↦ h line (List.mem_singleton.1 hmem).symm) i

theorem Silent.below {f : Sink → Machine} {frame : Frame} (h : Silent (frame :: k) f)
    (hf : ∀ line, frame ≠ .print line) : Silent k f := by
  refine ⟨h.blind, h.sink, fun s ↦ ?_⟩
  obtain ⟨pushed, hstack, hp⟩ := h.stack s
  refine ⟨pushed ++ [frame], by simpa using hstack, fun line hmem ↦ ?_⟩
  rcases List.mem_append.1 hmem with hmem | hmem
  · exact hp line hmem
  · exact hf line (List.mem_singleton.1 hmem).symm

theorem enterBlock_silent (env : Env) (b : Bindings Value) (body : List Stmt) :
    Silent k fun s ↦ enterBlock (i.withSink s) k env b body := by
  simp only [enterBlock, Interpreter.withSink]
  exact .push _ (fun _ h ↦ by cases h) { i with store := _, env := _ }

theorem enterClosure_silent (c : Closure) (arguments : List Value) :
    Silent k fun s ↦ enterClosure (i.withSink s) k c arguments :=
  (enterBlock_silent c.env _ c.decl.body).below (fun _ h ↦ by cases h)

theorem bindMethod_silent (method : Closure) (object : ObjectId) :
    Silent k fun s ↦ bindMethod (i.withSink s) k method object := by
  simp only [bindMethod, Interpreter.withSink]
  exact .handOn _ { i with store := _ }

theorem construct_silent (c : Class) (arguments : List Value) :
    Silent k fun s ↦ construct (i.withSink s) k c arguments := by
  simp only [construct, Interpreter.withSink]
  split
  · exact .handOn _ { i with store := _ }
  · exact (enterClosure_silent (i := { i with store := _ }) _ _).below (fun _ h ↦ by cases h)

theorem invoke_silent (c : Callable) (arguments : List Value) (line : Nat) :
    Silent k fun s ↦ invoke (i.withSink s) k c arguments line := by
  cases c with
  | native f => exact .handOn (.act line (i.host f arguments)) i
  | function id c =>
    by_cases hd : maxCallDepth ≤ i.depth
    · have heq (s : Sink) : invoke (i.withSink s) k (.function id c) arguments line =
          ⟨.fault ⟨.stackOverflow, line⟩, k, i.withSink s⟩ := if_pos hd
      simp only [heq]
      exact .handOn _ i
    · have heq (s : Sink) : invoke (i.withSink s) k (.function id c) arguments line =
          enterClosure ({ i with depth := i.depth + 1 }.withSink s) (.leave :: k) c arguments := if_neg hd
      simp only [heq]
      exact (enterClosure_silent c arguments).below (fun _ h ↦ by cases h)
  | cls c =>
    by_cases hd : maxCallDepth ≤ i.depth
    · have heq (s : Sink) : invoke (i.withSink s) k (.cls c) arguments line =
          ⟨.fault ⟨.stackOverflow, line⟩, k, i.withSink s⟩ := if_pos hd
      simp only [heq]
      exact .handOn _ i
    · have heq (s : Sink) : invoke (i.withSink s) k (.cls c) arguments line =
          construct ({ i with depth := i.depth + 1 }.withSink s) (.leave :: k) c arguments := if_neg hd
      simp only [heq]
      exact (construct_silent c arguments).below (fun _ h ↦ by cases h)

theorem apply_silent (f : Value) (arguments : List Value) (paren : Token) :
    Silent k fun s ↦ apply (i.withSink s) k f arguments paren := by
  cases f with
  | callable c =>
    simp only [apply]
    split
    · exact invoke_silent c arguments paren.line
    · exact .handOn _ i
  | _ => exact .handOn _ i

theorem property_silent (object : ObjectId) (name : Token) :
    Silent k fun s ↦ property (i.withSink s) k object name := by
  have hstore (s : Sink) : (i.withSink s).store = i.store := rfl
  simp only [property, hstore]
  split
  · exact .handOn _ i
  · split
    · exact .handOn _ i
    · split
      · exact bindMethod_silent _ object
      · exact .handOn _ i

theorem superMethod_silent (ref : Ref) (name : Token) :
    Silent k fun s ↦ superMethod (i.withSink s) k ref name := by
  have hstore (s : Sink) : (i.withSink s).store = i.store := rfl
  have henv (s : Sink) : (i.withSink s).env = i.env := rfl
  have hD (s : Sink) : (i.withSink s).distances = i.distances := rfl
  simp only [superMethod, hstore, henv, hD]
  split
  · exact .handOn _ i
  · split
    · exact .handOn _ i
    · split
      · exact .handOn _ i
      · split
        · exact bindMethod_silent _ _
        · exact .handOn _ i
      · exact .handOn _ i
    · exact .handOn _ i

theorem defineClass_silent (name : Token) (superclass : Option Class) (methods : List FunctionDecl)
    (env : Env) : Silent k fun s ↦ defineClass (i.withSink s) k name superclass methods env := by
  simp only [defineClass, Interpreter.withSink]
  exact .handOn _ { i with store := _ }

theorem declareClass_silent (name : Token) (superclass : Option Ref) (methods : List FunctionDecl) :
    Silent k fun s ↦ declareClass (i.withSink s) k name superclass methods := by
  have hlookup (s : Sink) (ref : Ref) : (i.withSink s).lookup ref = i.lookup ref := rfl
  cases superclass with
  | none => exact defineClass_silent name none methods i.env
  | some ref =>
    simp only [declareClass, hlookup]
    split
    · exact .handOn _ i
    · next c _ =>
      let scope := Bindings.empty.insert "super" (Value.callable (.cls c))
      exact defineClass_silent (i := { i with store := i.store.addScope scope }) name (some c) methods
        (i.env.enclose i.store.nextScope)
    · exact .handOn _ i

theorem ofExcept_silent (line : Nat) (o : Except FaultCause Value) :
    Silent k fun s ↦ ofExcept (i.withSink s) k line o := by
  cases o <;> exact .handOn _ i

theorem eval_silent (e : Expr) : Silent k fun s ↦ eval (i.withSink s) k e := by
  have hlookup (s : Sink) (ref : Ref) : (i.withSink s).lookup ref = i.lookup ref := rfl
  cases e with
  | literal | grouping => exact .handOn _ i
  | var ref | this ref =>
    simp only [eval, hlookup]
    split <;> exact .handOn _ i
  | super ref name => exact superMethod_silent ref name
  | _ => exact .push _ (fun _ h ↦ by cases h) i

theorem exec_silent {stmt : Stmt} (h : ∀ e, stmt ≠ .print e) :
    Silent k fun s ↦ exec (i.withSink s) k stmt := by
  cases stmt with
  | print e => exact absurd rfl (h e)
  | var name initial =>
    cases initial with
    | none => exact .handOn _ (i.define name.lexeme .nil)
    | some e => exact .push _ (fun _ h ↦ by cases h) i
  | block body => exact enterBlock_silent i.env .empty body
  | function decl =>
    exact .handOn _ ({ i with store := i.store.freshIdentity }.define decl.name.lexeme
      (.callable (.function i.store.nextIdentity ⟨decl, i.env, false⟩)))
  | ret keyword value =>
    cases value with
    | none => exact .handOn _ i
    | some e => exact .push _ (fun _ h ↦ by cases h) i
  | classDecl name superclass methods => exact declareClass_silent name superclass methods
  | _ => exact .push _ (fun _ h ↦ by cases h) i

theorem act_silent (line : Nat) (action : Action) : Silent k fun s ↦ act (i.withSink s) k line action := by
  cases action with
  | done | fail => exact .handOn _ i
  | time next => exact .handOn (.act line (next i.clock.now)) { i with clock := i.clock.advance }
  | call callee arguments callLine next => exact (invoke_silent callee arguments callLine).below (fun _ h ↦ by cases h)

theorem unwind_silent (f : Fault) (frame : Frame) : Silent k fun s ↦ unwind (i.withSink s) k f frame := by
  cases frame with
  | block rest saved => exact .handOn _ { i with env := saved }
  | leave => exact .handOn _ { i with depth := i.depth - 1 }
  | _ => exact .handOn _ i

def SilentOption (k : Stack) (f : Sink → Option Machine) : Prop :=
  (∀ s, f s = none) ∨ ∃ g, Silent k g ∧ ∀ s, f s = some (g s)

theorem Silent.some {f : Sink → Machine} (h : Silent k f) : SilentOption k fun s ↦ Option.some (f s) :=
  .inr ⟨f, h, fun _ ↦ rfl⟩

theorem resume_silent (v : Value) {frame : Frame} (h : ∀ line, frame ≠ .print line) :
    SilentOption k fun s ↦ resume (i.withSink s) k v frame := by
  have htarget (s : Sink) (ref : Ref) : (i.withSink s).target? ref = i.target? ref := rfl
  cases frame with
  | body | block | program | result => exact .inl fun _ ↦ rfl
  | print line => exact absurd rfl (h line)
  | unary op | binaryRight left op => exact (ofExcept_silent _ _).some
  | logical op right =>
    simp only [resume]
    split <;> exact (Silent.handOn _ i).some
  | assign ref =>
    simp only [resume, htarget]
    split
    · next id _ => exact (Silent.handOn _ { i with store := i.store.define id ref.name.lexeme v }).some
    · exact (Silent.handOn _ i).some
  | callee rest paren =>
    cases rest with
    | nil => exact (apply_silent v [] paren).some
    | cons e rest => exact (Silent.push _ (fun _ h ↦ by cases h) i).some
  | argument callee known rest paren =>
    cases rest with
    | nil => exact (apply_silent callee _ paren).some
    | cons e rest => exact (Silent.push _ (fun _ h ↦ by cases h) i).some
  | get name =>
    cases v with
    | object object => exact (property_silent object name).some
    | _ => exact (Silent.handOn _ i).some
  | setObject name value =>
    cases v with
    | object object => exact (Silent.push _ (fun _ h ↦ by cases h) i).some
    | _ => exact (Silent.handOn _ i).some
  | setValue object name =>
    exact (Silent.handOn _ { i with store := i.store.setField object name.lexeme v }).some
  | define name => exact (Silent.handOn _ (i.define name.lexeme v)).some
  | branch yes no =>
    cases no <;> simp only [resume] <;> split <;> exact (Silent.handOn _ i).some
  | test e s =>
    simp only [resume]
    split
    · exact (Silent.push _ (fun _ h ↦ by cases h) i).some
    · exact (Silent.handOn _ i).some
  | leave => exact (Silent.handOn _ { i with depth := i.depth - 1 }).some
  | binaryLeft => exact (Silent.push _ (fun _ h ↦ by cases h) i).some
  | _ => exact (Silent.handOn _ i).some

theorem finish_silent (flow : Flow) (frame : Frame) :
    SilentOption k fun s ↦ finish (i.withSink s) k flow frame := by
  have hstore (s : Sink) : (i.withSink s).store = i.store := rfl
  cases frame with
  | body test body =>
    cases flow with
    | normal => exact (Silent.push _ (fun _ h ↦ by cases h) i).some
    | returned v => exact (Silent.handOn _ i).some
  | block rest saved =>
    cases flow with
    | normal =>
      cases rest with
      | nil => exact (Silent.handOn _ { i with env := saved }).some
      | cons s rest => exact (Silent.push _ (fun _ h ↦ by cases h) i).some
    | returned v => exact (Silent.handOn _ { i with env := saved }).some
  | program rest =>
    cases rest with
    | nil => exact (Silent.handOn _ i).some
    | cons s rest => exact (Silent.push _ (fun _ h ↦ by cases h) i).some
  | result c =>
    simp only [finish, hstore]
    split
    · split <;> exact (Silent.handOn _ i).some
    · exact (Silent.handOn _ i).some
  | _ => exact .inl fun _ ↦ rfl

end

theorem withSink_sink (m : Machine) : m.withSink m.state.sink = m := rfl

/-- The part of the stack that the next step leaves as it is. -/
def floor : Machine → Stack
  | ⟨.eval _, k, _⟩ | ⟨.exec _, k, _⟩ | ⟨.act _ _, k, _⟩ => k
  | ⟨.value _, k, _⟩ | ⟨.done _, k, _⟩ | ⟨.fault _, k, _⟩ => k.tail

theorem floor_suffix (m : Machine) : m.floor <:+ m.stack := by
  obtain ⟨c, k, i⟩ := m
  cases c with
  | eval | exec | act => exact List.suffix_rfl
  | value | done | fault => exact List.tail_suffix k

/-- Frames below the topmost are not touched. -/
theorem suffix_floor {m : Machine} {k : Stack} (hk : k <:+ m.stack) (hne : m.stack ≠ k) : k <:+ m.floor := by
  obtain ⟨c, stack, i⟩ := m
  have htail : k <:+ stack.tail := by
    cases stack with
    | nil => exact hk
    | cons frame rest => exact (List.suffix_cons_iff.1 hk).resolve_left fun heq ↦ hne heq.symm
  cases c with
  | eval | exec | act => exact hk
  | value | done | fault => exact htail

theorem step_silent {m : Machine} (hp : m.prints? = none) (hx : ∀ e, m.control ≠ .exec (.print e)) :
    SilentOption m.floor fun s ↦ (m.withSink s).step := by
  obtain ⟨c, k, i⟩ := m
  cases c with
  | eval e => exact (eval_silent e).some
  | exec stmt => exact (exec_silent fun e h ↦ hx e (h ▸ rfl)).some
  | act line action => exact (act_silent line action).some
  | value v =>
    cases k with
    | nil => exact .inl fun _ ↦ rfl
    | cons frame k =>
      refine resume_silent v fun line h ↦ ?_
      subst h
      cases hp
  | done flow =>
    cases k with
    | nil => exact .inl fun _ ↦ rfl
    | cons frame k => exact finish_silent flow frame
  | fault f =>
    cases k with
    | nil => exact .inl fun _ ↦ rfl
    | cons frame k => exact (unwind_silent f frame).some

/-- Only a step that prints looks at the sink. -/
theorem step_withSink {m : Machine} (hp : m.prints? = none) (s : Sink) :
    (m.withSink s).step = m.step.map (·.withSink s) := by
  by_cases hx : ∃ e, m.control = .exec (.print e)
  · obtain ⟨e, hx⟩ := hx
    obtain ⟨c, k, i⟩ := m
    subst hx
    rfl
  · obtain hnone | ⟨g, hg, hstep⟩ := step_silent hp (not_exists.1 hx)
    · have hm : m.step = none := hnone m.state.sink
      rw [hm]
      exact hnone s
    · have hm : m.step = some (g m.state.sink) := hstep m.state.sink
      rw [hm, Option.map_some, ← hg.blind]
      exact hstep s

theorem step_sink {m m' : Machine} (h : m.step = some m') (hp : m.prints? = none) :
    m'.state.sink = m.state.sink := by
  have hw := step_withSink hp m.state.sink
  rw [withSink_sink, h, Option.map_some] at hw
  exact congrArg (fun m ↦ m.state.sink) (Option.some.inj hw)

theorem prints?_eq_some {m : Machine} {p : Nat × String} (h : m.prints? = some p) :
    ∃ v k, m = ⟨.value v, .print p.1 :: k, m.state⟩ ∧ p.2 = m.state.store.display v := by
  unfold prints? at h
  split at h
  · next v line k i =>
    cases h
    exact ⟨v, k, rfl, rfl⟩
  · cases h

theorem stack_of_prints? {m m' : Machine} {p : Nat × String} (hp : m.prints? = some p)
    (h : m.step = some m') : m'.stack = m.floor := by
  obtain ⟨v, k, hm, -⟩ := prints?_eq_some hp
  rw [hm] at h ⊢
  have h : resume m.state k v (.print p.1) = some m' := h
  cases resumed h <;> rfl

/-- A step takes at most one frame from the stack. What it puts there prints only for a statement that has just
begun. -/
theorem step_stack {m m' : Machine} (h : m.step = some m') :
    (∃ e, m.control = .exec (.print e) ∧ m'.stack = .print e.line :: m.stack) ∨
      ∃ pushed, m'.stack = pushed ++ m.floor ∧ ∀ line, .print line ∉ pushed := by
  by_cases hx : ∃ e, m.control = .exec (.print e)
  · obtain ⟨e, hx⟩ := hx
    obtain ⟨c, k, i⟩ := m
    subst hx
    cases h
    exact .inl ⟨e, rfl, rfl⟩
  · right
    cases hp : m.prints? with
    | none =>
      obtain hnone | ⟨g, hg, hstep⟩ := step_silent hp (not_exists.1 hx)
      · cases h.symm.trans (hnone m.state.sink)
      · obtain rfl : m' = g m.state.sink := Option.some.inj (h.symm.trans (hstep m.state.sink))
        exact hg.stack m.state.sink
    | some p => exact ⟨[], stack_of_prints? hp h, fun _ ↦ List.not_mem_nil⟩

theorem suffix_of_suffix_append {frame : Frame} {pushed k k' : Stack} (h : frame :: k <:+ pushed ++ k')
    (hp : frame ∉ pushed) : frame :: k <:+ k' := by
  induction pushed with
  | nil => exact h
  | cons top pushed ih =>
    rcases List.suffix_cons_iff.1 h with heq | h
    · exact absurd (List.mem_cons.2 (.inl (List.cons.inj heq).1)) hp
    · exact ih h fun hmem ↦ hp (List.mem_cons_of_mem top hmem)

/-- Where a frame for printing comes from: it has been on the stack, or a statement that prints has
just begun. -/
theorem step_print_suffix {m m' : Machine} (h : m.step = some m') {line : Nat} {k : Stack}
    (hk : .print line :: k <:+ m'.stack) : .print line :: k <:+ m.stack ∨
      ∃ e, m.control = .exec (.print e) ∧ line = e.line ∧ m.stack = k ∧ m'.stack = .print line :: k := by
  obtain ⟨e, hx, hstack⟩ | ⟨pushed, hstack, hpushed⟩ := step_stack h
  · rw [hstack] at hk ⊢
    obtain heq | hk := List.suffix_cons_iff.1 hk
    · cases heq
      exact .inr ⟨e, hx, rfl, rfl, rfl⟩
    · exact .inl hk
  · rw [hstack] at hk
    exact .inl ((suffix_of_suffix_append hk (hpushed line)).trans m.floor_suffix)

theorem step_floor {m m' : Machine} (h : m.step = some m') : m.floor <:+ m'.stack := by
  obtain ⟨e, -, hstack⟩ | ⟨pushed, hstack, -⟩ := step_stack h
  · rw [hstack]
    exact m.floor_suffix.trans (List.suffix_cons _ _)
  · exact hstack ▸ List.suffix_append pushed m.floor

end Machine

end Lox
