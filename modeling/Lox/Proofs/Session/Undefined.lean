import Lox.Proofs.Machine.Awaited
import Lox.Proofs.Machine.VariantStep
import Lox.Proofs.Scope.Premature
import Lox.Proofs.Session.Agreement
import Lox.Proofs.Session.Heap

namespace Lox

open Scope

def Control.undefined? : Control → Option String
  | .fault ⟨.undefinedVariable x, _⟩ => some x
  | _ => none

/-- There is no binding of its name where the recorded distance of an occurrence leads. -/
def Interpreter.Misses (i : Interpreter) (ref : Ref) : Prop :=
  ∀ d, i.distances.find? ref.id = some d → i.store.locateAt? i.env d ref.name.lexeme = none

theorem Scope.Pending.distanceIn_eq {S : List Names} {x : String} (h : Pending S x) :
    distanceIn S x = some 0 := by
  obtain ⟨s, hs, hx⟩ := h
  cases S with
  | nil => cases hs
  | cons s' S =>
    cases hs
    have hc : s.contains x = true := by
      rw [Bindings.contains, hx]
      rfl
    rw [distanceIn, List.findIdx?_cons, hc]
    rfl

namespace Store

variable {σ : Store} {env : Env} {d : Nat} {x : String}

theorem locateAt?_eq_none_iff : σ.locateAt? env d x = none ↔ σ.getAt? env d x = none := by
  unfold getAt?
  cases hid : σ.locateAt? env d x with
  | none => exact iff_of_true rfl rfl
  | some id =>
    have hbound : (σ.read? id x).isSome = true := (Option.filter_eq_some_iff.1 hid).2
    refine iff_of_false nofun fun hnone ↦ ?_
    rw [Option.bind_some] at hnone
    rw [hnone] at hbound
    cases hbound

end Store

namespace Interpreter

variable {i : Interpreter} {ref : Ref}

theorem misses_of_target? (h : i.target? ref = none) : i.Misses ref := by
  intro d hd
  rw [target?, hd] at h
  exact h

theorem misses_of_lookup {f : Fault} (h : i.lookup ref = .error f) :
    f = undefined ref.name ∧ i.Misses ref := by
  unfold lookup at h
  split at h
  · cases h
  · next hnone =>
    cases h
    refine ⟨rfl, misses_of_target? ?_⟩
    cases hid : i.target? ref with
    | none => rfl
    | some id =>
      have hbound : (i.store.read? id ref.name.lexeme).isSome = true := i.contains_of_target? hid
      rw [hid, Option.bind_some] at hnone
      rw [hnone] at hbound
      cases hbound

theorem Finds.distance_eq_none {e : Expr} (h : i.Finds e) (hr : e.read? = some ref) (hm : i.Misses ref) :
    i.distances.find? ref.id = none := by
  cases hd : i.distances.find? ref.id with
  | none => rfl
  | some d =>
    obtain ⟨v, hv⟩ := h.read ref d hr hd
    rw [Store.locateAt?_eq_none_iff.1 (hm d hd)] at hv
    cases hv

end Interpreter

namespace Machine

variable {i : Interpreter} {k : Stack} {x : String}

theorem undefined?_apply (i : Interpreter) (k : Stack) (f : Value) (vs : List Value) (paren : Token) :
    (apply i k f vs paren).control.undefined? = none := by
  unfold apply
  split
  · split
    · unfold invoke
      split
      · rfl
      · split <;> rfl
      · split
        · rfl
        · unfold construct
          dsimp only
          split <;> rfl
    · rfl
  · rfl

theorem undefined?_property (i : Interpreter) (k : Stack) (o : ObjectId) (name : Token) :
    (property i k o name).control.undefined? = none := by
  unfold property
  split
  · rfl
  · split
    · rfl
    · split <;> rfl

theorem undefined?_unary (i : Interpreter) (k : Stack) (line : Nat) (op : Kind) (v : Value) :
    (ofExcept i k line (v.unary op)).control.undefined? = none := by
  unfold Value.unary
  split <;> rfl

theorem undefined?_binary (i : Interpreter) (k : Stack) (line : Nat) (op : Kind) (a b : Value) :
    (ofExcept i k line (Value.binary op a b)).control.undefined? = none := by
  unfold Value.binary
  split
  · rfl
  · rfl
  · unfold Value.plus
    split <;> rfl
  · split
    · unfold Value.arithmetic
      split <;> rfl
    · rfl

theorem misses_of_superMethod {ref : Ref} {name : Token} (hr : ref.name.lexeme = "super")
    (hfinds : i.Finds (.super ref name)) (hx : (superMethod i k ref name).control.undefined? = some x) :
    ref.name.lexeme = x ∧ i.Misses ref := by
  unfold superMethod at hx
  split at hx
  · next hnone =>
    cases hx
    exact ⟨hr, fun d hd ↦ nomatch hnone.symm.trans hd⟩
  · next d hd =>
    split at hx
    · next hnone =>
      cases hx
      refine ⟨rfl, fun d' hd' ↦ ?_⟩
      cases hd.symm.trans hd'
      exact Store.locateAt?_eq_none_iff.2 hnone
    · split at hx
      · next hnone =>
        obtain ⟨v, hv⟩ := hfinds.this ref name d rfl hd
        cases hnone.symm.trans hv
      · split at hx <;> cases hx
      · cases hx
    · cases hx

theorem misses_of_eval {A : List Accepted} {e : Expr} (hf : Fits A ⟨.eval e, k, i⟩)
    (hx : (eval i k e).control.undefined? = some x) :
    ∃ ref, e.read? = some ref ∧ ref.name.lexeme = x ∧ i.Misses ref := by
  obtain ⟨S, hat, -, hfinds⟩ := hf.evaluated rfl
  cases e with
  | var ref | this ref =>
    rw [eval] at hx
    split at hx
    · cases hx
    · next hl =>
      obtain ⟨rfl, hmisses⟩ := Interpreter.misses_of_lookup hl
      cases hx
      exact ⟨ref, rfl, rfl, hmisses⟩
  | super ref name => exact ⟨ref, rfl, misses_of_superMethod hat.all hfinds hx⟩
  | _ => cases hx

theorem misses_of_exec {s : Stmt} (hx : (exec i k s).control.undefined? = some x) :
    ∃ name ref methods, s = .classDecl name (some ref) methods ∧ ref.name.lexeme = x ∧ i.Misses ref := by
  cases s with
  | classDecl name superclass methods =>
    cases superclass with
    | none => cases hx
    | some ref =>
      rw [exec, declareClass] at hx
      split at hx
      · next hl =>
        obtain ⟨rfl, hmisses⟩ := Interpreter.misses_of_lookup hl
        cases hx
        exact ⟨name, ref, methods, rfl, rfl, hmisses⟩
      · cases hx
      · cases hx
  | var _ value | ret _ value => cases value <;> cases hx
  | _ => cases hx

theorem misses_of_resume {v : Value} {frame : Frame} {m : Machine} (h : resume i k v frame = some m)
    (hx : m.control.undefined? = some x) :
    ∃ ref, frame = .assign ref ∧ ref.name.lexeme = x ∧ i.Misses ref := by
  cases resumed h with
  | unassignable ref hnone =>
    cases hx
    exact ⟨ref, rfl, rfl, Interpreter.misses_of_target? hnone⟩
  | callee | lastArgument =>
    rw [undefined?_apply] at hx
    cases hx
  | unary =>
    rw [undefined?_unary] at hx
    cases hx
  | binaryRight =>
    rw [undefined?_binary] at hx
    cases hx
  | get =>
    rw [undefined?_property] at hx
    cases hx
  | _ => cases hx

theorem undefined?_finish {W : World} {S : List Names} (hσ : W.store = i.store) {flow : Flow} {frame : Frame}
    (hs : Stack.Fits W i.env S (frame :: k)) {m : Machine} (h : finish i k flow frame = some m) :
    m.control.undefined? = none := by
  cases finished h with
  | @noThis _ c hc hnone =>
    cases hs with
    | keep hf =>
      have hthis := hf hc
      rw [hσ] at hthis
      have hinner : c.env.chain[0]? = some c.env.inner := rfl
      obtain ⟨v, hv⟩ := Store.getAt?_isSome hinner hthis
      cases hnone.symm.trans hv
  | _ => rfl

theorem undefined?_act {action : Action} (h : action.Plain) (line : Nat) :
    (act i k line action).control.undefined? = none := by
  cases h <;> rfl

/-- If a step reports a name, it is that of an occurrence at no recorded distance, or of an assignment. -/
theorem misses_of_step {A : List Accepted} {m m' : Machine} (hf : m.Fits A) (h : m.step = some m')
    (hm : m.control.undefined? = none) (hx : m'.control.undefined? = some x) :
    ∃ ref, m.occurrence? = some ref ∧ ref.name.lexeme = x ∧ (m.state.distances.find? ref.id = none ∨
      m.state.Misses ref ∧ ∃ v k, m = ⟨.value v, .assign ref :: k, m.state⟩) := by
  obtain ⟨control, k, i⟩ := m
  cases stepped h with
  | eval _ e =>
    obtain ⟨ref, hr, hname, hmisses⟩ := misses_of_eval hf hx
    obtain ⟨S, -, -, hfinds⟩ := hf.evaluated rfl
    refine ⟨ref, ?_, hname, .inl (hfinds.distance_eq_none hr hmisses)⟩
    cases e <;> cases hr <;> rfl
  | exec =>
    obtain ⟨name, ref, methods, rfl, hname, hmisses⟩ := misses_of_exec hx
    obtain ⟨S, -, -, hfinds⟩ := hf.evaluated rfl
    exact ⟨ref, rfl, hname, .inl (hfinds.distance_eq_none rfl hmisses)⟩
  | value h =>
    obtain ⟨ref, rfl, hname, hmisses⟩ := misses_of_resume h hx
    exact ⟨ref, rfl, hname, .inr ⟨hmisses, _, _, rfl⟩⟩
  | done h =>
    obtain ⟨-, S, -, hk⟩ := hf.control
    rw [undefined?_finish rfl hk h] at hx
    cases hx
  | act =>
    rw [undefined?_act hf.control.1] at hx
    cases hx
  | fault _ f frame =>
    obtain ⟨env, S, hk⟩ := hf.control
    cases hk with
    | keep hframe =>
      cases frame with
      | host => exact hframe.elim
      | _ => cases hm.symm.trans hx
    | _ => cases hm.symm.trans hx

end Machine

def Stmt.prematureIn (programs : List (List Stmt)) : List Ref := programs.flatMap (Stmt.prematureOf false)

/-- In programs that have no id in common, an assignment of one is premature in no other. -/
theorem Scope.Separate.mem_prematureIn {A : List Accepted} (hA : Separate A) {a : Accepted} (ha : a ∈ A)
    {ref : Ref} (hr : ref ∈ Stmt.refsOf a.program) :
    ref ∈ Stmt.prematureIn (A.map Accepted.program) ↔ ref ∈ Stmt.prematureOf false a.program := by
  rw [Stmt.prematureIn, List.mem_flatMap]
  constructor
  · rintro ⟨_, hp, hmem⟩
    obtain ⟨b, hb, rfl⟩ := List.mem_map.1 hp
    have hr' := (Stmt.prematureOf_sublist false b.program).subset hmem
    obtain rfl := hA a ha b hb ref hr ref hr' rfl
    exact hmem
  · exact fun hmem ↦ ⟨_, List.mem_map_of_mem ha, hmem⟩

section

variable {A : List Accepted} {i : Interpreter} {k : Stack} {v : Value} {ref : Ref} {d : Nat}

/-- At a recorded distance an assignment finds its target, unless that waits to be defined: then it is
not bound yet. -/
theorem Machine.Fits.locateAt?_eq_none_iff (hA : Separate A) (hf : Fits A ⟨.value v, .assign ref :: k, i⟩)
    (hw : Awaits ⟨.value v, .assign ref :: k, i⟩) (hd : i.distances.find? ref.id = some d) :
    i.store.locateAt? i.env d ref.name.lexeme = none ↔
      ref ∈ Stmt.prematureIn (A.map Accepted.program) := by
  obtain ⟨-, S, hready⟩ := hf.control
  have hagrees := hready.1
  cases hready.2 with
  | keep hframe =>
    obtain ⟨e, hat⟩ := hframe
    have hdistance : distanceIn S ref.name.lexeme = some d := by
      rw [← hf.state.distances.find?_eq hat rfl]
      exact hd
    obtain ⟨a, ha, c, w, hv, rfl⟩ := hat
    have hmem : ref ∈ Stmt.refsOf a.program := hv.refs_sublist.subset (Expr.mem_refs_of_ref? rfl)
    rw [hA.mem_prematureIn ha hmem, Accepted.premature_iff_pending hv]
    constructor
    · intro hnone
      refine Classical.byContradiction fun hpending ↦ ?_
      obtain ⟨id, hid, hx⟩ := hagrees.bound (readable_of_distanceIn hdistance (Accepted.settles hv) hpending)
      have hbound : i.store.contains id ref.name.lexeme = true := hx
      rw [Store.locateAt?, hid, Option.filter, hbound] at hnone
      cases hnone
    · intro hpending
      obtain rfl : 0 = d := Option.some.inj (hpending.distanceIn_eq.symm.trans hdistance)
      have hunbound := Interpreter.Awaits.unbound hw hready hpending
      rw [Store.locateAt?, Env.chain, List.getElem?_cons_zero, Option.filter, hunbound]
      rfl

theorem Machine.step_assign_some {id : ScopeId} (hd : i.distances.find? ref.id = some d)
    (hid : i.store.locateAt? i.env d ref.name.lexeme = some id) (v : Value) (k : Stack) :
    ∃ σ, i.store.assignAt? i.env d ref.name.lexeme v = some σ ∧
      step ⟨.value v, .assign ref :: k, i⟩ = some ⟨.value v, k, { i with store := σ }⟩ := by
  have htarget : i.target? ref = some id := by rw [Interpreter.target?, hd]; exact hid
  refine ⟨i.store.define id ref.name.lexeme v, by rw [Store.assignAt?, hid]; rfl, ?_⟩
  rw [step, resume, htarget]

theorem Machine.step_assign_none (hd : i.distances.find? ref.id = some d)
    (hid : i.store.locateAt? i.env d ref.name.lexeme = none) (v : Value) (k : Stack) :
    i.store.assignAt? i.env d ref.name.lexeme v = none ∧
      step ⟨.value v, .assign ref :: k, i⟩ = some ⟨.fault (Interpreter.undefined ref.name), k, i⟩ := by
  have htarget : i.target? ref = none := by rw [Interpreter.target?, hd]; exact hid
  refine ⟨by rw [Store.assignAt?, hid]; rfl, ?_⟩
  rw [step, resume, htarget]

end

theorem Interpreter.start_awaits {i : Interpreter} (henv : i.env = i.globalEnv)
    (hg : i.globals < i.store.scopes.size) (program : List Stmt) : (i.start program).Awaits := by
  refine ⟨?_, fun houter ↦ absurd ?_ houter, trivial⟩
  · show i.env.inner < i.store.scopes.size
    rw [henv]
    exact hg
  · show i.env.outer = []
    rw [henv]
    rfl

theorem Session.History.life {H : List (List Stmt × Distances)} {s : Session} (h : History H s) :
    ∃ sink clock, Machine.Life (Interpreter.new sink clock).idle s.interpreter.idle := by
  induction h with
  | new sink clock => exact ⟨sink, clock, .refl⟩
  | run _ hr ih =>
    obtain ⟨sink, clock, h⟩ := ih
    exact ⟨sink, clock, h.run hr⟩

/-- An assignment at a recorded distance takes place unless it stands in the initial value of a local
variable of the same name; there its target is not bound yet. No other name that is resolved to a local
scope is ever reported as undefined. -/
theorem Session.History.assignment_fails_iff_premature {H : List (List Stmt × Distances)} {s s' : Session}
    (h : History H s) {source : String} {program : List Stmt} (hp : s.prepare source = (.ok program, s'))
    {m : Machine} (hm : Machine.Steps (s'.interpreter.start program) m) :
    (∀ v ref k d, m = ⟨.value v, .assign ref :: k, m.state⟩ → m.state.distances.find? ref.id = some d →
      (ref ∉ Stmt.prematureIn (program :: H.map Prod.fst) →
        ∃ σ, m.state.store.assignAt? m.state.env d ref.name.lexeme v = some σ ∧
          m.step = some ⟨.value v, k, { m.state with store := σ }⟩) ∧
      (ref ∈ Stmt.prematureIn (program :: H.map Prod.fst) →
        m.state.store.assignAt? m.state.env d ref.name.lexeme v = none ∧
          m.step = some ⟨.fault (Interpreter.undefined ref.name), k, m.state⟩)) ∧
    ∀ m' x, m.step = some m' → m.control.undefined? = none → m'.control.undefined? = some x →
      ∃ ref, m.occurrence? = some ref ∧ ref.name.lexeme = x ∧ (m.state.distances.find? ref.id = none ∨
        ref ∈ Stmt.prematureIn (program :: H.map Prod.fst)) := by
  obtain ⟨A, rfl, hs⟩ := h.fits
  obtain ⟨sink, clock, hlife⟩ := h.life
  have hg := (Machine.Life.accept hlife hp).globals_lt
  obtain ⟨a, rfl, -, hs'⟩ := prepare_ok_fits hs hp
  have hstart := Interpreter.start_fits hs'.interpreter hs'.env (.head A)
  obtain ⟨hfits, hawaits⟩ : m.Fits (a :: A) ∧ m.Awaits :=
    hm.invariant (P := fun m ↦ m.Fits (a :: A) ∧ m.Awaits)
      ⟨hstart, Interpreter.start_awaits hs'.env hg a.program⟩
      fun _ _ h hs ↦ ⟨Machine.step_fits h.1 hs, Machine.step_awaits h.1 h.2 hs⟩
  have hprograms : a.program :: (A.map fun a ↦ (a.program, a.before)).map Prod.fst =
      (a :: A).map Accepted.program := by
    rw [List.map_map, List.map_cons]
    rfl
  rw [hprograms]
  have hnone {v : Value} {ref : Ref} {k : Stack} {d : Nat}
      (hm : m = ⟨.value v, .assign ref :: k, m.state⟩) (hd : m.state.distances.find? ref.id = some d) :
      m.state.store.locateAt? m.state.env d ref.name.lexeme = none ↔
        ref ∈ Stmt.prematureIn ((a :: A).map Accepted.program) :=
    Machine.Fits.locateAt?_eq_none_iff hs'.separate (hm ▸ hfits) (hm ▸ hawaits) hd
  refine ⟨fun v ref k d hm hd ↦ ⟨fun hr ↦ ?_, fun hr ↦ ?_⟩, fun m' x hs hno hx ↦ ?_⟩
  · obtain ⟨id, hid⟩ := Option.ne_none_iff_exists'.1 (mt (hnone hm hd).1 hr)
    rw [hm]
    exact Machine.step_assign_some hd hid v k
  · rw [hm]
    exact Machine.step_assign_none hd ((hnone hm hd).2 hr) v k
  · obtain ⟨ref, hr, hname, hd | ⟨hmisses, v, k, hm⟩⟩ := Machine.misses_of_step hfits hs hno hx
    · exact ⟨ref, hr, hname, .inl hd⟩
    · refine ⟨ref, hr, hname, Classical.or_iff_not_imp_left.2 fun hd ↦ ?_⟩
      obtain ⟨d, hd⟩ := Option.ne_none_iff_exists'.1 hd
      exact (hnone hm hd).1 (hmisses d hd)

def Machine.assigned? : Machine → Option (Value × Ref × Stack)
  | ⟨.value v, .assign ref :: k, _⟩ => some (v, ref, k)
  | _ => none

theorem Machine.eq_of_assigned? {m : Machine} {v : Value} {ref : Ref} {k : Stack}
    (h : m.assigned? = some (v, ref, k)) : m = ⟨.value v, .assign ref :: k, m.state⟩ := by
  unfold assigned? at h
  split at h
  · cases h
    rfl
  · cases h

theorem Session.local_assignment_succeeds : ∃ H s program s' m v ref k d σ, History H s ∧
    s.prepare "f();" = (.ok program, s') ∧ Machine.Steps (s'.interpreter.start program) m ∧
    m = ⟨.value v, .assign ref :: k, m.state⟩ ∧ m.state.distances.find? ref.id = some d ∧
    m.state.store.assignAt? m.state.env d ref.name.lexeme v = some σ ∧
    m.step = some ⟨.value v, k, { m.state with store := σ }⟩ := by
  let new := Session.new .unbounded .ticking
  let premature (s : Session) : List Ref := Stmt.prematureIn
    ((s.accepts "f();" ++ new.accepts "fun f() { var n = 0; n = n + 1; }").map Prod.fst)
  have hreach : (new.run 100 "fun f() { var n = 0; n = n + 1; }").any (fun r ↦
      (premature r.2).isEmpty && (r.2.reach 17 "f();").any fun m ↦ m.assigned?.any fun p ↦
        (m.state.distances.find? p.2.1.id).isSome) = true := by
    decide +kernel
  obtain ⟨⟨ds, s⟩, hrun, hcheck⟩ := (Option.any_eq_true _ _).1 hreach
  obtain ⟨hempty, hreach⟩ := Bool.and_eq_true_iff.1 hcheck
  obtain ⟨m, hm, hassigned⟩ := (Option.any_eq_true _ _).1 hreach
  obtain ⟨⟨v, ref, k⟩, hassigned, hsome⟩ := (Option.any_eq_true _ _).1 hassigned
  obtain ⟨d, hd⟩ := Option.isSome_iff_exists.1 hsome
  have hs := History.run (.new .unbounded .ticking 0 .empty) hrun
  obtain ⟨program, s', hp, hsteps⟩ := steps_of_reach hm
  have heq := Machine.eq_of_assigned? hassigned
  have hpremature : Stmt.prematureIn
      (program :: (new.accepts "fun f() { var n = 0; n = n + 1; }" ++ []).map Prod.fst) = [] := by
    have hnil := List.isEmpty_iff.1 hempty
    dsimp only [premature] at hnil
    rw [accepts, hp] at hnil
    rw [List.append_nil]
    exact hnil
  obtain ⟨σ, hassign, hstep⟩ := ((hs.assignment_fails_iff_premature hp hsteps).1 v ref k d heq hd).1
    (hpremature ▸ List.not_mem_nil)
  exact ⟨_, s, program, s', m, v, ref, k, d, σ, hs, hp, hsteps, heq, hd, hassign, hstep⟩

/-- In its own initial value a local variable has a distance, but is not bound. -/
theorem Session.own_initializer_assignment_fails : ∃ program s' m v ref k,
    (Session.new .unbounded .ticking).prepare "{ var a = a = 1; print a; }" = (.ok program, s') ∧
    Machine.Steps (s'.interpreter.start program) m ∧ m = ⟨.value v, .assign ref :: k, m.state⟩ ∧
    m.state.distances.find? ref.id = some 0 ∧
    m.state.store.assignAt? m.state.env 0 ref.name.lexeme v = none ∧
    (m.step.bind (·.control.undefined?)) = some "a" := by
  have hreach : ((Session.new .unbounded .ticking).reach 6 "{ var a = a = 1; print a; }").any (fun m ↦
      m.assigned?.any fun p ↦ m.state.distances.find? p.2.1.id == some 0 &&
        (m.state.store.assignAt? m.state.env 0 p.2.1.name.lexeme p.1).isNone &&
        (m.step.bind (·.control.undefined?)) == some "a") = true := by
    decide +kernel
  obtain ⟨m, hm, hassigned⟩ := (Option.any_eq_true _ _).1 hreach
  obtain ⟨⟨v, ref, k⟩, hassigned, hcheck⟩ := (Option.any_eq_true _ _).1 hassigned
  obtain ⟨program, s', hp, hsteps⟩ := steps_of_reach hm
  simp only [Bool.and_eq_true, beq_iff_eq, Option.isNone_iff_eq_none] at hcheck
  obtain ⟨⟨hdistance, hnone⟩, hfault⟩ := hcheck
  exact ⟨program, s', m, v, ref, k, hp, hsteps, Machine.eq_of_assigned? hassigned, hdistance, hnone, hfault⟩

end Lox
