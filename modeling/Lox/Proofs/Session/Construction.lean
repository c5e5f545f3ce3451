import Lox.Proofs.Machine.Return
import Lox.Proofs.Scope.Legal
import Lox.Proofs.Session.Moment

namespace Lox

open Scope

theorem Class.findMethod?_eq (c : Class) (x : String) :
    c.findMethod? x = c.lineage.findSome? (·.methods.find? x) := by
  induction c using lineage.induct with
  | case1 id name methods =>
    rw [findMethod?, lineage, List.findSome?_singleton]
    rfl
  | case2 id name superclass methods ih =>
    rw [findMethod?, lineage, List.findSome?_cons, ih]
    simp only [Class.methods]
    cases methods.find? x <;> rfl

theorem Class.initializer?_eq (c : Class) :
    c.initializer? = c.lineage.findSome? (·.methods.find? "init") := c.findMethod?_eq "init"

namespace Machine

/-- In the step from `m` to `m₁` a method is entered as the initializer of the object `o`: in a new scope in
which `this` is that object, and a new one inside it in which the parameters are the arguments, in order. -/
structure EntersInitializer (m m₁ : Machine) (k : Stack) (method : Closure) (o : ObjectId)
    (arguments : List Value) (scope inner : ScopeId) : Prop where
  step : m.step = some m₁
  stack : m₁.control = .done .normal ∧ m₁.stack = .block method.decl.body m.state.env ::
    .result (bound method scope) :: .construct o :: .leave :: k
  env : m₁.state.env = ⟨inner, scope :: method.env.chain⟩
  fresh : m.state.store.scopes.size ≤ scope ∧ scope < inner
  this : ∀ x, m₁.state.store.read? scope x = if x = "this" then some (.object o) else none
  arity : arguments.length = method.decl.params.length
  params : ∀ (n : Nat) (t : Token), method.decl.params[n]? = some t →
    m₁.state.store.read? inner t.lexeme = arguments[n]?

/-- The call of a class has given a value: a new object of the class. If a class in its line has an initializer,
the nearest one has run for this object, from its beginning to its end, and nothing else; if none has, nothing
has run at all. -/
def Constructs (m : Machine) (c : Class) (arguments : List Value) (k : Stack) (w : Value) (j : Interpreter) :
    Prop :=
  ∃ o, w = .object o ∧ m.state.store.object? o = none ∧
    (∃ ob, j.store.object? o = some ob ∧ ob.cls = c) ∧
    (c.lineage.findSome? (·.methods.find? "init") = none →
      arguments = [] ∧ m.after 2 = some ⟨.value w, k, j⟩) ∧
    ∀ method, c.lineage.findSome? (·.methods.find? "init") = some method →
      ∃ m₁ scope inner flow i', m.EntersInitializer m₁ k method o arguments scope inner ∧
        Through (InBlock m.state.env (.result (bound method scope) :: .construct o :: .leave :: k)) m₁
          ⟨.done flow, .result (bound method scope) :: .construct o :: .leave :: k, i'⟩ ∧
        j = { i' with depth := i'.depth - 1 }

theorem Fits.applies {A : List Accepted} {m : Machine} (hm : m.Fits A) {f : Value} {arguments : List Value}
    {k : Stack} (ha : m.applies? = some (f, arguments, k)) : f.Fits (m.state.world A) := by
  unfold applies? at ha
  split at ha
  · cases ha
    exact hm.control.1
  · cases ha
    obtain ⟨-, S, -, hk⟩ := hm.control
    cases hk with
    | keep hf _ => exact hf.1
  · cases ha

theorem Fits.params_nodup {W : World} {c : Class} (hc : c.Fits W) {x : String} {method : Closure}
    (hm : c.findMethod? x = some method) : (method.decl.params.map Token.lexeme).Nodup := by
  obtain ⟨S, hat, -⟩ := hc.findMethod? hm
  exact freshAll_enter.1 (At.freshAll hat)

section

variable {i : Interpreter} {k : Stack} {c : Class} {arguments : List Value} {method : Closure}

theorem construct_of_none (hc : c.initializer? = none) : construct i k c arguments =
    ⟨.value (.object i.store.nextObject), k, { i with store := i.store.addObject c }⟩ := by
  rw [construct, hc]

/-- The state in which an initializer is entered: with the new object, and a scope in which it is `this`. -/
def withObject (i : Interpreter) (c : Class) : Interpreter :=
  { i with store := (i.store.addObject c).addScope (thisScope i.store.nextObject) }

theorem construct_of_some (hc : c.initializer? = some method) : construct i k c arguments =
    enterClosure (withObject i c) (.construct i.store.nextObject :: k) (bound method i.store.nextScope)
      arguments := by
  rw [construct, hc]
  rfl

theorem object?_construct : (construct i k c arguments).state.store.object? i.store.nextObject =
    some ⟨c, .empty⟩ := by
  have hnew : (i.store.addObject c).object? i.store.nextObject = some ⟨c, .empty⟩ := by
    rw [Store.object?_addObject, if_pos rfl]
  cases hc : c.initializer? with
  | none =>
    rw [construct_of_none hc]
    exact hnew
  | some method =>
    rw [construct_of_some hc]
    exact hnew

theorem read?_this_withObject (x : String) : (withObject i c).store.read? i.store.nextScope x =
    if x = "this" then some (.object i.store.nextObject) else none := by
  have hscope : (i.store.addObject c).nextScope = i.store.nextScope := rfl
  rw [withObject, Store.read?_addScope, hscope, if_pos rfl, thisScope, Bindings.find?_insert]
  rfl

end

theorem EntersInitializer.intro {m : Machine} {k : Stack} {c : Class} {method : Closure}
    {arguments : List Value} {d : Nat}
    (hs : m.step = some (enterClosure (withObject { m.state with depth := d } c)
      (.construct m.state.store.nextObject :: .leave :: k) (bound method m.state.store.nextScope) arguments))
    (ha : arguments.length = method.arity) (hd : (method.decl.params.map Token.lexeme).Nodup) :
    m.EntersInitializer (enterClosure (withObject { m.state with depth := d } c)
      (.construct m.state.store.nextObject :: .leave :: k) (bound method m.state.store.nextScope) arguments)
      k method m.state.store.nextObject arguments m.state.store.nextScope
      (withObject { m.state with depth := d } c).store.nextScope := by
  have hlt : m.state.store.nextScope < (withObject { m.state with depth := d } c).store.nextScope := by
    rw [Store.nextScope, Store.nextScope, withObject, Store.size_addScope]
    exact Nat.lt_succ_self _
  refine ⟨hs, ⟨rfl, rfl⟩, rfl, ⟨Nat.le_refl _, hlt⟩, fun x ↦ ?_, ha, fun n t ht ↦ ?_⟩
  · rw [enterClosure, enterBlock, Store.read?_addScope, if_neg (Nat.ne_of_lt hlt)]
    exact read?_this_withObject x
  · rw [enterClosure, enterBlock, Store.read?_addScope, if_pos rfl]
    exact find?_parameterScope_eq hd ha ht

/-- A class without an initializer gives its object at once. -/
theorem Returns.construct_of_none {i j : Interpreter} {k : Stack} {c : Class} {arguments : List Value} {w : Value}
    (hc : c.initializer? = none) (h : (Machine.construct i (.leave :: k) c arguments).Returns k w j) :
    w = .object i.store.nextObject ∧ (Machine.construct i (.leave :: k) c arguments).after 1 = some ⟨.value w, k, j⟩ := by
  rw [Machine.construct_of_none hc] at h ⊢
  obtain ⟨rfl, rfl⟩ := h.leave
  exact ⟨rfl, rfl⟩

/-- A class with an initializer gives its object behind the body of the initializer. -/
theorem Returns.construct_of_some {i j : Interpreter} {k : Stack} {c : Class} {arguments : List Value} {w : Value}
    {method : Closure} (hc : c.initializer? = some method)
    (h : (Machine.construct i (.leave :: k) c arguments).Returns k w j) :
    w = .object i.store.nextObject ∧ ∃ flow i', Through
        (InBlock i.env (.result (bound method i.store.nextScope) :: .construct i.store.nextObject :: .leave :: k))
        (Machine.construct i (.leave :: k) c arguments)
        ⟨.done flow, .result (bound method i.store.nextScope) :: .construct i.store.nextObject :: .leave :: k, i'⟩ ∧
      j = { i' with depth := i'.depth - 1 } := by
  rw [Machine.construct_of_some hc] at h ⊢
  obtain ⟨flow, v, i', hbody, hend, -⟩ := h.enterClosure [.construct i.store.nextObject, .leave] (by simp)
  obtain ⟨hw, hj⟩ := hend.construct
  exact ⟨hw, flow, i', hbody, hj⟩

/-- The object from which the next step takes a property. -/
def gets? : Machine → Option (ObjectId × Token × Stack)
  | ⟨.value (.object o), .get name :: k, _⟩ => some (o, name, k)
  | _ => none

theorem eq_of_gets? {m : Machine} {o : ObjectId} {name : Token} {k : Stack}
    (h : m.gets? = some (o, name, k)) : m.control = .value (.object o) ∧ m.stack = .get name :: k := by
  unfold gets? at h
  split at h
  · cases h
    exact ⟨rfl, rfl⟩
  · cases h

end Machine

namespace Moment

variable {A : List Accepted} {s : Session} {m : Machine}

theorem Sound.constructs (h : Sound A ⟨s, m⟩) {c : Class} {arguments : List Value} {k : Stack} {w : Value}
    {j : Interpreter} (ha : m.applies? = some (.callable (.cls c), arguments, k)) (hr : m.Returns k w j) :
    m.Constructs c arguments k w j := by
  obtain ⟨harity, line, hs, hreturns⟩ := hr.invoke ha
  rw [hreturns.invoke_cls] at hs hreturns
  let i := { m.state with depth := m.state.depth + 1 }
  let o := m.state.store.nextObject
  have hobject : ∃ ob, j.store.object? o = some ob ∧ ob.cls = c := by
    obtain ⟨_, -, hkept⟩ := (Later.refl.steps hreturns.steps).sound (h.step hs).1
    exact hkept.cls o _ Machine.object?_construct
  have hnew : m.state.store.object? o = none := Array.getElem?_eq_none (Nat.le_refl _)
  cases hc : c.initializer? with
  | none =>
    obtain ⟨rfl, hafter⟩ := hreturns.construct_of_none hc
    refine ⟨o, rfl, hnew, hobject, fun _ ↦ ⟨?_, ?_⟩, fun method hm ↦ ?_⟩
    · have hzero : c.arity = 0 := by rw [Class.arity, hc]; rfl
      exact List.length_eq_zero_iff.1 (harity.trans hzero)
    · rw [Machine.after, hs]
      exact hafter
    · rw [← c.initializer?_eq, hc] at hm
      cases hm
  | some method =>
    obtain ⟨rfl, flow, i', hbody, hj⟩ := hreturns.construct_of_some hc
    refine ⟨o, rfl, hnew, hobject, fun hm ↦ ?_, fun method' hm ↦ ?_⟩
    · rw [← c.initializer?_eq, hc] at hm
      cases hm
    · rw [← c.initializer?_eq, hc] at hm
      cases hm
      have hcls : c.Fits (m.state.world A) := h.fits.applies ha
      have hinit : c.arity = method.arity := by rw [Class.arity, hc]; rfl
      rw [Machine.construct_of_some hc] at hs hbody
      exact ⟨_, i.store.nextScope, (Machine.withObject i c).store.nextScope, flow, i',
        .intro hs (harity.trans hinit) (Machine.Fits.params_nodup hcls hc), hbody, hj⟩

def AlwaysGives (x : Moment) (v : Value) (o : ObjectId) : Prop :=
  ∀ y, x.Later y → ∀ arguments k w j, y.machine.applies? = some (v, arguments, k) →
    y.machine.Returns k w j → w = .object o

/-- The result of an initializer is read from the scope of `this` behind its body, and nothing that has run since
the method was bound can have changed it. -/
theorem Sound.alwaysGives {x : Moment} (h : Sound A x) {id : Nat} {c : Closure} {o : ObjectId}
    (hc : c.isInitializer = true) (hthis : x.machine.state.store.read? c.env.inner "this" = some (.object o)) :
    x.AlwaysGives (.callable (.function id c)) o := by
  intro y hy arguments k w j ha hr
  obtain ⟨A', hsound, hkept⟩ := hy.sound h
  obtain ⟨-, line, hs, hreturns⟩ := hr.invoke ha
  rw [hreturns.invoke_function] at hs hreturns
  obtain ⟨flow, v, i', hbody, hend, hv⟩ := hreturns.enterClosure [.leave] (by simp)
  obtain ⟨rfl, -⟩ := hend.leave
  obtain ⟨_, -, hkept'⟩ := (Later.refl.steps (.head hs hbody.steps)).sound hsound
  have hget : i'.store.getAt? c.env 0 "this" = some (.object o) :=
    Store.getAt?_eq_some rfl (hkept'.read?_this (hkept.read?_this hthis))
  exact Option.some.inj ((hv hc).symm.trans hget)

theorem Reached.isInitializer {x : Moment} (hx : x.Reached) {c : Class} {method : Closure}
    (hc : ∀ d ∈ c.lineage, x.machine.HasClass d) (hm : c.findMethod? "init" = some method) :
    method.isInitializer = true := by
  obtain ⟨sink, clock, nextId, programs, hlater⟩ := hx
  obtain ⟨_, hnew⟩ := Machine.new_in sink clock
  obtain ⟨G, -, hin⟩ := hlater.life.grows hnew
  obtain ⟨d, hd, hfound⟩ := Class.exists_of_findMethod? hm
  exact hin.state.valid.marked d.id d "init" method (hin.cls (hc d hd)) hfound

theorem Reached.alwaysGives_of_gives {m' : Machine} (hx : Reached ⟨s, m⟩) {c : Class} {name : Token}
    {o : ObjectId} {v : Value} (hc : ∀ d ∈ c.lineage, m.HasClass d) (hs : m.step = some m')
    (hg : m'.Gives c name o) (hname : name.lexeme = "init") (hv : m'.control = .value v) :
    AlwaysGives ⟨s, m'⟩ v o := by
  obtain ⟨A, hsound⟩ := hx.sound
  unfold Machine.Gives at hg
  rw [hname] at hg
  split at hg
  · next method hm =>
    obtain ⟨id, scope, hcontrol, hthis⟩ := hg
    cases hv.symm.trans hcontrol
    have hinit : method.isInitializer = true := hx.isInitializer hc hm
    exact (hsound.step hs).1.alwaysGives hinit hthis
  · cases hv.symm.trans hg

/-- Construction and initializers give the right object, at every moment that a session can come to. A call of a
class constructs an object of that class. An `init` that is taken from an object, or from above the method that
runs, gives that object whenever it is called from then on. -/
theorem Reached.construction_sound {x : Moment} (hx : x.Reached) :
    (∀ c arguments k w j, x.machine.applies? = some (.callable (.cls c), arguments, k) →
      x.machine.Returns k w j → x.machine.Constructs c arguments k w j) ∧
    (∀ o ob name k m' v, x.machine.control = .value (.object o) → x.machine.stack = .get name :: k →
      name.lexeme = "init" → x.machine.state.store.object? o = some ob → ob.fields.find? "init" = none →
      x.machine.step = some m' → m'.control = .value v → AlwaysGives ⟨x.session, m'⟩ v o) ∧
    ∀ ref name m' v, x.machine.control = .eval (.super ref name) → name.lexeme = "init" →
      x.machine.step = some m' → m'.control = .value v →
      ∃ d method o, x.machine.state.Serves ref d method o ∧ AlwaysGives ⟨x.session, m'⟩ v o := by
  obtain ⟨A, hsound⟩ := hx.sound
  obtain ⟨s, m⟩ := x
  refine ⟨fun c arguments k w j ha hr ↦ hsound.constructs ha hr, ?_, ?_⟩
  · intro o ob name k m' v hcontrol hstack hname ho hfield hs hv
    obtain ⟨control, stack, i⟩ := m
    obtain rfl : control = _ := hcontrol
    obtain rfl : stack = _ := hstack
    have hgives : m'.Gives ob.cls name o := by
      have hproperty : m' = Machine.property i k o name := (Option.some.inj hs).symm
      have ho : i.store.object? o = some ob := ho
      rw [hproperty, Machine.property, ho]
      simp only [hname, hfield]
      rw [← hname]
      exact Machine.gives_of_findMethod? i k ob.cls name o
    exact hx.alwaysGives_of_gives (fun d hd ↦ ⟨ob.cls, hd, .inr ⟨o, ob, ho, rfl⟩⟩) hs hgives hname hv
  · intro ref name m' v hcontrol hname hs hv
    obtain ⟨i, -, -, -, hm⟩ := hsound.since
    obtain ⟨d, method, o, c, m₁, hserves, hsuper, hs', hgives⟩ :=
      (hm.dispatches hsound.separate hsound.fits).lookup ref name hcontrol
    cases hs.symm.trans hs'
    obtain ⟨before, id, -, hseat⟩ := hserves.scopes
    obtain ⟨ob, ho, hd⟩ := hseat.object
    have hclasses : ∀ e ∈ c.lineage, m.HasClass e := fun e he ↦
      ⟨ob.cls, Class.mem_lineage_trans (Class.mem_lineage_of_superclass hd hsuper) he, .inr ⟨o, ob, ho, rfl⟩⟩
    exact ⟨d, method, o, hserves, hx.alwaysGives_of_gives hclasses hs hgives hname hv⟩

theorem exists_reached {sink : Sink} {clock : Clock} {n : Nat} {source : String}
    (h : (Session.new sink clock).reach n source = some m) : ∃ s, Reached ⟨s, m⟩ := by
  obtain ⟨program, s', hp, hsteps⟩ := Session.steps_of_reach h
  exact ⟨s', sink, clock, 0, .empty, (Later.refl.accept hp).steps hsteps⟩

/-- The program has an initializer that returns from within a loop. It is called from a subclass, and once more for
an object that exists. -/
def initializers : String :=
  "class A { init() { while (true) { return; } } } class B < A { init(x) { super.init(); } } B(true); A().init();"

theorem exists_initializers (n : Nat) (p : Machine → Bool)
    (h : ((Session.new .unbounded .ticking).reach n initializers).any p = true) :
    ∃ s m, Reached ⟨s, m⟩ ∧ p m = true := by
  obtain ⟨m, hm, hp⟩ := (Option.any_eq_true _ _).1 h
  obtain ⟨s, hx⟩ := exists_reached hm
  exact ⟨s, m, hx, hp⟩

theorem initializers_give_objects :
    (∃ x c b k w j, Reached x ∧ x.machine.applies? = some (.callable (.cls c), [b], k) ∧
      x.machine.Returns k w j ∧ c.initializer?.isSome ∧ x.machine.Constructs c [b] k w j) ∧
    (∃ x o name k m' v l j, Reached x ∧ x.machine.control = .value (.object o) ∧
      x.machine.stack = .get name :: k ∧ x.machine.step = some m' ∧ m'.applies? = some (v, [], l) ∧
      m'.Returns l (.object o) j ∧ AlwaysGives ⟨x.session, m'⟩ v o) ∧
    ∃ x ref name m' v l o j, Reached x ∧ x.machine.control = .eval (.super ref name) ∧
      x.machine.step = some m' ∧ m'.applies? = some (v, [], l) ∧ m'.Returns l (.object o) j ∧
      AlwaysGives ⟨x.session, m'⟩ v o := by
  refine ⟨?_, ?_, ?_⟩
  · obtain ⟨s, m, hx, hp⟩ := exists_initializers 10 (fun m ↦ m.callsWith 1 50 &&
      m.applies?.any fun call ↦ call.1.cls?.any fun c ↦ c.initializer?.isSome) (by decide +kernel)
    obtain ⟨hcalls, hp⟩ := Bool.and_eq_true_iff.1 hp
    obtain ⟨f, arguments, k, w, j, ha, hn, hr⟩ := Machine.exists_returns hcalls
    rw [ha, Option.any_some] at hp
    obtain ⟨c, hf, hinit⟩ := (Option.any_eq_true _ _).1 hp
    obtain rfl := Value.eq_of_cls? hf
    obtain ⟨b, rfl⟩ := List.length_eq_one_iff.1 hn
    exact ⟨⟨s, m⟩, c, b, k, w, j, hx, ha, hr, hinit, hx.construction_sound.1 c [b] k w j ha hr⟩
  · obtain ⟨s, m, hx, hp⟩ := exists_initializers 54 (fun m ↦ m.step.any (Machine.callsWith 0 50) &&
      m.gets?.any fun get ↦ get.2.1.lexeme == "init" &&
        (m.state.store.object? get.1).any fun ob ↦ (ob.fields.find? "init").isNone) (by decide +kernel)
    obtain ⟨hcalls, hp⟩ := Bool.and_eq_true_iff.1 hp
    obtain ⟨m', hs, hcalls⟩ := (Option.any_eq_true _ _).1 hcalls
    obtain ⟨v, l, w, j, hv, ha, hr⟩ := Machine.exists_returns_now hcalls
    obtain ⟨⟨o, name, k⟩, hget, hp⟩ := (Option.any_eq_true _ _).1 hp
    obtain ⟨hcontrol, hstack⟩ := Machine.eq_of_gets? hget
    obtain ⟨hname, hp⟩ := Bool.and_eq_true_iff.1 hp
    obtain ⟨ob, ho, hfield⟩ := (Option.any_eq_true _ _).1 hp
    have hgives : AlwaysGives ⟨s, m'⟩ v o := hx.construction_sound.2.1 o ob name k m' v hcontrol hstack
      (beq_iff_eq.1 hname) ho (Option.isNone_iff_eq_none.1 hfield) hs hv
    obtain rfl : w = .object o := hgives ⟨s, m'⟩ .refl [] l w j ha hr
    exact ⟨⟨s, m⟩, o, name, k, m', v, l, j, hx, hcontrol, hstack, hs, ha, hr, hgives⟩
  · obtain ⟨s, m, hx, hp⟩ := exists_initializers 14 (fun m ↦ m.step.any (Machine.callsWith 0 50) &&
      m.control.super?.any fun p ↦ p.2.lexeme == "init") (by decide +kernel)
    obtain ⟨hcalls, hp⟩ := Bool.and_eq_true_iff.1 hp
    obtain ⟨m', hs, hcalls⟩ := (Option.any_eq_true _ _).1 hcalls
    obtain ⟨v, l, w, j, hv, ha, hr⟩ := Machine.exists_returns_now hcalls
    obtain ⟨⟨ref, name⟩, hsuper, hname⟩ := (Option.any_eq_true _ _).1 hp
    have hcontrol : m.control = .eval (.super ref name) := Control.eq_of_super? hsuper
    obtain ⟨-, -, o, -, hgives⟩ :=
      hx.construction_sound.2.2 ref name m' v hcontrol (beq_iff_eq.1 hname) hs hv
    obtain rfl : w = .object o := hgives ⟨s, m'⟩ .refl [] l w j ha hr
    exact ⟨⟨s, m⟩, ref, name, m', v, l, o, j, hx, hcontrol, hs, ha, hr, hgives⟩

end Moment

end Lox
