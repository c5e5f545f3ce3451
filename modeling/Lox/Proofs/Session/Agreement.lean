import Lox.Proofs.Session.History

namespace Lox

open Scope

/-- The expression that a machine begins to evaluate. The superclass of a class is one, and the name of
that class is then not bound yet. -/
def Control.evaluated? : Control → Option (Expr × Option String)
  | .eval e => some (e, none)
  | .exec (.classDecl name (some ref) _) => some (.var ref, some name.lexeme)
  | _ => none

/-- A chain of scopes agrees with those of a walk, but for one name of the innermost scope. -/
structure Interpreter.Mirrors (i : Interpreter) (S : List Names) (unbound : Option String) : Prop where
  length : i.env.chain.length = S.length + 1
  globals : i.env.chain.getLast? = some i.globals
  bound : ∀ (n : Nat) (names : Names) (id : ScopeId), S[n]? = some names → i.env.chain[n]? = some id →
    ∀ x, names.find? x = some true → i.store.contains id x = true ∨ n = 0 ∧ unbound = some x

/-- Every read at a recorded distance finds its name; from `super` one finds `this` a step inside. -/
structure Interpreter.Finds (i : Interpreter) (e : Expr) : Prop where
  read : ∀ ref d, e.read? = some ref → i.distances.find? ref.id = some d →
    ∃ v, i.store.getAt? i.env d ref.name.lexeme = some v
  this : ∀ ref name d, e = .super ref name → i.distances.find? ref.id = some d →
    ∃ v, i.store.getAt? i.env (d - 1) "this" = some v

theorem Store.getAt?_isSome {σ : Store} {env : Env} {d : Nat} {x : String} {id : ScopeId}
    (hid : env.chain[d]? = some id) (hx : σ.contains id x = true) : ∃ v, σ.getAt? env d x = some v := by
  obtain ⟨v, hv⟩ := Option.isSome_iff_exists.1 (hx : (σ.read? id x).isSome = true)
  refine ⟨v, ?_⟩
  rw [getAt?, locateAt?, hid, Option.filter, if_pos hx]
  exact hv

theorem Agrees.mirrors {i : Interpreter} {S : List Names} (h : Agrees i.store i.globals i.env.chain S) :
    i.Mirrors S none := by
  refine ⟨h.length_eq, h.getLast?_eq, fun n names id hn hid x hx ↦ .inl ?_⟩
  obtain ⟨id', hid', hb⟩ := h.bound ⟨names, hn, hx⟩
  obtain rfl : id' = id := Option.some.inj (hid'.symm.trans hid)
  exact hb

namespace Interpreter.Mirrors

variable {i : Interpreter} {S : List Names}

theorem bindIn (h : i.Mirrors S none) (x : String) : i.Mirrors (bindIn x S) (some x) := by
  cases S with
  | nil => exact ⟨h.length, h.globals, nofun⟩
  | cons s S =>
    refine ⟨h.length, h.globals, fun n names id hn hid y hy ↦ ?_⟩
    have hbound (names' : Names) (hn' : (s :: S)[n]? = some names') (hy' : names'.find? y = some true) :
        i.store.contains id y = true ∨ n = 0 ∧ some x = some y :=
      .inl ((h.bound n names' id hn' hid y hy').resolve_right nofun)
    cases n with
    | zero =>
      cases hn
      rw [Bindings.find?_insert] at hy
      split at hy
      · next heq => exact .inr ⟨rfl, congrArg some heq.symm⟩
      · exact hbound s rfl hy
    | succ n => exact hbound names hn hy

theorem getAt? {unbound : Option String} (h : i.Mirrors S unbound) {d : Nat} {x : String}
    (hd : Readable S d x) (hx : unbound ≠ some x) : ∃ v, i.store.getAt? i.env d x = some v := by
  obtain ⟨names, hn, hy⟩ := hd
  have hlt : d < i.env.chain.length := by
    have := (List.getElem?_eq_some_iff.1 hn).1
    have := h.length
    omega
  have hid := List.getElem?_eq_getElem hlt
  obtain hc | ⟨-, hu⟩ := h.bound d names _ hn hid x hy
  · exact Store.getAt?_isSome hid hc
  · exact absurd hu hx

theorem finds {unbound : Option String} (h : i.Mirrors S unbound) {A : List Accepted}
    (hD : Holds A i.distances) {e : Expr} (he : At A (.expr e) S)
    (hread : ∀ ref ∈ e.read?, unbound ≠ some ref.name.lexeme) (hthis : unbound ≠ some "this") :
    i.Finds e := by
  refine ⟨fun ref d hr hd ↦ ?_, ?_⟩
  · rw [hD.find?_eq he (Expr.ref?_of_read? hr)] at hd
    exact h.getAt? (he.readable hr hd) (hread ref hr)
  · rintro ref name d rfl hd
    have hlexeme : ref.name.lexeme = "super" := he.all
    rw [hD.find?_eq he rfl, hlexeme] at hd
    obtain ⟨j, rfl, hj⟩ := he.this_of_super hd
    exact h.getAt? hj hthis

end Interpreter.Mirrors

theorem Machine.Fits.evaluated {A : List Accepted} {m : Machine} (h : m.Fits A) {e : Expr}
    {unbound : Option String} (he : m.control.evaluated? = some (e, unbound)) :
    ∃ S, At A (.expr e) S ∧ m.state.Mirrors S unbound ∧ m.state.Finds e := by
  obtain ⟨c, k, i⟩ := m
  cases c with
  | eval =>
    cases he
    obtain ⟨S, hat, hagrees, -⟩ := h.control
    have hmirrors : i.Mirrors S none := Agrees.mirrors hagrees
    exact ⟨S, hat, hmirrors, hmirrors.finds h.state.distances hat nofun nofun⟩
  | exec s =>
    cases s with
    | classDecl name superclass methods =>
      cases superclass with
      | none => cases he
      | some ref =>
        cases he
        obtain ⟨S, hat, hagrees, -⟩ := h.control
        have hmirrors := (Agrees.mirrors (i := i) hagrees).bindIn name.lexeme
        have hordinary : name.Ordinary := hat.all.1 _ rfl
        refine ⟨_, hat.superclass, hmirrors, hmirrors.finds h.state.distances hat.superclass ?_ ?_⟩
        · rintro _ ⟨⟩ heq
          exact hat.superclass_ne (Option.some.inj heq).symm
        · exact fun heq ↦ hordinary.1 (Option.some.inj heq)
    | _ => cases he
  | _ => cases he

/-- In programs without a common id, a node in which a name occurs is visited with the same scopes
throughout. -/
theorem Scope.Separate.scopes_eq {A : List Accepted} (h : Separate A) {a a' : Accepted} (ha : a ∈ A)
    (ha' : a' ∈ A) {e : Expr} (hr : e.refs ≠ []) {k k' : Context} {w w' : Walk}
    (hv : a.Visits ⟨k, .expr e, w⟩) (hv' : a'.Visits ⟨k', .expr e, w'⟩) : w'.scopes = w.scopes := by
  obtain ⟨r, hmem⟩ := List.exists_mem_of_ne_nil _ hr
  obtain rfl := h a ha a' ha' r (hv.refs_sublist.subset hmem) r (hv'.refs_sublist.subset hmem) rfl
  cases hv.unique hv' a.distinct rfl hr
  rfl

def Session.reach (n : Nat) (source : String) (s : Session) : Option Machine :=
  match s.prepare source with
  | (.ok program, s') => (s'.interpreter.start program).after n
  | (.error _, _) => none

theorem Session.steps_of_reach {n : Nat} {source : String} {s : Session} {m : Machine}
    (h : s.reach n source = some m) :
    ∃ program s', s.prepare source = (.ok program, s') ∧ Machine.Steps (s'.interpreter.start program) m := by
  unfold reach at h
  split at h
  · next program s' hp => exact ⟨program, s', hp, Machine.steps_of_after h⟩
  · cases h

def Control.super? : Control → Option (Ref × Token)
  | .eval (.super ref name) => some (ref, name)
  | _ => none

theorem Control.eq_of_super? {c : Control} {p : Ref × Token} (h : c.super? = some p) :
    c = .eval (.super p.1 p.2) := by
  unfold super? at h
  split at h
  · cases h
    rfl
  · cases h

/-- Whenever a run of an accepted source evaluates an expression, in a session that has seen any runs
before, the chain of scopes mirrors the scopes with which the expression was visited, in that source or
in an earlier one, and what it reads at a recorded distance is found. -/
theorem Session.History.evaluation_mirrors_scopes {H : List (List Stmt × Distances)} {s s' : Session} (h : History H s)
    {source : String} {program : List Stmt} (hp : s.prepare source = (.ok program, s')) {m : Machine}
    (hm : Machine.Steps (s'.interpreter.start program) m) {e : Expr} {unbound : Option String}
    (he : m.control.evaluated? = some (e, unbound)) :
    ∃ p ∈ (program, s.interpreter.distances) :: H, ∃ k w, Visits p.1 p.2 ⟨k, .expr e, w⟩ ∧
      (e.refs ≠ [] → ∀ p' ∈ (program, s.interpreter.distances) :: H, ∀ k' w',
        Visits p'.1 p'.2 ⟨k', .expr e, w'⟩ → w'.scopes = w.scopes) ∧
      m.state.Mirrors w.scopes unbound ∧ m.state.Finds e := by
  obtain ⟨A, rfl, hs⟩ := h.fits
  obtain ⟨a, rfl, hbefore, hs'⟩ := prepare_ok_fits hs hp
  have hmap : (a.program, s.interpreter.distances) :: A.map (fun a ↦ (a.program, a.before)) =
      (a :: A).map fun a ↦ (a.program, a.before) := by rw [← hbefore, List.map_cons]
  have hstart := Interpreter.start_fits hs'.interpreter hs'.env (.head A)
  have hfits : m.Fits (a :: A) := hm.invariant hstart fun _ _ ↦ Machine.step_fits
  obtain ⟨_, ⟨b, hb, k, w, hv, rfl⟩, hmirrors, hfinds⟩ := hfits.evaluated he
  rw [hmap]
  refine ⟨_, List.mem_map_of_mem hb, k, w, hv, fun hr p' hp' k' w' hv' ↦ ?_, hmirrors, hfinds⟩
  obtain ⟨b', hb', rfl⟩ := List.mem_map.1 hp'
  exact hs'.separate.scopes_eq hb hb' hr hv hv'

theorem Session.super_mirrors_scopes : ∃ H s program s' m ref method, History H s ∧
    s.prepare "class B < A { m() { super.m(); } } B().m();" = (.ok program, s') ∧
    Machine.Steps (s'.interpreter.start program) m ∧
    m.control.evaluated? = some (.super ref method, none) ∧
    ∃ p ∈ (program, s.interpreter.distances) :: H, ∃ k w, Visits p.1 p.2 ⟨k, .expr (.super ref method), w⟩ ∧
      m.state.Mirrors w.scopes none ∧ m.state.Finds (.super ref method) := by
  have hreach : ((run 100 "class A { m() {} }" (.new .unbounded .ticking)).bind fun r ↦
      r.2.reach 15 "class B < A { m() { super.m(); } } B().m();").any (·.control.super?.isSome) = true := by
    decide +kernel
  obtain ⟨m, hm, hsuper⟩ := (Option.any_eq_true _ _).1 hreach
  obtain ⟨⟨ds, s⟩, hrun, hm⟩ := Option.bind_eq_some_iff.1 hm
  have hs := History.run (.new .unbounded .ticking 0 .empty) hrun
  obtain ⟨program, s', hp, hsteps⟩ := steps_of_reach hm
  obtain ⟨⟨ref, method⟩, hsuper⟩ := Option.isSome_iff_exists.1 hsuper
  have he : m.control.evaluated? = some (.super ref method, none) := by
    rw [Control.eq_of_super? hsuper]
    rfl
  obtain ⟨p, hmem, k, w, hv, -, hmirrors, hfinds⟩ := hs.evaluation_mirrors_scopes hp hsteps he
  exact ⟨_, s, program, s', m, ref, method, hs, hp, hsteps, he, p, hmem, k, w, hv, hmirrors, hfinds⟩

end Lox
