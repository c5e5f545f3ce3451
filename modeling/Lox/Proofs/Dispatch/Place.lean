import Lox.Proofs.Dispatch.Basic
import Lox.Proofs.Scope.Declare
import Lox.Proofs.Session.History

namespace Lox

open Scope

namespace Scope.Visit

variable {v u : Visit}

theorem Part.tail_suffix (h : Part v u) : v.walk.scopes.tail <:+ u.walk.scopes.tail := by
  have hsame {S T : List Names} (heq : T = S) : S <:+ T := heq ▸ List.suffix_refl S
  cases h with
  | initial => exact hsame (by rw [Walk.scopes_declare, tail_declareIn])
  | block => exact List.tail_suffix _
  | function => exact hsame (by rw [Walk.scopes_define, Walk.scopes_declare, tail_bindIn, tail_declareIn])
  | superclass => exact hsame (by rw [scopes_className, tail_bindIn])
  | @methods _ w name o =>
    have hclass : w.scopes.tail <:+ bindIn name.lexeme w.scopes := by
      rw [← tail_bindIn name.lexeme w.scopes]
      exact List.tail_suffix _
    rw [scopes_classHead]
    cases o with
    | none => exact hclass
    | some _ => exact hclass.trans (List.suffix_cons ..)
  | condNo => exact hsame (by rw [tail_stmt, scopes_expr])
  | tailStmts => exact hsame (by rw [tail_stmt])
  | body =>
    rw [tail_declareAll]
    exact List.tail_suffix _
  | _ => simp

theorem Inside.tail_suffix (h : Inside v u) : v.walk.scopes.tail <:+ u.walk.scopes.tail := by
  induction h with
  | refl => exact List.suffix_refl _
  | step hp _ ih => exact hp.tail_suffix.trans ih

theorem Inside.suffix_of_function {k : Context} {d : FunctionDecl} {w : Walk} {e : Expr} {k' : Context}
    {w' : Walk} (h : Inside ⟨k, .function d, w⟩ ⟨k', .expr e, w'⟩) : w.scopes <:+ w'.scopes.tail := by
  cases h with
  | step hp h =>
    cases hp with
    | @body _ w _ ts _ =>
      have htail : (w.enter.declareAll ts).scopes.tail = w.scopes := tail_declareAll w.enter ts
      rw [← htail]
      exact h.tail_suffix

end Scope.Visit

theorem Scope.Separate.suffix_of_own {A : List Accepted} (hA : Separate A) {d : FunctionDecl} {ref : Ref}
    (hown : ref ∈ d.own) {S S' : List Names} (hd : At A (.function d) S) {e : Expr}
    (he : e = .this ref ∨ ∃ name, e = .super ref name) (hat : At A (.expr e) S') : S <:+ S'.tail := by
  obtain ⟨a, ha, k, w, hv, rfl⟩ := hd
  obtain ⟨a', ha', k', w', hv', rfl⟩ := hat
  have href : ref ∈ (Node.expr e).refs := by obtain rfl | ⟨_, rfl⟩ := he <;> exact List.mem_singleton_self _
  have href' : ref ∈ (Node.function d).refs := d.mem_refs_of_own hown
  obtain rfl := hA a ha a' ha' ref (hv.refs_sublist.subset href') ref (hv'.refs_sublist.subset href) rfl
  obtain hin | hin := hv.inside_or_inside hv' a.distinct href' href rfl
  · exact hin.suffix_of_function
  · obtain rfl | ⟨_, rfl⟩ := he
    · cases hin with
      | step hp => cases hp
    · cases hin with
      | step hp => cases hp

theorem Class.Fits.of_mem_lineage {W : World} {c d : Class} (h : c.Fits W) (hd : d ∈ c.lineage) :
    d.Fits W := by
  induction h with
  | @mk id name superclass methods hm hs ih =>
    cases superclass with
    | none =>
      obtain rfl := List.mem_singleton.1 hd
      exact .mk hm hs
    | some s =>
      obtain rfl | hd := List.mem_cons.1 hd
      · exact .mk hm hs
      · exact ih s rfl hd

theorem Class.Fits.method {W : World} {c : Class} (h : c.Fits W) {x : String} {m : Closure}
    (hm : c.methods.find? x = some m) : m.FitsMethod W := by
  cases h with
  | mk hms => exact hms x m hm

theorem exists_innermost {σ : Store} {chain : List ScopeId} {j : Nat} {id : ScopeId}
    (hid : chain[j]? = some id) (hthis : (σ.read? id "this").isSome) :
    ∃ before id outer, chain = before ++ id :: outer ∧ (∀ s ∈ before, σ.read? s "this" = none) ∧
      (σ.read? id "this").isSome ∧ before.length ≤ j := by
  induction chain generalizing j with
  | nil => cases hid
  | cons s chain ih =>
    cases hs : σ.read? s "this" with
    | some v => exact ⟨[], s, chain, rfl, nofun, by rw [hs]; rfl, Nat.zero_le j⟩
    | none =>
      cases j with
      | zero =>
        cases hid
        rw [hs] at hthis
        cases hthis
      | succ j =>
        obtain ⟨before, id', outer, rfl, hbefore, hid', hle⟩ := ih hid
        refine ⟨s :: before, id', outer, rfl, ?_, hid', Nat.succ_le_succ hle⟩
        rw [List.forall_mem_cons]
        exact ⟨hs, hbefore⟩

theorem Scope.distanceIn_le {S₀ : List Names} {s : Names} {before : List Names} {x : String} {j : Nat}
    (hs : s.contains x = true) (h : distanceIn (before ++ s :: S₀) x = some j) : j ≤ before.length := by
  obtain ⟨hlt, -, hfirst⟩ := List.findIdx?_eq_some_iff_getElem.1 h
  refine Decidable.byContradiction fun hle ↦ ?_
  have hnot := hfirst before.length (by omega)
  simp [hs] at hnot

/-- Where `this` or `super` is evaluated, the scope at the distance of `this` is that of a method to which
the occurrence belongs, and outside it lie the scopes of that method. -/
theorem Tied.exists_seat {A : List Accepted} (hA : Separate A) {i : Interpreter} (hi : i.Fits A)
    {e : Expr} {ref : Ref} (he : e = .this ref ∨ ∃ name, e = .super ref name)
    (ht : Tied i.store i.env [ref]) {S : List Names} (hat : At A (.expr e) S)
    (ha : (i.world A).Agrees i.env S) {j : Nat} (hj : distanceIn S "this" = some j) :
    ∃ before id d m o, i.env.chain = before ++ id :: m.env.chain ∧ before.length = j ∧
      Seat i.store id d m o ∧ ref ∈ m.decl.own := by
  have hpending := hat.this_not_pending
  have hreadable : Readable S j "this" := by
    obtain ⟨a, -, k, w, hv, rfl⟩ := hat
    exact readable_of_distanceIn hj (Accepted.settles hv) hpending
  obtain ⟨id', hid', hbound⟩ := Agrees.bound ha hreadable
  obtain ⟨before, id, outer, hchain, hbefore, hid, hle⟩ := exists_innermost hid' hbound
  obtain ⟨d, m, o, hseat, houter, hown⟩ := ht.anchored before id outer hchain hbefore hid
  have hown : ref ∈ m.decl.own := hown (List.mem_singleton_self ref)
  obtain ⟨ob, ho, hd⟩ := hseat.object
  obtain ⟨x, hm⟩ := hseat.method
  obtain ⟨S₀, hplace, hagrees⟩ := (((hi.world.objects o ob ho).cls).of_mem_lineage hd).method hm
  obtain ⟨front, hfront⟩ := hA.suffix_of_own hown hplace he hat
  have hlength := Agrees.length_eq ha
  have hlength₀ := Agrees.length_eq hagrees
  cases S with
  | nil => cases hj
  | cons s S =>
    have hS : s :: S = (s :: front) ++ thisNames :: S₀ := by simpa using hfront.symm
    have hge : j ≤ (s :: front).length := distanceIn_le rfl (hS ▸ hj)
    have hlengths := congrArg List.length hS
    rw [hchain, houter.symm] at hlength
    simp only [List.length_append, List.length_cons] at hlength hlengths hge
    subst houter
    exact ⟨before, id, d, m, o, hchain, by omega, hseat, hown⟩

/-- An occurrence of `this` or `super` is about to be evaluated for a method of a class that is bound to an
object: the scopes are those of that method, with the one of `this` and further ones inside. -/
structure Interpreter.Serves (i : Interpreter) (ref : Ref) (d : Class) (m : Closure) (o : ObjectId) :
    Prop where
  own : ref ∈ m.decl.own
  scopes : ∃ before id, i.env.chain = before ++ id :: m.env.chain ∧ Seat i.store id d m o

theorem Store.getAt?_eq_some {σ : Store} {env : Env} {d : Nat} {id : ScopeId} {x : String} {v : Value}
    (hid : env.chain[d]? = some id) (hv : σ.read? id x = some v) : σ.getAt? env d x = some v := by
  have hx : σ.contains id x = true := by rw [contains_eq, hv]; rfl
  rw [getAt?, locateAt?, hid, Option.filter, if_pos hx]
  exact hv

section

variable {A : List Accepted} (hA : Separate A) {i : Interpreter} (hi : i.Fits A) {ref : Ref} {S : List Names}
  (ht : Tied i.store i.env [ref]) (ha : (i.world A).Agrees i.env S)
include hA hi ht ha

theorem Tied.lookup_this (hat : At A (.expr (.this ref)) S) :
    ∃ d m o, i.Serves ref d m o ∧ i.lookup ref = .ok (.object o) := by
  obtain ⟨j, hj⟩ := hat.exists_this
  obtain ⟨before, id, d, m, o, hchain, hlength, hseat, hown⟩ := ht.exists_seat hA hi (.inl rfl) hat ha hj
  have hlexeme : ref.name.lexeme = "this" := hat.all
  have hdistance : i.distances.find? ref.id = some j := by
    rw [hi.distances.find?_eq hat rfl, hlexeme, hj]
  have hid : i.env.chain[j]? = some id := by simp [hchain, ← hlength]
  have hget : i.store.getAt? i.env j "this" = some (.object o) := Store.getAt?_eq_some hid hseat.this
  refine ⟨d, m, o, ⟨hown, before, id, hchain, hseat⟩, ?_⟩
  rw [Interpreter.lookup, Interpreter.target?, hdistance, hlexeme]
  rw [Store.getAt?] at hget
  simp only [hget]

/-- `super` looks a method up from the superclass on, and binds it to the object of the method that
runs. -/
theorem Tied.superMethod_eq {name : Token} (hσ : i.store.Sound) (k : Stack)
    (hat : At A (.expr (.super ref name)) S) :
    ∃ d m o c, i.Serves ref d m o ∧ d.superclass = some c ∧ Machine.superMethod i k ref name =
      match c.findMethod? name.lexeme with
      | some method => Machine.bindMethod i k method o
      | none => Machine.noProperty i k name := by
  obtain ⟨j, hthis, hsuper⟩ := hat.seated
  obtain ⟨before, id, d, m, o, hchain, hlength, hseat, hown⟩ :=
    ht.exists_seat hA hi (.inr ⟨name, rfl⟩) hat ha hthis
  have hlexeme : ref.name.lexeme = "super" := hat.all
  have hdistance : i.distances.find? ref.id = some (j + 1) := by
    rw [hi.distances.find?_eq hat rfl, hlexeme, hsuper]
  have hid : i.env.chain[j]? = some id := by simp [hchain, ← hlength]
  have hinner : i.env.chain[j + 1]? = some m.env.inner := by
    rw [hchain, ← hlength, List.getElem?_append_right (by omega), Nat.add_sub_cancel_left]
    rfl
  obtain ⟨ob, ho, hd⟩ := hseat.object
  obtain ⟨x, hm⟩ := hseat.method
  have hbinding := (hσ.classes o ob ho d hd x m hm).super
  obtain ⟨id', hid', hbound⟩ := Agrees.bound ha (hat.readable rfl (hlexeme ▸ hsuper))
  obtain rfl : m.env.inner = id' := Option.some.inj (hinner.symm.trans hid')
  rw [hlexeme] at hbound
  have hbound : (i.store.read? m.env.inner "super").isSome := hbound
  rw [hbinding, Option.isSome_map] at hbound
  obtain ⟨c, hc⟩ := Option.isSome_iff_exists.1 hbound
  rw [hc] at hbinding
  have hgetSuper := Store.getAt?_eq_some hinner hbinding
  have hgetThis := Store.getAt?_eq_some hid hseat.this
  refine ⟨d, m, o, c, ⟨hown, before, id, hchain, hseat⟩, hc, ?_⟩
  rw [Machine.superMethod, hdistance, hlexeme]
  cases hfound : c.findMethod? name.lexeme <;> simp only [hgetSuper, Nat.add_sub_cancel, hgetThis, hfound]

end

end Lox
