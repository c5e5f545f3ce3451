import Lox.Proofs.Store

namespace Lox

/-- An environment of a collection, with the number of the one that it was made inside. -/
structure Member where
  env : Env
  within : Option Nat

structure Environments where
  store : Store
  made : List Member

namespace Environments

/-- Environments are named by their numbers, in the order in which they were made. -/
inductive Request where
  | global
  | enclosed (n : Nat)
  | define (n : Nat) (x : String) (v : Value)
  | assign (n : Nat) (x : String) (v : Value)
  | assignAt (n distance : Nat) (x : String) (v : Value)

variable (W : Environments)

def perform : Request → Option Environments
  | .global =>
    let (env, store) := W.store.addGlobal
    some ⟨store, W.made ++ [⟨env, none⟩]⟩
  | .enclosed n => do
    let e ← W.made[n]?
    let (env, store) := W.store.addEnclosed e.env
    return ⟨store, W.made ++ [⟨env, some n⟩]⟩
  | .define n x v => do
    let e ← W.made[n]?
    return { W with store := W.store.define e.env.inner x v }
  | .assign n x v => do
    let e ← W.made[n]?
    let store ← W.store.assign? e.env x v
    return { W with store }
  | .assignAt n distance x v => do
    let e ← W.made[n]?
    let store ← W.store.assignAt? e.env distance x v
    return { W with store }

/-- A request that is refused leaves everything as it is. -/
def next (r : Request) : Environments := (W.perform r).getD W

def build (requests : List Request) : Environments := requests.foldl next ⟨.empty, []⟩

def own? (n : Nat) (x : String) : Option Value := do W.store.read? (← W.made[n]?).env.inner x

def get? (n : Nat) (x : String) : Option Value := do W.store.get? (← W.made[n]?).env x

def getAt? (n distance : Nat) (x : String) : Option Value := do
  W.store.getAt? (← W.made[n]?).env distance x

/-- `W.Out n d a` says that `a` is the environment `d` links out from `n`. -/
inductive Out : Nat → Nat → Nat → Prop
  | here {n : Nat} {e : Member} (h : W.made[n]? = some e) : Out n 0 n
  | link {n p d a : Nat} {e : Member} (h : W.made[n]? = some e) (hp : e.within = some p)
      (hout : Out p d a) : Out n (d + 1) a

/-- `d` is the least distance from `n` of an environment that binds `x`, and that environment is `a`. -/
structure Nearest (n : Nat) (x : String) (d a : Nat) : Prop where
  out : W.Out n d a
  bound : (W.own? a x).isSome
  least : ∀ d' a', d' < d → W.Out n d' a' → W.own? a' x = none

/-- The scopes around an environment are those of the environment that it was made inside. -/
def Inside (e : Member) : Prop :=
  e.within = none ∧ e.env.outer = [] ∨
    ∃ p f, e.within = some p ∧ W.made[p]? = some f ∧ e.env.outer = f.env.chain

/-- The links and the chains of scope ids tell the same, and different environments have different scopes. -/
structure Coherent : Prop where
  size : W.store.scopes.size = W.made.length
  inner : ∀ (n : Nat) (e : Member), W.made[n]? = some e → e.env.inner = n
  outer : ∀ (n : Nat) (e : Member), W.made[n]? = some e → W.Inside e

variable {W}

theorem Coherent.define (h : W.Coherent) (id : ScopeId) (x : String) (v : Value) :
    Coherent { W with store := W.store.define id x v } :=
  ⟨(W.store.size_define id x v).trans h.size, h.inner, h.outer⟩

theorem Coherent.add (h : W.Coherent) {e : Member} (hi : e.env.inner = W.store.nextScope)
    (ho : W.Inside e) : Coherent ⟨W.store.addScope .empty, W.made ++ [e]⟩ := by
  have hold : ∀ {n : Nat} {f}, W.made[n]? = some f → (W.made ++ [e])[n]? = some f := by
    intro n f hf
    rw [List.getElem?_append_left (List.getElem?_eq_some_iff.1 hf).1]
    exact hf
  have hnew : ∀ {n : Nat} {f}, (W.made ++ [e])[n]? = some f → W.made[n]? = some f ∨ n = W.made.length ∧ f = e := by
    grind
  refine ⟨by simp [h.size], fun n f hf ↦ ?_, fun n f hf ↦ ?_⟩
  · rcases hnew hf with hf | ⟨rfl, rfl⟩
    · exact h.inner n f hf
    · rw [hi, Store.nextScope, h.size]
  · have hout : W.Inside f := by
      rcases hnew hf with hf | ⟨rfl, rfl⟩
      · exact h.outer n f hf
      · exact ho
    rcases hout with hnone | ⟨p, g, hp, hg, hchain⟩
    · exact .inl hnone
    · exact .inr ⟨p, g, hp, hold hg, hchain⟩

/-- Both kinds of assignment only define a name anew in one scope. -/
theorem perform_coherent (h : W.Coherent) {r : Request} {W' : Environments} (hr : W.perform r = some W') :
    W'.Coherent := by
  cases r with
  | global =>
    cases hr
    exact h.add rfl (.inl ⟨rfl, rfl⟩)
  | enclosed n =>
    obtain ⟨e, he, hr⟩ := Option.bind_eq_some_iff.1 hr
    cases hr
    exact h.add rfl (.inr ⟨n, e, rfl, he, rfl⟩)
  | define n x v =>
    obtain ⟨e, he, hr⟩ := Option.bind_eq_some_iff.1 hr
    cases hr
    exact h.define e.env.inner x v
  | assign n x v =>
    obtain ⟨e, he, hr⟩ := Option.bind_eq_some_iff.1 hr
    obtain ⟨σ, hσ, hr⟩ := Option.bind_eq_some_iff.1 hr
    obtain ⟨id, -, rfl⟩ := Option.map_eq_some_iff.1 hσ
    cases hr
    exact h.define id x v
  | assignAt n d x v =>
    obtain ⟨e, he, hr⟩ := Option.bind_eq_some_iff.1 hr
    obtain ⟨σ, hσ, hr⟩ := Option.bind_eq_some_iff.1 hr
    obtain ⟨id, -, rfl⟩ := Option.map_eq_some_iff.1 hσ
    cases hr
    exact h.define id x v

theorem next_coherent (h : W.Coherent) (r : Request) : (W.next r).Coherent := by
  unfold next
  cases hr : W.perform r with
  | none => exact h
  | some W' => exact perform_coherent h hr

theorem foldl_next_coherent (requests : List Request) (h : W.Coherent) :
    (requests.foldl next W).Coherent := by
  induction requests generalizing W with
  | nil => exact h
  | cons r rest ih => exact ih (next_coherent h r)

theorem build_coherent (requests : List Request) : (build requests).Coherent :=
  foldl_next_coherent requests ⟨rfl, fun _ _ h ↦ (by cases h), fun _ _ h ↦ (by cases h)⟩

/-- The ids on the chain of an environment are the numbers of those that enclose it. -/
theorem Coherent.out_iff (h : W.Coherent) {n : Nat} {e : Member} (he : W.made[n]? = some e) (d a : Nat) :
    W.Out n d a ↔ e.env.chain[d]? = some a := by
  induction d generalizing n e with
  | zero =>
    have hinner : e.env.chain[0]? = some n := congrArg some (h.inner n e he)
    rw [hinner, Option.some.injEq]
    constructor
    · rintro ⟨-⟩
      rfl
    · rintro rfl
      exact .here he
  | succ d ih =>
    have htail : e.env.chain[d + 1]? = e.env.outer[d]? := rfl
    rw [htail]
    constructor
    · rintro (_ | ⟨hf, hp, hout⟩)
      cases he.symm.trans hf
      rcases h.outer n e he with ⟨hnone, -⟩ | ⟨q, f, hq, hf, hchain⟩
      · cases hnone.symm.trans hp
      · cases hq.symm.trans hp
        rw [hchain]
        exact (ih hf).1 hout
    · intro ha
      rcases h.outer n e he with ⟨-, hnil⟩ | ⟨q, f, hq, hf, hchain⟩
      · rw [hnil] at ha
        cases ha
      · rw [hchain] at ha
        exact .link he hq ((ih hf).2 ha)

theorem Out.source {n d a : Nat} (h : W.Out n d a) : ∃ e, W.made[n]? = some e := by
  cases h with
  | here h => exact ⟨_, h⟩
  | link h => exact ⟨_, h⟩

theorem Coherent.own?_eq (h : W.Coherent) (n : Nat) (x : String) : W.own? n x = W.store.read? n x := by
  unfold own?
  cases he : W.made[n]? with
  | none =>
    have hn : W.store.scopes.size ≤ n := h.size ▸ List.getElem?_eq_none_iff.1 he
    exact (W.store.read?_of_le hn x).symm
  | some e =>
    change W.store.read? e.env.inner x = _
    rw [h.inner n e he]

section Search

variable {n : Nat} {e : Member} {x : String}

theorem Coherent.contains_iff (h : W.Coherent) (a : Nat) : W.store.contains a x = (W.own? a x).isSome := by
  rw [Store.contains_eq, h.own?_eq]

theorem Coherent.locateAt?_eq_some_iff (h : W.Coherent) (he : W.made[n]? = some e) (d a : Nat) :
    W.store.locateAt? e.env d x = some a ↔ W.Out n d a ∧ (W.own? a x).isSome := by
  rw [Store.locateAt?, Option.filter_eq_some_iff, h.out_iff he, h.contains_iff]

theorem Coherent.locate?_eq_none_iff (h : W.Coherent) (he : W.made[n]? = some e) :
    W.store.locate? e.env x = none ↔ ∀ d a, W.Out n d a → W.own? a x = none := by
  rw [Store.locate?, List.find?_eq_none]
  constructor
  · intro hnone d a hout
    have hmem := List.mem_of_getElem? ((h.out_iff he d a).1 hout)
    have := hnone a hmem
    rw [h.contains_iff] at this
    exact Option.not_isSome_iff_eq_none.1 this
  · intro hnone a hmem
    obtain ⟨d, hd⟩ := List.mem_iff_getElem?.1 hmem
    rw [h.contains_iff, hnone d a ((h.out_iff he d a).2 hd)]
    exact Bool.false_ne_true

theorem Coherent.locate?_eq_some_iff (h : W.Coherent) (he : W.made[n]? = some e) (a : Nat) :
    W.store.locate? e.env x = some a ↔ ∃ d, W.Nearest n x d a := by
  rw [Store.locate?, List.find?_eq_some_iff_getElem]
  constructor
  · rintro ⟨hbound, d, hd, ha, hleast⟩
    refine ⟨d, (h.out_iff he d a).2 (List.getElem?_eq_some_iff.2 ⟨hd, ha⟩), ?_, fun d' a' hd' hout ↦ ?_⟩
    · rwa [h.contains_iff] at hbound
    · obtain ⟨hlt, hget⟩ := List.getElem?_eq_some_iff.1 ((h.out_iff he d' a').1 hout)
      have hnot := hleast d' hd'
      rw [hget, h.contains_iff] at hnot
      simpa using hnot
  · rintro ⟨d, hout, hbound, hleast⟩
    obtain ⟨hd, ha⟩ := List.getElem?_eq_some_iff.1 ((h.out_iff he d a).1 hout)
    refine ⟨by rwa [h.contains_iff], d, hd, ha, fun d' hd' ↦ ?_⟩
    have hout' := (h.out_iff he d' _).2 (List.getElem?_eq_getElem (Nat.lt_trans hd' hd))
    rw [h.contains_iff, hleast d' _ hd' hout']
    rfl

theorem Coherent.get?_eq_none_iff (h : W.Coherent) (he : W.made[n]? = some e) :
    W.get? n x = none ↔ ∀ d a, W.Out n d a → W.own? a x = none := by
  rw [← h.locate?_eq_none_iff he, get?, he]
  change (W.store.locate? e.env x).bind _ = none ↔ _
  cases hid : W.store.locate? e.env x with
  | none => simp
  | some a =>
    obtain ⟨d, hnear⟩ := (h.locate?_eq_some_iff he a).1 hid
    have hbound := hnear.bound
    rw [h.own?_eq] at hbound
    simp [Option.isSome_iff_ne_none.1 hbound]

theorem Nearest.get?_eq (h : W.Coherent) (he : W.made[n]? = some e) {d a : Nat} (hnear : W.Nearest n x d a) :
    W.get? n x = W.own? a x := by
  rw [get?, he, h.own?_eq]
  change (W.store.locate? e.env x).bind _ = _
  rw [(h.locate?_eq_some_iff he a).2 ⟨d, hnear⟩]
  rfl

theorem Out.getAt?_eq (h : W.Coherent) (he : W.made[n]? = some e) {d a : Nat} (hout : W.Out n d a) :
    W.getAt? n d x = W.own? a x := by
  rw [getAt?, he]
  change (W.store.locateAt? e.env d x).bind _ = _
  cases hown : W.own? a x with
  | none =>
    have hid : W.store.locateAt? e.env d x = none := by
      rw [Store.locateAt?, (h.out_iff he d a).1 hout, Option.filter_some, h.contains_iff, hown]
      rfl
    rw [hid]
    rfl
  | some v =>
    rw [(h.locateAt?_eq_some_iff he d a).2 ⟨hout, by rw [hown]; rfl⟩]
    change W.store.read? a x = _
    rw [← h.own?_eq, hown]

theorem Coherent.getAt?_isSome_iff (h : W.Coherent) (he : W.made[n]? = some e) (d : Nat) :
    (W.getAt? n d x).isSome ↔ ∃ a, W.Out n d a ∧ (W.own? a x).isSome := by
  constructor
  · intro hsome
    cases ha : e.env.chain[d]? with
    | none =>
      rw [getAt?, he] at hsome
      change ((W.store.locateAt? e.env d x).bind _).isSome at hsome
      rw [Store.locateAt?, ha] at hsome
      cases hsome
    | some a =>
      have hout := (h.out_iff he d a).2 ha
      exact ⟨a, hout, by rwa [← hout.getAt?_eq h he]⟩
  · rintro ⟨a, hout, hbound⟩
    rwa [hout.getAt?_eq h he]

theorem Coherent.getAt?_eq_none (h : W.Coherent) {d : Nat} (hout : ∀ a, ¬W.Out n d a) :
    W.getAt? n d x = none := by
  cases he : W.made[n]? with
  | none => simp only [getAt?, he, Option.bind_eq_bind, Option.bind_none]
  | some e =>
    rw [← Option.not_isSome_iff_eq_none, h.getAt?_isSome_iff he]
    rintro ⟨a, ha, -⟩
    exact hout a ha

end Search

section Change

variable (W) in
def put (a : Nat) (x : String) (v : Value) : Environments :=
  { W with store := W.store.define a x v }

variable {n : Nat} {e : Member} {x : String} {v : Value}

theorem perform_assign_eq (he : W.made[n]? = some e) :
    W.perform (.assign n x v) = (W.store.locate? e.env x).map (W.put · x v) := by
  simp only [perform, he, Store.assign?, Option.bind_eq_bind, Option.bind_some]
  cases W.store.locate? e.env x <;> rfl

theorem perform_assignAt_eq (he : W.made[n]? = some e) (d : Nat) :
    W.perform (.assignAt n d x v) = (W.store.locateAt? e.env d x).map (W.put · x v) := by
  simp only [perform, he, Store.assignAt?, Option.bind_eq_bind, Option.bind_some]
  cases W.store.locateAt? e.env d x <;> rfl

theorem Coherent.perform_define_eq (h : W.Coherent) (he : W.made[n]? = some e) :
    W.perform (.define n x v) = some (W.put n x v) := by
  simp only [perform, he, Option.bind_eq_bind, Option.bind_some, h.inner n e he]
  rfl

theorem Coherent.own?_put (h : W.Coherent) {a : Nat} (ha : a < W.made.length) (b : Nat) (y : String) :
    (W.put a x v).own? b y = if b = a ∧ y = x then some v else W.own? b y := by
  have hput : (W.put a x v).Coherent := h.define a x v
  rw [hput.own?_eq, h.own?_eq, put, Store.read?_define, h.size]
  simp only [ha, and_true]

theorem Out.congr {W' : Environments} (hmade : W'.made = W.made) {d a : Nat} (h : W.Out n d a) :
    W'.Out n d a := by
  induction h with
  | here h => exact .here (hmade ▸ h)
  | link h hp _ ih => exact .link (hmade ▸ h) hp ih

theorem Nearest.congr {W' : Environments} (hmade : W'.made = W.made)
    (hbound : ∀ b y, (W'.own? b y).isSome = (W.own? b y).isSome) {d a : Nat} (h : W.Nearest n x d a) :
    W'.Nearest n x d a := by
  refine ⟨h.out.congr hmade, (hbound a x).trans h.bound, fun d' a' hd' hout ↦ ?_⟩
  have hnone := h.least d' a' hd' (hout.congr hmade.symm)
  rw [← Option.not_isSome_iff_eq_none, hbound, hnone]
  exact Bool.false_ne_true

theorem Coherent.get?_congr {W' : Environments} (h : W.Coherent) (h' : W'.Coherent) (hmade : W'.made = W.made)
    (hbound : ∀ b y, (W'.own? b y).isSome = (W.own? b y).isSome)
    (hown : ∀ d a, W.Nearest n x d a → W'.own? a x = W.own? a x) : W'.get? n x = W.get? n x := by
  cases he : W.made[n]? with
  | none => simp only [get?, hmade, he, Option.bind_eq_bind, Option.bind_none]
  | some e =>
    have he' : W'.made[n]? = some e := hmade ▸ he
    cases hid : W.store.locate? e.env x with
    | none =>
      have hnone := (h.locate?_eq_none_iff he).1 hid
      rw [(h.get?_eq_none_iff he).2 hnone]
      refine (h'.get?_eq_none_iff he').2 fun d a hout ↦ ?_
      rw [← Option.not_isSome_iff_eq_none, hbound, hnone d a (hout.congr hmade.symm)]
      exact Bool.false_ne_true
    | some a =>
      obtain ⟨d, hnear⟩ := (h.locate?_eq_some_iff he a).1 hid
      rw [(hnear.congr hmade hbound).get?_eq h' he', hnear.get?_eq h he, hown d a hnear]

theorem Coherent.getAt?_congr {W' : Environments} (h : W.Coherent) (h' : W'.Coherent) (hmade : W'.made = W.made)
    {d : Nat} (hown : ∀ a, W.Out n d a → W'.own? a x = W.own? a x) : W'.getAt? n d x = W.getAt? n d x := by
  by_cases hex : ∃ a, W.Out n d a
  · obtain ⟨a, hout⟩ := hex
    obtain ⟨e, he⟩ := hout.source
    have he' : W'.made[n]? = some e := hmade ▸ he
    rw [(hout.congr hmade).getAt?_eq h' he', hout.getAt?_eq h he, hown a hout]
  · rw [h.getAt?_eq_none fun a hout ↦ hex ⟨a, hout⟩,
      h'.getAt?_eq_none fun a hout ↦ hex ⟨a, hout.congr hmade.symm⟩]

variable (W) in
/-- From `W` to `W'`, the environment `a` was assigned `v` for a name that it binds. -/
structure Assigned (W' : Environments) (a : Nat) (x : String) (v : Value) : Prop where
  made : W'.made = W.made
  own : ∀ b y, W'.own? b y = if b = a ∧ y = x then some v else W.own? b y
  /-- No binding is created or lost. -/
  bound : ∀ b y, (W'.own? b y).isSome = (W.own? b y).isSome
  /-- All environments inside `a` see the value, unless a nearer one binds the name. -/
  seen : ∀ b d, W.Nearest b x d a → W'.get? b x = some v
  unseen : ∀ b y, (∀ d, y = x → ¬W.Nearest b x d a) → W'.get? b y = W.get? b y
  seenAt : ∀ b d, W.Out b d a → W'.getAt? b d x = some v
  unseenAt : ∀ b d y, (y = x → ¬W.Out b d a) → W'.getAt? b d y = W.getAt? b d y

theorem Coherent.assigned (h : W.Coherent) {a : Nat} (hbound : (W.own? a x).isSome) :
    W.Assigned (W.put a x v) a x v := by
  have ha : a < W.made.length := by
    refine Nat.lt_of_not_le fun hle ↦ ?_
    rw [h.own?_eq, W.store.read?_of_le (h.size ▸ hle)] at hbound
    cases hbound
  have hput : (W.put a x v).Coherent := h.define a x v
  have hown := h.own?_put (x := x) (v := v) ha
  have hsame : ∀ b y, ((W.put a x v).own? b y).isSome = (W.own? b y).isSome := by
    intro b y
    rw [hown]
    split
    · next hb => rw [hb.1, hb.2, hbound]; rfl
    · rfl
  have hself : (W.put a x v).own? a x = some v := by rw [hown, if_pos ⟨rfl, rfl⟩]
  have hmade : (W.put a x v).made = W.made := rfl
  have hother {b : Nat} {y : String} (hb : ¬(b = a ∧ y = x)) : (W.put a x v).own? b y = W.own? b y := by
    rw [hown, if_neg hb]
  refine ⟨hmade, hown, hsame, fun b d hnear ↦ ?_, fun b y hfar ↦ ?_, fun b d hout ↦ ?_,
    fun b d y hfar ↦ ?_⟩
  · obtain ⟨f, hf⟩ := hnear.out.source
    rw [(hnear.congr hmade hsame).get?_eq hput hf, hself]
  · refine h.get?_congr hput hmade hsame fun d c hnear ↦ hother ?_
    rintro ⟨rfl, rfl⟩
    exact hfar d rfl hnear
  · obtain ⟨f, hf⟩ := hout.source
    rw [(hout.congr hmade).getAt?_eq hput hf, hself]
  · refine h.getAt?_congr hput hmade fun c hout ↦ hother ?_
    rintro ⟨rfl, rfl⟩
    exact hfar rfl hout

theorem Coherent.perform_assign_eq_none_iff (h : W.Coherent) (he : W.made[n]? = some e) :
    W.perform (.assign n x v) = none ↔ ∀ d a, W.Out n d a → W.own? a x = none := by
  rw [perform_assign_eq he, Option.map_eq_none_iff, h.locate?_eq_none_iff he]

theorem Nearest.perform_assign_eq (h : W.Coherent) (he : W.made[n]? = some e) {d a : Nat}
    (hnear : W.Nearest n x d a) : W.perform (.assign n x v) = W.perform (.assignAt n d x v) := by
  rw [Environments.perform_assign_eq he, perform_assignAt_eq he,
    (h.locate?_eq_some_iff he a).2 ⟨d, hnear⟩,
    (h.locateAt?_eq_some_iff he d a).2 ⟨hnear.out, hnear.bound⟩]

theorem Coherent.perform_assignAt_eq_some_iff (h : W.Coherent) (he : W.made[n]? = some e) (d : Nat)
    (W' : Environments) : W.perform (.assignAt n d x v) = some W' ↔
      ∃ a, W.Out n d a ∧ (W.own? a x).isSome ∧ W.put a x v = W' := by
  simp only [perform_assignAt_eq he, Option.map_eq_some_iff, h.locateAt?_eq_some_iff he, and_assoc]

variable (W) in
/-- What holds of the environment `n`, the name `x` and the value `v` in a collection. -/
structure Laws (n : Nat) (x : String) (v : Value) : Prop where
  get_fails_iff : W.get? n x = none ↔ ∀ d a, W.Out n d a → W.own? a x = none
  assign_fails_iff : W.perform (.assign n x v) = none ↔ ∀ d a, W.Out n d a → W.own? a x = none
  get_nearest : ∀ d a, W.Nearest n x d a → W.get? n x = W.getAt? n d x ∧ W.get? n x = W.own? a x
  assign_nearest : ∀ d a, W.Nearest n x d a →
    W.perform (.assign n x v) = W.perform (.assignAt n d x v)
  getAt_succeeds_iff : ∀ d, (W.getAt? n d x).isSome ↔ ∃ a, W.Out n d a ∧ (W.own? a x).isSome
  getAt_own : ∀ d a, W.Out n d a → W.getAt? n d x = W.own? a x
  assignAt_succeeds_iff : ∀ d,
    (W.perform (.assignAt n d x v)).isSome ↔ ∃ a, W.Out n d a ∧ (W.own? a x).isSome
  assigned : ∀ d W', W.perform (.assignAt n d x v) = some W' → ∃ a, W.Out n d a ∧ W.Assigned W' a x v
  assigned_nearest : ∀ W', W.perform (.assign n x v) = some W' →
    ∃ d a, W.Nearest n x d a ∧ W.Assigned W' a x v
  refused : ∀ r, W.perform r = none → W.next r = W
  defined : ∃ W', W.perform (.define n x v) = some W' ∧ W'.made = W.made ∧
    ∀ b y, W'.own? b y = if b = n ∧ y = x then some v else W.own? b y

/-- The laws of the scope chain: a search takes the nearest environment that binds the name, an assignment
changes that one binding for all who see it and creates none, and a definition changes only the environment
itself. -/
theorem build_laws (requests : List Request) {n : Nat} (hn : n < (build requests).made.length) (x : String)
    (v : Value) : (build requests).Laws n x v := by
  have h := build_coherent requests
  have he := List.getElem?_eq_getElem hn
  generalize (build requests).made[n] = e at he
  refine
    { get_fails_iff := h.get?_eq_none_iff he
      assign_fails_iff := h.perform_assign_eq_none_iff he
      get_nearest := fun d a hnear ↦ ?_
      assign_nearest := fun d a hnear ↦ hnear.perform_assign_eq h he
      getAt_succeeds_iff := h.getAt?_isSome_iff he
      getAt_own := fun d a hout ↦ hout.getAt?_eq h he
      assignAt_succeeds_iff := fun d ↦ ?_
      assigned := fun d W' hW' ↦ ?_
      assigned_nearest := fun W' hW' ↦ ?_
      refused := fun r hr ↦ by rw [next, hr]; rfl
      defined := ⟨_, h.perform_define_eq he, rfl, h.own?_put hn⟩ }
  · rw [hnear.get?_eq h he, hnear.out.getAt?_eq h he]
    exact ⟨rfl, rfl⟩
  · rw [Option.isSome_iff_exists]
    simp only [h.perform_assignAt_eq_some_iff he]
    constructor
    · rintro ⟨_, a, hout, hbound, -⟩
      exact ⟨a, hout, hbound⟩
    · rintro ⟨a, hout, hbound⟩
      exact ⟨_, a, hout, hbound, rfl⟩
  · obtain ⟨a, hout, hbound, rfl⟩ := (h.perform_assignAt_eq_some_iff he d W').1 hW'
    exact ⟨a, hout, h.assigned hbound⟩
  · rw [perform_assign_eq he] at hW'
    obtain ⟨a, ha, rfl⟩ := Option.map_eq_some_iff.1 hW'
    obtain ⟨d, hnear⟩ := (h.locate?_eq_some_iff he a).1 ha
    exact ⟨d, a, hnear, h.assigned hnear.bound⟩

/-- Two environments inside a global one, which binds `x` to nil. The first of them has an `x` of its own, and
another environment inside it. -/
def siblings : List Request :=
  [.global, .define 0 "x" .nil, .enclosed 0, .enclosed 0, .enclosed 1, .define 1 "x" (.bool false)]

theorem siblings_laws : 2 < (build siblings).made.length ∧ (build siblings).Laws 2 "x" (.bool true) ∧
    ((build siblings).next (.assign 2 "x" (.bool true))).get? 0 "x" = some (.bool true) ∧
    ((build siblings).next (.assign 2 "x" (.bool true))).get? 3 "x" = some (.bool false) :=
  ⟨by decide, build_laws siblings (by decide) "x" (.bool true), rfl, rfl⟩

end Change

end Environments

end Lox
