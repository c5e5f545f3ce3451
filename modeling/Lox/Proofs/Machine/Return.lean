import Lox.Proofs.Machine.Silent

namespace Lox.Machine

def applies? : Machine → Option (Value × List Value × Stack)
  | ⟨.value f, .callee [] _ :: k, _⟩ => some (f, [], k)
  | ⟨.value v, .argument f known [] _ :: k, _⟩ => some (f, (v :: known).reverse, k)
  | _ => none

theorem step_of_applies? {m : Machine} {f : Value} {arguments : List Value} {k : Stack}
    (ha : m.applies? = some (f, arguments, k)) :
    ∃ frame paren, m.stack = frame :: k ∧ m.step = some (apply m.state k f arguments paren) := by
  unfold applies? at ha
  split at ha
  · next paren k i =>
    cases ha
    exact ⟨_, paren, rfl, rfl⟩
  · next paren k i =>
    cases ha
    exact ⟨_, paren, rfl, rfl⟩
  · cases ha

/-- The machine comes back to the stack `k`, for the first time, with a value. -/
def Returns (m : Machine) (k : Stack) (v : Value) (j : Interpreter) : Prop :=
  Through (·.stack ≠ k) m ⟨.value v, k, j⟩

def InBlock (saved : Env) (base : Stack) (m : Machine) : Prop :=
  ∃ rest, .block rest saved :: base <:+ m.stack

theorem step_inBlock {saved : Env} {base : Stack} {m m' : Machine} (h : m.InBlock saved base)
    (hs : m.step = some m') : m'.InBlock saved base ∨
      (∃ flow, m' = ⟨.done flow, base, { m.state with env := saved }⟩) ∨
      ∃ f, m' = ⟨.fault f, base, { m.state with env := saved }⟩ := by
  obtain ⟨rest, h⟩ := h
  have hfloor : m.floor <:+ m'.stack := step_floor hs
  obtain ⟨c, k, i⟩ := m
  cases stepped hs with
  | eval | exec | act => exact .inl ⟨rest, h.trans hfloor⟩
  | value hs =>
    obtain heq | h := List.suffix_cons_iff.1 h
    · cases heq
      cases hs
    · exact .inl ⟨rest, h.trans hfloor⟩
  | done hs =>
    obtain heq | h := List.suffix_cons_iff.1 h
    · cases heq
      cases finished hs with
      | next s rest => exact .inl ⟨rest, List.suffix_rfl⟩
      | block => exact .inr (.inl ⟨_, rfl⟩)
    · exact .inl ⟨rest, h.trans hfloor⟩
  | fault k f =>
    obtain heq | h := List.suffix_cons_iff.1 h
    · cases heq
      exact .inr (.inr ⟨f, rfl⟩)
    · exact .inl ⟨rest, h.trans hfloor⟩

namespace Through

variable {k : Stack} {m m' : Machine}

theorem block_ends {saved : Env} {base : Stack} (h : Through (·.stack ≠ k) m m') (hk : m'.stack = k)
    (hbase : k <:+ base) (hm : m.InBlock saved base) :
    ∃ x, ((∃ flow i, x = ⟨.done flow, base, i⟩) ∨ ∃ f i, x = ⟨.fault f, base, i⟩) ∧
      Through (InBlock saved base) m x ∧ Through (·.stack ≠ k) x m' := by
  induction h with
  | refl m =>
    obtain ⟨rest, hm⟩ := hm
    exact absurd (Nat.le_trans (hk ▸ hm).length_le hbase.length_le) (Nat.not_succ_le_self _)
  | head hP hs h ih =>
    obtain hm₁ | ⟨flow, rfl⟩ | ⟨f, rfl⟩ := step_inBlock hm hs
    · obtain ⟨x, hx, hbefore, hafter⟩ := ih hk hm₁
      exact ⟨x, hx, .head hm hs hbefore, hafter⟩
    · exact ⟨_, .inl ⟨flow, _, rfl⟩, .head hm hs (.refl _), h⟩
    · exact ⟨_, .inr ⟨f, _, rfl⟩, .head hm hs (.refl _), h⟩

end Through

namespace Returns

variable {m m₁ : Machine} {k : Stack} {i j : Interpreter} {v w : Value}

theorem tail (h : m.Returns k w j) (hk : m.stack ≠ k) (hs : m.step = some m₁) : m₁.Returns k w j :=
  Through.tail h (fun heq ↦ hk (congrArg Machine.stack heq)) hs

theorem eq_of_stack (h : m.Returns k w j) (hk : m.stack = k) : m = ⟨.value w, k, j⟩ :=
  h.eq_of_not fun hne ↦ hne hk

theorem append_ne (frame : Frame) (pre : Stack) : frame :: (pre ++ k) ≠ k := by
  intro h
  have hlength := congrArg List.length h
  rw [List.length_cons, List.length_append] at hlength
  omega

theorem not_fault (pre : Stack) (hpre : ∀ line next, .host line next ∉ pre) {f : Fault} :
    ¬Returns ⟨.fault f, pre ++ k, i⟩ k w j := by
  intro h
  induction pre generalizing i with
  | nil => cases h.eq_of_stack rfl
  | cons frame pre ih =>
    have hrest := h.tail (append_ne _ _) rfl
    have hpre' : ∀ line next, .host line next ∉ pre := fun line next hmem ↦
      hpre line next (List.mem_cons_of_mem frame hmem)
    cases frame with
    | host line next => exact hpre line next (List.mem_cons_self ..)
    | _ => exact ih hpre' hrest

theorem else_of_fault {p : Prop} [Decidable p] {f : Fault}
    (h : (if p then ⟨.fault f, k, i⟩ else m).Returns k w j) : (if p then ⟨.fault f, k, i⟩ else m) = m := by
  by_cases hp : p
  · rw [if_pos hp] at h
    exact absurd h (not_fault [] (by simp))
  · exact if_neg hp

theorem leave (h : Returns ⟨.value v, .leave :: k, i⟩ k w j) : w = v ∧ j = { i with depth := i.depth - 1 } := by
  have hend := (h.tail (append_ne _ []) rfl).eq_of_stack rfl
  cases hend
  exact ⟨rfl, rfl⟩

theorem construct {o : ObjectId} (h : Returns ⟨.value v, .construct o :: .leave :: k, i⟩ k w j) :
    w = .object o ∧ j = { i with depth := i.depth - 1 } :=
  (h.tail (append_ne _ [.leave]) rfl).leave

theorem result {c : Closure} {pre : Stack} (hpre : ∀ line next, .host line next ∉ pre) {flow : Flow}
    (h : Returns ⟨.done flow, .result c :: (pre ++ k), i⟩ k w j) :
    ∃ v, Returns ⟨.value v, pre ++ k, i⟩ k w j ∧
      (c.isInitializer = true → i.store.getAt? c.env 0 "this" = some v) := by
  cases hc : c.isInitializer with
  | false =>
    have hs : step ⟨.done flow, .result c :: (pre ++ k), i⟩ = some ⟨.value flow.value, pre ++ k, i⟩ := by
      simp [step, finish, hc]
    refine ⟨flow.value, h.tail (append_ne _ _) hs, fun htrue ↦ ?_⟩
    cases htrue
  | true =>
    cases hv : i.store.getAt? c.env 0 "this" with
    | none =>
      have hs : step ⟨.done flow, .result c :: (pre ++ k), i⟩ =
          some ⟨.fault ⟨.undefinedVariable "this", c.decl.name.line⟩, pre ++ k, i⟩ := by
        simp [step, finish, hc, hv]
      exact absurd (h.tail (append_ne _ _) hs) (not_fault pre hpre)
    | some v =>
      have hs : step ⟨.done flow, .result c :: (pre ++ k), i⟩ = some ⟨.value v, pre ++ k, i⟩ := by
        simp [step, finish, hc, hv]
      exact ⟨v, h.tail (append_ne _ _) hs, fun _ ↦ rfl⟩

/-- A call that comes back has run the body of its closure, once, from the beginning to the end. -/
theorem body {c : Closure} (pre : Stack) (hpre : ∀ line next, .host line next ∉ pre) {arguments : List Value}
    (h : (Machine.enterClosure i (pre ++ k) c arguments).Returns k w j) :
    ∃ flow i', Through (InBlock i.env (.result c :: (pre ++ k))) (Machine.enterClosure i (pre ++ k) c arguments)
        ⟨.done flow, .result c :: (pre ++ k), i'⟩ ∧
      Returns ⟨.done flow, .result c :: (pre ++ k), i'⟩ k w j := by
  have hbase : k <:+ .result c :: (pre ++ k) := (List.suffix_append pre k).trans (List.suffix_cons _ _)
  have hblock : (Machine.enterClosure i (pre ++ k) c arguments).InBlock i.env (.result c :: (pre ++ k)) :=
    ⟨c.decl.body, List.suffix_rfl⟩
  obtain ⟨_, ⟨flow, i', rfl⟩ | ⟨f, i', rfl⟩, hbody, hrest⟩ := Through.block_ends h rfl hbase hblock
  · exact ⟨flow, i', hbody, hrest⟩
  · have hpre' : ∀ line next, .host line next ∉ Frame.result c :: pre := by
      intro line next hmem
      obtain heq | hmem := List.mem_cons.1 hmem
      · cases heq
      · exact hpre line next hmem
    exact absurd hrest (not_fault (.result c :: pre) hpre')

theorem enterClosure {c : Closure} (pre : Stack) (hpre : ∀ line next, .host line next ∉ pre)
    {arguments : List Value} (h : (Machine.enterClosure i (pre ++ k) c arguments).Returns k w j) :
    ∃ flow v i', Through (InBlock i.env (.result c :: (pre ++ k))) (Machine.enterClosure i (pre ++ k) c arguments)
        ⟨.done flow, .result c :: (pre ++ k), i'⟩ ∧
      Returns ⟨.value v, pre ++ k, i'⟩ k w j ∧
      (c.isInitializer = true → i'.store.getAt? c.env 0 "this" = some v) := by
  obtain ⟨flow, i', hbody, hrest⟩ := body pre hpre h
  obtain ⟨v, hv, hthis⟩ := Returns.result hpre hrest
  exact ⟨flow, v, i', hbody, hv, hthis⟩

/-- A call that comes back has as many arguments as its callee takes. -/
theorem invoke {c : Callable} {arguments : List Value} (h : m.Returns k w j)
    (ha : m.applies? = some (.callable c, arguments, k)) : arguments.length = c.arity ∧
      ∃ line, m.step = some (Machine.invoke m.state k c arguments line) ∧
        (Machine.invoke m.state k c arguments line).Returns k w j := by
  obtain ⟨frame, paren, hstack, hs⟩ := step_of_applies? ha
  have hrest := h.tail (hstack ▸ append_ne _ []) hs
  by_cases harity : arguments.length = c.arity
  · rw [apply, if_pos harity] at hs hrest
    exact ⟨harity, paren.line, hs, hrest⟩
  · rw [apply, if_neg harity] at hrest
    exact absurd hrest (not_fault [] (by simp))

/-- A call that comes back was not too deep. -/
theorem invoke_function {id : Nat} {c : Closure} {arguments : List Value} {line : Nat}
    (h : (Machine.invoke i k (.function id c) arguments line).Returns k w j) :
    Machine.invoke i k (.function id c) arguments line =
      Machine.enterClosure { i with depth := i.depth + 1 } (.leave :: k) c arguments := by
  rw [Machine.invoke] at h ⊢
  exact h.else_of_fault

theorem invoke_cls {c : Class} {arguments : List Value} {line : Nat}
    (h : (Machine.invoke i k (.cls c) arguments line).Returns k w j) :
    Machine.invoke i k (.cls c) arguments line =
      Machine.construct { i with depth := i.depth + 1 } (.leave :: k) c arguments := by
  rw [Machine.invoke] at h ⊢
  exact h.else_of_fault

end Returns

/-- Runs a machine until its stack is no higher than it should be. -/
def comeBack (height : Nat) : Nat → Machine → Option Machine
  | 0, _ => none
  | fuel + 1, m => if m.stack.length ≤ height then some m else m.step.bind (comeBack height fuel)

theorem through_of_comeBack {k : Stack} {fuel : Nat} {m m' : Machine} (hk : k <:+ m.stack)
    (h : comeBack k.length fuel m = some m') : Through (·.stack ≠ k) m m' ∧ m'.stack = k := by
  induction fuel generalizing m with
  | zero => cases h
  | succ fuel ih =>
    rw [comeBack] at h
    split at h
    · next hlow =>
      cases h
      exact ⟨.refl _, (hk.eq_of_length_le hlow).symm⟩
    · next hhigh =>
      obtain ⟨m₁, hs, h⟩ := Option.bind_eq_some_iff.1 h
      have hne : m.stack ≠ k := fun heq ↦ hhigh (Nat.le_of_eq (congrArg List.length heq))
      obtain ⟨hthrough, hstack⟩ := ih ((suffix_floor hk hne).trans (step_floor hs)) h
      exact ⟨.head hne hs hthrough, hstack⟩

/-- What a call gives that is made in the next step. -/
def callResult? (fuel : Nat) (m : Machine) : Option (Value × Interpreter) :=
  match m.applies?.bind fun call ↦ comeBack call.2.2.length fuel m with
  | some ⟨.value w, _, j⟩ => some (w, j)
  | _ => none

theorem returns_of_callResult? {fuel : Nat} {m : Machine} {f : Value} {arguments : List Value} {k : Stack}
    {w : Value} {j : Interpreter} (ha : m.applies? = some (f, arguments, k))
    (h : m.callResult? fuel = some (w, j)) : m.Returns k w j := by
  obtain ⟨frame, -, hstack, -⟩ := step_of_applies? ha
  have hk : k <:+ m.stack := hstack ▸ List.suffix_cons frame k
  unfold callResult? at h
  rw [ha, Option.bind_some] at h
  split at h
  · next hback =>
    cases h
    obtain ⟨hthrough, rfl⟩ := through_of_comeBack hk hback
    exact hthrough
  · cases h

/-- The next step is a call with this many arguments, and it comes back. -/
def callsWith (n fuel : Nat) (m : Machine) : Bool :=
  m.applies?.any (·.2.1.length == n) && (m.callResult? fuel).isSome

theorem exists_returns {n fuel : Nat} {m : Machine} (h : m.callsWith n fuel = true) :
    ∃ f arguments k w j, m.applies? = some (f, arguments, k) ∧ arguments.length = n ∧ m.Returns k w j := by
  obtain ⟨hcalls, hresult⟩ := Bool.and_eq_true_iff.1 h
  obtain ⟨⟨f, arguments, k⟩, ha, hn⟩ := (Option.any_eq_true _ _).1 hcalls
  obtain ⟨⟨w, j⟩, hw⟩ := Option.isSome_iff_exists.1 hresult
  exact ⟨f, arguments, k, w, j, ha, beq_iff_eq.1 hn, returns_of_callResult? ha hw⟩

theorem control_of_applies? {m : Machine} {f : Value} {k : Stack} (ha : m.applies? = some (f, [], k)) :
    m.control = .value f := by
  unfold applies? at ha
  split at ha
  · cases ha
    rfl
  · have hnil := congrArg (fun call : Value × List Value × Stack ↦ call.2.1) (Option.some.inj ha)
    cases List.cons_ne_nil _ _ (List.reverse_eq_nil_iff.1 hnil)
  · cases ha

theorem exists_returns_now {fuel : Nat} {m : Machine} (h : m.callsWith 0 fuel = true) :
    ∃ f k w j, m.control = .value f ∧ m.applies? = some (f, [], k) ∧ m.Returns k w j := by
  obtain ⟨f, arguments, k, w, j, ha, hn, hr⟩ := exists_returns h
  obtain rfl := List.length_eq_zero_iff.1 hn
  exact ⟨f, k, w, j, control_of_applies? ha, ha, hr⟩

end Lox.Machine
