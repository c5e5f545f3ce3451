import Lox.Proofs.Machine.CallDepth
import Lox.Proofs.Machine.Orderly
import Lox.Proofs.Machine.Return

namespace Lox

/-- A frame that a `return` leaves on its way out of a body. -/
def Frame.isLeft : Frame → Bool
  | .body _ _ | .block _ _ => true
  | _ => false

namespace Machine

def returns? : Machine → Option (Value × Stack)
  | ⟨.exec (.ret _ none), k, _⟩ => some (.nil, k)
  | ⟨.value v, .ret :: k, _⟩ => some (v, k)
  | _ => none

/-- In the next step a `return` gives a value in the body that runs right above `base`, and not in a call made there. -/
def ReturnsTo (base : Stack) (m : Machine) (v : Value) : Prop :=
  ∃ pushed, m.returns? = some (v, pushed ++ base) ∧ ∀ c, .result c ∉ pushed

def ReturningTo (base : Stack) (m : Machine) (v : Value) : Prop :=
  m.control = .done (.returned v) ∧ ∃ pushed, m.stack = pushed ++ base ∧ ∀ c, .result c ∉ pushed

variable {m m' : Machine} {v : Value} {k base : Stack} {i : Interpreter}

theorem step_of_returns? (h : m.returns? = some (v, k)) : m.step = some ⟨.done (.returned v), k, m.state⟩ := by
  unfold returns? at h
  split at h <;> cases h <;> rfl

section

variable (v)

theorem invoke_not_returned (c : Callable) (vs : List Value) (line : Nat) :
    (invoke i k c vs line).control ≠ .done (.returned v) := by
  cases c with
  | native f => simp [invoke]
  | function id c =>
    rw [invoke]
    split <;> simp [enterClosure, enterBlock]
  | cls c =>
    rw [invoke]
    split
    · simp
    · rw [construct]
      cases c.initializer? <;> simp [enterClosure, enterBlock]

theorem apply_not_returned (f : Value) (vs : List Value) (paren : Token) :
    (apply i k f vs paren).control ≠ .done (.returned v) := by
  unfold apply
  split
  · split
    · exact invoke_not_returned v _ vs paren.line
    · simp
  · simp

theorem property_not_returned (o : ObjectId) (name : Token) :
    (property i k o name).control ≠ .done (.returned v) := by
  unfold property noProperty bindMethod
  repeat' split
  all_goals simp

theorem eval_not_returned (e : Expr) : (eval i k e).control ≠ .done (.returned v) := by
  cases e with
  | var ref | this ref =>
    rw [eval]
    split <;> simp
  | super ref method =>
    unfold eval superMethod noProperty bindMethod
    dsimp only
    repeat' split
    all_goals simp
  | _ => simp [eval]

theorem declareClass_not_returned (name : Token) (o : Option Ref) (ds : List FunctionDecl) :
    (declareClass i k name o ds).control ≠ .done (.returned v) := by
  unfold declareClass defineClass
  repeat' split
  all_goals simp

end

theorem exec_returned {s : Stmt} (hv : (exec i k s).control = .done (.returned v)) :
    returns? ⟨.exec s, k, i⟩ = some (v, (exec i k s).stack) := by
  cases s with
  | ret keyword value =>
    cases value with
    | none =>
      cases hv
      rfl
    | some e => cases hv
  | classDecl name superclass methods => exact absurd hv (declareClass_not_returned v name superclass methods)
  | var name initial => cases initial <;> cases hv
  | _ => cases hv

theorem resume_returned {u : Value} {frame : Frame} (hs : resume i k u frame = some m')
    (hv : m'.control = .done (.returned v)) : returns? ⟨.value u, frame :: k, i⟩ = some (v, m'.stack) := by
  cases resumed hs with
  | ret =>
    cases hv
    rfl
  | callee paren => exact absurd hv (apply_not_returned v u [] paren)
  | lastArgument f known paren => exact absurd hv (apply_not_returned v f _ paren)
  | get o name => exact absurd hv (property_not_returned v o name)
  | unary op => cases hu : u.unary op.kind <;> rw [hu] at hv <;> cases hv
  | binaryRight left op => cases hu : Value.binary op.kind left u <;> rw [hu] at hv <;> cases hv
  | _ => cases hv

theorem finish_returned {flow : Flow} {frame : Frame} (hs : finish i k flow frame = some m')
    (hv : m'.control = .done (.returned v)) :
    frame.isLeft = true ∧ flow = .returned v ∧ m'.stack = k := by
  cases finished hs with
  | returned | block =>
    cases hv
    exact ⟨rfl, rfl, rfl⟩
  | _ => cases hv

/-- A value is on its way out of a body because a `return` has just given it, or because it has left one frame more. -/
theorem step_returned (hs : m.step = some m') (hv : m'.control = .done (.returned v)) :
    m.returns? = some (v, m'.stack) ∨
      ∃ frame, frame.isLeft = true ∧ m.control = .done (.returned v) ∧ m.stack = frame :: m'.stack := by
  obtain ⟨c, k, i⟩ := m
  cases stepped hs with
  | eval _ e => exact absurd hv (eval_not_returned v e)
  | exec => exact .inl (exec_returned hv)
  | act _ _ action =>
    cases action with
    | call callee vs callLine next => exact absurd hv (invoke_not_returned v callee vs callLine)
    | _ => cases hv
  | value hs => exact .inl (resume_returned hs hv)
  | @done _ _ frame _ hs =>
    obtain ⟨hleft, rfl, rfl⟩ := finish_returned hs hv
    exact .inr ⟨frame, hleft, rfl, rfl⟩
  | fault _ f frame => cases frame <;> cases hv

/-- Unless a `return` is executed in the body right above `base`, none leaves it. -/
theorem step_not_returning (hs : m.step = some m') (hm : ∀ v, ¬m.ReturningTo base v)
    (hr : ∀ v, ¬m.ReturnsTo base v) : ∀ v, ¬m'.ReturningTo base v := by
  rintro v ⟨hv, pushed, hstack, hno⟩
  rcases step_returned hs hv with hreturns | ⟨frame, hleft, hcontrol, hframe⟩
  · exact hr v ⟨pushed, hstack ▸ hreturns, hno⟩
  · refine hm v ⟨hcontrol, frame :: pushed, by rw [hframe, hstack]; rfl, fun c hmem ↦ ?_⟩
    rcases List.mem_cons.1 hmem with rfl | hmem
    · cases hleft
    · exact hno c hmem

section

variable {pushed : Stack} (hleft : ∀ frame ∈ pushed, frame.isLeft = true)
include hleft

theorem through_of_isLeft (v : Value) (base : Stack) (i : Interpreter) :
    ∃ j, Through (·.control = .done (.returned v)) ⟨.done (.returned v), pushed ++ base, i⟩
      ⟨.done (.returned v), base, j⟩ := by
  induction pushed generalizing i with
  | nil => exact ⟨i, .refl _⟩
  | cons frame pushed ih =>
    obtain ⟨hframe, hrest⟩ := List.forall_mem_cons.1 hleft
    cases frame with
    | body test body =>
      obtain ⟨j, h⟩ := ih hrest i
      exact ⟨j, .head rfl rfl h⟩
    | block rest saved =>
      obtain ⟨j, h⟩ := ih hrest { i with env := saved }
      exact ⟨j, .head rfl rfl h⟩
    | _ => cases hframe

theorem flow_of_isLeft {P : Machine → Prop} (hP : ∀ m, P m → m.stack ≠ base) {flow : Flow} {j : Interpreter}
    (h : Through P ⟨.done (.returned v), pushed ++ base, i⟩ ⟨.done flow, base, j⟩) : flow = .returned v := by
  induction pushed generalizing i with
  | nil =>
    cases h.eq_of_not fun hm ↦ hP _ hm rfl
    rfl
  | cons frame pushed ih =>
    obtain ⟨hframe, hrest⟩ := List.forall_mem_cons.1 hleft
    have hne (i : Interpreter) (flow' : Flow) :
        (⟨.done flow', frame :: (pushed ++ base), i⟩ : Machine) ≠ ⟨.done flow, base, j⟩ :=
      fun heq ↦ Returns.append_ne frame pushed (congrArg Machine.stack heq)
    cases frame with
    | body test body => exact ih hrest (h.tail (hne _ _) rfl)
    | block rest saved => exact ih hrest (h.tail (hne _ _) rfl)
    | _ => cases hframe

end

end Machine

namespace Stack

theorem running?_eq_none {k : Stack} (h : ∀ c, .result c ∉ k) : running? k = none := by
  induction k with
  | nil => rfl
  | cons frame k ih =>
    have hk : running? k = none := ih fun c hmem ↦ h c (List.mem_cons_of_mem frame hmem)
    cases frame with
    | result c => exact absurd (List.mem_cons_self ..) (h c)
    | _ => exact hk

theorem exists_of_running? {k : Stack} {b : Bool} (h : running? k = some b) :
    ∃ pushed c l, k = pushed ++ .result c :: l ∧ (∀ c', .result c' ∉ pushed) ∧ c.isInitializer = b := by
  induction k with
  | nil => cases h
  | cons frame k ih =>
    have hbelow (hframe : ∀ c, frame ≠ .result c) (hk : running? k = some b) :
        ∃ pushed c l, frame :: k = pushed ++ .result c :: l ∧ (∀ c', .result c' ∉ pushed) ∧
          c.isInitializer = b := by
      obtain ⟨pushed, c, l, rfl, hno, hc⟩ := ih hk
      refine ⟨frame :: pushed, c, l, rfl, fun c' hmem ↦ ?_, hc⟩
      rcases List.mem_cons.1 hmem with heq | hmem
      · exact hframe c' heq.symm
      · exact hno c' hmem
    cases frame with
    | result c =>
      cases h
      exact ⟨[], c, k, rfl, by simp, rfl⟩
    | _ => exact hbelow (by simp) h

theorem isLeft_of_turns {pushed k : Stack} {c : Closure} {out : Yield} (ho : Stack.Orderly (pushed ++ .result c :: k))
    (ht : Turns .flow out (pushed ++ .result c :: k)) (hno : ∀ c', .result c' ∉ pushed) :
    ∀ frame ∈ pushed, frame.isLeft = true := by
  induction pushed with
  | nil => simp
  | cons frame pushed ih =>
    have hno' : ∀ c', .result c' ∉ pushed := fun c' hmem ↦ hno c' (List.mem_cons_of_mem frame hmem)
    obtain ⟨hframe, ho⟩ := ho
    obtain ⟨htakes, ht⟩ := ht
    cases frame with
    | body | block => exact List.forall_mem_cons.2 ⟨rfl, ih ho ht hno'⟩
    | program rest => cases List.append_ne_nil_of_right_ne_nil pushed (List.cons_ne_nil _ _) hframe.1
    | result c' => exact absurd (List.mem_cons_self ..) (hno c')
    | _ => cases htakes

end Stack

namespace Machine

variable {m m' : Machine} {v : Value} {k base pushed : Stack} {c : Closure} {out : Yield}

theorem Yields.of_returns? (hy : m.Yields out) (h : m.returns? = some (v, k)) : Stack.Turns .flow out k := by
  obtain ⟨y, ht⟩ := hy
  unfold returns? at h
  split at h
  · cases h
    exact ht
  · cases h
    exact ht.2
  · cases h

theorem Orderly.of_returns? (ho : m.Orderly) (h : m.returns? = some (v, k)) :
    Stack.Orderly k ∧ (Stack.running? k).isSome := by
  obtain ⟨hi, hcontrol, hstack⟩ := ho
  unfold returns? at h
  split at h
  · cases h
    exact ⟨hstack, (Scope.Obeys.of_ret hcontrol).1⟩
  · cases h
    refine ⟨hstack.2, ?_⟩
    rw [show Stack.running? k = some false from hstack.1]
    rfl
  · cases h

/-- The next step is that of a `return`, and from then on nothing is done but to hand its value on, through the body
and the call, to the stack of the caller. -/
def HandsOver (m : Machine) (v : Value) (k : Stack) : Prop :=
  ∃ m₁ j, m.step = some m₁ ∧
    Through (fun x ↦ x.control = .done (.returned v) ∨ x = ⟨.value v, .leave :: k, x.state⟩) m₁ ⟨.value v, k, j⟩

theorem step_result (hc : c.isInitializer = false) (flow : Flow) (k : Stack) (i : Interpreter) :
    step ⟨.done flow, .result c :: k, i⟩ = some ⟨.value flow.value, k, i⟩ := by
  simp [step, finish, hc]

theorem handsOver (ho : m.Orderly) (hy : m.Yields out) (h : m.returns? = some (v, pushed ++ .result c :: k))
    (hno : ∀ c', .result c' ∉ pushed) (hc : c.isInitializer = false) : ∃ l, k = .leave :: l ∧ m.HandsOver v l := by
  obtain ⟨hstack, -⟩ := ho.of_returns? h
  have hleft := Stack.isLeft_of_turns hstack (hy.of_returns? h) hno
  have hbelow : Stack.Orderly (.result c :: k) := hstack.of_append
  obtain ⟨l, rfl⟩ := hbelow.1 hc
  obtain ⟨j, hthrough⟩ := through_of_isLeft hleft v (.result c :: .leave :: l) m.state
  refine ⟨l, rfl, _, { j with depth := j.depth - 1 }, step_of_returns? h, ?_⟩
  refine (hthrough.mono fun x hx ↦ .inl hx).trans ?_
  exact .head (.inl rfl) (step_result hc _ _ j) (.head (.inr rfl) rfl (.refl _))

/-- The body of a function comes to its end with a value for the stack `k` of the caller: with that of the first
`return` executed in it, which is handed over at once, or with nil if it has run to its end without one. -/
def Answers (m : Machine) (saved : Env) (c : Closure) (k : Stack) (w : Value) : Prop :=
  ∃ m', Through (fun x ↦ x.InBlock saved (.result c :: .leave :: k) ∧
      ∀ v, ¬x.ReturnsTo (.result c :: .leave :: k) v) m m' ∧
    (m'.ReturnsTo (.result c :: .leave :: k) w ∧ m'.HandsOver w k ∨
      w = .nil ∧ ∃ j, m' = ⟨.done .normal, .result c :: .leave :: k, j⟩)

theorem InBlock.stack_ne {saved : Env} (h : m.InBlock saved base) : m.stack ≠ base := by
  rintro rfl
  obtain ⟨rest, h⟩ := h
  exact Nat.not_succ_le_self _ h.length_le

theorem Through.answers {saved : Env} {flow : Flow} {j : Interpreter}
    (h : Through (InBlock saved (.result c :: .leave :: k)) m ⟨.done flow, .result c :: .leave :: k, j⟩)
    (hc : c.isInitializer = false) (hm : ∀ v, ¬m.ReturningTo (.result c :: .leave :: k) v)
    (hsteps : ∀ x, Steps m x → x.Orderly ∧ x.Yields out) : m.Answers saved c k flow.value := by
  generalize hend : (⟨.done flow, .result c :: .leave :: k, j⟩ : Machine) = m' at h
  induction h with
  | refl m =>
    subst hend
    refine ⟨_, .refl _, .inr ?_⟩
    cases flow with
    | normal => exact ⟨rfl, j, rfl⟩
    | returned v => exact absurd ⟨rfl, [], rfl, by simp⟩ (hm v)
  | @head m m₁ m' hP hs h ih =>
    by_cases hr : ∃ v, m.ReturnsTo (.result c :: .leave :: k) v
    · obtain ⟨v, pushed, hv, hno⟩ := hr
      obtain ⟨ho, hy⟩ := hsteps m (.refl m)
      obtain ⟨_, ⟨⟩, hhands⟩ := handsOver ho hy hv hno hc
      have hleft := Stack.isLeft_of_turns (ho.of_returns? hv).1 (hy.of_returns? hv) hno
      cases hs.symm.trans (step_of_returns? hv)
      subst hend
      obtain rfl := flow_of_isLeft hleft (fun x hx ↦ hx.stack_ne) h
      exact ⟨m, .refl m, .inl ⟨⟨pushed, hv, hno⟩, hhands⟩⟩
    · have hnone := not_exists.1 hr
      obtain ⟨z, hz, hw⟩ := ih (step_not_returning hs hm hnone) (fun x hx ↦ hsteps x (.head hs hx)) hend
      exact ⟨z, .head ⟨hP, hnone⟩ hs hz, hw⟩

theorem Returns.answers {i j : Interpreter} {id : Nat} {vs : List Value} {line : Nat} {w : Value}
    (h : (Machine.invoke i k (.function id c) vs line).Returns k w j) (hc : c.isInitializer = false)
    (hsteps : ∀ x, Steps (Machine.invoke i k (.function id c) vs line) x → x.Orderly ∧ x.Yields out) :
    (Machine.invoke i k (.function id c) vs line).Answers i.env c k w := by
  have hbegin := h.invoke_function
  rw [hbegin] at h hsteps ⊢
  obtain ⟨flow, i', hbody, hrest⟩ := Returns.body [.leave] (by simp) h
  obtain ⟨rfl, -⟩ := (hrest.tail (append_ne _ [.leave]) (step_result hc flow (.leave :: k) i')).leave
  refine hbody.answers hc (fun v hv ↦ ?_) hsteps
  cases hv.1

end Machine

end Lox
