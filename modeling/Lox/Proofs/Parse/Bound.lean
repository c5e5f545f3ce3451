import Lox.Proofs.Parse.Forward

namespace Lox.Parse

variable {α β : Type}

/-- Two replies are the same, at a state that comes later; and there are fewer tokens left after a
success, where that is asked for. -/
structure State.Agree (s : State) (shrinks : Bool) (r r' : Reply α) : Prop where
  eq : r = r'
  forward : s.Forward r.state
  length_lt : shrinks = true → ∀ a s', r = .ok a s' → s'.rest.length < s.rest.length

namespace Rule

/-- Two rules do the same as long as there are at most `n` tokens ahead. -/
def Alike (n : Nat) (shrinks : Bool) (p q : Rule α) : Prop :=
  ∀ s : State, s.eof.kind = .eof → s.rest.length ≤ n → s.Agree shrinks (p s) (q s)

/-- Two rules do the same with fewer than `n` tokens ahead: how they must be related to stand behind a
token. -/
def AlikeBelow (n : Nat) (shrinks : Bool) (p q : Rule α) : Prop :=
  ∀ m, m + 1 ≤ n → Alike m shrinks p q

section

variable {n m : Nat} {b c : Bool} {p q : Rule α} {f g : α → Rule β}

theorem Alike.mono (h : Alike n b p q) (hmn : m ≤ n) : Alike m b p q :=
  fun s hs hm ↦ h s hs (Nat.le_trans hm hmn)

theorem Alike.weaken (h : Alike n b p q) : Alike n false p q :=
  fun s hs hn ↦ ⟨(h s hs hn).eq, (h s hs hn).forward, fun hb ↦ nomatch hb⟩

theorem Alike.below (h : Alike n b p q) : AlikeBelow (n + 1) b p q :=
  fun _ hm ↦ h.mono (Nat.le_of_succ_le_succ hm)

theorem AlikeBelow.mono (h : AlikeBelow n b p q) (hmn : m ≤ n) : AlikeBelow m b p q :=
  fun k hk ↦ h k (Nat.le_trans hk hmn)

theorem Alike.symm (h : Alike n b p q) : Alike n b q p := fun s hs hn ↦ by
  obtain ⟨heq, hforward, hlt⟩ := h s hs hn
  rw [heq] at hforward hlt
  exact ⟨heq.symm, hforward, hlt⟩

theorem alike_pure (a : α) : Alike n false (pure a) (pure a) :=
  fun s _ _ ↦ ⟨rfl, .refl s, fun hb ↦ nomatch hb⟩

theorem alike_missing (what : Expectation) : Alike n b (missing what : Rule α) (missing what) :=
  fun s _ _ ↦ ⟨rfl, .refl s, fun _ _ _ h ↦ nomatch h⟩

theorem Composed.alike (h : Composed p) : Alike n false p p :=
  fun s _ _ ↦ ⟨rfl, h.forward s, fun hb ↦ nomatch hb⟩

/-- One rule after another. What follows a rule that takes a token has fewer tokens ahead. -/
theorem Alike.bind (hp : Alike n b p q) (hf : ∀ m a, m + b.toNat ≤ n → Alike m c (f a) (g a)) :
    Alike n (b || c) (p >>= f) (q >>= g) := by
  intro s hs hn
  obtain ⟨heq, hforward, hlt⟩ := hp s hs hn
  cases hps : p s with
  | fail e s' =>
    rw [hps] at heq hforward
    rw [bind_fail hps, bind_fail heq.symm]
    exact ⟨rfl, hforward, fun _ _ _ h ↦ nomatch h⟩
  | ok a s' =>
    rw [hps] at heq hforward
    have hle : s'.rest.length ≤ s.rest.length := hforward.length_le
    have hm : s'.rest.length + b.toNat ≤ n := by
      cases b with
      | false => exact Nat.le_trans hle hn
      | true => exact Nat.lt_of_lt_of_le (hlt rfl a s' hps) hn
    obtain ⟨heq', hforward', hlt'⟩ := hf _ a hm s' (hforward.eof ▸ hs) (Nat.le_refl _)
    rw [bind_ok hps, bind_ok heq.symm]
    refine ⟨heq', hforward.trans hforward', fun hbc a' s'' h ↦ ?_⟩
    have hle' : s''.rest.length ≤ s'.rest.length := by
      rw [h] at hforward'
      exact hforward'.length_le
    rcases Bool.or_eq_true_iff.1 hbc with rfl | rfl
    · exact Nat.lt_of_le_of_lt hle' (hlt rfl a s' hps)
    · exact Nat.lt_of_lt_of_le (hlt' rfl a' s'' h) hle

theorem Alike.bind_next (hp : Alike n true p q) (hf : ∀ a, AlikeBelow n false (f a) (g a)) :
    Alike n true (p >>= f) (q >>= g) :=
  hp.bind fun m a hm ↦ hf a m hm

theorem Alike.bind_same (hp : Alike n b p q) (hf : ∀ a, Alike n c (f a) (g a)) :
    Alike n c (p >>= f) (q >>= g) := by
  have h := hp.weaken.bind (b := false) fun m a hm ↦ (hf a).mono (m := m) hm
  exact h

theorem Alike.map (hp : Alike n b p q) (h : α → β) : Alike n b (h <$> p) (h <$> q) := by
  have h' := hp.bind (c := false) (f := fun a ↦ pure (h a)) (g := fun a ↦ pure (h a))
    fun m a _ ↦ alike_pure (h a)
  rwa [Bool.or_false] at h'

theorem AlikeBelow.bind (hp : AlikeBelow n b p q) (hf : ∀ a, AlikeBelow n c (f a) (g a)) :
    AlikeBelow n c (p >>= f) (q >>= g) := fun m hm ↦ (hp m hm).bind_same fun a ↦ hf a m hm

theorem Composed.alikeBelow (h : Composed p) : AlikeBelow n false p p := fun _ _ ↦ h.alike

end

section

variable {n : Nat} {b : Bool} {test : Kind → Bool} {f g : Option Token → Rule β}

theorem Alike.acceptIf_bind (hn : Alike n b (f none) (g none))
    (hs : ∀ t, AlikeBelow n false (f (some t)) (g (some t))) :
    Alike n b (acceptIf test >>= f) (acceptIf test >>= g) := by
  intro s heof hlen
  cases hr : s.rest with
  | nil =>
    have h : acceptIf test s = .ok none s := by rw [acceptIf, hr]
    rw [bind_ok h, bind_ok h]
    exact hn s heof hlen
  | cons t rest =>
    by_cases ht : test t.kind = true
    · have h : acceptIf test s = .ok (some t) { s with rest } := by rw [acceptIf, hr]; exact if_pos ht
      rw [bind_ok h, bind_ok h]
      rw [hr] at hlen
      obtain ⟨heq, hforward, -⟩ := hs t rest.length hlen { s with rest } heof (Nat.le_refl _)
      have hstep : s.Forward { s with rest } := ⟨hr ▸ List.suffix_cons t rest, rfl, List.prefix_rfl⟩
      refine ⟨heq, hstep.trans hforward, fun _ a s' h' ↦ ?_⟩
      have hle := hforward.length_le
      rw [h'] at hle
      rw [hr]
      exact Nat.lt_succ_of_le hle
    · have h : acceptIf test s = .ok none s := by rw [acceptIf, hr]; exact if_neg ht
      rw [bind_ok h, bind_ok h]
      exact hn s heof hlen

theorem Alike.accept_bind {kind : Kind} (hn : Alike n b (f none) (g none))
    (hs : ∀ t, AlikeBelow n false (f (some t)) (g (some t))) :
    Alike n b (accept kind >>= f) (accept kind >>= g) := hn.acceptIf_bind hs

theorem alike_expect (kind : Kind) (what : Expectation) : Alike n true (expect kind what) (expect kind what) :=
  Alike.accept_bind (alike_missing what) fun t _ _ ↦ alike_pure t

end

def AlikeAt (t : Token) (n : Nat) (shrinks : Bool) (p q : Rule α) : Prop :=
  ∀ (s : State) (rest : List Token), s.eof.kind = .eof → s.rest = t :: rest → s.rest.length ≤ n →
    s.Agree shrinks (p s) (q s)

section

variable {n : Nat} {b : Bool} {p q : Rule α}

theorem Alike.alikeAt (t : Token) (h : Alike n b p q) : AlikeAt t n b p q := fun s _ hs _ hn ↦ h s hs hn

theorem AlikeBelow.advance {t : Token} (h : AlikeBelow n false p q) :
    AlikeAt t n true (advance >>= fun _ ↦ p) (advance >>= fun _ ↦ q) := by
  intro s rest hs hr hn
  have hadvance : Rule.advance s = .ok () { s with rest } := by rw [Rule.advance, hr]; rfl
  rw [bind_ok hadvance, bind_ok hadvance]
  rw [hr] at hn
  obtain ⟨heq, hforward, -⟩ := h rest.length hn { s with rest } hs (Nat.le_refl _)
  have hstep : s.Forward { s with rest } := ⟨hr ▸ List.suffix_cons t rest, rfl, List.prefix_rfl⟩
  refine ⟨heq, hstep.trans hforward, fun _ a s' h' ↦ ?_⟩
  have hle := hforward.length_le
  rw [h'] at hle
  rw [hr]
  exact Nat.lt_succ_of_le hle

theorem alike_peek_bind {f g : Token → Rule β} (he : ∀ t, t.kind = .eof → Alike n b (f t) (g t))
    (hc : ∀ t, AlikeAt t n b (f t) (g t)) : Alike n b (peek >>= f) (peek >>= g) := by
  intro s hs hn
  show s.Agree b (f (s.rest.headD s.eof) s) (g (s.rest.headD s.eof) s)
  cases hr : s.rest with
  | nil => exact he s.eof hs s hs hn
  | cons t rest => exact hc t s rest hs hr hn

theorem Alike.test_bind {p : Rule Bool} {f g : Bool → Rule β} (hp : Composed p)
    (ht : Alike n b (f true) (g true)) (hf : Alike n b (f false) (g false)) :
    Alike n b (p >>= f) (p >>= g) :=
  hp.alike.bind_same fun c ↦ by
    cases c with
    | false => exact hf
    | true => exact ht

end

section

variable {ι : Type} {F F' : Nat → (ι → Rule α) → ι → Rule α} {n : Nat} {b : Bool}

/-- Rules that unfold a recursion often enough for `n` tokens ahead. The recursion is given by its rounds:
what they do, by what is called further on, and by a bound on the tokens ahead. -/
inductive Unfolded (F : Nat → (ι → Rule α) → ι → Rule α) : Nat → (ι → Rule α) → Prop
  | intro {n k : Nat} {p q : ι → Rule α} (hk : n ≤ k) (hq : ∀ m, m + 1 ≤ n → Unfolded F m q)
      (hp : ∀ (i : ι) (s : State), s.eof.kind = .eof → s.rest.length ≤ n → p i s = F k q i s) :
      Unfolded F n p

/-- Rules are alike if their rounds are, provided that what is called further on has fewer tokens ahead. -/
theorem Unfolded.alike {p p' : ι → Rule α} (h : Unfolded F n p) (h' : Unfolded F' n p')
    (hF : ∀ m k k' q q', m ≤ n → m ≤ k → m ≤ k' → (∀ i, AlikeBelow m b (q i) (q' i)) →
      ∀ i, Alike m b (F k q i) (F' k' q' i)) (i : ι) : Alike n b (p i) (p' i) := by
  induction n using Nat.strongRecOn generalizing p p' i with
  | ind n ih =>
    obtain ⟨hk, hq, hp⟩ := h
    obtain ⟨hk', hq', hp'⟩ := h'
    intro s heof hs
    rw [hp i s heof hs, hp' i s heof hs]
    refine hF n _ _ _ _ (Nat.le_refl n) hk hk' (fun i m hm ↦ ?_) i s heof hs
    exact ih m hm (hq m hm) (hq' m hm) (fun j k k' q q' hj ↦ hF j k k' q q' (by omega)) i

/-- With a bound on the tokens ahead, a recursion is unfolded far enough: once the bound is used up, so are
the tokens. -/
theorem unfolded_of_bounded {p : Nat → ι → Rule α} (hsucc : ∀ k, p (k + 1) = F (k + 1) (p k))
    (hzero : ∀ (q : ι → Rule α) (i : ι) (s : State), s.eof.kind = .eof → s.rest = [] → p 0 i s = F 0 q i s)
    {k : Nat} (hk : n ≤ k) : Unfolded F n (p k) := by
  induction k generalizing n with
  | zero =>
    refine .intro (q := p 0) hk (fun m hm ↦ ?_) fun i s heof hs ↦ ?_
    · omega
    · exact hzero _ i s heof (List.length_eq_zero_iff.1 (Nat.le_zero.1 (Nat.le_trans hs hk)))
  | succ k ih => exact .intro hk (fun m hm ↦ ih (by omega)) fun i s _ _ ↦ by rw [hsucc]

/-- However a recursion is cut off, it is unfolded far enough once there are more rounds than tokens. -/
theorem unfolded_of_cut {bound : Nat} {p : Nat → ι → Rule α} (hsucc : ∀ k, p (k + 1) = F bound (p k))
    (hn : n ≤ bound) {k : Nat} (hk : n < k) : Unfolded F n (p k) := by
  induction k generalizing n with
  | zero => cases hk
  | succ k ih => exact .intro hn (fun m hm ↦ ih (by omega) (by omega)) fun i s _ _ ↦ by rw [hsucc]

end

end Rule

open Rule

/-- One more operand of a left-associative operator, and what `next` reads behind it. -/
def operandsRound (isOp : Kind → Bool) (node : Expr → Token → Expr → Expr) (operand : Rule Expr)
    (next : Expr → Rule Expr) (left : Expr) : Rule Expr := do
  match ← acceptIf isOp with
  | none => pure left
  | some op =>
    let right ← operand
    next (node left op right)

def unaryRound (operand next : Rule Expr) : Rule Expr := do
  match ← acceptIf isUnary with
  | some op => pure (.unary op (← next))
  | none => operand

def argumentsRound (expr : Rule Expr) (next : Nat → Rule (List Expr)) (count : Nat) : Rule (List Expr) := do
  let e ← argument expr count
  match ← accept (.mark .comma) with
  | none => pure [e]
  | some _ => pure (e :: (← next (count + 1)))

def suffixesRound (expr : Rule Expr) (bound : Nat) (next : Expr → Rule Expr) (e : Expr) : Rule Expr := do
  match ← accept (.mark .leftParen) with
  | some _ => next (← finishCall expr bound e)
  | none =>
    match ← accept (.mark .dot) with
    | some _ => next (.get e (← expect .identifier .propertyName))
    | none => pure e

def parametersRound (next : Nat → Rule (List Token)) (count : Nat) : Rule (List Token) := do
  let p ← parameter count
  match ← accept (.mark .comma) with
  | none => pure [p]
  | some _ => pure (p :: (← next (count + 1)))

def methodsRound (method : Rule FunctionDecl) (next : Rule (List FunctionDecl)) : Rule (List FunctionDecl) := do
  if ← stopsAt closesBlock then pure []
  else
    let m ← method
    pure (m :: (← next))

def declarationsRound (stop : Kind → Bool) (declaration : Rule (Option Stmt)) (next : Rule (List Stmt)) :
    Rule (List Stmt) := do
  if ← stopsAt stop then pure []
  else
    match ← declaration with
    | some d => pure (d :: (← next))
    | none => next

section

variable {n k k' : Nat} {isOp : Kind → Bool} {node : Expr → Token → Expr → Expr}
  {operand operand' expr expr' : Rule Expr} {s : State}

theorem acceptIf_nil {test : Kind → Bool} (hr : s.rest = []) : acceptIf test s = .ok none s := by
  rw [acceptIf, hr]

theorem accept_nil {kind : Kind} (hr : s.rest = []) : accept kind s = .ok none s := acceptIf_nil hr

theorem stopsAt_nil {stop : Kind → Bool} (hr : s.rest = []) : stopsAt stop s = .ok true s := by
  rw [stopsAt, hr]

theorem Rule.Alike.fails_nil {p q : Rule α} (h : Alike n true p q) (heof : s.eof.kind = .eof)
    (hr : s.rest = []) : ∃ e s', p s = .fail e s' := by
  cases hp : p s with
  | fail e s' => exact ⟨e, s', rfl⟩
  | ok a s' =>
    have hlt := (h s heof (by rw [hr]; exact Nat.zero_le n)).length_lt rfl a s' hp
    rw [hr] at hlt
    cases hlt

theorem operandsRound_nil {next : Expr → Rule Expr} {left : Expr} (hr : s.rest = []) :
    operandsRound isOp node operand next left s = .ok left s := by
  rw [operandsRound, bind_ok (acceptIf_nil hr)]
  rfl

theorem operands_unfolded (hk : n ≤ k) :
    Unfolded (fun _ ↦ operandsRound isOp node operand) n (operands isOp node operand k) := by
  refine unfolded_of_bounded (p := operands isOp node operand) (fun _ ↦ rfl) ?_ hk
  exact fun _ _ _ _ hr ↦ (operandsRound_nil hr).symm

theorem operandsRound_alike {next next' : Expr → Rule Expr} (ho : Alike n true operand operand')
    (hn : ∀ left, AlikeBelow n false (next left) (next' left)) (left : Expr) :
    Alike n false (operandsRound isOp node operand next left) (operandsRound isOp node operand' next' left) :=
  Alike.acceptIf_bind (alike_pure left) fun _ ↦ (ho.below.mono (Nat.le_succ n)).bind fun _ ↦ hn _

theorem operands_alike (ho : Alike n true operand operand') (hk : n ≤ k) (hk' : n ≤ k') (left : Expr) :
    Alike n false (operands isOp node operand k left) (operands isOp node operand' k' left) :=
  (operands_unfolded hk).alike (operands_unfolded hk')
    (fun _ _ _ _ _ hm _ _ hn ↦ operandsRound_alike (ho.mono hm) hn) left

theorem leftAssoc_alike (ho : Alike n true operand operand') (hk : n ≤ k) (hk' : n ≤ k') :
    Alike n true (leftAssoc k isOp node operand) (leftAssoc k' isOp node operand') :=
  ho.bind (c := false) fun m first hm ↦
    operands_alike (ho.mono (by omega)) (by omega) (by omega) first

theorem unaryRound_nil {next : Rule Expr} (hr : s.rest = []) : unaryRound operand next s = operand s := by
  rw [unaryRound, bind_ok (acceptIf_nil hr)]

theorem unary_unfolded (hk : n ≤ k) :
    Unfolded (fun _ (next : Unit → Rule Expr) _ ↦ unaryRound operand (next ())) n fun _ ↦ unary operand k := by
  refine unfolded_of_bounded (p := fun k _ ↦ unary operand k) (fun _ ↦ rfl) ?_ hk
  exact fun _ _ _ _ hr ↦ (unaryRound_nil hr).symm

theorem unaryRound_alike {next next' : Rule Expr} (ho : Alike n true operand operand')
    (hn : AlikeBelow n true next next') : Alike n true (unaryRound operand next) (unaryRound operand' next') :=
  Alike.acceptIf_bind ho fun _ ↦ hn.bind fun _ ↦ (Composed.pure _).alikeBelow

theorem unary_alike (ho : Alike n true operand operand') (hk : n ≤ k) (hk' : n ≤ k') :
    Alike n true (unary operand k) (unary operand' k') :=
  (unary_unfolded hk).alike (unary_unfolded hk')
    (fun _ _ _ _ _ hm _ _ hn _ ↦ unaryRound_alike (ho.mono hm) (hn ())) ()

theorem primary_alike (he : AlikeBelow n true expr expr') : Alike n true (primary expr) (primary expr') := by
  refine alike_peek_bind (fun t ht ↦ ?_) fun t ↦ ?_
  · simp only [ht]
    exact alike_missing .expression
  · split
    · exact (Composed.pure _).alikeBelow.advance
    · exact (Composed.pure _).alikeBelow.advance
    · exact (Composed.pure _).alikeBelow.advance
    · exact (Composed.pure _).alikeBelow.advance
    · exact (Composed.pure _).alikeBelow.advance
    · exact ((Composed.expect _ _).bind fun _ ↦ (Composed.expect _ _).bind fun _ ↦
        (Composed.occurrence t).bind fun _ ↦ .pure _).alikeBelow.advance
    · exact ((Composed.occurrence t).bind fun _ ↦ .pure _).alikeBelow.advance
    · exact ((Composed.occurrence t).bind fun _ ↦ .pure _).alikeBelow.advance
    · exact (he.bind fun _ ↦ ((Composed.expect _ _).bind fun _ ↦ .pure _).alikeBelow).advance
    · exact (alike_missing .expression).alikeAt t

theorem argument_alike (he : Alike n true expr expr') (count : Nat) :
    Alike n true (argument expr count) (argument expr' count) := by
  unfold argument
  split
  · exact Composed.peek.alike.bind_same fun t ↦ (Composed.report _ t).alike.bind_same fun _ ↦ he
  · exact he

theorem arguments_unfolded (he : Alike n true expr expr') (hk : n ≤ k) :
    Unfolded (fun _ ↦ argumentsRound expr) n (arguments expr k) := by
  refine unfolded_of_bounded (p := arguments expr) (fun _ ↦ rfl) (fun _ count s heof hr ↦ ?_) hk
  obtain ⟨e, s', hfail⟩ := (argument_alike he count).fails_nil heof hr
  exact (bind_fail hfail).trans (bind_fail hfail).symm

theorem argumentsRound_alike {next next' : Nat → Rule (List Expr)} (he : Alike n true expr expr')
    (hn : ∀ count, AlikeBelow n true (next count) (next' count)) (count : Nat) :
    Alike n true (argumentsRound expr next count) (argumentsRound expr' next' count) :=
  (argument_alike he count).bind_next fun e _ hm ↦ Alike.accept_bind (alike_pure [e]) fun _ ↦
    ((hn (count + 1)).mono (by omega)).bind fun es ↦ (Composed.pure (e :: es)).alikeBelow

theorem arguments_alike (he : Alike n true expr expr') (hk : n ≤ k) (hk' : n ≤ k') (count : Nat) :
    Alike n true (arguments expr k count) (arguments expr' k' count) :=
  (arguments_unfolded he hk).alike (arguments_unfolded he.symm hk')
    (fun _ _ _ _ _ hm _ _ hn ↦ argumentsRound_alike (he.mono hm) hn) count

theorem finishCall_alike (he : Alike n true expr expr') (hk : n ≤ k) (hk' : n ≤ k') (callee : Expr) :
    Alike n true (finishCall expr k callee) (finishCall expr' k' callee) := by
  have hend (args : List Expr) : Alike n true
      (expect (.mark .rightParen) .argumentsEnd >>= fun paren ↦ pure (Expr.call callee args paren))
      (expect (.mark .rightParen) .argumentsEnd >>= fun paren ↦ pure (Expr.call callee args paren)) :=
    (alike_expect _ _).bind_next fun _ ↦ (Composed.pure _).alikeBelow
  exact Alike.test_bind (.check _) ((alike_pure []).bind_same hend)
    ((arguments_alike he hk hk' 0).bind_same hend)

theorem suffixesRound_nil {next : Expr → Rule Expr} {e : Expr} (hr : s.rest = []) :
    suffixesRound expr k next e s = .ok e s := by
  rw [suffixesRound, bind_ok (accept_nil hr)]
  exact bind_ok (accept_nil hr)

theorem suffixes_unfolded (hk : n ≤ k) :
    Unfolded (fun bound ↦ suffixesRound expr (bound - 1)) n (suffixes expr k) := by
  refine unfolded_of_bounded (p := suffixes expr) (fun _ ↦ rfl) ?_ hk
  exact fun _ _ _ _ hr ↦ (suffixesRound_nil hr).symm

theorem suffixesRound_alike {next next' : Expr → Rule Expr} (he : AlikeBelow n true expr expr')
    (hn : ∀ e, AlikeBelow n false (next e) (next' e)) (hk : n ≤ k + 1) (hk' : n ≤ k' + 1) (e : Expr) :
    Alike n false (suffixesRound expr k next e) (suffixesRound expr' k' next' e) := by
  refine Alike.accept_bind (Alike.accept_bind (alike_pure e) fun _ ↦ ?_) fun _ ↦ ?_
  · exact (Composed.expect _ _).alikeBelow.bind fun name ↦ hn _
  · have hcall : AlikeBelow n true (finishCall expr k e) (finishCall expr' k' e) :=
      fun m hm ↦ finishCall_alike (he m hm) (by omega) (by omega) e
    exact hcall.bind hn

theorem suffixes_alike (he : AlikeBelow n true expr expr') (hk : n ≤ k) (hk' : n ≤ k') (e : Expr) :
    Alike n false (suffixes expr k e) (suffixes expr' k' e) :=
  (suffixes_unfolded hk).alike (suffixes_unfolded hk')
    (fun _ _ _ _ _ hm _ _ hn ↦ suffixesRound_alike (he.mono hm) hn (by omega) (by omega)) e

theorem call_alike (he : AlikeBelow n true expr expr') (hk : n ≤ k) (hk' : n ≤ k') :
    Alike n true (call k expr) (call k' expr') :=
  (primary_alike he).bind_next fun e _ hm ↦ suffixes_alike (he.mono (by omega)) (by omega) (by omega) e

theorem disjunction_alike (he : AlikeBelow n true expr expr') (hk : n ≤ k) (hk' : n ≤ k') :
    Alike n true (disjunction k expr) (disjunction k' expr') := by
  have hfactor : Alike n true (factor k expr) (factor k' expr') :=
    leftAssoc_alike (unary_alike (call_alike he hk hk') hk hk') hk hk'
  have hcomparison : Alike n true (comparison k expr) (comparison k' expr') :=
    leftAssoc_alike (leftAssoc_alike hfactor hk hk') hk hk'
  exact leftAssoc_alike (leftAssoc_alike (leftAssoc_alike hcomparison hk hk') hk hk') hk hk'

theorem assignment_alike (he : AlikeBelow n true expr expr') (hk : n ≤ k) (hk' : n ≤ k') :
    Alike n true (assignment k expr) (assignment k' expr') :=
  (disjunction_alike he hk hk').bind_next fun target m hm ↦ Alike.accept_bind (alike_pure target) fun equals ↦
    (he.mono (by omega)).bind fun value ↦ (assignTo_composed target equals value).alikeBelow

/-- A rule that asks for an expression at the end of the input. -/
def FailsAtEnd (p : Rule α) : Prop :=
  ∀ s : State, s.eof.kind = .eof → s.rest = [] → p s = missing .expression s

theorem FailsAtEnd.bind {p : Rule α} (h : FailsAtEnd p) (f : α → Rule β) : FailsAtEnd (p >>= f) :=
  fun s heof hr ↦ bind_fail (h s heof hr)

theorem primary_failsAtEnd (expr : Rule Expr) : FailsAtEnd (primary expr) := by
  intro s heof hr
  have hpeek : peek s = .ok s.eof s := by rw [peek, hr]; rfl
  rw [primary, bind_ok hpeek]
  simp only [heof]

theorem unary_failsAtEnd (h : FailsAtEnd operand) (k : Nat) : FailsAtEnd (unary operand k) := by
  cases k with
  | zero => exact h
  | succ k => exact fun s heof hr ↦ (unaryRound_nil hr).trans (h s heof hr)

theorem assignment_failsAtEnd (k : Nat) (expr : Rule Expr) : FailsAtEnd (assignment k expr) :=
  have hunary : FailsAtEnd (unary (call k expr) k) := unary_failsAtEnd ((primary_failsAtEnd expr).bind _) k
  ((((((hunary.bind _).bind _).bind _).bind _).bind _).bind _).bind _

theorem expression_unfolded (hk : n ≤ k) :
    Unfolded (fun bound (next : Unit → Rule Expr) _ ↦ assignment bound (next ())) n fun _ ↦ expression k := by
  refine unfolded_of_bounded (p := fun k _ ↦ expression k) (fun _ ↦ rfl) ?_ hk
  exact fun _ _ s heof hr ↦ (assignment_failsAtEnd 0 _ s heof hr).symm

/-- A bound on the number of tokens is not felt by expressions. -/
theorem expression_alike (hk : n ≤ k) (hk' : n ≤ k') : Alike n true (expression k) (expression k') :=
  (expression_unfolded hk).alike (expression_unfolded hk')
    (fun _ _ _ _ _ _ hk hk' hn _ ↦ assignment_alike (hn ()) hk hk') ()

end

section

variable {n k k' : Nat} {declaration declaration' : Rule (Option Stmt)} {statement statement' : Rule Stmt}
  {s : State}

/-- Two rules for declarations do the same, and take at least one token if there is one. -/
structure AlikeDeclaration (n : Nat) (p q : Rule (Option Stmt)) : Prop where
  alike : Alike n false p q
  length_lt : ∀ s : State, s.eof.kind = .eof → s.rest.length ≤ n → s.rest ≠ [] →
    (p s).state.rest.length < s.rest.length

theorem AlikeDeclaration.mono {m : Nat} {p q : Rule (Option Stmt)} (h : AlikeDeclaration n p q) (hmn : m ≤ n) :
    AlikeDeclaration m p q :=
  ⟨h.alike.mono hmn, fun s heof hs ↦ h.length_lt s heof (Nat.le_trans hs hmn)⟩

theorem Rule.Alike.recovering {p q : Rule Stmt} (h : Alike n true p q) :
    AlikeDeclaration n p.recovering q.recovering := by
  have hboth (s : State) (heof : s.eof.kind = .eof) (hs : s.rest.length ≤ n) :
      s.Agree false (p.recovering s) (q.recovering s) ∧
        (s.rest ≠ [] → (p.recovering s).state.rest.length < s.rest.length) := by
    obtain ⟨heq, hforward, hlt⟩ := h s heof hs
    cases hp : p s with
    | ok a s' =>
      rw [hp] at heq hforward
      rw [recovering_ok hp, recovering_ok heq.symm]
      exact ⟨⟨rfl, hforward, fun hb ↦ nomatch hb⟩, fun _ ↦ hlt rfl a s' hp⟩
    | fail e s' =>
      rw [hp] at heq hforward
      rw [recovering_fail hp, recovering_fail heq.symm]
      refine ⟨⟨rfl, ?_, fun hb ↦ nomatch hb⟩, fun hr ↦ ?_⟩
      · exact ⟨(synchronize_suffix s'.rest).trans hforward.rest, hforward.eof, (hforward.push e).errors⟩
      · have hle : s'.rest.length ≤ s.rest.length := hforward.length_le
        by_cases hr' : s'.rest = []
        · show (synchronize s'.rest).length < s.rest.length
          rw [hr']
          exact List.length_pos_iff.2 hr
        · exact Nat.lt_of_lt_of_le (length_synchronize_lt hr') hle
  exact ⟨fun s heof hs ↦ (hboth s heof hs).1, fun s heof hs ↦ (hboth s heof hs).2⟩

theorem AlikeDeclaration.bind {p q : Rule (Option Stmt)} {f g : Option Stmt → Rule β}
    (h : AlikeDeclaration n p q) (hf : ∀ o, AlikeBelow n false (f o) (g o)) {s : State}
    (heof : s.eof.kind = .eof) (hs : s.rest.length ≤ n) (hr : s.rest ≠ []) :
    s.Agree false ((p >>= f) s) ((q >>= g) s) := by
  obtain ⟨heq, hforward, -⟩ := h.alike s heof hs
  have hlt := h.length_lt s heof hs hr
  cases hp : p s with
  | fail e s' =>
    rw [hp] at heq hforward
    rw [bind_fail hp, bind_fail heq.symm]
    exact ⟨rfl, hforward, fun hb ↦ nomatch hb⟩
  | ok o s' =>
    rw [hp] at heq hforward hlt
    have hlt : s'.rest.length < s.rest.length := hlt
    obtain ⟨heq', hforward', -⟩ := hf o _ (Nat.le_trans hlt hs) s' (hforward.eof ▸ heof) (Nat.le_refl _)
    rw [bind_ok hp, bind_ok heq.symm]
    exact ⟨heq', hforward.trans hforward', fun hb ↦ nomatch hb⟩

theorem declarationsRound_nil {stop : Kind → Bool} {next : Rule (List Stmt)} (hr : s.rest = []) :
    declarationsRound stop declaration next s = .ok [] s := by
  rw [declarationsRound, bind_ok (stopsAt_nil hr)]
  rfl

theorem declarations_unfolded {stop : Kind → Bool} (hk : n ≤ k) :
    Unfolded (fun _ (next : Unit → Rule (List Stmt)) _ ↦ declarationsRound stop declaration (next ())) n
      fun _ ↦ declarations stop declaration k := by
  refine unfolded_of_bounded (p := fun k _ ↦ declarations stop declaration k) (fun _ ↦ rfl) ?_ hk
  exact fun _ _ _ _ hr ↦ (declarationsRound_nil hr).symm

theorem declarationsRound_alike {stop : Kind → Bool} {next next' : Rule (List Stmt)}
    (hd : AlikeDeclaration n declaration declaration') (hn : AlikeBelow n false next next') :
    Alike n false (declarationsRound stop declaration next) (declarationsRound stop declaration' next') := by
  intro s heof hs
  cases hr : s.rest with
  | nil =>
    rw [declarationsRound_nil hr, declarationsRound_nil hr]
    exact alike_pure [] s heof hs
  | cons t rest =>
    have hstop : stopsAt stop s = .ok (stop t.kind) s := by rw [stopsAt, hr]
    rw [declarationsRound, declarationsRound, bind_ok hstop, bind_ok hstop]
    cases stop t.kind with
    | true => exact alike_pure [] s heof hs
    | false =>
      refine hd.bind (fun o ↦ ?_) heof hs (by rw [hr]; exact List.cons_ne_nil t rest)
      cases o with
      | none => exact hn
      | some d => exact hn.bind fun ds ↦ (Composed.pure (d :: ds)).alikeBelow

theorem declarations_alike (hd : AlikeDeclaration n declaration declaration') (stop : Kind → Bool)
    (hk : n ≤ k) (hk' : n ≤ k') :
    Alike n false (declarations stop declaration k) (declarations stop declaration' k') :=
  (declarations_unfolded hk).alike (declarations_unfolded hk')
    (fun _ _ _ _ _ hm _ _ hn _ ↦ declarationsRound_alike (hd.mono hm) (hn ())) ()

theorem block_alike (hd : AlikeDeclaration n declaration declaration') (hk : n ≤ k) (hk' : n ≤ k') :
    Alike n true (block k declaration) (block k' declaration') :=
  (declarations_alike hd closesBlock hk hk').bind_same fun body ↦
    (alike_expect _ _).bind_next fun _ ↦ (Composed.pure body).alikeBelow

theorem parameter_alike (count : Nat) : Alike n true (parameter count) (parameter count) := by
  unfold parameter
  split
  · exact Composed.peek.alike.bind_same fun t ↦ (Composed.report _ t).alike.bind_same fun _ ↦ alike_expect _ _
  · exact alike_expect _ _

theorem parameters_unfolded (hk : n ≤ k) : Unfolded (fun _ ↦ parametersRound) n (parameters k) := by
  refine unfolded_of_bounded (p := parameters) (fun _ ↦ rfl) (fun _ count s heof hr ↦ ?_) hk
  obtain ⟨e, s', hfail⟩ := (parameter_alike (n := 0) count).fails_nil heof hr
  exact (bind_fail hfail).trans (bind_fail hfail).symm

theorem parametersRound_alike {next next' : Nat → Rule (List Token)}
    (hn : ∀ count, AlikeBelow n true (next count) (next' count)) (count : Nat) :
    Alike n true (parametersRound next count) (parametersRound next' count) :=
  (parameter_alike count).bind_next fun p _ hm ↦ Alike.accept_bind (alike_pure [p]) fun _ ↦
    ((hn (count + 1)).mono (by omega)).bind fun ps ↦ (Composed.pure (p :: ps)).alikeBelow

theorem parameters_alike (hk : n ≤ k) (hk' : n ≤ k') (count : Nat) :
    Alike n true (parameters k count) (parameters k' count) :=
  (parameters_unfolded hk).alike (parameters_unfolded hk')
    (fun _ _ _ _ _ _ _ _ hn ↦ parametersRound_alike hn) count

theorem function_alike (hd : AlikeDeclaration n declaration declaration') (hk : n ≤ k) (hk' : n ≤ k')
    (r : Routine) : Alike n true (function k declaration r) (function k' declaration' r) := by
  have hbody (name : Token) (params : List Token) : Alike n true (do
      let _ ← expect (.mark .rightParen) .parametersEnd
      let _ ← expect (.mark .leftBrace) (.routineBody r)
      let body ← block k declaration
      pure (FunctionDecl.mk name params body)) (do
      let _ ← expect (.mark .rightParen) .parametersEnd
      let _ ← expect (.mark .leftBrace) (.routineBody r)
      let body ← block k' declaration'
      pure (FunctionDecl.mk name params body)) :=
    (alike_expect _ _).bind_same fun _ ↦ (alike_expect _ _).bind_same fun _ ↦
      (block_alike hd hk hk').map fun body ↦ FunctionDecl.mk name params body
  exact (alike_expect _ _).bind_same fun name ↦ (alike_expect _ _).bind_same fun _ ↦
    Alike.test_bind (.check _) ((alike_pure []).bind_same (hbody name))
      ((parameters_alike hk hk' 0).bind_same (hbody name))

theorem methodsRound_nil {method : Rule FunctionDecl} {next : Rule (List FunctionDecl)} (hr : s.rest = []) :
    methodsRound method next s = .ok [] s := by
  rw [methodsRound, bind_ok (stopsAt_nil hr)]
  rfl

theorem methods_unfolded {method : Rule FunctionDecl} (hk : n ≤ k) :
    Unfolded (fun _ (next : Unit → Rule (List FunctionDecl)) _ ↦ methodsRound method (next ())) n
      fun _ ↦ methods method k := by
  refine unfolded_of_bounded (p := fun k _ ↦ methods method k) (fun _ ↦ rfl) ?_ hk
  exact fun _ _ _ _ hr ↦ (methodsRound_nil hr).symm

theorem methodsRound_alike {method method' : Rule FunctionDecl} {next next' : Rule (List FunctionDecl)}
    (hm : Alike n true method method') (hn : AlikeBelow n false next next') :
    Alike n false (methodsRound method next) (methodsRound method' next') := by
  have hmore : Alike n true (method >>= fun m ↦ next >>= fun ms ↦ pure (m :: ms))
      (method' >>= fun m ↦ next' >>= fun ms ↦ pure (m :: ms)) :=
    hm.bind_next fun m ↦ hn.bind fun ms ↦ (Composed.pure (m :: ms)).alikeBelow
  exact Alike.test_bind (.stopsAt closesBlock) (alike_pure []) hmore.weaken

theorem methods_alike {method method' : Rule FunctionDecl} (hm : Alike n true method method') (hk : n ≤ k)
    (hk' : n ≤ k') : Alike n false (methods method k) (methods method' k') :=
  (methods_unfolded hk).alike (methods_unfolded hk')
    (fun _ _ _ _ _ hle _ _ hn _ ↦ methodsRound_alike (hm.mono hle) (hn ())) ()

theorem classDeclaration_alike (hd : AlikeDeclaration n declaration declaration') (hk : n ≤ k)
    (hk' : n ≤ k') : Alike n true (classDeclaration k declaration) (classDeclaration k' declaration') :=
  (alike_expect _ _).bind_same fun _ ↦ superclass_composed.alike.bind_same fun _ ↦
    (alike_expect _ _).bind_same fun _ ↦ (methods_alike (function_alike hd hk hk' .method) hk hk').bind_same fun _ ↦
    (alike_expect _ _).bind_next fun _ ↦ (Composed.pure _).alikeBelow

theorem varDeclaration_alike (hk : n ≤ k) (hk' : n ≤ k') :
    Alike n true (varDeclaration k) (varDeclaration k') := by
  have hend (name : Token) (e : Option Expr) : Alike n true (do
      let _ ← expect (.mark .semicolon) .variableEnd
      pure (Stmt.var name e)) (do
      let _ ← expect (.mark .semicolon) .variableEnd
      pure (Stmt.var name e)) := (alike_expect _ _).bind_next fun _ ↦ (Composed.pure _).alikeBelow
  refine (alike_expect _ _).bind_same fun name ↦ Alike.accept_bind ((alike_pure none).bind_same (hend name)) ?_
  intro _ m hm
  exact ((expression_alike (by omega) (by omega)).map some).bind_same fun e ↦ ((hend name e).mono (by omega)).weaken

theorem expressionStatement_alike (hk : n ≤ k) (hk' : n ≤ k') :
    Alike n true (expressionStatement k) (expressionStatement k') :=
  (expression_alike hk hk').bind_next fun _ ↦ ((Composed.expect _ _).bind fun _ ↦ .pure _).alikeBelow

theorem optionalExpression_alike (hk : n ≤ k) (hk' : n ≤ k') (stop : Kind) :
    Alike n false (optionalExpression k stop) (optionalExpression k' stop) :=
  Alike.test_bind (.check stop) (alike_pure none) ((expression_alike hk hk').map some).weaken

theorem forFirst_alike (hk : n ≤ k) (hk' : n ≤ k') : Alike n true (forFirst k) (forFirst k') := by
  refine Alike.accept_bind (Alike.accept_bind ((expressionStatement_alike hk hk').map some) fun _ m hm ↦ ?_)
    fun _ ↦ (Composed.pure none).alikeBelow
  exact ((varDeclaration_alike (by omega) (by omega)).map some).weaken

theorem forStatement_alike (hs : Alike n true statement statement') (hk : n ≤ k) (hk' : n ≤ k') (line : Nat) :
    Alike n true (forStatement k statement line) (forStatement k' statement' line) :=
  (alike_expect _ _).bind_same fun _ ↦ (forFirst_alike hk hk').bind_same fun first ↦
    (optionalExpression_alike hk hk' _).bind_same fun test ↦ (alike_expect _ _).bind_same fun _ ↦
    (optionalExpression_alike hk hk' _).bind_same fun step ↦ (alike_expect _ _).bind_same fun _ ↦
    hs.map fun body ↦ Stmt.forLoop line first test step body

theorem ifStatement_alike (hs : Alike n true statement statement') (hk : n ≤ k) (hk' : n ≤ k') :
    Alike n true (ifStatement k statement) (ifStatement k' statement') := by
  refine (alike_expect _ _).bind_same fun _ ↦ (expression_alike hk hk').bind_same fun test ↦
    (alike_expect _ _).bind_same fun _ ↦ hs.bind_next fun yes m hm ↦ Alike.accept_bind
      ((alike_pure none).bind_same fun no ↦ alike_pure (Stmt.cond test yes no)) fun _ j hj ↦ ?_
  exact ((hs.mono (by omega)).map some).bind_same fun no ↦ alike_pure (Stmt.cond test yes no)

theorem whileStatement_alike (hs : Alike n true statement statement') (hk : n ≤ k) (hk' : n ≤ k') :
    Alike n true (whileStatement k statement) (whileStatement k' statement') :=
  (alike_expect _ _).bind_same fun _ ↦ (expression_alike hk hk').bind_same fun test ↦
    (alike_expect _ _).bind_same fun _ ↦ hs.map fun body ↦ Stmt.loop test body

theorem printStatement_alike (hk : n ≤ k) (hk' : n ≤ k') :
    Alike n true (printStatement k) (printStatement k') :=
  (expression_alike hk hk').bind_next fun _ ↦ ((Composed.expect _ _).bind fun _ ↦ .pure _).alikeBelow

theorem returnStatement_alike (hk : n ≤ k) (hk' : n ≤ k') (t : Token) :
    Alike n true (returnStatement k t) (returnStatement k' t) :=
  (optionalExpression_alike hk hk' _).bind_same fun _ ↦ (alike_expect _ _).bind_next fun _ ↦
    (Composed.pure _).alikeBelow

theorem statementWith_alike (hd : ∀ m, m + 1 ≤ n → AlikeDeclaration m declaration declaration')
    (hs : AlikeBelow n true statement statement') (hk : n ≤ k) (hk' : n ≤ k') :
    Alike n true (statementWith k declaration statement) (statementWith k' declaration' statement') := by
  have hexpr : Alike n true (expressionStatement k) (expressionStatement k') := expressionStatement_alike hk hk'
  refine alike_peek_bind (fun t ht ↦ ?_) fun t ↦ ?_
  · simp only [ht]
    exact hexpr
  · have behind {p q : Rule Stmt} (h : ∀ m, m + 1 ≤ n → Alike m true p q) :
        AlikeAt t n true (advance >>= fun _ ↦ p) (advance >>= fun _ ↦ q) :=
      AlikeBelow.advance fun m hm ↦ (h m hm).weaken
    split
    · exact behind fun m hm ↦ forStatement_alike (hs m hm) (by omega) (by omega) t.line
    · exact behind fun m hm ↦ ifStatement_alike (hs m hm) (by omega) (by omega)
    · exact behind fun m hm ↦ printStatement_alike (by omega) (by omega)
    · exact behind fun m hm ↦ returnStatement_alike (by omega) (by omega) t
    · exact behind fun m hm ↦ whileStatement_alike (hs m hm) (by omega) (by omega)
    · exact behind fun m hm ↦ (block_alike (hd m hm) (by omega) (by omega)).map _
    · exact hexpr.alikeAt t

theorem declarationWith_alike (hd : ∀ m, m + 1 ≤ n → AlikeDeclaration m declaration declaration')
    (hs : AlikeBelow n true statement statement') (hk : n ≤ k) (hk' : n ≤ k') :
    Alike n true (declarationWith k declaration statement) (declarationWith k' declaration' statement') := by
  have hstatement := statementWith_alike hd hs hk hk'
  refine alike_peek_bind (fun t ht ↦ ?_) fun t ↦ ?_
  · simp only [ht]
    exact hstatement
  · have behind {p q : Rule Stmt} (h : ∀ m, m + 1 ≤ n → Alike m true p q) :
        AlikeAt t n true (advance >>= fun _ ↦ p) (advance >>= fun _ ↦ q) :=
      AlikeBelow.advance fun m hm ↦ (h m hm).weaken
    split
    · exact behind fun m hm ↦ classDeclaration_alike (hd m hm) (by omega) (by omega)
    · exact behind fun m hm ↦ (function_alike (hd m hm) (by omega) (by omega) .function).map _
    · exact behind fun m hm ↦ varDeclaration_alike (by omega) (by omega)
    · exact hstatement.alikeAt t

theorem expressionStatement_failsAtEnd (k : Nat) : FailsAtEnd (expressionStatement k) := by
  intro s heof hr
  have hexpr : expression k s = missing .expression s := by
    cases k with
    | zero => rfl
    | succ k => exact assignment_failsAtEnd (k + 1) _ s heof hr
  exact bind_fail hexpr

theorem statementWith_failsAtEnd (k : Nat) (declaration : Rule (Option Stmt)) (statement : Rule Stmt) :
    FailsAtEnd (statementWith k declaration statement) := by
  intro s heof hr
  have hpeek : peek s = .ok s.eof s := by rw [peek, hr]; rfl
  rw [statementWith, bind_ok hpeek]
  simp only [heof]
  exact expressionStatement_failsAtEnd k s heof hr

theorem declarationWith_failsAtEnd (k : Nat) (declaration : Rule (Option Stmt)) (statement : Rule Stmt) :
    FailsAtEnd (declarationWith k declaration statement) := by
  intro s heof hr
  have hpeek : peek s = .ok s.eof s := by rw [peek, hr]; rfl
  rw [declarationWith, bind_ok hpeek]
  simp only [heof]
  exact statementWith_failsAtEnd k _ _ s heof hr

end

/-- Rules for declarations and statements that unfold their recursion often enough for `n` tokens ahead. -/
inductive UnfoldedBoth : Nat → Rule (Option Stmt) → Rule Stmt → Prop
  | intro {n k : Nat} {d p : Rule (Option Stmt)} {t q : Rule Stmt} (hk : n ≤ k)
      (h : ∀ m, m + 1 ≤ n → UnfoldedBoth m p q)
      (hd : ∀ s : State, s.eof.kind = .eof → s.rest.length ≤ n →
        d s = recovering (declarationWith k p q) s)
      (ht : ∀ s : State, s.eof.kind = .eof → s.rest.length ≤ n → t s = statementWith k p q s) :
      UnfoldedBoth n d t

section

variable {n k k' : Nat}

theorem UnfoldedBoth.alike {d d' : Rule (Option Stmt)} {t t' : Rule Stmt} (h : UnfoldedBoth n d t)
    (h' : UnfoldedBoth n d' t') : AlikeDeclaration n d d' ∧ Alike n true t t' := by
  induction n using Nat.strongRecOn generalizing d d' t t' with
  | ind n ih =>
    obtain ⟨hk, h, hd, ht⟩ := h
    obtain ⟨hk', h', hd', ht'⟩ := h'
    have hboth := fun m hm ↦ ih m hm (h m hm) (h' m hm)
    have hdecl := (declarationWith_alike (fun m hm ↦ (hboth m hm).1) (fun m hm ↦ (hboth m hm).2) hk hk').recovering
    have hstmt := statementWith_alike (fun m hm ↦ (hboth m hm).1) (fun m hm ↦ (hboth m hm).2) hk hk'
    refine ⟨⟨fun s heof hs ↦ ?_, fun s heof hs ↦ ?_⟩, fun s heof hs ↦ ?_⟩
    · rw [hd s heof hs, hd' s heof hs]
      exact hdecl.alike s heof hs
    · rw [hd s heof hs]
      exact hdecl.length_lt s heof hs
    · rw [ht s heof hs, ht' s heof hs]
      exact hstmt s heof hs

theorem declaration_unfolded (hk : n ≤ k) : UnfoldedBoth n (declaration k) (statement k) := by
  induction k generalizing n with
  | zero =>
    have hr {s : State} (hs : s.rest.length ≤ n) : s.rest = [] :=
      List.length_eq_zero_iff.1 (Nat.le_zero.1 (Nat.le_trans hs hk))
    refine .intro (p := declaration 0) (q := statement 0) hk (fun m hm ↦ ?_) (fun s heof hs ↦ ?_) fun s heof hs ↦ ?_
    · omega
    · rw [recovering, declarationWith_failsAtEnd 0 _ _ s heof (hr hs)]
      rfl
    · exact (statementWith_failsAtEnd 0 _ _ s heof (hr hs)).symm
  | succ k ih => exact .intro hk (fun m hm ↦ ih (by omega)) (fun _ _ _ ↦ rfl) fun _ _ _ ↦ rfl

/-- A bound on the number of tokens is not felt by declarations and statements. -/
theorem declaration_statement_alike (hk : n ≤ k) (hk' : n ≤ k') :
    AlikeDeclaration n (declaration k) (declaration k') ∧ Alike n true (statement k) (statement k') :=
  (declaration_unfolded hk).alike (declaration_unfolded hk')

end

end Lox.Parse
