import Lox.Proofs.Parse.Bound
import Mathlib.Data.List.Forall2

namespace Lox.Parse

open Rule

variable {α : Type}

def closed (tokens : List Token) : List Token :=
  if tokens.getLast?.any (fun t ↦ t.kind.isEof) then tokens
  else tokens ++ [⟨.eof, "", (tokens.getLast?.map Token.line).getD 1⟩]

def endIndex (tokens : List Token) : Nat := (beforeEof tokens).length

theorem isEof_of_mem_beforeEof {tokens : List Token} {t : Token} (h : t ∈ beforeEof tokens) :
    t.kind.isEof = false := by
  have ht := List.all_eq_true.1 List.all_takeWhile t h
  simpa using ht

theorem beforeEof_append {before : List Token} (h : ∀ t ∈ before, t.kind.isEof = false) (l : List Token) :
    beforeEof (before ++ l) = before ++ beforeEof l :=
  List.takeWhile_append_of_pos fun t ht ↦ by simp [h t ht]

theorem beforeEof_append_cons {before : List Token} (h : ∀ t ∈ before, t.kind.isEof = false) {t : Token}
    (ht : t.kind.isEof = true) (l : List Token) : beforeEof (before ++ t :: l) = before := by
  rw [beforeEof_append h]
  simp [beforeEof, ht]

theorem closed_eq (tokens : List Token) :
    ∃ unread, closed tokens = beforeEof tokens ++ endOf tokens :: unread := by
  cases hfind : tokens.find? (fun t ↦ t.kind.isEof) with
  | some t =>
    obtain ⟨ht, before, unread, rfl, hbefore⟩ := List.find?_eq_some_iff_append.1 hfind
    have hread := beforeEof_append_cons (fun t ht ↦ by simpa using hbefore t ht) ht unread
    rw [closed, endOf, hfind, hread]
    split
    · exact ⟨unread, rfl⟩
    · exact ⟨unread ++ [_], by simp only [List.append_assoc, List.cons_append]; rfl⟩
  | none =>
    have hnone : ∀ t ∈ tokens, t.kind.isEof = false := by simpa using hfind
    have hread := beforeEof_append hnone []
    rw [List.append_nil] at hread
    have hlast : tokens.getLast?.any (fun t ↦ t.kind.isEof) = false := by
      cases hl : tokens.getLast? with
      | none => rfl
      | some t => exact hnone t (List.mem_of_getLast? hl)
    refine ⟨[], ?_⟩
    rw [closed, hlast, endOf, hfind, hread]
    simp [beforeEof]

theorem closed_endIndex (tokens : List Token) : (closed tokens)[endIndex tokens]? = some (endOf tokens) := by
  obtain ⟨unread, h⟩ := closed_eq tokens
  rw [h, endIndex, List.getElem?_append_right (Nat.le_refl _), Nat.sub_self]
  rfl

theorem isEof_of_lt_endIndex {tokens : List Token} {k : Nat} {t : Token} (hk : k < endIndex tokens)
    (h : (closed tokens)[k]? = some t) : t.kind.isEof = false := by
  obtain ⟨unread, hclosed⟩ := closed_eq tokens
  rw [hclosed, List.getElem?_append_left hk] at h
  exact isEof_of_mem_beforeEof (List.mem_of_getElem? h)

namespace State

variable {tokens : List Token} {s s' : State}

/-- The tokens of a parse from an index on are those ahead of a state, and then its end-of-file token. -/
structure StandsAt (tokens : List Token) (s : State) (k : Nat) : Prop where
  ahead : ∃ unread, (closed tokens).drop k = s.rest ++ s.eof :: unread
  words : ∀ t ∈ s.rest, t.kind.isEof = false
  eof : s.eof.kind = .eof

theorem standsAt_ofTokens (tokens : List Token) (nextId : Nat) : (ofTokens tokens nextId).StandsAt tokens 0 :=
  ⟨closed_eq tokens, fun _ ↦ isEof_of_mem_beforeEof, endOf_kind tokens⟩

theorem StandsAt.getElem? {k : Nat} (h : s.StandsAt tokens k) :
    (closed tokens)[k]? = some (s.rest.headD s.eof) := by
  obtain ⟨unread, hahead⟩ := h.ahead
  have hhead : ((closed tokens).drop k).head? = some (s.rest.headD s.eof) := by
    rw [hahead]
    cases s.rest <;> rfl
  rwa [List.head?_drop] at hhead

/-- Up to the first end-of-file token, a state stands in front of as many tokens as there are. -/
theorem StandsAt.add_length {k : Nat} (h : s.StandsAt tokens k) (hk : k ≤ endIndex tokens) :
    k + s.rest.length = endIndex tokens := by
  obtain ⟨unread, hahead⟩ := h.ahead
  obtain ⟨unread', hclosed⟩ := closed_eq tokens
  have hrest : s.rest = (beforeEof tokens).drop k := by
    have heof : s.eof.kind.isEof = true := by rw [h.eof]; rfl
    have heof' : (endOf tokens).kind.isEof = true := by rw [endOf_kind]; rfl
    rw [hclosed, List.drop_append_of_le_length hk] at hahead
    have hbefore := congrArg beforeEof hahead
    rwa [beforeEof_append_cons h.words heof, eq_comm, beforeEof_append_cons _ heof'] at hbefore
    exact fun t ht ↦ isEof_of_mem_beforeEof (List.mem_of_mem_drop ht)
  rw [hrest, List.length_drop]
  unfold endIndex at hk ⊢
  omega

theorem StandsAt.forward {k : Nat} (h : s.StandsAt tokens k) (hs : s.Forward s') :
    s'.StandsAt tokens (k + (s.rest.length - s'.rest.length)) := by
  obtain ⟨skipped, hrest⟩ := hs.rest
  obtain ⟨unread, hahead⟩ := h.ahead
  refine ⟨⟨unread, ?_⟩, fun t ht ↦ h.words t (hs.rest.mem ht), hs.eof ▸ h.eof⟩
  have hlength : s.rest.length - s'.rest.length = skipped.length := by
    rw [← hrest, List.length_append]
    omega
  rw [hlength, ← List.drop_drop, hahead, ← hrest, List.append_assoc, List.drop_left, hs.eof]

end State

/-- A parse comes to states that stand further and further on in its tokens, from the first on. -/
theorem Rule.Trace.exists_standsAt {p : Rule α} {tokens : List Token} {nextId : Nat} {l : List State}
    (h : Trace p (.ofTokens tokens nextId) l) : ∃ ks, List.Forall₂ (State.StandsAt tokens) l ks ∧
      ks.Pairwise (· ≤ ·) ∧ (∀ k ∈ ks, k ≤ endIndex tokens) ∧ ks.head? = some 0 ∧
      ks.getLast? = some (endIndex tokens - (p (.ofTokens tokens nextId)).state.rest.length) := by
  have hforward : ∀ s ∈ l, (State.ofTokens tokens nextId).Forward s := by
    intro s hs
    obtain ⟨l, rfl⟩ := List.head?_eq_some_iff.1 h.ends.1
    rcases List.mem_cons.1 hs with rfl | hs
    · exact .refl _
    · exact (List.pairwise_cons.1 h.forward).1 s hs
  refine ⟨l.map fun s ↦ endIndex tokens - s.rest.length, ?_, ?_, ?_, ?_, ?_⟩
  · rw [List.forall₂_map_right_iff, List.forall₂_same]
    intro s hs
    have hstands := (State.standsAt_ofTokens tokens nextId).forward (hforward s hs)
    rwa [Nat.zero_add] at hstands
  · exact List.pairwise_map.2 (h.forward.imp fun hforward ↦ Nat.sub_le_sub_left hforward.length_le _)
  · rw [List.forall_mem_map]
    exact fun s _ ↦ Nat.sub_le _ _
  · rw [List.head?_map, h.ends.1]
    exact congrArg some (Nat.sub_self _)
  · rw [List.getLast?_map, h.ends.2]
    rfl

/-- However the recursion of a rule is cut off, this is what it comes to once there are more rounds than
tokens ahead; so nothing that lies behind the cut is ever called. -/
def Rule.Settles (N : Nat) (cut : Nat → Rule α) (p : Rule α) : Prop :=
  ∀ (n : Nat) (s : State), s.eof.kind = .eof → s.rest.length ≤ N → s.rest.length < n → cut n s = p s

theorem Rule.settles_of_unfolded {ι : Type} {F : Nat → (ι → Rule α) → ι → Rule α} {N M : Nat} {b : Bool}
    {c : Nat → ι → Rule α} {p : ι → Rule α} (hNM : N ≤ M) (hcut : ∀ n, c (n + 1) = F M (c n))
    (hp : ∀ n, n ≤ N → Unfolded F n p)
    (hF : ∀ m k k' q q', m ≤ N → m ≤ k → m ≤ k' → (∀ i, AlikeBelow m b (q i) (q' i)) →
      ∀ i, Alike m b (F k q i) (F k' q' i)) (i : ι) : Settles N (fun n ↦ c n i) (p i) := by
  intro n s heof hN hn
  have hunfolded : Unfolded F s.rest.length (c n) := unfolded_of_cut hcut (Nat.le_trans hN hNM) hn
  have halike : Alike s.rest.length b (c n i) (p i) :=
    hunfolded.alike (hp _ hN) (fun m k k' q q' hm ↦ hF m k k' q q' (Nat.le_trans hm hN)) i
  exact (halike s heof (Nat.le_refl _)).eq

/-- The chains of left-associative operators, from the tightest one on: what the operators are, and what
is made of two operands. -/
def chains (N : Nat) (expr : Rule Expr) : List ((Kind → Bool) × (Expr → Token → Expr → Expr) × Rule Expr) :=
  [(isFactor, .binary, unary (call N expr) N), (isTerm, .binary, factor N expr),
    (isComparison, .binary, term N expr), (isEquality, .binary, comparison N expr),
    (isAnd, .logical, equality N expr), (isOr, .logical, conjunction N expr)]

theorem chains_alike (N : Nat) : ∀ c ∈ chains N (expression N), Alike N true c.2.2 c.2.2 := by
  have he : AlikeBelow N true (expression N) (expression N) :=
    fun m hm ↦ expression_alike (by omega) (by omega)
  have hunary := unary_alike (call_alike he (Nat.le_refl N) (Nat.le_refl N)) (Nat.le_refl N) (Nat.le_refl N)
  have hnext {isOp : Kind → Bool} {node : Expr → Token → Expr → Expr} {operand : Rule Expr}
      (h : Alike N true operand operand) :
      Alike N true (leftAssoc N isOp node operand) (leftAssoc N isOp node operand) :=
    leftAssoc_alike h (Nat.le_refl N) (Nat.le_refl N)
  simp only [chains, List.forall_mem_cons]
  exact ⟨hunary, hnext hunary, hnext (hnext hunary), hnext (hnext (hnext hunary)),
    hnext (hnext (hnext (hnext hunary))), hnext (hnext (hnext (hnext (hnext hunary)))), fun _ h ↦ nomatch h⟩

/-- No recursion of the parser goes on without end, with at most `N` tokens ahead. Each one is given by
its rounds, in which nothing bounds it. -/
structure RecursionsEnd (N : Nat) : Prop where
  expression : ∀ cut : Nat → Rule Expr, (∀ n, cut (n + 1) = assignment N (cut n)) →
    Settles N cut (expression N)
  operands : ∀ c ∈ chains N (Parse.expression N), ∀ cut : Nat → Expr → Rule Expr,
    (∀ n, cut (n + 1) = operandsRound c.1 c.2.1 c.2.2 (cut n)) →
    ∀ left, Settles N (fun n ↦ cut n left) (operands c.1 c.2.1 c.2.2 N left)
  unary : ∀ cut : Nat → Rule Expr, (∀ n, cut (n + 1) = unaryRound (call N (Parse.expression N)) (cut n)) →
    Settles N cut (unary (call N (Parse.expression N)) N)
  suffixes : ∀ cut : Nat → Expr → Rule Expr,
    (∀ n, cut (n + 1) = suffixesRound (Parse.expression N) N (cut n)) →
    ∀ e, Settles N (fun n ↦ cut n e) (suffixes (Parse.expression N) N e)
  arguments : ∀ cut : Nat → Nat → Rule (List Expr),
    (∀ n, cut (n + 1) = argumentsRound (Parse.expression N) (cut n)) →
    ∀ count, Settles N (fun n ↦ cut n count) (arguments (Parse.expression N) N count)
  parameters : ∀ cut : Nat → Nat → Rule (List Token), (∀ n, cut (n + 1) = parametersRound (cut n)) →
    ∀ count, Settles N (fun n ↦ cut n count) (parameters N count)
  methods : ∀ cut : Nat → Rule (List FunctionDecl),
    (∀ n, cut (n + 1) = methodsRound (function N (Parse.declaration N) .method) (cut n)) →
    Settles N cut (methods (function N (Parse.declaration N) .method) N)
  declarations : ∀ (stop : Kind → Bool) (cut : Nat → Rule (List Stmt)),
    (∀ n, cut (n + 1) = declarationsRound stop (Parse.declaration N) (cut n)) →
    Settles N cut (declarations stop (Parse.declaration N) N)
  declaration : ∀ (cut : Nat → Rule (Option Stmt)) (cut' : Nat → Rule Stmt),
    (∀ n, cut (n + 1) = recovering (declarationWith N (cut n) (cut' n))) →
    (∀ n, cut' (n + 1) = statementWith N (cut n) (cut' n)) →
    Settles N cut (declaration N) ∧ Settles N cut' (statement N)

theorem recursionsEnd (N : Nat) : RecursionsEnd N where
  expression cut hcut :=
    settles_of_unfolded (c := fun n _ ↦ cut n) (Nat.le_refl N) (fun n ↦ funext fun _ ↦ hcut n)
      (fun _ hn ↦ expression_unfolded hn)
      (fun _ _ _ _ _ _ hk hk' hn _ ↦ assignment_alike (hn ()) hk hk') ()
  operands c hc cut hcut :=
    settles_of_unfolded (Nat.le_refl N) hcut (fun _ hn ↦ operands_unfolded hn)
      fun _ _ _ _ _ hm _ _ hn ↦ operandsRound_alike ((chains_alike N c hc).mono hm) hn
  unary cut hcut :=
    settles_of_unfolded (c := fun n _ ↦ cut n) (Nat.le_refl N) (fun n ↦ funext fun _ ↦ hcut n)
      (fun _ hn ↦ unary_unfolded hn)
      (fun _ _ _ _ _ hm _ _ hn _ ↦ unaryRound_alike (call_alike
        (fun m hm ↦ expression_alike (by omega) (by omega)) hm hm) (hn ())) ()
  suffixes cut hcut :=
    settles_of_unfolded (M := N + 1) (Nat.le_succ N) hcut (fun _ hn ↦ suffixes_unfolded hn)
      fun _ _ _ _ _ hm _ _ hn ↦ suffixesRound_alike
        (fun m hm ↦ expression_alike (by omega) (by omega)) hn (by omega) (by omega)
  arguments cut hcut :=
    settles_of_unfolded (Nat.le_refl N) hcut (fun _ hn ↦ arguments_unfolded (expression_alike hn hn) hn)
      fun _ _ _ _ _ hm _ _ hn ↦ argumentsRound_alike (expression_alike hm hm) hn
  parameters cut hcut :=
    settles_of_unfolded (Nat.le_refl N) hcut (fun _ hn ↦ parameters_unfolded hn)
      fun _ _ _ _ _ _ _ _ hn ↦ parametersRound_alike hn
  methods cut hcut :=
    settles_of_unfolded (c := fun n _ ↦ cut n) (Nat.le_refl N) (fun n ↦ funext fun _ ↦ hcut n)
      (fun _ hn ↦ methods_unfolded hn)
      (fun _ _ _ _ _ hm _ _ hn _ ↦ methodsRound_alike
        (function_alike (declaration_statement_alike hm hm).1 hm hm .method) (hn ())) ()
  declarations stop cut hcut :=
    settles_of_unfolded (c := fun n _ ↦ cut n) (Nat.le_refl N) (fun n ↦ funext fun _ ↦ hcut n)
      (fun _ hn ↦ declarations_unfolded hn)
      (fun _ _ _ _ _ hm _ _ hn _ ↦ declarationsRound_alike (declaration_statement_alike hm hm).1 (hn ())) ()
  declaration cut cut' hcut hcut' := by
    have hunfolded {m n : Nat} (hN : m ≤ N) (hn : m < n) : UnfoldedBoth m (cut n) (cut' n) := by
      induction n generalizing m with
      | zero => cases hn
      | succ n ih =>
        exact .intro hN (fun j hj ↦ ih (by omega) (by omega)) (fun s _ _ ↦ by rw [hcut])
          fun s _ _ ↦ by rw [hcut']
    refine ⟨fun n s heof hN hn ↦ ?_, fun n s heof hN hn ↦ ?_⟩
    · exact (((hunfolded hN hn).alike (declaration_unfolded hN)).1.alike s heof (Nat.le_refl _)).eq
    · exact (((hunfolded hN hn).alike (declaration_unfolded hN)).2 s heof (Nat.le_refl _)).eq

theorem recovering_isOk (p : Rule α) (s : State) : ∃ o s', p.recovering s = .ok o s' := by
  cases hp : p s with
  | ok a s' => exact ⟨_, _, recovering_ok hp⟩
  | fail e s' => exact ⟨_, _, recovering_fail hp⟩

theorem declaration_isOk (k : Nat) (s : State) : ∃ o s', declaration k s = .ok o s' := by
  cases k <;> exact recovering_isOk _ s

/-- Every declaration takes a token, also when it fails. -/
theorem declaration_length_lt {k : Nat} {s : State} (heof : s.eof.kind = .eof) (hk : s.rest.length ≤ k)
    (hr : s.rest ≠ []) : (declaration k s).state.rest.length < s.rest.length :=
  (declaration_statement_alike hk hk).1.length_lt s heof (Nat.le_refl _) hr

theorem declarations_rest {k n : Nat} {s : State} (heof : s.eof.kind = .eof) (hk : s.rest.length ≤ k)
    (hn : s.rest.length ≤ n) :
    ∃ ss s', declarations (fun _ ↦ false) (declaration k) n s = .ok ss s' ∧ s'.rest = [] := by
  induction n generalizing s with
  | zero => exact ⟨[], s, rfl, List.length_eq_zero_iff.1 (Nat.le_zero.1 hn)⟩
  | succ n ih =>
    by_cases hr : s.rest = []
    · exact ⟨[], s, declarationsRound_nil hr, hr⟩
    · obtain ⟨o, s', hd⟩ := declaration_isOk k s
      have hlt := declaration_length_lt heof hk hr
      have hforward := (statement_declaration_composed k).2.forward s
      rw [hd] at hlt hforward
      have hlt : s'.rest.length < s.rest.length := hlt
      obtain ⟨ss, s'', hrest, hnil⟩ := ih (hforward.eof ▸ heof) (by omega) (by omega)
      have hstop : stopsAt (fun _ ↦ false) s = .ok false s := by
        cases hs : s.rest with
        | nil => exact absurd hs hr
        | cons t rest => rw [stopsAt, hs]
      cases o with
      | none => exact ⟨ss, s'', (bind_ok hstop).trans ((bind_ok hd).trans hrest), hnil⟩
      | some d => exact ⟨d :: ss, s'', (bind_ok hstop).trans ((bind_ok hd).trans (bind_ok hrest)), hnil⟩

/-- Parsing with recovery ends and stays in bounds. All that a parse does, from one elementary rule to the
next, takes place in states that stand at an index of the tokens, which never goes back nor past the first
end-of-file token, and that is there in the end; the token ahead is the one at the index. A declaration that
begins anywhere before moves on, whether or not it fails; and no recursion goes on without end. -/
theorem parse_stays_in_bounds (tokens : List Token) (nextId : Nat) :
    let run := program (endIndex tokens)
    let start := State.ofTokens tokens nextId
    parse tokens nextId = .ofReply (run start) ∧
    endIndex tokens < (closed tokens).length ∧
    (∀ k t, (closed tokens)[k]? = some t → k ≤ endIndex tokens → (t.kind = .eof ↔ k = endIndex tokens)) ∧
    (∃ l, Trace run start l) ∧
    (∀ l, Trace run start l → ∃ ks, List.Forall₂ (State.StandsAt tokens) l ks ∧ ks.Pairwise (· ≤ ·) ∧
      (∀ k ∈ ks, k ≤ endIndex tokens) ∧ ks.head? = some 0 ∧ ks.getLast? = some (endIndex tokens)) ∧
    (∀ (s : State) k, s.StandsAt tokens k → (closed tokens)[k]? = some (s.rest.headD s.eof)) ∧
    (∀ N s k, s.StandsAt tokens k → k < endIndex tokens → s.rest.length ≤ N →
      ∃ k', k < k' ∧ k' ≤ endIndex tokens ∧ (declaration N s).state.StandsAt tokens k') ∧
    RecursionsEnd (endIndex tokens) := by
  intro run start
  have hlength : endIndex tokens < (closed tokens).length := by
    obtain ⟨unread, h⟩ := closed_eq tokens
    simp [h, endIndex]
  refine ⟨rfl, hlength, fun k t ht hk ↦ ⟨fun heof ↦ ?_, fun heq ↦ ?_⟩, (program_composed _).exists_trace start,
    fun l hl ↦ ?_, fun s k ↦ State.StandsAt.getElem?, fun N s k hs hk hN ↦ ?_, recursionsEnd _⟩
  · refine Nat.le_antisymm hk (Nat.le_of_not_lt fun hlt ↦ ?_)
    have hne := isEof_of_lt_endIndex hlt ht
    rw [heof] at hne
    cases hne
  · rw [heq, closed_endIndex] at ht
    rw [← Option.some.inj ht]
    exact endOf_kind tokens
  · obtain ⟨ss, s, hs, hr⟩ := declarations_rest (s := start) (endOf_kind tokens) (Nat.le_refl _) (Nat.le_refl _)
    obtain ⟨ks, hstands, hpairwise, hle, hhead, hlast⟩ := hl.exists_standsAt
    have hend : (run start).state.rest = [] := by
      rw [show run start = .ok ss s from hs]
      exact hr
    rw [hend] at hlast
    exact ⟨ks, hstands, hpairwise, hle, hhead, hlast⟩
  · have hcount := hs.add_length (Nat.le_of_lt hk)
    have hne : s.rest ≠ [] := by
      intro hnil
      rw [hnil, List.length_nil] at hcount
      omega
    have hlt := declaration_length_lt hs.eof hN hne
    refine ⟨_, ?_, ?_, hs.forward ((statement_declaration_composed N).2.forward s)⟩ <;> omega

end Lox.Parse
