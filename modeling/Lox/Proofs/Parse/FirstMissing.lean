import Lox.Proofs.Parse.Cursor
import Lox.Proofs.Parse.Phrases

open Computability

namespace Lox.Parse

open Grammar Rule

theorem errors_bind_pure {α β : Type} (p : Rule α) (g : α → β) (s : State) :
    ((p >>= fun a ↦ pure (g a)) s).errors = (p s).errors := by
  cases hp : p s with
  | ok a s' =>
    rw [bind_ok hp]
    rfl
  | fail e s' =>
    rw [bind_fail hp]
    rfl

/-- What comes of reading declarations up to the end. -/
inductive Outcome (s : State) (errors : List SyntaxError) : Prop
  | whole (he : Unharmed s.errors.toList errors) (hw : word s.rest ∈ Phrase.declaration.language∗)
  | stuck (ts rest : List Token) (hs : s.rest = ts ++ rest)
    (he : FirstMissing s.errors.toList errors (rest.headD s.eof))
    (hv : Viable Phrase.declaration.language∗ (word ts))
    (hb : Blocked Phrase.declaration.language∗ (word ts) (word rest))
    (hw : rest = [] → word ts ∉ Phrase.declaration.language∗)

theorem mem_declarations {w : List Terminal} (h : w ∈ Phrase.declaration.language∗) :
    w = [] ∨ w ∈ Phrase.declaration.language * Phrase.declaration.language∗ := by
  rw [← Language.one_add_self_mul_kstar_eq_kstar, Language.mem_add, Language.mem_one] at h
  exact h

theorem mul_declarations_le :
    Phrase.declaration.language * Phrase.declaration.language∗ ≤ Phrase.declaration.language∗ := mul_kstar_le_kstar

theorem splits_declarations : Splits Phrase.declaration.language Phrase.declaration.language∗ :=
  Phrase.splits (A := .rule .declaration) (B := .many (.rule .declaration)) (by decide)

theorem Outcome.cons {s s' : State} {errors : List SyntaxError} {ts : List Token} (h : Outcome s' errors)
    (hs : s.rest = ts ++ s'.rest) (heof : s'.eof = s.eof) (he : Unharmed s.errors.toList s'.errors.toList)
    (hw : word ts ∈ Phrase.declaration.language)
    (hb : Blocked Phrase.declaration.language (word ts) (word s'.rest)) : Outcome s errors := by
  have hne : word ts ≠ [] := fun h ↦
    absurd ((Phrase.fits .declaration).nullable (h ▸ hw)) Bool.false_ne_true
  have hviable : Viable Phrase.declaration.language (word ts) := ⟨[], by rwa [List.append_nil]⟩
  have hjoin {v : List Terminal} (h : v ∈ Phrase.declaration.language∗) :
      word ts ++ v ∈ Phrase.declaration.language∗ := mul_declarations_le (Language.append_mem_mul hw h)
  have hcut {v : List Terminal} (h : word ts ++ v ∈ Phrase.declaration.language∗) :
      word ts ++ v ∈ Phrase.declaration.language * Phrase.declaration.language∗ :=
    (mem_declarations h).resolve_left fun h ↦ hne (List.append_eq_nil_iff.1 h).1
  cases h with
  | whole he₁ hw₁ =>
    refine .whole (he.trans he₁) ?_
    rw [hs, word_append]
    exact hjoin hw₁
  | stuck ts₁ rest hs₁ he₁ hv₁ hb₁ hw₁ =>
    rw [hs₁, word_append] at hb
    refine .stuck (ts ++ ts₁) rest (by rw [hs, hs₁, List.append_assoc]) (heof ▸ he.firstMissing he₁) ?_ ?_ ?_
    · obtain ⟨v, hv⟩ := hv₁
      refine ⟨v, ?_⟩
      rw [word_append, List.append_assoc]
      exact hjoin hv
    · rintro t w htw ⟨v, hv⟩
      refine splits_declarations.blocked hviable hb hb₁ t w htw ⟨v, ?_⟩
      rw [word_append, List.append_assoc, List.append_assoc] at hv
      rw [List.append_assoc, List.append_assoc]
      exact hcut hv
    · intro hr h
      rw [word_append] at h
      exact hw₁ hr (splits_declarations.mem hviable hb (hcut h)).2

theorem program_outcome {k n : Nat} {s : State} (heof : s.eof.kind = .eof) (hk : s.rest.length ≤ k)
    (hn : s.rest.length ≤ n) :
    Outcome s (declarations (fun _ ↦ false) (declaration k) n s).errors := by
  induction n generalizing s with
  | zero =>
    have hr : s.rest = [] := List.length_eq_zero_iff.1 (Nat.le_zero.1 hn)
    exact .whole (.refl _) (by rw [hr]; exact Language.nil_mem_kstar _)
  | succ n ih =>
    cases hr : s.rest with
    | nil =>
      rw [show declarations (fun _ ↦ false) (declaration k) (n + 1) s = .ok [] s from declarationsRound_nil hr]
      exact .whole (.refl _) (by rw [hr]; exact Language.nil_mem_kstar _)
    | cons t rest =>
      have hstop : stopsAt (fun _ ↦ false) s = .ok false s := by rw [stopsAt, hr]
      have hd := (statement_declaration_parses k).2
      have hcomposed := declarations_composed hd.composed (fun _ ↦ false) n
      cases hd.munchesAt s heof (Nat.lt_succ_of_le hk) with
      | @accepts ts o s' hp hs heof' he hw hb =>
        have hlt : s'.rest.length < s.rest.length := by
          have hlt := declaration_length_lt heof hk (by rw [hr]; exact List.cons_ne_nil t rest)
          rwa [hp] at hlt
        have hnext := ih (heof' ▸ heof) (by omega) (by omega)
        refine Outcome.cons ?_ hs heof' he hw hb
        rw [declarations, bind_ok hstop]
        cases o with
        | none => rwa [if_neg Bool.false_ne_true, bind_ok hp]
        | some d => rwa [if_neg Bool.false_ne_true, bind_ok hp, errors_bind_pure]
      | fails ts rest' hs hv hw hb he =>
        have hnonempty {v : List Terminal} (h : v ∈ Phrase.declaration.language∗) (hv : v ≠ []) :
            v ∈ Phrase.declaration.language * Phrase.declaration.language∗ :=
          (mem_declarations h).resolve_left hv
        refine .stuck ts rest' hs (he.mono ?_) ?_ ?_ ?_
        · rw [declarations, bind_ok hstop, if_neg Bool.false_ne_true]
          refine errors_bind (fun o ↦ ?_) s
          cases o with
          | none => exact hcomposed
          | some d => exact hcomposed.bind fun ds ↦ .pure (d :: ds)
        · obtain ⟨v, hv⟩ := hv
          exact ⟨v, mul_declarations_le (Language.mem_mul.2 ⟨_, hv, [], Language.nil_mem_kstar _, List.append_nil _⟩)⟩
        · rintro c w hc ⟨v, hv'⟩
          rw [List.append_assoc] at hv'
          have hsplit := hnonempty hv' (by simp)
          exact hw (splits_declarations _ _ hv (hb.of_head? fun c' hc' ↦ by rw [hc]; exact hc') hsplit).1
        · intro hrest h
          rw [hrest, List.append_nil, hr] at hs
          have hsplit := hnonempty h (by rw [← hs]; exact List.cons_ne_nil _ _)
          rw [← List.append_nil (word ts)] at hsplit
          exact hw (splits_declarations _ [] hv (fun t w htw ↦ by cases htw) hsplit).1

def Result.errors (r : Result) : List SyntaxError :=
  match r.outcome with
  | .ok _ => []
  | .error es => es

theorem errors_ofReply (r : Reply (List Stmt)) : (Result.ofReply r).errors = r.errors := by
  cases r with
  | ok ss s =>
    by_cases h : s.errors.isEmpty = true
    · simp_all [Result.ofReply, Result.errors, Reply.errors]
    · simp only [Result.ofReply, Result.errors, Reply.errors, if_neg h]
  | fail e s => exact Array.toList_push

theorem parse_outcome (tokens : List Token) (nextId : Nat) :
    Outcome (.ofTokens tokens nextId) (parse tokens nextId).errors := by
  rw [parse, errors_ofReply]
  exact program_outcome (endOf_kind tokens) (Nat.le_refl _) (Nat.le_refl _)

theorem FirstMissing.find? {old new : List SyntaxError} {t : Token} (h : FirstMissing old new t)
    (hold : ∀ e ∈ old, e.isMissing = false) : ∃ e, new.find? SyntaxError.isMissing = some e ∧ e.token = t := by
  obtain ⟨l, e, more, rfl, hl, he, rfl⟩ := h
  refine ⟨e, ?_, rfl⟩
  rw [← List.append_assoc, List.find?_append,
    List.find?_eq_none.2 fun e' he' ↦ by simp [List.forall_mem_append.2 ⟨hold, hl⟩ e' he'], Option.none_or,
    List.find?_cons_of_pos he]

theorem Unharmed.find?_eq_none {old new : List SyntaxError} (h : Unharmed old new)
    (hold : ∀ e ∈ old, e.isMissing = false) : new.find? SyntaxError.isMissing = none := by
  obtain ⟨l, rfl, hl⟩ := h
  exact List.find?_eq_none.2 fun e he ↦ by simp [List.forall_mem_append.2 ⟨hold, hl⟩ e he]

theorem mem_program {w : List Terminal} :
    w ∈ Phrase.program.language ↔ ∃ v ∈ Phrase.declaration.language∗, v ++ [.eof] = w := by
  rw [Phrase.language_eq]
  refine ⟨fun h ↦ ?_, fun ⟨v, hv, hw⟩ ↦ Language.mem_mul.2 ⟨v, hv, _, ⟨.eof, List.mem_cons_self, rfl⟩, hw⟩⟩
  obtain ⟨v, hv, _, ⟨t, ht, rfl⟩, rfl⟩ := Language.mem_mul.1 h
  exact ⟨v, hv, by rw [List.mem_singleton.1 ht]⟩

theorem eof_notMem_declarations {w : List Terminal} (h : w ∈ Phrase.declaration.language∗) : .eof ∉ w := by
  obtain ⟨ws, rfl, hws⟩ := h
  rw [List.mem_flatten]
  rintro ⟨u, hu, ht⟩
  exact Phrase.eof_notMem Phrase.noConfusion (hws u hu) ht

theorem viable_program {u : List Terminal} {t : Terminal} (h : Viable Phrase.program.language (u ++ [t])) :
    t = .eof ∧ u ∈ Phrase.declaration.language∗ ∨
      t ≠ .eof ∧ Viable Phrase.declaration.language∗ (u ++ [t]) := by
  obtain ⟨v, hv⟩ := h
  obtain ⟨x, hx, heq⟩ := mem_program.1 hv
  cases v using List.reverseRecOn with
  | nil =>
    rw [List.append_nil] at heq
    obtain ⟨rfl, ht⟩ := List.append_inj' heq rfl
    exact .inl ⟨(List.singleton_injective ht).symm, hx⟩
  | append_singleton v c =>
    rw [← List.append_assoc] at heq
    obtain ⟨rfl, -⟩ := List.append_inj' heq rfl
    refine .inr ⟨?_, v, hx⟩
    rintro rfl
    exact eof_notMem_declarations hx (by simp)

/-- The first thing that is missing is missing at the first impossible token. -/
theorem missing_at_first_impossible_token {tokens : List Token} {nextId : Nat} {e : SyntaxError}
    (h : (parse tokens nextId).errors.find? SyntaxError.isMissing = some e) :
    ∃ k ≤ endIndex tokens, (closed tokens)[k]? = some e.token ∧
      Viable Phrase.program.language (word ((closed tokens).take k)) ∧
      ¬Viable Phrase.program.language (word ((closed tokens).take (k + 1))) ∧
      (k = endIndex tokens → word ((closed tokens).take k) ∉ Phrase.declaration.language∗) := by
  obtain ⟨unread, hclosed⟩ := closed_eq tokens
  cases parse_outcome tokens nextId with
  | whole he _ =>
    rw [he.find?_eq_none (List.forall_mem_nil _)] at h
    cases h
  | stuck ts rest hs he hv hb hw =>
    have hs : beforeEof tokens = ts ++ rest := hs
    obtain ⟨e', he', htoken⟩ := he.find? (List.forall_mem_nil _)
    cases h.symm.trans he'
    have htoken : e.token = rest.headD (endOf tokens) := htoken
    obtain ⟨more, hmore⟩ : ∃ more, closed tokens = ts ++ e.token :: more := by
      rw [hclosed, hs, htoken, List.append_assoc]
      cases rest with
      | nil => exact ⟨unread, rfl⟩
      | cons t rest => exact ⟨rest ++ endOf tokens :: unread, rfl⟩
    have hend : endIndex tokens = ts.length + rest.length := by rw [endIndex, hs, List.length_append]
    have htake : (closed tokens).take ts.length = ts := by rw [hmore, List.take_left]
    refine ⟨ts.length, by omega, by simp [hmore], ?_, ?_, ?_⟩
    · obtain ⟨v, hv⟩ := hv
      rw [htake]
      exact ⟨v ++ [.eof], mem_program.2 ⟨_, hv, List.append_assoc _ _ _⟩⟩
    · have htake' : (closed tokens).take (ts.length + 1) = ts ++ [e.token] := by
        rw [hmore, List.take_append]
        simp
      rw [htake', word_append, htoken]
      intro hviable
      cases rest with
      | nil =>
        have heof : (endOf tokens).terminal = .eof := by rw [Token.terminal, endOf_kind]; rfl
        rcases viable_program hviable with ⟨-, h⟩ | ⟨h, -⟩
        · exact hw rfl h
        · exact h heof
      | cons t rest =>
        have ht : t.kind.isEof = false := isEof_of_mem_beforeEof (by rw [hs]; simp)
        rcases viable_program hviable with ⟨h, -⟩ | ⟨-, h⟩
        · have h : t.kind.terminal = .eof := h
          cases hk : t.kind <;> simp_all [Kind.terminal, Kind.isEof]
        · exact hb _ _ rfl h
    · intro hk
      rw [htake]
      exact hw (List.length_eq_zero_iff.1 (by omega))

def nothingToPrint : List Token :=
  [⟨.mark .leftBrace, "\x7b", 1⟩, ⟨.keyword .kTrue, "true", 1⟩, ⟨.mark .equal, "=", 1⟩, ⟨.identifier, "a", 1⟩,
    ⟨.mark .semicolon, ";", 1⟩, ⟨.keyword .kPrint, "print", 2⟩, ⟨.mark .semicolon, ";", 2⟩,
    ⟨.mark .rightBrace, "\x7d", 3⟩]

theorem nothing_to_print_is_impossible :
    (parse nothingToPrint 0).errors.length = 2 ∧
      ∃ e, (parse nothingToPrint 0).errors.find? SyntaxError.isMissing = some e ∧
      ∃ k ≤ endIndex nothingToPrint, (closed nothingToPrint)[k]? = some e.token ∧
        Viable Phrase.program.language (word ((closed nothingToPrint).take k)) ∧
        ¬Viable Phrase.program.language (word ((closed nothingToPrint).take (k + 1))) ∧
        (k = endIndex nothingToPrint →
          word ((closed nothingToPrint).take k) ∉ Phrase.declaration.language∗) := by
  refine ⟨by decide +kernel, ?_⟩
  have hsome : ((parse nothingToPrint 0).errors.find? SyntaxError.isMissing).isSome = true := by decide +kernel
  obtain ⟨e, he⟩ := Option.isSome_iff_exists.1 hsome
  exact ⟨e, he, missing_at_first_impossible_token he⟩

/-- Nothing is missing in the programs of the relaxed grammar, and only in those. -/
theorem missing_nothing_iff {tokens : List Token} {nextId : Nat} :
    (parse tokens nextId).errors.find? SyntaxError.isMissing = none ↔
      word ((closed tokens).take (endIndex tokens + 1)) ∈ Phrase.program.language := by
  have hword : word ((closed tokens).take (endIndex tokens + 1)) = word (beforeEof tokens) ++ [.eof] := by
    obtain ⟨unread, hclosed⟩ := closed_eq tokens
    have heof : (endOf tokens).terminal = .eof := by rw [Token.terminal, endOf_kind]; rfl
    rw [hclosed, endIndex, List.take_append, word_append, List.take_of_length_le (Nat.le_succ _)]
    simp [heof]
  have hprogram : word ((closed tokens).take (endIndex tokens + 1)) ∈ Phrase.program.language ↔
      word (beforeEof tokens) ∈ Phrase.declaration.language∗ := by
    rw [hword, mem_program]
    constructor
    · rintro ⟨v, hv, h⟩
      rwa [← (List.append_inj' h rfl).1]
    · exact fun h ↦ ⟨_, h, rfl⟩
  rw [hprogram]
  cases parse_outcome tokens nextId with
  | whole he hw => exact iff_of_true (he.find?_eq_none (List.forall_mem_nil _)) hw
  | stuck ts rest hs he hv hb hw =>
    have hs : beforeEof tokens = ts ++ rest := hs
    obtain ⟨e, he, -⟩ := he.find? (List.forall_mem_nil _)
    refine iff_of_false (by rw [he]; exact Option.some_ne_none e) fun h ↦ ?_
    rw [hs, word_append] at h
    have hnil := hb.eq_nil ⟨[], by rwa [List.append_nil]⟩
    rw [hnil, List.append_nil] at h
    exact hw (List.map_eq_nil_iff.1 hnil) h

end Lox.Parse
