import Lox.Proofs.Grammar.Relaxed
import Lox.Proofs.Parse.Forward

open Computability

namespace Lox

open Grammar

theorem Kind.same_iff {k k' : Kind} : k.same k' = true ↔ k'.terminal = k.terminal := by
  cases k <;> cases k' <;> simp [Kind.same, Kind.terminal, eq_comm]

def SyntaxError.isMissing (e : SyntaxError) : Bool :=
  match e.cause with
  | .missing _ => true
  | _ => false

namespace Parse

variable {α β : Type}

def word (ts : List Token) : List Terminal := ts.map Token.terminal

@[simp] theorem word_append (ts ts' : List Token) : word (ts ++ ts') = word ts ++ word ts' := List.map_append

@[simp] theorem word_nil : word [] = [] := rfl

@[simp] theorem word_cons (t : Token) (ts : List Token) : word (t :: ts) = t.terminal :: word ts := rfl

def Reply.errors : Reply α → List SyntaxError
  | .ok _ s => s.errors.toList
  | .fail e s => s.errors.toList ++ [e]

def Unharmed (old new : List SyntaxError) : Prop := ∃ l, new = old ++ l ∧ ∀ e ∈ l, e.isMissing = false

/-- Something is missing, and the first time that it is, it is at a certain token. -/
def FirstMissing (old new : List SyntaxError) (t : Token) : Prop :=
  ∃ l e more, new = old ++ (l ++ e :: more) ∧ (∀ e ∈ l, e.isMissing = false) ∧ e.isMissing = true ∧ e.token = t

theorem Unharmed.refl (l : List SyntaxError) : Unharmed l l := ⟨[], (List.append_nil l).symm, List.forall_mem_nil _⟩

theorem Unharmed.trans {l l₁ l₂ : List SyntaxError} (h : Unharmed l l₁) (h₁ : Unharmed l₁ l₂) :
    Unharmed l l₂ := by
  obtain ⟨m, rfl, hm⟩ := h
  obtain ⟨m₁, rfl, hm₁⟩ := h₁
  exact ⟨m ++ m₁, List.append_assoc _ _ _, List.forall_mem_append.2 ⟨hm, hm₁⟩⟩

theorem Unharmed.firstMissing {l l₁ l₂ : List SyntaxError} {t : Token} (h : Unharmed l l₁)
    (h₁ : FirstMissing l₁ l₂ t) : FirstMissing l l₂ t := by
  obtain ⟨m, rfl, hm⟩ := h
  obtain ⟨m₁, e, more, rfl, hm₁, he⟩ := h₁
  exact ⟨m ++ m₁, e, more, by simp only [List.append_assoc], List.forall_mem_append.2 ⟨hm, hm₁⟩, he⟩

theorem FirstMissing.mono {l l₁ l₂ : List SyntaxError} {t : Token} (h : FirstMissing l l₁ t) (h₁ : l₁ <+: l₂) :
    FirstMissing l l₂ t := by
  obtain ⟨m, e, more, rfl, hm, he⟩ := h
  obtain ⟨more', rfl⟩ := h₁
  exact ⟨m, e, more ++ more', by simp only [List.append_assoc, List.cons_append], hm, he⟩

namespace Rule

theorem errors_bind {p : Rule α} {f : α → Rule β} (hf : ∀ a, Composed (f a)) (s : State) :
    (p s).errors <+: ((p >>= f) s).errors := by
  cases hp : p s with
  | ok a s' =>
    rw [bind_ok hp]
    have hforward := ((hf a).forward s').errors
    cases hfa : f a s' with
    | ok b s₁ =>
      rw [hfa] at hforward
      exact hforward
    | fail e s₁ =>
      rw [hfa] at hforward
      exact hforward.trans (List.prefix_append _ _)
  | fail e s' =>
    rw [bind_fail hp]
    exact List.prefix_rfl

/-- A rule reads as long as what it has read can be the beginning of a word of the language. If it then has
a word, it succeeds; if not, then something is missing, for the first time at the token where it is stuck.
(It may still go on from there.) -/
inductive MunchesAt (p : Rule α) (L : Language Terminal) (s : State) : Prop
  | accepts (ts : List Token) {a : α} {s' : State} (hp : p s = .ok a s') (hs : s.rest = ts ++ s'.rest)
    (heof : s'.eof = s.eof) (he : Unharmed s.errors.toList s'.errors.toList) (hw : word ts ∈ L)
    (hb : Blocked L (word ts) (word s'.rest))
  | fails (ts rest : List Token) (hs : s.rest = ts ++ rest) (hv : Viable L (word ts)) (hw : word ts ∉ L)
    (hb : Blocked L (word ts) (word rest)) (he : FirstMissing s.errors.toList (p s).errors (rest.headD s.eof))

section

variable {p : Rule α} {f : α → Rule β} {A B L : Language Terminal} {s : State}

theorem MunchesAt.bind (hp : MunchesAt p A s)
    (hf : ∀ ts a s', s.rest = ts ++ s'.rest → word ts ∈ A → s'.eof = s.eof → MunchesAt (f a) B s')
    (hc : ∀ a, Composed (f a)) (hAB : Splits A B) (hB : ∃ w, w ∈ B) : MunchesAt (p >>= f) (A * B) s := by
  cases hp with
  | @accepts ts a s' hp hs heof he hw hb =>
    have hv : Viable A (word ts) := ⟨[], by rwa [List.append_nil]⟩
    cases hf ts a s' hs hw heof with
    | @accepts ts₁ b s₁ hp₁ hs₁ heof₁ he₁ hw₁ hb₁ =>
      rw [hs₁, word_append] at hb
      refine .accepts (ts ++ ts₁) ((bind_ok hp).trans hp₁) ?_ (heof₁.trans heof) (he.trans he₁) ?_ ?_
      · rw [hs, hs₁, List.append_assoc]
      · rw [word_append]
        exact Language.append_mem_mul hw hw₁
      · rw [word_append]
        exact hAB.blocked hv hb hb₁
    | @fails ts₁ rest hs₁ hv₁ hw₁ hb₁ he₁ =>
      rw [hs₁, word_append] at hb
      refine .fails (ts ++ ts₁) rest ?_ ?_ (fun h ↦ hw₁ ?_) ?_ ?_
      · rw [hs, hs₁, List.append_assoc]
      · obtain ⟨v, hv⟩ := hv₁
        refine ⟨v, ?_⟩
        rw [word_append, List.append_assoc]
        exact Language.append_mem_mul hw hv
      · rw [word_append] at h
        exact (hAB.mem hv hb h).2
      · rw [word_append]
        exact hAB.blocked hv hb hb₁
      · rw [bind_ok hp, ← heof]
        exact he.firstMissing he₁
  | @fails ts rest hs hv hw hb he =>
    refine .fails ts rest hs ?_ (fun h ↦ hw ?_) (fun t w htw ⟨v, hv'⟩ ↦ hw ?_) (he.mono (errors_bind hc s))
    · obtain ⟨v, hv⟩ := hv
      obtain ⟨b, hb⟩ := hB
      exact ⟨v ++ b, by rw [← List.append_assoc]; exact Language.append_mem_mul hv hb⟩
    · exact (hAB _ [] hv (fun t w htw ↦ by cases htw) (by rwa [List.append_nil])).1
    · rw [List.append_assoc] at hv'
      refine (hAB _ (t :: v) hv (fun t' w' h ↦ ?_) hv').1
      obtain ⟨rfl, -⟩ := List.cons.inj h
      exact hb t w htw

theorem MunchesAt.congr {q : Rule α} (h : MunchesAt q L s) (hpq : p s = q s) : MunchesAt p L s := by
  cases h with
  | accepts ts hq hs heof he hw hb => exact .accepts ts (hpq.trans hq) hs heof he hw hb
  | fails ts rest hs hv hw hb he => exact .fails ts rest hs hv hw hb (hpq ▸ he)

theorem MunchesAt.cons {q : Rule α} {t : Token} {rest : List Token} (hs : s.rest = t :: rest)
    (hp : p s = q { s with rest }) (hL : ∀ w, t.terminal :: w ∈ L ↔ w ∈ B)
    (hq : MunchesAt q B { s with rest }) : MunchesAt p L s := by
  have hblocked {ts rest : List Token} (hb : Blocked B (word ts) (word rest)) :
      Blocked L (word (t :: ts)) (word rest) :=
    fun c w hc ⟨v, hv⟩ ↦ hb c w hc ⟨v, (hL _).1 hv⟩
  cases hq with
  | @accepts ts a s' hq hrest heof he hw hb =>
    exact .accepts (t :: ts) (hp.trans hq) (hs.trans (congrArg (t :: ·) hrest)) heof he ((hL _).2 hw) (hblocked hb)
  | @fails ts rest' hrest hv hw hb he =>
    refine .fails (t :: ts) rest' (hs.trans (congrArg (t :: ·) hrest)) ?_ (fun h ↦ hw ((hL _).1 h)) (hblocked hb)
      (by rwa [hp])
    obtain ⟨v, hv⟩ := hv
    exact ⟨v, (hL _).2 hv⟩

theorem MunchesAt.widen (h : MunchesAt p A s) (hle : A ≤ L)
    (hL : ∀ w ∈ L, (∀ t, w.head? = some t → (word s.rest).head? = some t) → w ∈ A) : MunchesAt p L s := by
  have hmem {ts rest : List Token} (hs : s.rest = ts ++ rest) {w : List Terminal}
      (hw : ∀ t, w.head? = some t → (word rest).head? = some t) (h : word ts ++ w ∈ L) : word ts ++ w ∈ A := by
    refine hL _ h fun t ht ↦ ?_
    rw [hs, word_append]
    cases hts : word ts with
    | nil =>
      rw [hts] at ht
      exact hw t ht
    | cons c cs =>
      rw [hts] at ht
      exact ht
  have hblocked {ts rest : List Token} (hs : s.rest = ts ++ rest) (hb : Blocked A (word ts) (word rest)) :
      Blocked L (word ts) (word rest) := by
    rintro t w htw ⟨v, hv⟩
    refine hb t w htw ⟨v, ?_⟩
    rw [List.append_assoc] at hv ⊢
    refine hmem hs (fun c hc ↦ ?_) hv
    rw [htw]
    exact hc
  cases h with
  | accepts ts hp hs heof he hw hb => exact .accepts ts hp hs heof he (hle hw) (hblocked hs hb)
  | fails ts rest hs hv hw hb he =>
    refine .fails ts rest hs ?_ (fun h ↦ hw ?_) (hblocked hs hb) he
    · obtain ⟨v, hv⟩ := hv
      exact ⟨v, hle hv⟩
    · have hmem := hmem (w := []) hs (fun t ht ↦ by cases ht) (by rwa [List.append_nil])
      rwa [List.append_nil] at hmem

theorem MunchesAt.after {a : α} {s' : State} {L : Language Terminal} (h : MunchesAt (f a) L s')
    (hp : p s = .ok a s') (hs : s'.rest = s.rest) (heof : s'.eof = s.eof)
    (he : Unharmed s.errors.toList s'.errors.toList) : MunchesAt (p >>= f) L s := by
  cases h with
  | accepts ts hp₁ hs₁ heof₁ he₁ hw hb =>
    exact .accepts ts ((bind_ok hp).trans hp₁) (hs.symm.trans hs₁) (heof₁.trans heof) (he.trans he₁) hw hb
  | fails ts rest hs₁ hv hw hb he₁ =>
    refine .fails ts rest (hs.symm.trans hs₁) hv hw hb ?_
    rw [bind_ok hp, ← heof]
    exact he.firstMissing he₁

theorem munchesAt_pure (a : α) (s : State) : MunchesAt (pure a) 1 s := by
  refine .accepts [] rfl rfl rfl (.refl _) Language.nil_mem_one ?_
  rintro t w - ⟨v, hv⟩
  cases (Language.mem_one _).1 hv

theorem munchesAt_missing (what : Expectation) (hL : ∃ w, w ∈ L)
    (h : ∀ w ∈ L, ∃ t, w.head? = some t ∧ (word s.rest).head? ≠ some t) :
    MunchesAt (missing what : Rule α) L s := by
  refine .fails [] s.rest rfl hL ?_ ?_ ⟨[], ⟨.missing what, _⟩, [], rfl, List.forall_mem_nil _,
    rfl, rfl⟩
  · intro hnil
    obtain ⟨t, ht, -⟩ := h [] hnil
    cases ht
  · rintro t w htw ⟨v, hv⟩
    obtain ⟨t', ht', hne⟩ := h _ hv
    rw [htw] at hne
    exact hne ht'

end

/-- A rule munches the words of a right side, as long as there are fewer than `n` tokens ahead. -/
structure Parses (n : Nat) (p : Rule α) (A : Ebnf Terminal Phrase) : Prop where
  composed : Composed p
  munchesAt : ∀ s : State, s.eof.kind = .eof → s.rest.length < n → MunchesAt p (A.lang Phrase.language) s

section

variable {n m : Nat} {p : Rule α} {f : α → Rule β} {A B : Ebnf Terminal Phrase}

theorem Parses.mono (h : Parses n p A) (hmn : m ≤ n) : Parses m p A :=
  ⟨h.composed, fun s heof hs ↦ h.munchesAt s heof (Nat.lt_of_lt_of_le hs hmn)⟩

theorem Parses.of_eq (h : Parses n p A) (hAB : A.lang Phrase.language = B.lang Phrase.language) :
    Parses n p B :=
  ⟨h.composed, fun s heof hs ↦ hAB ▸ h.munchesAt s heof hs⟩

theorem Parses.rule {a : Phrase} (h : Parses n p a.relaxed) : Parses n p (.rule a) :=
  h.of_eq (Phrase.language_eq a).symm

theorem Parses.bind (hp : Parses n p A) (hf : ∀ a, Parses n (f a) B)
    (hAB : Splits (A.lang Phrase.language) (B.lang Phrase.language))
    (hB : B.isProductive (fun _ ↦ true) = true) : Parses n (p >>= f) (.seq A B) := by
  refine ⟨hp.composed.bind fun a ↦ (hf a).composed, fun s heof hs ↦ ?_⟩
  refine (hp.munchesAt s heof hs).bind (fun ts a s' hrest _ heof' ↦ ?_) (fun a ↦ (hf a).composed) hAB
    (Phrase.exists_mem_lang hB)
  refine (hf a).munchesAt s' (heof' ▸ heof) (Nat.lt_of_le_of_lt ?_ hs)
  rw [hrest, List.length_append]
  omega

/-- What comes after a word that is not empty has one token less ahead. -/
theorem Parses.bind_next (hp : Parses (n + 1) p A) (hf : ∀ a, Parses n (f a) B)
    (hA : (A.shape Phrase.shape).nullable = false)
    (hAB : Splits (A.lang Phrase.language) (B.lang Phrase.language))
    (hB : B.isProductive (fun _ ↦ true) = true) : Parses (n + 1) (p >>= f) (.seq A B) := by
  refine ⟨hp.composed.bind fun a ↦ (hf a).composed, fun s heof hs ↦ ?_⟩
  refine (hp.munchesAt s heof hs).bind (fun ts a s' hrest hts heof' ↦ ?_) (fun a ↦ (hf a).composed) hAB
    (Phrase.exists_mem_lang hB)
  refine (hf a).munchesAt s' (heof' ▸ heof) ?_
  rw [hrest, List.length_append] at hs
  cases ts with
  | nil => exact absurd ((Phrase.begins A).nullable hts) (by rw [hA]; exact Bool.false_ne_true)
  | cons t ts =>
    rw [List.length_cons] at hs
    omega

theorem parses_pure (a : α) : Parses n (pure a) .empty := ⟨.pure a, fun s _ _ ↦ munchesAt_pure a s⟩

theorem Parses.map (hp : Parses n p A) (g : α → β) (hA : A.isPredictive Phrase.shape = true) :
    Parses n (g <$> p) A := by
  have hseq : Parses n (p >>= fun a ↦ pure (g a)) (.seq A .empty) :=
    hp.bind (fun a ↦ parses_pure (g a)) (Phrase.splits (by simp [Phrase.separated, hA, Ebnf.disjoint, Ebnf.shape])) rfl
  exact hseq.of_eq (mul_one _)

theorem Parses.recovering (hp : Parses n p A) : Parses n p.recovering A := by
  refine ⟨.recovering hp.composed, fun s heof hs ↦ ?_⟩
  cases hp.munchesAt s heof hs with
  | accepts ts hp hs heof he hw hb => exact .accepts ts (recovering_ok hp) hs heof he hw hb
  | fails ts rest hs hv hw hb he =>
    refine .fails ts rest hs hv hw hb ?_
    cases hp : p s with
    | ok a s' =>
      rw [hp] at he
      rw [recovering_ok hp]
      exact he
    | fail e s' =>
      rw [hp] at he
      rw [recovering_fail hp]
      simpa [Reply.errors] using he

theorem Parses.after (hp : Composed p) (hf : ∀ a, Parses n (f a) A)
    (h : ∀ s, ∃ a s', p s = .ok a s' ∧ s'.rest = s.rest ∧ s'.eof = s.eof ∧
      Unharmed s.errors.toList s'.errors.toList) : Parses n (p >>= f) A := by
  refine ⟨hp.bind fun a ↦ (hf a).composed, fun s heof hs ↦ ?_⟩
  obtain ⟨a, s', hp, hrest, heof', he⟩ := h s
  exact ((hf a).munchesAt s' (heof' ▸ heof) (hrest ▸ hs)).after hp hrest heof' he

theorem Parses.occurrence_bind {t : Token} {f : Ref → Rule β} (hf : ∀ r, Parses n (f r) A) :
    Parses n (occurrence t >>= f) A :=
  .after (.occurrence t) hf fun _ ↦ ⟨_, _, rfl, rfl, rfl, .refl _⟩

theorem Parses.peek_bind {f : Token → Rule β} (hf : ∀ t, Parses n (f t) A) : Parses n (peek >>= f) A :=
  .after .peek hf fun _ ↦ ⟨_, _, rfl, rfl, rfl, .refl _⟩

theorem Parses.report_bind {cause : SyntaxCause} {t : Token} {f : Unit → Rule β} (hf : Parses n (f ()) A)
    (hcause : ∀ t, (SyntaxError.mk cause t).isMissing = false) : Parses n (report cause t >>= f) A :=
  .after (.report cause t) (fun _ ↦ hf) fun _ ↦
    ⟨_, _, rfl, rfl, rfl, [⟨cause, t⟩], Array.toList_push, List.forall_mem_singleton.2 (hcause t)⟩

theorem Parses.acceptIf_bind {test : Kind → Bool} {ts : List Terminal} {f : Option Token → Rule β}
    (htest : ∀ k, test k = true ↔ k.terminal ∈ ts) (hs : ∀ t, Parses n (f (some t)) A)
    (hn : Parses (n + 1) (f none) B) (hB : Ebnf.disjoint ts (B.shape Phrase.shape).first = true) :
    Parses (n + 1) (acceptIf test >>= f) (.alt (.seq (.one ts) A) B) := by
  refine ⟨.acceptIf_bind hn.composed fun t ↦ (hs t).composed, fun s heof hlt ↦ ?_⟩
  have hother (hno : ∀ t, (word s.rest).head? = some t → t ∉ ts) (h : acceptIf test s = .ok none s) :
      MunchesAt (acceptIf test >>= f) ((Ebnf.alt (.seq (.one ts) A) B).lang Phrase.language) s := by
    refine ((hn.munchesAt s heof hlt).after h rfl rfl (.refl _)).widen (fun w hw ↦ .inr hw) ?_
    rintro w (hw | hw) hhead
    · cases w with
      | nil => exact absurd hw nil_notMem_oneOf_mul
      | cons t w => exact absurd (cons_mem_oneOf_mul.1 hw).1 (hno t (hhead t rfl))
    · exact hw
  cases hr : s.rest with
  | nil =>
    refine hother (fun t ht ↦ ?_) (by rw [acceptIf, hr])
    rw [hr] at ht
    cases ht
  | cons t rest =>
    by_cases ht : test t.kind = true
    · have hts := (htest t.kind).1 ht
      refine .cons hr (bind_ok (by rw [acceptIf, hr]; exact if_pos ht)) (fun w ↦ ?_)
        ((hs t).munchesAt { s with rest } heof ?_)
      · have hw : t.terminal :: w ∉ B.lang Phrase.language := fun hw ↦
          Ebnf.disjoint_iff.1 hB _ hts ((Phrase.begins B).first _ _ hw)
        rw [Ebnf.lang, Language.mem_add, or_iff_left hw, Ebnf.lang, Ebnf.lang, cons_mem_oneOf_mul]
        exact and_iff_right hts
      · rw [hr, List.length_cons] at hlt
        exact Nat.lt_of_succ_lt_succ hlt
    · refine hother (fun t' ht' ↦ ?_) (by rw [acceptIf, hr]; exact if_neg ht)
      rw [hr] at ht'
      cases ht'
      exact fun hts ↦ ht ((htest t.kind).2 hts)

theorem Parses.accept_bind {kind : Kind} {f : Option Token → Rule β}
    (hs : ∀ t, Parses n (f (some t)) A) (hn : Parses (n + 1) (f none) B)
    (hB : Ebnf.disjoint [kind.terminal] (B.shape Phrase.shape).first = true) :
    Parses (n + 1) (accept kind >>= f) (.alt (.seq (.one [kind.terminal]) A) B) :=
  .acceptIf_bind (fun k ↦ by rw [Kind.same_iff, List.mem_singleton]) hs hn hB

theorem parses_expect (kind : Kind) (what : Expectation) :
    Parses n (expect kind what) (.one [kind.terminal]) := by
  refine ⟨.expect kind what, fun s _ _ ↦ ?_⟩
  have hmissing (hno : (word s.rest).head? ≠ some kind.terminal) (h : accept kind s = .ok none s) :
      MunchesAt (expect kind what) (oneOf [kind.terminal]) s := by
    have hat : MunchesAt (missing what : Rule Token) (oneOf [kind.terminal]) s := by
      refine munchesAt_missing what ⟨[kind.terminal], _, List.mem_cons_self, rfl⟩ ?_
      rintro w ⟨t, ht, rfl⟩
      exact ⟨t, rfl, List.mem_singleton.1 ht ▸ hno⟩
    exact MunchesAt.after (p := accept kind) (a := none) hat h rfl rfl (.refl _)
  cases hr : s.rest with
  | nil =>
    refine hmissing (fun ht ↦ ?_) (by rw [accept, acceptIf, hr])
    rw [hr] at ht
    cases ht
  | cons t rest =>
    by_cases ht : kind.same t.kind = true
    · have haccept : accept kind s = .ok (some t) { s with rest } := by
        rw [accept, acceptIf, hr]
        exact if_pos ht
      refine .cons hr (bind_ok haccept) (fun w ↦ ?_) (munchesAt_pure t { s with rest })
      rw [Language.mem_one]
      refine ⟨fun ⟨_, _, h⟩ ↦ (List.cons.inj h).2, fun h ↦ ⟨t.terminal, ?_, by rw [h]⟩⟩
      exact List.mem_singleton.2 (Kind.same_iff.1 ht)
    · refine hmissing (fun ht' ↦ ht ?_) (by rw [accept, acceptIf, hr]; exact if_neg ht)
      rw [hr] at ht'
      exact Kind.same_iff.2 (Option.some.inj ht')

theorem Parses.expect_bind {kind : Kind} {what : Expectation} {f : Token → Rule β}
    (hf : ∀ t, Parses n (f t) B) (hB : B.isProductive (fun _ ↦ true) = true) :
    Parses n (expect kind what >>= f) (.seq (.one [kind.terminal]) B) :=
  (parses_expect kind what).bind hf (Phrase.splits rfl) hB

def Tests (p : Rule Bool) (stop : Terminal) : Prop :=
  ∀ s, (p s = .ok true s ∧ ∀ t, (word s.rest).head? = some t → t = stop) ∨
    (p s = .ok false s ∧ (word s.rest).head? ≠ some stop)

theorem tests_check (kind : Kind) : Tests (check kind) kind.terminal := by
  intro s
  cases hr : s.rest with
  | nil => exact .inr ⟨by rw [check, hr], fun h ↦ by cases h⟩
  | cons t rest =>
    cases ht : kind.same t.kind with
    | true =>
      refine .inl ⟨by rw [check, hr, ← ht], fun t' ht' ↦ ?_⟩
      rw [← Option.some.inj ht']
      exact Kind.same_iff.1 ht
    | false =>
      refine .inr ⟨by rw [check, hr, ← ht], fun ht' ↦ ?_⟩
      rw [Kind.same_iff.2 (Option.some.inj ht')] at ht
      cases ht

theorem tests_stopsAt : Tests (stopsAt closesBlock) (.mark .rightBrace) := by
  intro s
  cases hr : s.rest with
  | nil => exact .inl ⟨by rw [stopsAt, hr], fun t h ↦ by cases h⟩
  | cons t rest =>
    have hcloses : closesBlock t.kind = true ↔ t.terminal = .mark .rightBrace := by
      unfold closesBlock Token.terminal
      cases t.kind with
      | mark m => cases m <;> simp [Kind.terminal]
      | _ => simp [Kind.terminal]
    cases ht : closesBlock t.kind with
    | true =>
      refine .inl ⟨by rw [stopsAt, hr, ← ht], fun t' ht' ↦ ?_⟩
      rw [← Option.some.inj ht']
      exact hcloses.1 ht
    | false =>
      refine .inr ⟨by rw [stopsAt, hr, ← ht], fun ht' ↦ ?_⟩
      rw [hcloses.2 (Option.some.inj ht')] at ht
      cases ht

theorem Parses.test_bind {p : Rule Bool} {f : Bool → Rule β} {stop : Terminal} (hp : Composed p)
    (htests : Tests p stop) (ht : Parses n (f true) B) (hf : Parses n (f false) A)
    (hB : (B.shape Phrase.shape).nullable = false ∧ ∀ t ∈ (B.shape Phrase.shape).first, t = stop)
    (hA : (A.shape Phrase.shape).nullable = false ∧ stop ∉ (A.shape Phrase.shape).first) :
    Parses n (p >>= f) (.alt A B) := by
  have hnil {A : Ebnf Terminal Phrase} (h : (A.shape Phrase.shape).nullable = false) :
      [] ∉ A.lang Phrase.language := by
    intro hw
    rw [(Phrase.begins A).nullable hw] at h
    cases h
  refine ⟨hp.test_bind ht.composed hf.composed, fun s heof hs ↦ ?_⟩
  rcases htests s with ⟨h, hstop⟩ | ⟨h, hstop⟩
  · refine ((ht.munchesAt s heof hs).after h rfl rfl (.refl _)).widen (fun w hw ↦ .inr hw) ?_
    rintro w (hw | hw) hhead
    · cases w with
      | nil => exact absurd hw (hnil hA.1)
      | cons t w =>
        obtain rfl := hstop t (hhead t rfl)
        exact absurd ((Phrase.begins A).first t w hw) hA.2
    · exact hw
  · refine ((hf.munchesAt s heof hs).after h rfl rfl (.refl _)).widen (fun w hw ↦ .inl hw) ?_
    rintro w (hw | hw) hhead
    · exact hw
    · cases w with
      | nil => exact absurd hw (hnil hB.1)
      | cons t w =>
        obtain rfl := hB.2 t ((Phrase.begins B).first t w hw)
        exact absurd (hhead t rfl) hstop

theorem bind_assoc {γ : Type} (p : Rule α) (f : α → Rule β) (g : β → Rule γ) :
    p >>= f >>= g = p >>= fun a ↦ f a >>= g := by
  funext s
  cases hp : p s with
  | ok a s' =>
    rw [bind_ok hp]
    show (match (p >>= f) s with | .ok a s => g a s | .fail e s => .fail e s) = _
    rw [bind_ok hp]
    rfl
  | fail e s' => rw [bind_fail hp, bind_fail (bind_fail hp)]

/-- At the end of the input only the empty word matters. -/
theorem Parses.at_end (h : Parses n p A) (hn : n ≤ 1) (hle : A.lang Phrase.language ≤ B.lang Phrase.language)
    (hnil : [] ∈ B.lang Phrase.language → [] ∈ A.lang Phrase.language) : Parses n p B := by
  refine ⟨h.composed, fun s heof hs ↦ (h.munchesAt s heof hs).widen hle fun w hw hhead ↦ ?_⟩
  have hr : s.rest = [] := List.length_eq_zero_iff.1 (by omega)
  cases w with
  | nil => exact hnil hw
  | cons t w =>
    have ht := hhead t rfl
    rw [hr] at ht
    cases ht

theorem parses_zero (h : Composed p) : Parses 0 p A := ⟨h, fun _ _ hs ↦ absurd hs (Nat.not_lt_zero _)⟩

theorem munchesAt_missing_phrase {a : Phrase} {s : State} (what : Expectation) (ha : a.shape.nullable = false)
    (hno : ∀ t, (word s.rest).head? = some t → t ∉ a.shape.first) :
    MunchesAt (missing what : Rule α) a.language s := by
  refine munchesAt_missing what (Phrase.exists_mem a) fun w hw ↦ ?_
  cases w with
  | nil =>
    rw [(Phrase.fits a).nullable hw] at ha
    cases ha
  | cons t w => exact ⟨t, rfl, fun ht ↦ hno t ht ((Phrase.fits a).first t w hw)⟩

theorem parses_missing_end {a : Phrase} (what : Expectation) (ha : a.shape.nullable = false) :
    Parses 1 (missing what : Rule α) (.rule a) := by
  refine ⟨.missing what, fun s _ hs ↦ munchesAt_missing_phrase what ha fun t ht ↦ ?_⟩
  rw [List.length_eq_zero_iff.1 (Nat.lt_one_iff.1 hs)] at ht
  cases ht

theorem munchesAt_alternative {a : Phrase} {As : List (Ebnf Terminal Phrase)} {cs : List Terminal} {s : State}
    {t : Token} {rest : List Token} (ha : a.relaxed = .choice As) (i : Nat) (hi : As[i]? = some A)
    (hA : A.lang Phrase.language = (Ebnf.seq (.one cs) B).lang Phrase.language) (hr : s.rest = t :: rest)
    (ht : t.terminal ∈ cs) (hno : ∀ B ∈ As.eraseIdx i, t.terminal ∉ (B.shape Phrase.shape).first)
    (hp : Parses n p B) (heof : s.eof.kind = .eof) (hlt : s.rest.length < n + 1) :
    MunchesAt (advance >>= fun _ ↦ p) a.language s := by
  rw [hr] at hlt
  have hadvance : advance s = .ok () { s with rest } := by rw [advance, hr]; rfl
  refine .cons hr (bind_ok hadvance) (fun w ↦ ?_)
    (hp.munchesAt { s with rest } heof (Nat.lt_of_succ_lt_succ hlt))
  rw [Phrase.cons_mem_language ha i hi hno, hA, Ebnf.lang, Ebnf.lang, cons_mem_oneOf_mul]
  exact and_iff_right ht

theorem MunchesAt.otherwise {a : Phrase} {As : List (Ebnf Terminal Phrase)} {s : State}
    (h : MunchesAt p (A.lang Phrase.language) s) (ha : a.relaxed = .choice As) (i : Nat) (hi : As[i]? = some A)
    (hnull : a.shape.nullable = false)
    (hno : ∀ t, (word s.rest).head? = some t → ∀ B ∈ As.eraseIdx i, t ∉ (B.shape Phrase.shape).first) :
    MunchesAt p a.language s := by
  refine h.widen (fun w hw ↦ ?_) fun w hw hhead ↦ ?_
  · rw [Phrase.language_eq, ha]
    exact Ebnf.mem_lang_choice.2 ⟨A, List.mem_of_getElem? hi, hw⟩
  · cases w with
    | nil =>
      rw [(Phrase.fits a).nullable hw] at hnull
      cases hnull
    | cons t w => exact (Phrase.cons_mem_language ha i hi (hno t (hhead t rfl))).1 hw

/-- What is done in front of a token to read one of some alternatives: `q`, to read the one at `i`; or, if
the token begins another one, to take it and read what follows it. -/
inductive Chosen (n : Nat) (As : List (Ebnf Terminal Phrase)) (i : Nat) (q : Rule α) (t : Token) : Rule α → Prop
  | other (hno : ∀ B ∈ As.eraseIdx i, t.terminal ∉ (B.shape Phrase.shape).first) : Chosen n As i q t q
  | next {p : Rule α} {A B : Ebnf Terminal Phrase} {cs : List Terminal} (j : Nat) (hj : As[j]? = some A)
    (hA : A.lang Phrase.language = (Ebnf.seq (.one cs) B).lang Phrase.language) (ht : t.terminal ∈ cs)
    (hno : ∀ B ∈ As.eraseIdx j, t.terminal ∉ (B.shape Phrase.shape).first) (hp : Parses n p B) :
    Chosen n As i q t (advance >>= fun _ ↦ p)

theorem Parses.peek_bind_alternatives {f : Token → Rule α} {q : Rule α} {a : Phrase}
    {As : List (Ebnf Terminal Phrase)} {i : Nat} (hc : Composed (peek >>= f)) (ha : a.relaxed = .choice As)
    (hi : As[i]? = some A) (hnull : a.shape.nullable = false) (hq : Parses (n + 1) q A)
    (hend : ∀ t : Token, t.kind = .eof → f t = q) (h : ∀ t, Chosen n As i q t (f t)) :
    Parses (n + 1) (peek >>= f) (.rule a) := by
  refine ⟨hc, fun s heof hlt ↦ ?_⟩
  cases hr : s.rest with
  | nil =>
    have hpeek : peek s = .ok s.eof s := by rw [peek, hr]; rfl
    refine .congr ((hq.munchesAt s heof hlt).otherwise ha i hi hnull fun t ht ↦ ?_)
      ((bind_ok hpeek).trans (by rw [hend _ heof]))
    rw [hr] at ht
    cases ht
  | cons t rest =>
    have hpeek : peek s = .ok t s := by rw [peek, hr]; rfl
    refine .congr ?_ (bind_ok hpeek)
    generalize hp : f t = p
    have hchosen := h t
    rw [hp] at hchosen
    cases hchosen with
    | other hno =>
      refine (hq.munchesAt s heof hlt).otherwise ha i hi hnull fun t' ht' ↦ ?_
      rw [hr] at ht'
      exact Option.some.inj ht' ▸ hno
    | next j hj hA ht hno hparses => exact munchesAt_alternative ha j hj hA hr ht hno hparses heof hlt

end

end Rule

end Parse

end Lox
