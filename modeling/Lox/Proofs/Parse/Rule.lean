import Lox.Proofs.Grammar.Basic

namespace Lox.Parse

def State.ahead (s : State) (rest : List Token) (nextId : Nat) : State := { s with rest, nextId }

/-- What a rule reads: from the next id and the tokens taken, a value and the next id afterwards, in
front of the tokens left. -/
abbrev Reading (α : Type) := Nat → List Token → α → Nat → List Token → Prop

variable {α β : Type}

/-- What no rule does: take back a fault, use an id again, change the end of the input. -/
structure State.Onward (s s' : State) : Prop where
  errors : s.errors.size ≤ s'.errors.size
  nextId : s.nextId ≤ s'.nextId
  eof : s'.eof = s.eof

theorem State.Onward.refl (s : State) : s.Onward s := ⟨Nat.le_refl _, Nat.le_refl _, rfl⟩

theorem State.Onward.trans {s s₁ s₂ : State} (h : s.Onward s₁) (h₁ : s₁.Onward s₂) : s.Onward s₂ :=
  ⟨Nat.le_trans h.errors h₁.errors, Nat.le_trans h.nextId h₁.nextId, h₁.eof.trans h.eof⟩

def Reply.Meets (s : State) (G : Reading α) : Reply α → Prop
  | .ok a s' => s.Onward s' ∧ (s'.errors.size = s.errors.size →
      ∃ ts rest m, s.rest = ts ++ rest ∧ s' = s.ahead rest m ∧ G s.nextId ts a m rest)
  | .fail _ s' => s.Onward s'

theorem Reply.Meets.mono {s : State} {G H : Reading α} {r : Reply α} (h : r.Meets s G)
    (hGH : ∀ n ts a m rest, G n ts a m rest → H n ts a m rest) : r.Meets s H := by
  cases r with
  | ok a s' =>
    obtain ⟨hs, hg⟩ := h
    refine ⟨hs, fun hq ↦ ?_⟩
    obtain ⟨ts, rest, m, hr, ha, hG⟩ := hg hq
    exact ⟨ts, rest, m, hr, ha, hGH _ _ _ _ _ hG⟩
  | fail e s' => exact h

namespace Rule

def Reads (p : Rule α) (G : Reading α) : Prop :=
  ∀ s : State, s.eof.kind = .eof → (p s).Meets s G

theorem Reads.mono {p : Rule α} {G H : Reading α} (h : Reads p G)
    (hGH : ∀ n ts a m rest, G n ts a m rest → H n ts a m rest) : Reads p H :=
  fun s hs ↦ (h s hs).mono hGH

theorem reads_pure (a : α) : Reads (pure a) fun n ts b m _ ↦ ts = [] ∧ b = a ∧ m = n :=
  fun s _ ↦ ⟨.refl s, fun _ ↦ ⟨[], s.rest, s.nextId, rfl, rfl, rfl, rfl, rfl⟩⟩

theorem Reads.bind {p : Rule α} {f : α → Rule β} {G : Reading α} {H : α → Reading β}
    (hp : Reads p G) (hf : ∀ a, Reads (f a) (H a)) :
    Reads (p >>= f) fun n ts b m rest ↦
      ∃ a ts₁ ts₂ k, ts = ts₁ ++ ts₂ ∧ G n ts₁ a k (ts₂ ++ rest) ∧ H a k ts₂ b m rest := by
  intro s hs
  have h := hp s hs
  show (match p s with
    | .ok a s => f a s
    | .fail e s => .fail e s : Reply β).Meets s _
  cases hps : p s with
  | fail e s₁ => rw [hps] at h; exact h
  | ok a s₁ =>
    rw [hps] at h
    obtain ⟨ho, hG⟩ := h
    have h' := hf a s₁ (ho.eof ▸ hs)
    show (f a s₁).Meets s _
    cases hfs : f a s₁ with
    | fail e s₂ =>
      rw [hfs] at h'
      exact ho.trans h'
    | ok b s₂ =>
      rw [hfs] at h'
      obtain ⟨ho', hH⟩ := h'
      refine ⟨ho.trans ho', fun hq ↦ ?_⟩
      have hsize := ho.errors
      have hsize' := ho'.errors
      obtain ⟨ts₁, rest₁, k, hr₁, rfl, hg⟩ := hG (by omega)
      obtain ⟨ts₂, rest₂, m, hr₂, rfl, hh⟩ := hH hq
      have hr₂ : rest₁ = ts₂ ++ rest₂ := hr₂
      refine ⟨ts₁ ++ ts₂, rest₂, m, ?_, rfl, a, ts₁, ts₂, k, rfl, hr₂ ▸ hg, hh⟩
      rw [hr₁, hr₂, List.append_assoc]

theorem Reads.map {p : Rule α} {f : α → β} {G : Reading α} (hp : Reads p G) :
    Reads (f <$> p) fun n ts b m rest ↦ ∃ a, b = f a ∧ G n ts a m rest := by
  refine (hp.bind fun a ↦ reads_pure (f a)).mono ?_
  rintro n ts b m rest ⟨a, ts₁, ts₂, k, rfl, hG, rfl, rfl, rfl⟩
  exact ⟨a, rfl, by simpa using hG⟩

theorem reads_missing (what : Expectation) (G : Reading α) : Reads (missing what) G :=
  fun s _ ↦ .refl s

/-- A fault that is noted stays. -/
theorem reads_report (cause : SyntaxCause) (t : Token) :
    Reads (report cause t) fun _ _ _ _ _ ↦ False := by
  intro s _
  refine ⟨⟨?_, Nat.le_refl _, rfl⟩, fun hq ↦ ?_⟩
  · simp
  · simp at hq

theorem reads_occurrence (name : Token) :
    Reads (occurrence name) fun n ts r m _ ↦ ts = [] ∧ r = ⟨n, name⟩ ∧ m = n + 1 :=
  fun s _ ↦ ⟨⟨Nat.le_refl _, Nat.le_succ _, rfl⟩, fun _ ↦ ⟨[], s.rest, s.nextId + 1, rfl, rfl, rfl, rfl, rfl⟩⟩

theorem reads_acceptIf (test : Kind → Bool) :
    Reads (acceptIf test) fun n ts o m rest ↦ m = n ∧
      ((o = none ∧ ts = [] ∧ ∀ t ∈ rest.head?, test t.kind = false) ∨
        ∃ t, o = some t ∧ ts = [t] ∧ test t.kind = true) := by
  intro s _
  unfold acceptIf
  split
  · next hr =>
    refine ⟨.refl s, fun _ ↦ ⟨[], s.rest, s.nextId, rfl, rfl, rfl, .inl ⟨rfl, rfl, ?_⟩⟩⟩
    simp [hr]
  · next t rest hr =>
    split
    · next ht =>
      exact ⟨⟨Nat.le_refl _, Nat.le_refl _, rfl⟩, fun _ ↦
        ⟨[t], rest, s.nextId, hr, rfl, rfl, .inr ⟨t, rfl, rfl, ht⟩⟩⟩
    · next ht =>
      refine ⟨.refl s, fun _ ↦
        ⟨[], s.rest, s.nextId, rfl, rfl, rfl, .inl ⟨rfl, rfl, ?_⟩⟩⟩
      simpa [hr] using ht

theorem reads_check (kind : Kind) :
    Reads (check kind) fun n ts _ m _ ↦ ts = [] ∧ m = n ∧ True := by
  intro s _
  unfold check
  split <;> exact ⟨.refl s, fun _ ↦ ⟨[], s.rest, s.nextId, rfl, rfl, rfl, rfl, trivial⟩⟩

theorem reads_peek : Reads peek fun n ts _ m _ ↦ ts = [] ∧ m = n :=
  fun s _ ↦ ⟨.refl s, fun _ ↦ ⟨[], s.rest, s.nextId, rfl, rfl, rfl, rfl⟩⟩

theorem Reads.acceptIf_bind {test : Kind → Bool} {f : Option Token → Rule β} {G : Reading β}
    {H : Token → Reading β} (hn : Reads (f none) G) (hs : ∀ t, Reads (f (some t)) (H t)) :
    Reads (acceptIf test >>= f) fun n ts b m rest ↦
      ((∀ t ∈ (ts ++ rest).head?, test t.kind = false) ∧ G n ts b m rest) ∨
        ∃ t ts', ts = t :: ts' ∧ test t.kind = true ∧ H t n ts' b m rest := by
  refine ((reads_acceptIf test).bind (H := fun o n ts b m rest ↦
    (o = none ∧ G n ts b m rest) ∨ ∃ t, o = some t ∧ H t n ts b m rest) fun o ↦ ?_).mono ?_
  · cases o with
    | none => exact hn.mono fun n ts b m rest h ↦ .inl ⟨rfl, h⟩
    | some t => exact (hs t).mono fun n ts b m rest h ↦ .inr ⟨t, rfl, h⟩
  · rintro n ts b m rest ⟨o, ts₁, ts₂, k, rfl, ⟨rfl, ho⟩, hf⟩
    obtain ⟨rfl, rfl, hrest⟩ | ⟨t, rfl, rfl, ht⟩ := ho
    · obtain ⟨-, h⟩ | ⟨t, ht, -⟩ := hf
      · exact .inl ⟨hrest, h⟩
      · cases ht
    · obtain ⟨ht', -⟩ | ⟨t', ht', h⟩ := hf
      · cases ht'
      · cases ht'
        exact .inr ⟨t, ts₂, rfl, ht, h⟩

theorem Reads.accept_bind {kind : Kind} {f : Option Token → Rule β} {G : Reading β}
    {H : Token → Reading β} (hn : Reads (f none) G) (hs : ∀ t, Reads (f (some t)) (H t)) :
    Reads (accept kind >>= f) fun n ts b m rest ↦
      ((∀ t ∈ (ts ++ rest).head?, kind.same t.kind = false) ∧ G n ts b m rest) ∨
        ∃ t ts', ts = t :: ts' ∧ kind.same t.kind = true ∧ H t n ts' b m rest :=
  Reads.acceptIf_bind hn hs

/-- A rule that goes on in one of two ways, after a test that takes no token. -/
theorem Reads.test_bind {p : Rule Bool} {f : Bool → Rule β} {T : Bool → List Token → Prop}
    {G H : Reading β} (hp : Reads p fun n ts b m rest ↦ ts = [] ∧ m = n ∧ T b rest)
    (ht : Reads (f true) G) (hf : Reads (f false) H) :
    Reads (p >>= f) fun n ts b m rest ↦
      (T true (ts ++ rest) ∧ G n ts b m rest) ∨ (T false (ts ++ rest) ∧ H n ts b m rest) := by
  refine (hp.bind (H := fun c n ts b m rest ↦ (c = true ∧ G n ts b m rest) ∨
    (c = false ∧ H n ts b m rest)) fun c ↦ ?_).mono ?_
  · cases c with
    | false => exact hf.mono fun n ts b m rest h ↦ .inr ⟨rfl, h⟩
    | true => exact ht.mono fun n ts b m rest h ↦ .inl ⟨rfl, h⟩
  · rintro n ts b m rest ⟨c, ts₁, ts₂, k, rfl, ⟨rfl, rfl, hT⟩, ⟨rfl, h⟩ | ⟨rfl, h⟩⟩
    · exact .inl ⟨hT, h⟩
    · exact .inr ⟨hT, h⟩

theorem reads_expect (kind : Kind) (what : Expectation) :
    Reads (expect kind what) fun n ts t m _ ↦ ts = [t] ∧ kind.same t.kind = true ∧ m = n := by
  refine (Reads.accept_bind (reads_missing what fun _ _ _ _ _ ↦ False) reads_pure).mono ?_
  rintro n ts t m rest (⟨-, h⟩ | ⟨t, ts', rfl, ht, rfl, rfl, rfl⟩)
  · exact h.elim
  · exact ⟨rfl, ht, rfl⟩

theorem Reads.expect_bind {kind : Kind} {what : Expectation} {f : Token → Rule β}
    {H : Token → Reading β} (h : ∀ t, Reads (f t) (H t)) :
    Reads (expect kind what >>= f) fun n ts b m rest ↦
      ∃ t ts', ts = t :: ts' ∧ kind.same t.kind = true ∧ H t n ts' b m rest := by
  refine ((reads_expect kind what).bind h).mono ?_
  rintro n ts b m rest ⟨t, ts₁, ts₂, k, rfl, ⟨rfl, ht, rfl⟩, hb⟩
  exact ⟨t, ts₂, rfl, ht, hb⟩

theorem Reads.recovering {p : Rule α} {G : Reading α} (hp : Reads p G) :
    Reads p.recovering fun n ts o m rest ↦ ∃ a, o = some a ∧ G n ts a m rest := by
  intro s hs
  have h := hp s hs
  unfold Rule.recovering
  cases hps : p s with
  | ok a s' =>
    rw [hps] at h
    exact ⟨h.1, fun hq ↦
      let ⟨ts, rest, m, hr, ha, hG⟩ := h.2 hq
      ⟨ts, rest, m, hr, ha, a, rfl, hG⟩⟩
  | fail e s' =>
    rw [hps] at h
    obtain ⟨hsize, hid, heof⟩ := h
    refine ⟨⟨?_, hid, heof⟩, fun hq ↦ ?_⟩
    · simp only [Array.size_push]
      omega
    · simp only [Array.size_push] at hq
      omega

/-- A rule reads what begins with a token. -/
def ReadsAt (t : Token) (p : Rule α) (G : Reading α) : Prop :=
  ∀ (s : State) (rest : List Token), s.eof.kind = .eof → s.rest = t :: rest → (p s).Meets s G

theorem Reads.readsAt {t : Token} {p : Rule α} {G : Reading α} (h : Reads p G) : ReadsAt t p G :=
  fun s _ hs _ ↦ h s hs

theorem ReadsAt.mono {t : Token} {p : Rule α} {G H : Reading α} (h : ReadsAt t p G)
    (hGH : ∀ n ts a m rest, G n ts a m rest → H n ts a m rest) : ReadsAt t p H :=
  fun s rest hs hr ↦ (h s rest hs hr).mono hGH

theorem Reads.advance {t : Token} {p : Rule α} {G : Reading α} (hp : Reads p G) :
    ReadsAt t (advance >>= fun _ ↦ p) fun n ts a m rest ↦ ∃ ts', ts = t :: ts' ∧ G n ts' a m rest := by
  intro s rest hs hr
  have h := hp (s.ahead rest s.nextId) hs
  have he : (Rule.advance >>= fun _ ↦ p) s = p (s.ahead rest s.nextId) := by
    show p { s with rest := s.rest.tail } = p (s.ahead rest s.nextId)
    rw [hr]
    rfl
  rw [he]
  cases hps : p (s.ahead rest s.nextId) with
  | fail e s' =>
    rw [hps] at h
    exact ⟨h.errors, h.nextId, h.eof⟩
  | ok a s' =>
    rw [hps] at h
    obtain ⟨⟨hsize, hid, heof⟩, hG⟩ := h
    refine ⟨⟨hsize, hid, heof⟩, fun hq ↦ ?_⟩
    obtain ⟨ts, rest', m, hr', rfl, hg⟩ := hG hq
    have hr' : rest = ts ++ rest' := hr'
    exact ⟨t :: ts, rest', m, by rw [hr, hr', List.cons_append], rfl, ts, rfl, hg⟩

theorem Reads.peek_bind {f : Token → Rule β} {G : Reading β}
    (he : ∀ t, t.kind = .eof → Reads (f t) G) (hc : ∀ t, ReadsAt t (f t) G) :
    Reads (peek >>= f) G := by
  intro s hs
  show (f (s.rest.headD s.eof) s).Meets s G
  cases hr : s.rest with
  | nil => exact he s.eof hs s hs
  | cons t rest => exact hc t s rest hs hr

/-- The rule succeeds on the tokens `ts` in front of others, and takes no more than these. -/
def Takes (p : Rule α) (n : Nat) (ts : List Token) (a : α) (m : Nat) (rest : List Token) : Prop :=
  ∀ s : State, p (s.ahead (ts ++ rest) n) = .ok a (s.ahead rest m)

section

variable {n m k : Nat} {ts ts' rest : List Token} {a : α} {b : β} {t : Token}

theorem takes_pure (a : α) : Takes (pure a) n [] a n rest := fun _ ↦ rfl

theorem Takes.bind {p : Rule α} {f : α → Rule β} (hp : p.Takes n ts a k (ts' ++ rest))
    (hf : (f a).Takes k ts' b m rest) : (p >>= f).Takes n (ts ++ ts') b m rest := by
  intro s
  show (match p (s.ahead (ts ++ ts' ++ rest) n) with
    | .ok a s => f a s
    | .fail e s => .fail e s) = _
  rw [List.append_assoc, hp s]
  exact hf s

theorem Takes.bind_nil {p : Rule α} {f : α → Rule β} (hp : p.Takes n ts a k rest)
    (hf : (f a).Takes k [] b m rest) : (p >>= f).Takes n ts b m rest := by
  have h : (p >>= f).Takes n (ts ++ []) b m rest := hp.bind hf
  rwa [List.append_nil] at h

theorem Takes.bind_pure {p : Rule α} {f : α → β} (hp : p.Takes n ts a m rest) :
    (p >>= fun a ↦ pure (f a)).Takes n ts (f a) m rest := hp.bind_nil (takes_pure _)

theorem Takes.map {p : Rule α} {f : α → β} (hp : p.Takes n ts a m rest) :
    (f <$> p).Takes n ts (f a) m rest := hp.bind_pure

theorem Takes.acceptIf_some {test : Kind → Bool} {f : Option Token → Rule β}
    (ht : test t.kind = true) (hf : (f (some t)).Takes n ts b m rest) :
    (acceptIf test >>= f).Takes n (t :: ts) b m rest := by
  have h : (acceptIf test).Takes n [t] (some t) n (ts ++ rest) := by
    intro s
    show (if test t.kind then _ else _) = _
    rw [if_pos ht]
    rfl
  exact h.bind hf

theorem Takes.acceptIf_none {test : Kind → Bool} {f : Option Token → Rule β}
    (ht : ∀ t ∈ (ts ++ rest).head?, test t.kind = false) (hf : (f none).Takes n ts b m rest) :
    (acceptIf test >>= f).Takes n ts b m rest := by
  have h : (acceptIf test).Takes n [] none n (ts ++ rest) := by
    intro s
    unfold acceptIf
    split
    · rfl
    · next t rest' hr =>
      have hr : ts ++ rest = t :: rest' := hr
      rw [if_neg (by simp [ht t (by simp [hr])])]
      rfl
  exact h.bind hf

theorem Takes.check_true {kind : Kind} {f : Bool → Rule β} (ht : kind.same t.kind = true)
    (hf : (f true).Takes n (t :: ts) b m rest) : (check kind >>= f).Takes n (t :: ts) b m rest := by
  have h : (check kind).Takes n [] true n (t :: ts ++ rest) := by
    intro s
    show Reply.ok (kind.same t.kind) _ = _
    rw [ht]
    rfl
  exact h.bind hf

theorem Takes.check_false {kind : Kind} {f : Bool → Rule β}
    (ht : ∀ t ∈ (ts ++ rest).head?, kind.same t.kind = false) (hf : (f false).Takes n ts b m rest) :
    (check kind >>= f).Takes n ts b m rest := by
  have h : (check kind).Takes n [] false n (ts ++ rest) := by
    intro s
    unfold check
    split
    · rfl
    · next t rest' hr =>
      have hr : ts ++ rest = t :: rest' := hr
      rw [ht t (by simp [hr])]
      rfl
  exact h.bind hf

theorem takes_expect {kind : Kind} {what : Expectation} (ht : kind.same t.kind = true) :
    (expect kind what).Takes n [t] t n rest :=
  Takes.acceptIf_some ht (takes_pure t)

theorem Takes.expect_bind {kind : Kind} {what : Expectation} {f : Token → Rule β}
    (ht : kind.same t.kind = true) (hf : (f t).Takes n ts b m rest) :
    (expect kind what >>= f).Takes n (t :: ts) b m rest :=
  (takes_expect ht).bind hf

theorem Takes.occurrence_bind {f : Ref → Rule β} (hf : (f ⟨n, t⟩).Takes (n + 1) ts b m rest) :
    (occurrence t >>= f).Takes n ts b m rest := hf

theorem Takes.peek_bind {f : Token → Rule β} (hf : (f t).Takes n (t :: ts) b m rest) :
    (peek >>= f).Takes n (t :: ts) b m rest := hf

theorem Takes.advance {p : Rule β} (hp : p.Takes n ts b m rest) :
    (advance >>= fun _ ↦ p).Takes n (t :: ts) b m rest := hp

theorem Takes.recovering {p : Rule α} (hp : p.Takes n ts a m rest) :
    p.recovering.Takes n ts (some a) m rest := by
  intro s
  unfold Rule.recovering
  rw [hp s]

end

end Rule

end Lox.Parse
