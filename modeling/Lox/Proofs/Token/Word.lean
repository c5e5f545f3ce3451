import Lox.Proofs.Token.Reader

namespace Lox

open Lexical

/-- The text of a word fits its kind. -/
structure Token.Genuine (t : Token) : Prop where
  identifier : t.kind = .identifier → ∀ k : Keyword, t.lexeme ≠ k.text
  keyword : ∀ k : Keyword, t.kind = .keyword k → t.lexeme = k.text

namespace Span

theorem wordKind_identifier {text : String} (h : wordKind text = .identifier) (k : Keyword) :
    text ≠ k.text := by
  rintro rfl
  cases k <;> cases h

theorem wordKind_keyword {text : String} {k : Keyword} (h : wordKind text = .keyword k) :
    text = k.text := by
  unfold wordKind at h
  split at h
  · next k' hk =>
    cases h
    have ht := List.find?_some hk
    exact (eq_of_beq ht).symm
  · cases h

theorem first_word {c : Char} {cs : List Char} {kind : Kind} (h : (first c cs).piece = .token kind)
    (hk : kind = .identifier ∨ ∃ k, kind = .keyword k) :
    kind = wordKind (String.ofList (first c cs).text) := by
  unfold first at h ⊢
  split at h
  · cases h; simp at hk
  · next alone extended _ _ =>
    unfold markOrPair at h
    split at h <;> cases h <;> simp at hk
  · split at h
    · unfold slash at h
      split at h <;> cases h
      simp at hk
    split at h
    · unfold string at h
      split at h <;> cases h
      simp at hk
    split at h
    · unfold number fraction at h
      split at h
      · split at h <;> cases h <;> simp at hk
      · cases h; simp at hk
    split at h
    · next h₁ h₂ h₃ h₄ =>
      rw [if_neg h₁, if_neg h₂, if_neg h₃, if_pos h₄]
      cases h
      rfl
    split at h <;> cases h

theorem mem_all {s : Span} {cs : List Char} (h : s ∈ all cs) : ∃ c rest, s = first c rest := by
  induction cs using all.induct with
  | case1 => simp [all] at h
  | case2 c cs ih =>
    rw [all, List.mem_cons] at h
    exact h.elim (fun h ↦ ⟨c, cs, h⟩) ih

end Span

namespace Token

theorem genuine_of_first {c : Char} {cs : List Char} {kind : Kind} {line : Nat}
    (h : (Span.first c cs).piece = .token kind) :
    Genuine ⟨kind, String.ofList (Span.first c cs).text, line⟩ := by
  constructor
  · intro hk
    exact Span.wordKind_identifier ((Span.first_word h (.inl hk)).symm.trans hk)
  · intro k hk
    exact Span.wordKind_keyword ((Span.first_word h (.inr ⟨k, hk⟩)).symm.trans hk)

theorem mem_tokensOf {t : Token} {items : List Scanned} : t ∈ tokensOf items ↔ .ok t ∈ items := by
  unfold tokensOf
  rw [List.mem_filterMap]
  constructor
  · rintro ⟨item, hi, ht⟩
    cases item with
    | ok t' => cases ht; exact hi
    | error e => cases ht
  · exact fun h ↦ ⟨_, h, rfl⟩

theorem genuine_of_mem_itemsFrom {t : Token} {spans : List Span}
    (hs : ∀ s ∈ spans, ∃ c cs, s = Span.first c cs) {line : Nat} (h : .ok t ∈ itemsFrom line spans) :
    t.Genuine := by
  induction spans generalizing line with
  | nil =>
    simp only [itemsFrom, List.mem_singleton, Except.ok.injEq] at h
    subst h
    constructor
    · intro hk
      cases hk
    · intro k hk
      cases hk
  | cons s rest ih =>
    have hrest : ∀ s ∈ rest, ∃ c cs, s = Span.first c cs := fun s hm ↦ hs s (List.mem_cons_of_mem _ hm)
    unfold itemsFrom at h
    split at h
    · next kind hp =>
      rw [List.mem_cons] at h
      obtain h | h := h
      · cases h
        obtain ⟨c, cs, rfl⟩ := hs s (List.mem_cons_self ..)
        exact genuine_of_first hp
      · exact ih hrest h
    · exact ih hrest h
    · rw [List.mem_cons] at h
      obtain h | h := h
      · cases h
      · exact ih hrest h

/-- The text of every token of a source fits its kind. -/
theorem genuine_of_mem_scan {t : Token} {source : String} (h : t ∈ tokensOf (scan source)) :
    t.Genuine := by
  rw [scan_eq] at h
  exact genuine_of_mem_itemsFrom (fun _ hs ↦ Span.mem_all hs) (mem_tokensOf.1 h)

end Token

end Lox
