import Lox.Proofs.Token.Lines
import Lox.Proofs.Token.Partition

namespace Lox

namespace Lexeme

variable {text : List Char} {kind : Kind}

theorem string_or_solid (h : Lexeme text kind) :
    (∃ body, '"' ∉ body ∧ text = '"' :: body ++ ['"']) ∨ '"' ∉ text ∧ ' ' ∉ text := by
  have hsolid (hpart : ∀ d ∈ text, Lexical.isNamePart d) : '"' ∉ text ∧ ' ' ∉ text :=
    ⟨fun hmem ↦ absurd (hpart _ hmem) (by decide), fun hmem ↦ absurd (hpart _ hmem) (by decide)⟩
  cases h with
  | mark m => cases m <;> exact .inr (by decide)
  | keyword k => cases k <;> exact .inr (by decide)
  | identifier hc hcs hk =>
    exact .inr (hsolid (List.forall_mem_cons.2 ⟨Span.isNamePart_of_isNameStart hc, hcs⟩))
  | string hbody => exact .inl ⟨_, hbody, rfl⟩
  | whole hd => exact .inr (hsolid fun d hmem ↦ Span.isNamePart_of_isDigit (hd d hmem))
  | @decimal c d cs ds _ hd hd' =>
    have hne (q : Char) (hq : q.isDigit = false) (hpoint : q ≠ '.') : q ∉ c :: cs ++ '.' :: d :: ds := by
      intro hmem
      rcases List.mem_append.1 hmem with hmem | hmem
      · exact absurd (hd q hmem) (by simp [hq])
      rcases List.mem_cons.1 hmem with heq | hmem
      · exact hpoint heq
      · exact absurd (hd' q hmem) (by simp [hq])
    exact .inr ⟨hne '"' rfl (by decide), hne ' ' rfl (by decide)⟩

theorem not_comment (h : Lexeme text kind) : ¬['/', '/'] <+: text := by
  rintro ⟨rest, rfl⟩
  generalize htext : ['/', '/'] ++ rest = text at h
  cases h with
  | mark m => cases m <;> simp [Mark.text] at htext
  | keyword k => cases k <;> simp [Keyword.text] at htext
  | identifier hc hcs hk =>
    cases htext
    cases hc
  | string hbody => cases htext
  | whole hd | decimal hd hd' =>
    obtain ⟨rfl, -⟩ := List.cons.inj htext
    exact absurd (hd '/' (List.mem_cons_self ..)) (by decide)

theorem not_lexeme_space (h : Lexeme text kind) (more : List Char) (kind' : Kind) :
    ¬Lexeme (text ++ ' ' :: more) kind' := by
  intro hlonger
  rcases hlonger.string_or_solid with ⟨body, hbody, heq⟩ | ⟨-, hspace⟩
  · rcases h.string_or_solid with ⟨body', hbody', rfl⟩ | ⟨hquote, -⟩
    · have hcs : body' ++ '"' :: (' ' :: more) = body ++ '"' :: [] := by simpa using heq
      have hstring := Span.string_of_notMem hbody' (' ' :: more)
      rw [hcs, Span.string_of_notMem hbody] at hstring
      cases congrArg Span.rest hstring
    · obtain ⟨c, cs, rfl⟩ := List.exists_cons_of_ne_nil h.ne_nil
      obtain ⟨rfl, -⟩ := List.cons.inj heq
      exact hquote (List.mem_cons_self ..)
  · exact hspace (List.mem_append_right _ (List.mem_cons_self ..))

theorem wellCut (h : Lexeme text kind) {rest : List Char} (hrest : ∀ c ∈ rest.head?, c = ' ') :
    Span.WellCut ⟨.token kind, text, rest⟩ := by
  cases rest with
  | nil =>
    refine ⟨h, by simpa using h.not_comment, fun more kind' hmore hprefix ↦ ?_⟩
    exact absurd (List.prefix_nil.1 hprefix) hmore
  | cons c rest =>
    obtain rfl := hrest c rfl
    refine ⟨h, fun hcomment ↦ ?_, fun more kind' hmore hprefix ↦ ?_⟩
    · obtain ⟨c, cs, rfl⟩ := List.exists_cons_of_ne_nil h.ne_nil
      cases cs with
      | nil => simp at hcomment
      | cons c' cs => exact h.not_comment (by simpa using hcomment)
    · obtain ⟨c, more, rfl⟩ := List.exists_cons_of_ne_nil hmore
      obtain ⟨rfl, -⟩ := List.cons_prefix_cons.1 hprefix
      exact h.not_lexeme_space more kind'

end Lexeme

theorem Span.all_of_wellCut {kind : Kind} {text rest : List Char} (h : WellCut ⟨.token kind, text, rest⟩) :
    all (text ++ rest) = ⟨.token kind, text, rest⟩ :: all rest := by
  obtain ⟨c, cs, hcs⟩ : ∃ c cs, text ++ rest = c :: cs :=
    List.exists_cons_of_ne_nil (List.append_ne_nil_of_left_ne_nil h.text_ne_nil rest)
  rw [hcs, all, first_of_token h hcs]

namespace Token

variable {line : Nat} {spans : List Span} {t : Token} {ts : List Token}

def content (t : Token) : Kind × String := (t.kind, t.lexeme)

theorem tokensOf_itemsFrom (line : Nat) (hs : ∀ s ∈ spans, s.piece ≠ .token .eof) :
    tokensOf (itemsFrom line spans) =
      wordsFrom line spans ++ [⟨.eof, "", line + Span.newlinesOf spans⟩] := by
  induction spans generalizing line with
  | nil => rfl
  | cons s spans ih =>
    rw [List.forall_mem_cons] at hs
    rw [wordsFrom_cons hs.1, List.append_assoc, Span.newlinesOf, ← Nat.add_assoc, ← ih _ hs.2, itemsFrom, ofSpan]
    cases s.piece <;> rfl

theorem lexeme_of_mem_wordsFrom (hs : ∀ s ∈ spans, ∃ c cs, s = Span.first c cs)
    (ht : t ∈ wordsFrom line spans) : Lexeme t.lexeme.toList t.kind := by
  induction spans generalizing line with
  | nil => cases ht
  | cons s spans ih =>
    rw [List.forall_mem_cons] at hs
    obtain ⟨c, cs, rfl⟩ := hs.1
    rw [wordsFrom_cons (Span.first_ne_eof c cs)] at ht
    rcases List.mem_append.1 ht with ht | ht
    · have hcut := Span.wellCut_first c cs
      unfold ofSpan at ht
      unfold Span.WellCut at hcut
      cases hp : (Span.first c cs).piece with
      | token kind =>
        rw [hp] at ht hcut
        cases List.mem_singleton.1 ht
        rw [String.toList_ofList]
        exact hcut.1
      | gap | error cause =>
        rw [hp] at ht
        cases ht
    · exact ih hs.2 ht

def spaced (ts : List Token) : List Char := [' '].intercalate (ts.map (·.lexeme.toList))

theorem spaced_cons_cons (t t' : Token) (ts : List Token) :
    spaced (t :: t' :: ts) = t.lexeme.toList ++ ' ' :: spaced (t' :: ts) := by
  rw [spaced, List.map_cons, List.map_cons, List.intercalate_cons_cons, List.append_assoc]
  rfl

theorem contents_spaced (h : ∀ t ∈ ts, Lexeme t.lexeme.toList t.kind) (line : Nat) :
    (itemsFrom line (Span.all (spaced ts))).map (Except.map content) =
      ts.map (.ok ∘ content) ++ [.ok (.eof, "")] := by
  induction ts generalizing line with
  | nil =>
    rw [spaced, List.map_nil, List.intercalate_nil, Span.all]
    rfl
  | cons t ts ih =>
    rw [List.forall_mem_cons] at h
    cases ts with
    | nil =>
      have hcut : Span.WellCut ⟨.token t.kind, t.lexeme.toList, []⟩ := h.1.wellCut (by simp)
      have hall := Span.all_of_wellCut hcut
      rw [List.append_nil, Span.all] at hall
      rw [spaced, List.map_singleton, List.intercalate_singleton, hall]
      simp [itemsFrom, Except.map, content]
    | cons t' ts =>
      have hcut : Span.WellCut ⟨.token t.kind, t.lexeme.toList, ' ' :: spaced (t' :: ts)⟩ := h.1.wellCut (by simp)
      have hall := Span.all_of_wellCut hcut
      rw [Span.all, Span.first_blank rfl] at hall
      rw [spaced_cons_cons, hall]
      simp [itemsFrom, ih h.2, Except.map, content]

theorem lexeme_of_mem_words {t : Token} {source : String} (h : t ∈ words source) :
    Lexeme t.lexeme.toList t.kind := by
  rw [words_eq] at h
  exact lexeme_of_mem_wordsFrom (fun _ ↦ Span.mem_all) h

/-- The tokens of any source, written one behind the other with single spaces in between, are scanned without error
to the same tokens. -/
theorem scan_lexemes (source : String) :
    tokensOf (scan source) = words source ++ [⟨.eof, "", linesOf source⟩] ∧
    (scan (" ".intercalate ((words source).map lexeme))).map (Except.map content) =
      (words source).map (.ok ∘ content) ++ [.ok (.eof, "")] := by
  constructor
  · have htokens := tokensOf_itemsFrom 1 fun s (hs : s ∈ Span.all source.toList) ↦ ne_eof_of_mem_all hs
    rw [Span.newlinesOf_all, Nat.add_comm] at htokens
    rw [scan_eq, words_eq]
    exact htokens
  · have hchars : (" ".intercalate ((words source).map lexeme)).toList = spaced (words source) := by
      rw [String.toList_intercalate, List.map_map]
      rfl
    rw [scan_eq, hchars]
    exact contents_spaced (fun _ ↦ lexeme_of_mem_words) 1

end Token

end Lox
