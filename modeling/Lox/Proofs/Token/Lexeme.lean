import Lox.Proofs.Number.Nearest
import Lox.Proofs.Token.Newline

namespace Lox

open Lexical

/-- The lexical grammar: the texts that are tokens, with the kind of each. -/
inductive Lexeme : List Char → Kind → Prop
  | mark (m : Mark) : Lexeme m.text.toList (.mark m)
  | keyword (k : Keyword) : Lexeme k.text.toList (.keyword k)
  | identifier {c : Char} {cs : List Char} (hc : Lexical.isNameStart c) (hcs : ∀ d ∈ cs, Lexical.isNamePart d)
      (hk : ∀ k : Keyword, k.text.toList ≠ c :: cs) : Lexeme (c :: cs) .identifier
  | string {body : List Char} (h : '"' ∉ body) :
      Lexeme ('"' :: body ++ ['"']) (.string (String.ofList body))
  | whole {c : Char} {cs : List Char} {b : Nat} (h : ∀ d ∈ c :: cs, d.isDigit)
      (hb : Double.IsNearest (Nat.ofDigitChars 10 (c :: cs) 0) b) :
      Lexeme (c :: cs) (.number (Double.ofMagnitudeBits b))
  | decimal {c d : Char} {cs ds : List Char} {b : Nat} (h : ∀ d ∈ c :: cs, d.isDigit)
      (h' : ∀ d' ∈ d :: ds, d'.isDigit)
      (hb : Double.IsNearest (Nat.ofDigitChars 10 (c :: cs ++ d :: ds) 0 / 10 ^ (d :: ds).length) b) :
      Lexeme (c :: cs ++ '.' :: d :: ds) (.number (Double.ofMagnitudeBits b))

namespace Span

variable {c : Char} {cs : List Char}

theorem text_of_mark? {m : Mark} (h : mark? c = some m) : m.text.toList = [c] := by
  unfold mark? at h
  split at h <;> cases h <;> rfl

theorem text_of_markPair? {m m' : Mark} (h : markPair? c = some (m, m')) :
    m.text.toList = [c] ∧ m'.text.toList = [c, '='] := by
  unfold markPair? at h
  split at h <;> cases h <;> exact ⟨rfl, rfl⟩

/-- A character that begins no mark and no string. -/
structure Ordinary (c : Char) : Prop where
  mark : mark? c = none
  markPair : markPair? c = none
  slash : c ≠ '/'
  quote : c ≠ '"'

theorem ordinary_of_isNamePart (h : isNamePart c) : Ordinary c := by
  constructor
  · unfold mark?
    split <;> first | rfl | cases h
  · unfold markPair?
    split <;> first | rfl | cases h
  · rintro rfl
    cases h
  · rintro rfl
    cases h

theorem isNamePart_of_isDigit (h : c.isDigit) : isNamePart c := by simp [isNamePart, Char.isAlphanum, h]

theorem isNamePart_of_isNameStart (h : isNameStart c) : isNamePart c := by
  rw [isNameStart, Bool.or_eq_true] at h
  rw [isNamePart, Char.isAlphanum]
  rcases h with h | h <;> simp [h]

theorem isDigit_of_isNameStart (h : isNameStart c) : c.isDigit = false := by
  delta isNameStart Char.isAlpha Char.isUpper Char.isLower at h
  simp only [Char.isDigit, Bool.or_eq_true, Bool.and_eq_true, decide_eq_true_eq, beq_iff_eq,
    UInt32.le_iff_toNat_le, ge_iff_le] at *
  rcases h with (h | h) | rfl
  · simp at *
    omega
  · simp at *
    omega
  · rfl

theorem Ordinary.first (h : Ordinary c) (cs : List Char) : first c cs =
    if c.isDigit then number c cs else if isNameStart c then word c cs
    else if isBlank c then ⟨.gap, [c], cs⟩ else ⟨.error (.unexpected c), [c], cs⟩ := by
  unfold Span.first
  simp only [h.mark, h.markPair, if_neg h.slash, if_neg h.quote]

theorem first_number (h : c.isDigit) (cs : List Char) : first c cs = number c cs := by
  rw [(ordinary_of_isNamePart (isNamePart_of_isDigit h)).first, if_pos h]

theorem first_name (h : isNameStart c) (cs : List Char) : first c cs = word c cs := by
  have hd := isDigit_of_isNameStart h
  rw [(ordinary_of_isNamePart (isNamePart_of_isNameStart h)).first, if_neg (by simp [hd]), if_pos h]

theorem first_blank (h : isBlank c) (cs : List Char) : first c cs = ⟨.gap, [c], cs⟩ := by
  simp only [isBlank, Bool.or_eq_true, beq_iff_eq] at h
  rcases h with ((rfl | rfl) | rfl) | rfl <;> rfl

theorem bne_of_notMem {q : Char} {body : List Char} (h : q ∉ body) : ∀ c ∈ body, (c != q) = true := by
  intro c hc
  rw [bne_iff_ne]
  rintro rfl
  exact h hc

theorem string_of_notMem {body : List Char} (h : '"' ∉ body) (rest : List Char) :
    string (body ++ '"' :: rest) =
      ⟨.token (.string (String.ofList body)), '"' :: body ++ ['"'], rest⟩ := by
  have hbody := bne_of_notMem h
  rw [string, List.takeWhile_append_of_pos hbody, List.dropWhile_append_of_pos hbody]
  simp

theorem whole_isPrefix_fraction (whole cs : List Char) : whole <+: (fraction whole cs).text := by
  fun_cases fraction whole cs with
  | case1 => exact List.prefix_append ..
  | case2 => exact List.prefix_rfl
  | case3 => exact List.prefix_rfl

theorem fraction_of_text_eq {whole cs : List Char} (h : (fraction whole cs).text = whole) :
    (fraction whole cs).piece = .token (.number (Decimal.ofDigits whole []).toFloat) := by
  fun_cases fraction whole cs with
  | case1 d cs hd part =>
    rw [fraction, if_pos hd] at h
    exact absurd (List.append_right_eq_self.1 h) (List.cons_ne_nil _ _)
  | case2 d cs hd => rfl
  | case3 => rfl

theorem exists_fraction (whole cs : List Char) : ∃ x, (fraction whole cs).piece = .token (.number x) := by
  fun_cases fraction whole cs <;> exact ⟨_, rfl⟩

theorem wordKind_text (k : Keyword) : wordKind k.text = .keyword k := by
  cases k <;> rfl

theorem wordKind_cases (text : String) :
    wordKind text = .identifier ∨ ∃ k, wordKind text = .keyword k := by
  unfold wordKind
  split
  · exact .inr ⟨_, rfl⟩
  · exact .inl rfl

theorem wordKind_eq_identifier {text : String} (h : ∀ k : Keyword, k.text ≠ text) :
    wordKind text = .identifier := by
  rcases wordKind_cases text with hi | ⟨k, hk⟩
  · exact hi
  · exact absurd (wordKind_keyword hk).symm (h k)

/-- The first stretch of a source is a token at least as long as the text, and of its kind if it is just as
long. -/
structure Covers (text : List Char) (kind : Kind) (s : Span) : Prop where
  token : ∃ kind', s.piece = .token kind'
  isPrefix : text <+: s.text
  kind : s.text = text → s.piece = .token kind

theorem Covers.refl (text : List Char) (kind : Kind) (rest : List Char) :
    Covers text kind ⟨.token kind, text, rest⟩ := ⟨⟨kind, rfl⟩, List.prefix_rfl, fun _ ↦ rfl⟩

theorem covers_word {kind : Kind} (hc : isNameStart c) (hcs : ∀ d ∈ cs, isNamePart d)
    (hk : wordKind (String.ofList (c :: cs)) = kind) (rest : List Char) :
    Covers (c :: cs) kind (first c (cs ++ rest)) := by
  have htake : (cs ++ rest).takeWhile isNamePart = cs ++ rest.takeWhile isNamePart :=
    List.takeWhile_append_of_pos hcs
  rw [first_name hc, word, htake]
  refine ⟨⟨_, rfl⟩, List.prefix_append (c :: cs) _, fun heq ↦ ?_⟩
  dsimp only at heq ⊢
  rw [heq, hk]

theorem covers_whole (h : ∀ d ∈ c :: cs, d.isDigit) (rest : List Char) :
    Covers (c :: cs) (.number (Decimal.ofDigits (c :: cs) []).toFloat) (first c (cs ++ rest)) := by
  rw [List.forall_mem_cons] at h
  have htake : (cs ++ rest).takeWhile Char.isDigit = cs ++ rest.takeWhile Char.isDigit :=
    List.takeWhile_append_of_pos h.2
  rw [first_number h.1, number, htake]
  generalize (cs ++ rest).dropWhile Char.isDigit = behind
  have hwhole := whole_isPrefix_fraction (c :: (cs ++ rest.takeWhile Char.isDigit)) behind
  have hdigits : c :: cs <+: c :: (cs ++ rest.takeWhile Char.isDigit) := List.prefix_append (c :: cs) _
  obtain ⟨x, hx⟩ := exists_fraction (c :: (cs ++ rest.takeWhile Char.isDigit)) behind
  refine ⟨⟨_, hx⟩, hdigits.trans hwhole, fun heq ↦ ?_⟩
  have hnone : c :: (cs ++ rest.takeWhile Char.isDigit) = c :: cs :=
    (heq ▸ hwhole).eq_of_length (Nat.le_antisymm (heq ▸ hwhole).length_le hdigits.length_le)
  rw [hnone] at heq ⊢
  exact fraction_of_text_eq heq

theorem covers_decimal {d : Char} {ds : List Char} (h : ∀ d ∈ c :: cs, d.isDigit)
    (h' : ∀ d' ∈ d :: ds, d'.isDigit) (rest : List Char) :
    Covers (c :: cs ++ '.' :: d :: ds) (.number (Decimal.ofDigits (c :: cs) (d :: ds)).toFloat)
      (first c (cs ++ '.' :: d :: ds ++ rest)) := by
  rw [List.forall_mem_cons] at h h'
  have hwhole : cs ++ '.' :: d :: ds ++ rest = cs ++ '.' :: d :: (ds ++ rest) := by simp
  have htake : (cs ++ '.' :: d :: (ds ++ rest)).takeWhile Char.isDigit = cs := by
    rw [List.takeWhile_append_of_pos h.2, List.takeWhile_cons_of_neg (by decide), List.append_nil]
  have hdrop : (cs ++ '.' :: d :: (ds ++ rest)).dropWhile Char.isDigit = '.' :: d :: (ds ++ rest) := by
    rw [List.dropWhile_append_of_pos h.2, List.dropWhile_cons_of_neg (by decide)]
  have hpart : (ds ++ rest).takeWhile Char.isDigit = ds ++ rest.takeWhile Char.isDigit :=
    List.takeWhile_append_of_pos h'.2
  rw [first_number h.1, number, hwhole, htake, hdrop, fraction, if_pos h'.1, hpart]
  refine ⟨⟨_, rfl⟩, ⟨rest.takeWhile Char.isDigit, by simp⟩, fun heq ↦ ?_⟩
  have hnone : rest.takeWhile Char.isDigit = [] := by simpa using heq
  rw [hnone, List.append_nil]

theorem covers_markOrPair (c : Char) (m m' : Mark) (cs : List Char) :
    Covers [c] (.mark m) (markOrPair c m m' cs) := by
  fun_cases markOrPair c m m' cs with
  | case1 cs =>
    refine ⟨⟨_, rfl⟩, ⟨['='], rfl⟩, fun heq ↦ ?_⟩
    cases heq
  | case2 => exact .refl ..

theorem covers_mark (m : Mark) {rest : List Char} (hs : m.text.toList ++ rest = c :: cs)
    (hc : ¬['/', '/'] <+: c :: cs) : Covers m.text.toList (.mark m) (first c cs) := by
  cases m <;> simp [Mark.text] at hs <;> obtain ⟨rfl, rfl⟩ := hs
  case bang | equal | greater | less => exact covers_markOrPair ..
  case slash =>
    change Covers ['/'] _ (slash rest)
    fun_cases slash rest with
    | case1 cs => exact absurd ⟨cs, rfl⟩ hc
    | case2 => exact .refl ..
  all_goals exact .refl ..

end Span

theorem Keyword.exists_text (k : Keyword) :
    ∃ c cs, k.text.toList = c :: cs ∧ Lexical.isNameStart c ∧ ∀ d ∈ cs, Lexical.isNamePart d := by
  cases k <;> exact ⟨_, _, rfl, rfl, List.all_eq_true.1 rfl⟩

/-- Where no comment begins, the first stretch of a source is at least as long as any token it begins with. -/
theorem Lexeme.covers {text rest cs : List Char} {kind : Kind} {c : Char} (h : Lexeme text kind)
    (hs : text ++ rest = c :: cs) (hc : ¬['/', '/'] <+: c :: cs) :
    Span.Covers text kind (Span.first c cs) := by
  cases h with
  | mark m => exact Span.covers_mark m hs hc
  | keyword k =>
    obtain ⟨c', cs', htext, hstart, hpart⟩ := k.exists_text
    have hk : Lexical.wordKind (String.ofList (c' :: cs')) = .keyword k := by
      rw [← htext, String.ofList_toList, Span.wordKind_text]
    rw [htext] at hs ⊢
    cases hs
    exact Span.covers_word hstart hpart hk rest
  | identifier hstart hpart hk =>
    cases hs
    refine Span.covers_word hstart hpart (Span.wordKind_eq_identifier fun k heq ↦ hk k ?_) rest
    rw [heq, String.toList_ofList]
  | @string body hbody =>
    have hcs : body ++ '"' :: rest = cs := by simpa using (List.cons.inj hs).2
    cases hs
    rw [← hcs]
    change Span.Covers _ _ (Span.string (body ++ '"' :: rest))
    rw [Span.string_of_notMem hbody]
    exact .refl ..
  | whole hd hb =>
    cases hs
    rw [hb.unique (Decimal.isNearest_ofDigits_nil _)]
    exact Span.covers_whole hd rest
  | decimal hd hd' hb =>
    cases hs
    rw [hb.unique (Decimal.isNearest_ofDigits _ _)]
    exact Span.covers_decimal hd hd' rest

namespace Span

variable {c : Char} {cs : List Char} {kind : Kind}

theorem lexeme_wordKind (hc : isNameStart c) (hcs : ∀ d ∈ cs, isNamePart d) :
    Lexeme (c :: cs) (wordKind (String.ofList (c :: cs))) := by
  rcases wordKind_cases (String.ofList (c :: cs)) with hi | ⟨k, hk⟩
  · rw [hi]
    refine .identifier hc hcs fun k heq ↦ wordKind_identifier hi k ?_
    rw [← heq, String.ofList_toList]
  · have htext : k.text.toList = c :: cs := by rw [← wordKind_keyword hk, String.toList_ofList]
    rw [hk, ← htext]
    exact .keyword k

/-- The stretch is what the lexical grammar makes of the beginning of its source: the longest token, a blank
character, a comment up to the end of its line, or else an error. -/
def WellCut (s : Span) : Prop :=
  match s.piece with
  | .token kind => Lexeme s.text kind ∧ ¬['/', '/'] <+: s.text ++ s.rest ∧
      ∀ more kind', more ≠ [] → more <+: s.rest → ¬Lexeme (s.text ++ more) kind'
  | .gap => (∃ c, isBlank c ∧ s.text = [c]) ∨
      ∃ body, s.text = '/' :: '/' :: body ∧ '\n' ∉ body ∧ ∀ c ∈ s.rest.head?, c = '\n'
  | .error (.unexpected c) => s.text = [c] ∧ isBlank c = false ∧ c ≠ '"' ∧
      ∀ text kind, text <+: c :: s.rest → ¬Lexeme text kind
  | .error .unterminatedString => ∃ body, s.text = '"' :: body ∧ '"' ∉ body ∧ s.rest = []

theorem not_comment_of_token (h : (first c cs).piece = .token kind) : ¬['/', '/'] <+: c :: cs := by
  rintro ⟨rest, heq⟩
  cases heq
  cases h

/-- A token that the grammar knows is the longest one, since the scan takes all that it can. -/
theorem wellCut_of_lexeme {s : Span} (hs : first c cs = s) (hp : s.piece = .token kind)
    (hl : Lexeme s.text kind) : s.WellCut := by
  subst hs
  have hcomment := not_comment_of_token hp
  rw [WellCut, hp]
  refine ⟨hl, by rwa [text_append_rest], fun more kind' hmore hprefix hlonger ↦ hmore ?_⟩
  obtain ⟨rest, hrest⟩ := hprefix
  have hall : (first c cs).text ++ more ++ rest = c :: cs := by
    rw [List.append_assoc, hrest, text_append_rest]
  have hle := (hlonger.covers hall hcomment).isPrefix.length_le
  rw [List.length_append] at hle
  exact List.length_eq_zero_iff.1 (by omega)

theorem of_mem_takeWhile {p : Char → Bool} {d : Char} (h : d ∈ cs.takeWhile p) : p d :=
  List.all_eq_true.1 List.all_takeWhile d h

theorem of_dropWhile_eq_cons {p : Char → Bool} {d : Char} {rest : List Char}
    (h : cs.dropWhile p = d :: rest) : p d = false := by
  have hhead := List.head?_dropWhile_not p cs
  rwa [h] at hhead

theorem wellCut_slash (cs : List Char) : (slash cs).WellCut := by
  have hs : first '/' cs = slash cs := rfl
  fun_cases slash cs with
  | case1 cs =>
    refine .inr ⟨_, rfl, fun hmem ↦ ?_, fun c hc ↦ ?_⟩
    · exact absurd (of_mem_takeWhile hmem) (by decide)
    · obtain ⟨rest, hrest⟩ := List.head?_eq_some_iff.1 hc
      simpa using of_dropWhile_eq_cons hrest
  | case2 cs hcs =>
    refine wellCut_of_lexeme (hs.trans (slash.eq_2 cs hcs)) rfl ?_
    exact Lexeme.mark .slash

theorem wellCut_string (cs : List Char) : (string cs).WellCut := by
  have hbody : '"' ∉ cs.takeWhile (· != '"') := fun hmem ↦ absurd (of_mem_takeWhile hmem) (by decide)
  cases hd : cs.dropWhile (· != '"') with
  | nil =>
    rw [string, hd]
    exact ⟨_, rfl, hbody, rfl⟩
  | cons q rest =>
    obtain rfl : q = '"' := by simpa using of_dropWhile_eq_cons hd
    have hs : string cs = ⟨.token (.string (String.ofList (cs.takeWhile (· != '"')))),
        '"' :: cs.takeWhile (· != '"') ++ ['"'], rest⟩ := by rw [string, hd]
    have hfirst : first '"' cs = string cs := rfl
    rw [hs] at hfirst ⊢
    exact wellCut_of_lexeme hfirst rfl (.string hbody)

theorem wellCut_number (hc : c.isDigit) (cs : List Char) : (number c cs).WellCut := by
  have hs := first_number hc cs
  have hwhole : ∀ d ∈ c :: cs.takeWhile Char.isDigit, d.isDigit :=
    List.forall_mem_cons.2 ⟨hc, fun d hd ↦ of_mem_takeWhile hd⟩
  rw [number] at hs ⊢
  generalize cs.dropWhile Char.isDigit = behind at hs ⊢
  fun_cases fraction (c :: cs.takeWhile Char.isDigit) behind with
  | case1 d rest hd part =>
    rw [fraction, if_pos hd] at hs
    refine wellCut_of_lexeme hs rfl (.decimal hwhole ?_ (Decimal.isNearest_ofDigits _ _))
    exact List.forall_mem_cons.2 ⟨hd, fun d' hd' ↦ of_mem_takeWhile hd'⟩
  | case2 d rest hd =>
    rw [fraction, if_neg hd] at hs
    exact wellCut_of_lexeme hs rfl (.whole hwhole (Decimal.isNearest_ofDigits_nil _))
  | case3 behind hbehind =>
    rw [fraction.eq_2 _ _ hbehind] at hs
    exact wellCut_of_lexeme hs rfl (.whole hwhole (Decimal.isNearest_ofDigits_nil _))

theorem wellCut_word (hc : isNameStart c) (cs : List Char) : (word c cs).WellCut :=
  wellCut_of_lexeme (first_name hc cs) rfl (lexeme_wordKind hc fun _ hd ↦ of_mem_takeWhile hd)

/-- Every stretch is cut as the lexical grammar asks. -/
theorem wellCut_first (c : Char) (cs : List Char) : (first c cs).WellCut := by
  cases hm : mark? c with
  | some m =>
    have hs : first c cs = ⟨.token (.mark m), [c], cs⟩ := by simp [first, hm]
    exact hs ▸ wellCut_of_lexeme hs rfl (text_of_mark? hm ▸ .mark m)
  | none =>
    cases hp : markPair? c with
    | some p =>
      obtain ⟨m, m'⟩ := p
      obtain ⟨hm₁, hm₂⟩ := text_of_markPair? hp
      have hs : first c cs = markOrPair c m m' cs := by simp [first, hm, hp]
      rw [hs]
      fun_cases markOrPair c m m' cs with
      | case1 cs => exact wellCut_of_lexeme hs rfl (hm₂ ▸ .mark m')
      | case2 cs hcs =>
        exact wellCut_of_lexeme (hs.trans (markOrPair.eq_2 _ _ _ _ hcs)) rfl (hm₁ ▸ .mark m)
    | none =>
      by_cases hslash : c = '/'
      · subst hslash
        exact wellCut_slash cs
      by_cases hquote : c = '"'
      · subst hquote
        exact wellCut_string cs
      have hs := Ordinary.first ⟨hm, hp, hslash, hquote⟩ cs
      split at hs
      · next hd => exact hs ▸ wellCut_number hd cs
      split at hs
      · next hn => exact hs ▸ wellCut_word hn cs
      split at hs
      · next hb =>
        rw [hs]
        exact .inl ⟨c, hb, rfl⟩
      · next hb =>
        rw [hs]
        refine ⟨rfl, by simpa using hb, hquote, fun text kind hprefix hl ↦ ?_⟩
        obtain ⟨rest, hrest⟩ := hprefix
        have hcomment : ¬['/', '/'] <+: c :: cs := by
          rintro ⟨rest, heq⟩
          cases heq
          exact hslash rfl
        obtain ⟨kind', hk⟩ := (hl.covers hrest hcomment).token
        rw [hs] at hk
        cases hk

theorem eq_mk {s : Span} {piece : Piece} {text rest : List Char} (hp : s.piece = piece)
    (hs : s.text ++ s.rest = text ++ rest) (ht : s.text = text) : s = ⟨piece, text, rest⟩ := by
  obtain ⟨_, _, _⟩ := s
  subst hp ht
  exact congrArg _ (List.append_cancel_left hs)

theorem first_of_token {text rest : List Char} (h : WellCut ⟨.token kind, text, rest⟩)
    (hs : text ++ rest = c :: cs) : first c cs = ⟨.token kind, text, rest⟩ := by
  obtain ⟨hl, hcomment, hlongest⟩ := h
  have hcovers := hl.covers hs (hs ▸ hcomment)
  obtain ⟨kind', hk⟩ := hcovers.token
  obtain ⟨more, hmore⟩ := hcovers.isPrefix
  have hall : text ++ (more ++ (first c cs).rest) = text ++ rest := by
    rw [← List.append_assoc, hmore, text_append_rest, hs]
  have hl' : Lexeme (first c cs).text kind' := by
    have hcut := wellCut_first c cs
    rw [WellCut, hk] at hcut
    exact hcut.1
  by_cases hnil : more = []
  · subst hnil
    rw [List.append_nil] at hmore
    exact eq_mk (hcovers.kind hmore.symm) (by rw [text_append_rest, hs]) hmore.symm
  · have hprefix : more <+: rest := ⟨_, List.append_cancel_left hall⟩
    exact absurd (hmore ▸ hl') (hlongest more kind' hnil hprefix)

theorem slash_comment {body rest : List Char} (hbody : '\n' ∉ body) (hrest : ∀ c ∈ rest.head?, c = '\n') :
    first '/' ('/' :: (body ++ rest)) = ⟨.gap, '/' :: '/' :: body, rest⟩ := by
  have hbody' := bne_of_notMem hbody
  change slash ('/' :: (body ++ rest)) = _
  rw [slash, List.takeWhile_append_of_pos hbody', List.dropWhile_append_of_pos hbody']
  cases rest with
  | nil => simp
  | cons c rest => simp [hrest c rfl]

theorem first_of_unexpected {d : Char} {text rest : List Char}
    (h : WellCut ⟨.error (.unexpected d), text, rest⟩) (hs : text ++ rest = c :: cs) :
    first c cs = ⟨.error (.unexpected d), text, rest⟩ := by
  obtain ⟨rfl, hblank, hquote, hnone⟩ := h
  obtain ⟨rfl, rfl⟩ : d = c ∧ rest = cs := List.cons.inj hs
  have hcut := wellCut_first d rest
  have hall := text_append_rest d rest
  generalize first d rest = s at hcut hall ⊢
  obtain ⟨piece, text, rest'⟩ := s
  dsimp only at hall hnone
  cases piece with
  | token kind => exact absurd hcut.1 (hnone text kind ⟨rest', hall⟩)
  | gap =>
    rcases hcut with ⟨c, hc, ht⟩ | ⟨body, ht, -⟩ <;> dsimp only at ht <;> subst ht
    · obtain ⟨rfl, -⟩ := List.cons.inj hall
      exact absurd hc (by simp [hblank])
    · obtain ⟨rfl, -⟩ := List.cons.inj hall
      exact absurd (Lexeme.mark .slash) (hnone _ _ ⟨_, rfl⟩)
  | error cause =>
    cases cause with
    | unexpected c =>
      obtain ⟨ht, -⟩ := hcut
      dsimp only at ht
      subst ht
      obtain ⟨rfl, rfl⟩ : c = d ∧ rest' = rest := List.cons.inj hall
      rfl
    | unterminatedString =>
      obtain ⟨body, ht, -⟩ := hcut
      dsimp only at ht
      subst ht
      exact absurd (List.cons.inj hall).1.symm hquote

theorem string_unterminated {body : List Char} (h : '"' ∉ body) :
    string body = ⟨.error .unterminatedString, '"' :: body, []⟩ := by
  have hbody := bne_of_notMem h
  have hdrop : body.dropWhile (· != '"') = [] := by
    rw [← List.append_nil body, List.dropWhile_append_of_pos hbody, List.dropWhile_nil]
  have htake := List.takeWhile_append_dropWhile (p := (· != '"')) (l := body)
  rw [hdrop, List.append_nil] at htake
  rw [string, htake, hdrop]

/-- The lexical grammar leaves no choice where to cut. -/
theorem WellCut.eq_first {s : Span} (h : s.WellCut) (hs : s.text ++ s.rest = c :: cs) : first c cs = s := by
  obtain ⟨piece, text, rest⟩ := s
  cases piece with
  | token kind => exact first_of_token h hs
  | gap =>
    rcases h with ⟨d, hd, rfl⟩ | ⟨body, rfl, hbody, hrest⟩
    · cases hs
      exact first_blank hd _
    · cases hs
      exact slash_comment hbody hrest
  | error cause =>
    cases cause with
    | unexpected d => exact first_of_unexpected h hs
    | unterminatedString =>
      obtain ⟨body, rfl, hbody, rfl⟩ := h
      cases hs
      exact (congrArg string (List.append_nil body)).trans (string_unterminated hbody)

end Span

end Lox
