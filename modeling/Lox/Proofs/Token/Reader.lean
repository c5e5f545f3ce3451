import Lox.Proofs.Token.Bytes

namespace Lox

open Lexical

namespace Reader

variable {bytes : ByteArray} {s : Reader bytes} {behind ahead cs : List Char} {c : Char}

theorem At.string_eq (h : s.At behind ('"' :: cs)) (hs : s.start = s.stop) :
    (s.past ['"']).string = some ((Span.string cs).piece, s.past (Span.string cs).text) := by
  have hbody := h.head.skipString_eq
  have hsplit := List.takeWhile_append_dropWhile (p := (· != '"')) (l := cs)
  have hopen := h.head
  rw [← hsplit] at hopen
  have hafter := At.past hopen
  have hsize := hafter.size
  unfold string Span.string
  dsimp only
  rw [hbody]
  cases hd : cs.dropWhile (· != '"') with
  | nil =>
    rw [if_pos (by simp [hsize, hd])]
    exact congrArg (fun r ↦ some (_, r)) (past_cons s '"' _).symm
  | cons q rest =>
    rw [hd] at hafter
    have hquote : q = '"' := by
      have hq := List.head?_dropWhile_not (· != '"') cs
      rw [hd] at hq
      simpa using hq
    subst hquote
    have hlt := hafter.lt_size
    have hstart : ((s.past ['"']).past (cs.takeWhile (· != '"'))).start + 1 = (s.past ['"']).stop := by
      rw [← advance_eq_past (by decide) (by decide)]
      exact congrArg (· + 1) hs
    rw [if_neg (Nat.not_le_of_lt hafter.lt_size), hstart, hopen.slice?_eq, Option.map_some,
      advance_eq_past (c := '"') (by decide) (by decide), ← past_cons, ← past_append]

theorem At.point_iff (h : s.At behind ahead) :
    (s.peek = '.' ∧ s.peekNext.isDigit = true) ↔ ∃ d cs, ahead = '.' :: d :: cs ∧ d.isDigit = true := by
  have hpoint : Ascii (· == '.') := ascii_beq (by decide) (by decide) (by decide)
  have hnext {rest : List Char} (hrest : s.At behind ('.' :: rest)) :
      s.peekNext.isDigit = rest.head?.any Char.isDigit := by
    change s.advance.peek.isDigit = _
    rw [advance_eq_past (c := '.') (by decide) (by decide)]
    exact hrest.head.peek_any ascii_isDigit
  rw [h.peek_eq_iff hpoint]
  constructor
  · rintro ⟨hhead, hdigit⟩
    obtain ⟨rest, rfl⟩ := List.head?_eq_some_iff.1 hhead
    rw [hnext h] at hdigit
    cases rest with
    | nil => cases hdigit
    | cons d cs => exact ⟨d, cs, rfl, hdigit⟩
  · rintro ⟨d, cs, rfl, hd⟩
    exact ⟨rfl, (hnext h).trans hd⟩

theorem ofNumeral_append {whole : List Char} (h : ∀ c ∈ whole, c.isDigit = true) (rest : List Char) :
    Decimal.ofNumeral (String.ofList (whole ++ rest)) =
      Decimal.ofDigits (whole ++ rest.takeWhile (· != '.')) ((rest.dropWhile (· != '.')).drop 1) := by
  have hpoint : ∀ c ∈ whole, (c != '.') = true := by
    intro c hc
    rw [bne_iff_ne]
    rintro rfl
    cases h _ hc
  rw [Decimal.ofNumeral, String.toList_ofList, List.takeWhile_append_of_pos hpoint,
    List.dropWhile_append_of_pos hpoint]

theorem ofNumeral_whole {whole : List Char} (h : ∀ c ∈ whole, c.isDigit = true) :
    Decimal.ofNumeral (String.ofList whole) = Decimal.ofDigits whole [] := by
  simpa using ofNumeral_append h []

theorem At.number_eq (h : s.At behind (c :: cs)) (hc : c.isDigit = true) (hs : s.start = s.stop) :
    (s.past [c]).number = some ((Span.number c cs).piece, s.past (Span.number c cs).text) := by
  have hsplit : c :: cs.takeWhile Char.isDigit ++ cs.dropWhile Char.isDigit = c :: cs := by simp
  have hwhole : ∀ d ∈ c :: cs.takeWhile Char.isDigit, d.isDigit = true := by
    rw [List.forall_mem_cons]
    exact ⟨hc, fun d hd ↦ List.all_eq_true.1 List.all_takeWhile d hd⟩
  have hskip : (s.past [c]).skip Char.isDigit rfl = s.past (c :: cs.takeWhile Char.isDigit) :=
    (h.head.skip_eq ascii_isDigit).trans (past_cons s c _).symm
  rw [← hsplit] at h
  have hafter := At.past h
  unfold number Span.number
  dsimp only
  rw [hskip]
  generalize c :: cs.takeWhile Char.isDigit = whole at *
  generalize cs.dropWhile Char.isDigit = rest at *
  fun_cases Span.fraction whole rest with
  | case1 d ds hd part =>
    have hpart : ((s.past whole).past ['.']).skip Char.isDigit rfl = s.past (whole ++ '.' :: part) := by
      rw [hafter.head.skip_eq ascii_isDigit, ← past_append, ← past_append, List.takeWhile_cons, if_pos hd]
      simp [part]
    have htext : s.At behind ((whole ++ '.' :: part) ++ ds.dropWhile Char.isDigit) := by
      simpa [part] using h
    rw [if_pos (hafter.point_iff.2 ⟨d, ds, rfl, hd⟩), advance_eq_past (c := '.') (by decide) (by decide), hpart,
      htext.lexeme?_eq hs, Option.map_some, ofNumeral_append hwhole]
    simp
  | case2 d ds hd =>
    have hcond : ¬((s.past whole).peek = '.' ∧ (s.past whole).peekNext.isDigit = true) := by
      rw [hafter.point_iff]
      rintro ⟨d', ds', heq, hd'⟩
      cases heq
      exact hd hd'
    rw [if_neg hcond, h.lexeme?_eq hs, Option.map_some, ofNumeral_whole hwhole]
  | case3 _ hother =>
    have hcond : ¬((s.past whole).peek = '.' ∧ (s.past whole).peekNext.isDigit = true) := by
      rw [hafter.point_iff]
      rintro ⟨d', ds', heq, hd'⟩
      exact hother d' ds' heq
    rw [if_neg hcond, h.lexeme?_eq hs, Option.map_some, ofNumeral_whole hwhole]

theorem At.word_eq (h : s.At behind (c :: cs)) (hs : s.start = s.stop) :
    (s.past [c]).word = some ((Span.word c cs).piece, s.past (Span.word c cs).text) := by
  have hsplit : c :: cs.takeWhile isNamePart ++ cs.dropWhile isNamePart = c :: cs := by simp
  have hskip : (s.past [c]).skip isNamePart rfl = s.past (c :: cs.takeWhile isNamePart) :=
    (h.head.skip_eq ascii_isNamePart).trans (past_cons s c _).symm
  rw [← hsplit] at h
  unfold word Span.word
  dsimp only
  rw [hskip, h.lexeme?_eq hs]
  rfl

theorem At.slash_eq (h : s.At behind ('/' :: cs)) :
    (s.past ['/']).slash = ((Span.slash cs).piece, s.past (Span.slash cs).text) := by
  have haccept := h.head.accept?_eq (d := '/') (ascii_beq (by decide) (by decide) (by decide))
  unfold slash
  rw [haccept]
  fun_cases Span.slash cs with
  | case1 cs =>
    have hcomment := h.head.head.lineEnd_eq
    rw [← past_append, ← past_append] at hcomment
    simp only [List.head?_cons, if_pos]
    rw [← past_append]
    exact congrArg (Prod.mk _) hcomment
  | case2 _ hother =>
    rw [if_neg]
    intro hhead
    obtain ⟨rest, rfl⟩ := List.head?_eq_some_iff.1 hhead
    exact hother rest rfl

theorem At.mark_eq (h : s.At behind (c :: cs)) (alone extended : Mark) : (s.past [c]).mark alone extended =
    ((Span.markOrPair c alone extended cs).piece, s.past (Span.markOrPair c alone extended cs).text) := by
  have haccept := h.head.accept?_eq (d := '=') (ascii_beq (by decide) (by decide) (by decide))
  unfold mark
  rw [haccept]
  fun_cases Span.markOrPair c alone extended cs with
  | case1 cs =>
    simp only [List.head?_cons, if_pos]
    rw [← past_append]
    rfl
  | case2 _ hother =>
    rw [if_neg]
    intro hhead
    obtain ⟨rest, rfl⟩ := List.head?_eq_some_iff.1 hhead
    exact hother rest rfl

theorem At.unexpected_eq (h : s.At behind (c :: cs)) (hc : c ≠ '\n') :
    s.begin.advance.unexpected = (.error (.unexpected c), s.begin.past [c]) := by
  have hdecode : bytes.utf8DecodeChar? s.stop = some c := by
    obtain ⟨rfl, hstop⟩ := h
    rw [hstop, ByteArray.utf8DecodeChar?_eq_utf8DecodeChar?_extract, List.utf8Encode_append,
      ByteArray.extract_append_eq_right rfl ByteArray.size_append, List.utf8DecodeChar?_utf8Encode_cons]
  have hstart : s.begin.advance.start = s.stop := rfl
  unfold unexpected
  rw [hstart, hdecode, Reader.past, size_utf8Encode_singleton, count_newline_of_ne hc]
  rfl

theorem wide_mark? {c : Char} (hc : 128 ≤ c.toNat) : mark? c = none := by
  unfold mark?
  split <;> first | rfl | exact absurd hc (by decide)

theorem wide_markPair? {c : Char} (hc : 128 ≤ c.toNat) : markPair? c = none := by
  unfold markPair?
  split <;> first | rfl | exact absurd hc (by decide)

theorem wide_isBlank {c : Char} (hc : 128 ≤ c.toNat) : isBlank c = false := by
  simp only [isBlank, Bool.or_eq_false_iff, beq_eq_false_iff_ne]
  exact ⟨⟨⟨wide_ne hc (by decide), wide_ne hc (by decide)⟩, wide_ne hc (by decide)⟩, wide_ne hc (by decide)⟩

theorem At.piece_of_wide (h : s.At behind (c :: cs)) (hc : 128 ≤ c.toNat) :
    s.piece = some ((Span.first c cs).piece, s.begin.past (Span.first c cs).text) := by
  have hpeek : 128 ≤ s.peek.toNat := h.byteAt_le hc (Char.utf8Size_pos c)
  have hpiece : s.piece = some s.begin.advance.unexpected := by
    rw [piece, pieceFrom, wide_mark? hpeek, wide_markPair? hpeek]
    dsimp only
    rw [if_neg (wide_ne hpeek (by decide)), if_neg (by simp [wide_isBlank hpeek]),
      if_neg (wide_ne hpeek (by decide)), if_neg (wide_ne hpeek (by decide)),
      if_neg (by simp [ascii_isDigit.wide _ hpeek]), if_neg (by simp [wide_isNameStart hpeek])]
  have hfirst : Span.first c cs = ⟨.error (.unexpected c), [c], cs⟩ := by
    unfold Span.first
    rw [wide_mark? hc, wide_markPair? hc]
    dsimp only
    rw [if_neg (wide_ne hc (by decide)), if_neg (wide_ne hc (by decide)),
      if_neg (by simp [ascii_isDigit.wide _ hc]), if_neg (by simp [wide_isNameStart hc]),
      if_neg (by simp [wide_isBlank hc])]
  rw [hpiece, hfirst, h.unexpected_eq (wide_ne hc (by decide))]

/-- A piece is what the first stretch of the characters ahead is. -/
theorem At.piece_eq (h : s.At behind (c :: cs)) :
    s.piece = some ((Span.first c cs).piece, s.begin.past (Span.first c cs).text) := by
  have hbegin : s.begin.At behind (c :: cs) := ⟨h.bytes, h.stop⟩
  by_cases hc : 128 ≤ c.toNat
  · exact h.piece_of_wide hc
  have hc : c.toNat < 128 := Nat.lt_of_not_le hc
  rw [piece, h.peek_of_lt hc]
  by_cases hnewline : c = '\n'
  · subst hnewline
    have hfirst : Span.first '\n' cs = ⟨.gap, ['\n'], cs⟩ := rfl
    rw [hfirst, Reader.past, size_utf8Encode_singleton]
    rfl
  have hone : s.begin.advance = s.begin.past [c] := advance_eq_past hc hnewline _
  rw [hone]
  by_cases hblank : isBlank c
  · simp only [isBlank, Bool.or_eq_true, beq_iff_eq] at hblank
    rcases hblank with ((rfl | rfl) | rfl) | heq
    · rfl
    · rfl
    · rfl
    · exact absurd heq hnewline
  unfold pieceFrom Span.first
  cases hm : mark? c with
  | some m => rfl
  | none =>
    cases hp : markPair? c with
    | some p =>
      exact congrArg some (hbegin.mark_eq p.1 p.2)
    | none =>
      dsimp only
      rw [if_neg hnewline, if_neg hblank]
      by_cases hslash : c = '/'
      · subst hslash
        rw [if_pos rfl, if_pos rfl]
        exact congrArg some hbegin.slash_eq
      rw [if_neg hslash, if_neg hslash]
      by_cases hquote : c = '"'
      · subst hquote
        rw [if_pos rfl, if_pos rfl]
        exact hbegin.string_eq rfl
      rw [if_neg hquote, if_neg hquote]
      by_cases hdigit : c.isDigit = true
      · rw [if_pos hdigit, if_pos hdigit]
        exact hbegin.number_eq hdigit rfl
      rw [if_neg hdigit, if_neg hdigit]
      by_cases hname : isNameStart c = true
      · rw [if_pos hname, if_pos hname]
        exact hbegin.word_eq rfl
      have hunexpected := h.unexpected_eq hnewline
      rw [hone] at hunexpected
      rw [if_neg hname, if_neg hname, if_neg hblank, hunexpected]

theorem At.next_nil (h : s.At behind []) : s.next = some (some (.ok ⟨.eof, "", s.line⟩), s.advance) := by
  have hsize : s.stop = bytes.size := by simp [h.size]
  rw [next, if_neg (by omega), if_pos hsize]

theorem next_of_lt (h : bytes.size < s.stop) : s.next = some (none, s) := by
  rw [next, if_pos h]

section

variable {s' : Reader bytes} (hlt : s.stop < bytes.size)
include hlt

theorem next_gap (hp : s.piece = some (.gap, s')) : s.next = s'.next := by
  rw [next, if_neg (Nat.not_lt_of_lt hlt), if_neg (Nat.ne_of_lt hlt)]
  split <;> rename_i heq <;> cases heq.symm.trans hp
  rfl

theorem next_error {cause : LexCause} (hp : s.piece = some (.error cause, s')) :
    s.next = some (some (.error ⟨cause, s'.line⟩), s') := by
  rw [next, if_neg (Nat.not_lt_of_lt hlt), if_neg (Nat.ne_of_lt hlt)]
  split <;> rename_i heq <;> cases heq.symm.trans hp
  rfl

theorem next_token {kind : Kind} {text : String} (hp : s.piece = some (.token kind, s'))
    (ht : s'.lexeme? = some text) : s.next = some (some (.ok ⟨kind, text, s'.line⟩), s') := by
  rw [next, if_neg (Nat.not_lt_of_lt hlt), if_neg (Nat.ne_of_lt hlt)]
  split <;> rename_i heq <;> cases heq.symm.trans hp
  rw [ht]
  rfl

end

/-- The next token or error is that of the first stretch that is no gap. -/
theorem At.next_eq (h : s.At behind ahead) : ∃ item s', s.next = some (some item, s') ∧
    ((bytes.size < s'.stop ∧ Token.itemsFrom s.line (Span.all ahead) = [item]) ∨
      ∃ behind' ahead', s'.At behind' ahead' ∧
        Token.itemsFrom s.line (Span.all ahead) = item :: Token.itemsFrom s'.line (Span.all ahead')) := by
  induction ahead using Span.all.induct generalizing s behind with
  | case1 =>
    refine ⟨_, _, h.next_nil, .inl ⟨?_, ?_⟩⟩
    · simp [advance, h.size]
    · rw [Span.all, Token.itemsFrom]
  | case2 c cs ih =>
    have hbegin : s.begin.At behind (c :: cs) := ⟨h.bytes, h.stop⟩
    rw [← Span.text_append_rest c cs] at hbegin
    have hafter := At.past hbegin
    have hline : (s.begin.past (Span.first c cs).text).line = s.line + (Span.first c cs).newlines := rfl
    have hpiece := h.piece_eq
    rw [Span.all, Token.itemsFrom, ← hline]
    cases hp : (Span.first c cs).piece with
    | token kind =>
      rw [hp] at hpiece
      exact ⟨_, _, next_token h.lt_size hpiece (hbegin.lexeme?_eq rfl), .inr ⟨_, _, hafter, rfl⟩⟩
    | gap =>
      rw [hp] at hpiece
      rw [next_gap h.lt_size hpiece]
      exact ih hafter
    | error cause =>
      rw [hp] at hpiece
      exact ⟨_, _, next_error h.lt_size hpiece, .inr ⟨_, _, hafter, rfl⟩⟩

/-- Tokens and errors that come one after the other, and the reader behind them. -/
inductive Gives : Reader bytes → List Scanned → Reader bytes → Prop
  | nil {s : Reader bytes} : Gives s [] s
  | cons {s s₁ s' : Reader bytes} {item : Scanned} {items : List Scanned} (h : s.next = some (some item, s₁))
      (hs : Gives s₁ items s') : Gives s (item :: items) s'

theorem Gives.drain_eq {s' : Reader bytes} {items : List Scanned} (h : s.Gives items s')
    (hend : s'.next = some (none, s')) : s.drain = some items := by
  induction h with
  | nil =>
    rw [drain]
    split <;> rename_i heq <;> cases heq.symm.trans hend
    rfl
  | cons h _ ih =>
    rw [drain]
    split <;> rename_i heq <;> cases heq.symm.trans h
    rw [ih hend]
    rfl

/-- From any place between two characters, what comes is what the characters ahead are cut into, and then
nothing any more. -/
theorem At.gives (h : s.At behind ahead) :
    ∃ s', s.Gives (Token.itemsFrom s.line (Span.all ahead)) s' ∧ s'.next = some (none, s') := by
  induction s using drain.induct generalizing behind ahead with
  | case1 s hn =>
    obtain ⟨item, s', heq, -⟩ := h.next_eq
    cases hn.symm.trans heq
  | case2 s s' hn =>
    obtain ⟨item, s', heq, -⟩ := h.next_eq
    cases hn.symm.trans heq
  | case3 s item s' hn _ ih =>
    obtain ⟨item', s'', heq, hrest⟩ := h.next_eq
    cases hn.symm.trans heq
    rcases hrest with ⟨hend, hitems⟩ | ⟨behind', ahead', hat, hitems⟩
    · rw [hitems]
      exact ⟨s', .cons hn .nil, next_of_lt hend⟩
    · obtain ⟨s'', hgives, hend⟩ := ih hat
      rw [hitems]
      exact ⟨s'', .cons hn hgives, hend⟩

theorem at_new (source : String) : (new source.toUTF8).At [] source.toList := by
  refine ⟨?_, rfl⟩
  rw [List.nil_append, String.utf8Encode_toList]
  rfl

end Reader

namespace Token

/-- The bytes of a source are read to the end, and as its characters. -/
theorem gives_scan (source : String) : ∃ s, (Reader.new source.toUTF8).Gives (scan source) s ∧
    s.next = some (none, s) ∧ scan source = itemsFrom 1 (Span.all source.toList) := by
  obtain ⟨s, hgives, hend⟩ := (Reader.at_new source).gives
  have hscan : scan source = itemsFrom 1 (Span.all source.toList) := by
    rw [scan, hgives.drain_eq hend]
    rfl
  rw [hscan]
  exact ⟨s, hgives, hend, rfl⟩

theorem scan_eq (source : String) : scan source = itemsFrom 1 (Span.all source.toList) := by
  obtain ⟨-, -, -, h⟩ := gives_scan source
  exact h

end Token

end Lox
