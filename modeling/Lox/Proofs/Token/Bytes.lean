import Lox.Proofs.Token.Span

namespace Lox

open Lexical

theorem size_utf8Encode_singleton (c : Char) : [c].utf8Encode.size = c.utf8Size := by
  rw [List.utf8Encode_singleton, List.size_toByteArray, String.length_utf8EncodeChar]

theorem utf8EncodeChar_of_lt {c : Char} (hc : c.toNat < 128) :
    String.utf8EncodeChar c = [UInt8.ofNat c.toNat] := by
  have hle : c.val.toNat ≤ 127 := Nat.le_of_lt_succ hc
  unfold String.utf8EncodeChar
  exact if_pos hle

theorem le_of_mem_utf8EncodeChar {c : Char} (hc : 128 ≤ c.toNat) {b : UInt8}
    (hb : b ∈ String.utf8EncodeChar c) : 128 ≤ b.toNat := by
  have hle : ¬c.val.toNat ≤ 127 := Nat.not_le_of_lt hc
  unfold String.utf8EncodeChar at hb
  simp only [if_neg hle] at hb
  split at hb
  · simp only [List.mem_cons, List.not_mem_nil, or_false] at hb
    rcases hb with rfl | rfl <;> rw [UInt8.toNat_ofNat'] <;> omega
  · split at hb
    · simp only [List.mem_cons, List.not_mem_nil, or_false] at hb
      rcases hb with rfl | rfl | rfl <;> rw [UInt8.toNat_ofNat'] <;> omega
    · simp only [List.mem_cons, List.not_mem_nil, or_false] at hb
      rcases hb with rfl | rfl | rfl | rfl <;> rw [UInt8.toNat_ofNat'] <;> omega

theorem ofUInt8_ofNat {c : Char} (hc : c.toNat < 128) : Char.ofUInt8 (UInt8.ofNat c.toNat) = c := by
  apply Char.ext
  apply UInt32.toNat_inj.1
  show (UInt8.ofNat c.toNat).toUInt32.toNat = _
  rw [UInt8.toNat_toUInt32, UInt8.toNat_ofNat']
  exact Nat.mod_eq_of_lt (Nat.lt_trans hc (by decide))

theorem toNat_ofUInt8 (b : UInt8) : (Char.ofUInt8 b).toNat = b.toNat := UInt8.toNat_toUInt32 b

namespace Reader

section

variable (behind : List Char) (c : Char) (ahead : List Char) {j : Nat}

theorem lt_size_of_lt_utf8Size (hj : j < c.utf8Size) :
    behind.utf8Encode.size + j < (behind ++ c :: ahead).utf8Encode.size := by
  rw [List.utf8Encode_append, List.utf8Encode_cons, ByteArray.size_append, ByteArray.size_append,
    size_utf8Encode_singleton]
  omega

theorem byteAt_mem (hj : j < c.utf8Size) : ∃ b ∈ String.utf8EncodeChar c,
    byteAt (behind ++ c :: ahead).utf8Encode (behind.utf8Encode.size + j) = Char.ofUInt8 b := by
  have hj' : j < (String.utf8EncodeChar c).length := by rwa [String.length_utf8EncodeChar]
  refine ⟨(String.utf8EncodeChar c)[j], List.getElem_mem hj', ?_⟩
  rw [byteAt, dif_pos (lt_size_of_lt_utf8Size behind c ahead hj)]
  congr 1
  have hbytes : (behind ++ c :: ahead).utf8Encode =
      behind.utf8Encode ++ ([c].utf8Encode ++ ahead.utf8Encode) := by
    rw [List.utf8Encode_append, List.utf8Encode_cons]
  simp only [hbytes]
  rw [ByteArray.getElem_append_right (by omega), ByteArray.getElem_append_left]
  · simp only [List.utf8Encode_singleton, List.getElem_toByteArray, Nat.add_sub_cancel_left]
  · rw [size_utf8Encode_singleton]
    omega

end

theorem byteAt_of_le {bytes : ByteArray} {i : Nat} (h : bytes.size ≤ i) : byteAt bytes i = '\x00' :=
  dif_neg (Nat.not_lt_of_le h)

variable {bytes : ByteArray}

/-- A reader that stands between two characters of a source. -/
structure At (s : Reader bytes) (behind ahead : List Char) : Prop where
  bytes : bytes = (behind ++ ahead).utf8Encode
  stop : s.stop = behind.utf8Encode.size

noncomputable def past (s : Reader bytes) (cs : List Char) : Reader bytes :=
  ⟨s.start, s.stop + cs.utf8Encode.size, s.line + cs.count '\n'⟩

variable {s : Reader bytes} {behind ahead cs : List Char} {c : Char}

@[simp] theorem past_nil : s.past [] = s := by simp [past]

@[simp] theorem past_append (s : Reader bytes) (cs ds : List Char) : s.past (cs ++ ds) = (s.past cs).past ds := by
  simp [past, Nat.add_assoc]

theorem past_cons (s : Reader bytes) (c : Char) (cs : List Char) : s.past (c :: cs) = (s.past [c]).past cs :=
  past_append s [c] cs

theorem At.past (h : s.At behind (cs ++ ahead)) : (s.past cs).At (behind ++ cs) ahead := by
  refine ⟨?_, ?_⟩
  · rw [h.bytes, List.append_assoc]
  · simp [Reader.past, h.stop]

theorem At.head (h : s.At behind (c :: ahead)) : (s.past [c]).At (behind ++ [c]) ahead :=
  At.past (show s.At behind ([c] ++ ahead) from h)

theorem At.size (h : s.At behind ahead) : bytes.size = s.stop + ahead.utf8Encode.size := by
  rw [h.stop, h.bytes, List.utf8Encode_append, ByteArray.size_append]

theorem At.byteAt_mem (h : s.At behind (c :: ahead)) {j : Nat} (hj : j < c.utf8Size) :
    s.stop + j < bytes.size ∧ ∃ b ∈ String.utf8EncodeChar c, byteAt bytes (s.stop + j) = Char.ofUInt8 b := by
  obtain ⟨rfl, hstop⟩ := h
  rw [hstop]
  exact ⟨lt_size_of_lt_utf8Size behind c ahead hj, Reader.byteAt_mem behind c ahead hj⟩

theorem At.peek_of_lt (h : s.At behind (c :: ahead)) (hc : c.toNat < 128) : s.peek = c := by
  obtain ⟨-, b, hb, heq⟩ := h.byteAt_mem (Char.utf8Size_pos c)
  rw [utf8EncodeChar_of_lt hc, List.mem_singleton] at hb
  rw [hb, ofUInt8_ofNat hc] at heq
  exact heq

theorem At.byteAt_le (h : s.At behind (c :: ahead)) (hc : 128 ≤ c.toNat) {j : Nat} (hj : j < c.utf8Size) :
    128 ≤ (byteAt bytes (s.stop + j)).toNat := by
  obtain ⟨-, b, hb, heq⟩ := h.byteAt_mem hj
  rw [heq, toNat_ofUInt8]
  exact le_of_mem_utf8EncodeChar hc hb

/-- A kind of ASCII characters, to which neither zero, which stands for the end, nor the newline belongs. -/
structure Ascii (p : Char → Bool) : Prop where
  zero : p '\x00' = false
  newline : p '\n' = false
  wide : ∀ c : Char, 128 ≤ c.toNat → p c = false

theorem At.peek_any {p : Char → Bool} (hp : Ascii p) (h : s.At behind ahead) : p s.peek = ahead.head?.any p := by
  cases ahead with
  | nil =>
    have hsize := h.size
    rw [peek, byteAt_of_le (by simp [hsize]), hp.zero]
    rfl
  | cons c ahead =>
    by_cases hc : c.toNat < 128
    · rw [h.peek_of_lt hc]
      rfl
    · have hc : 128 ≤ c.toNat := Nat.le_of_not_lt hc
      have hpeek : p s.peek = false := hp.wide _ (h.byteAt_le hc (Char.utf8Size_pos c))
      rw [hpeek]
      exact (hp.wide c hc).symm

theorem ascii_beq {d : Char} (h0 : '\x00' ≠ d) (hn : '\n' ≠ d) (hd : d.toNat < 128) : Ascii (· == d) := by
  refine ⟨beq_eq_false_iff_ne.2 h0, beq_eq_false_iff_ne.2 hn, fun c hc ↦ beq_eq_false_iff_ne.2 ?_⟩
  rintro rfl
  omega

theorem At.peek_eq_iff {d : Char} (hd : Ascii (· == d)) (h : s.At behind ahead) :
    s.peek = d ↔ ahead.head? = some d := by
  have hany := h.peek_any hd
  rw [← beq_iff_eq, hany]
  cases ahead <;> simp

theorem utf8Size_of_lt {c : Char} (hc : c.toNat < 128) : c.utf8Size = 1 := by
  rw [← String.length_utf8EncodeChar, utf8EncodeChar_of_lt hc]
  rfl

theorem At.byteAt_ne (h : s.At behind (c :: ahead)) {d : Char} (hc : c ≠ d) (hd : d.toNat < 128) {j : Nat}
    (hj : j < c.utf8Size) : byteAt bytes (s.stop + j) ≠ d := by
  by_cases hlt : c.toNat < 128
  · obtain rfl : j = 0 := by
      rw [utf8Size_of_lt hlt] at hj
      omega
    have hpeek : byteAt bytes (s.stop + 0) = c := h.peek_of_lt hlt
    rwa [hpeek]
  · have hle := h.byteAt_le (Nat.le_of_not_lt hlt) hj
    rintro rfl
    omega

theorem count_newline_of_ne {c : Char} (hc : c ≠ '\n') : [c].count '\n' = 0 :=
  List.count_eq_zero.2 (by simpa using hc.symm)

theorem advance_eq_past {c : Char} (hc : c.toNat < 128) (hn : c ≠ '\n') (s : Reader bytes) :
    s.advance = s.past [c] := by
  rw [Reader.past, size_utf8Encode_singleton, utf8Size_of_lt hc, count_newline_of_ne hn]
  rfl

theorem Ascii.advance_eq {p : Char → Bool} (hp : Ascii p) (hc : p c = true) (s : Reader bytes) :
    s.advance = s.past [c] := by
  have hlt : c.toNat < 128 := by
    refine Nat.lt_of_not_le fun hle ↦ ?_
    rw [hp.wide c hle] at hc
    cases hc
  have hnewline : c ≠ '\n' := by
    rintro rfl
    rw [hp.newline] at hc
    cases hc
  exact advance_eq_past hlt hnewline s

theorem At.lt_size (h : s.At behind (c :: ahead)) : s.stop < bytes.size := (h.byteAt_mem (Char.utf8Size_pos c)).1

/-- What is skipped, if it is in ASCII, is skipped as characters. -/
theorem At.skip_eq {p : Char → Bool} (hp : Ascii p) (h : s.At behind ahead) :
    s.skip p hp.zero = s.past (ahead.takeWhile p) := by
  induction ahead generalizing s behind with
  | nil =>
    have hpeek := h.peek_any hp
    rw [skip, hpeek]
    simp
  | cons c ahead ih =>
    have hpeek := h.peek_any hp
    rw [skip, hpeek]
    by_cases hc : p c = true
    · rw [if_pos (by simpa using hc), hp.advance_eq hc, ih h.head, List.takeWhile_cons, if_pos hc]
      exact (past_cons s c _).symm
    · rw [if_neg (by simpa using hc), List.takeWhile_cons, if_neg hc, past_nil]

theorem lineEnd_add {i n : Nat} (h : ∀ j < n, i + j < bytes.size ∧ byteAt bytes (i + j) ≠ '\n') :
    lineEnd bytes i = lineEnd bytes (i + n) := by
  induction n with
  | zero => rfl
  | succ n ih =>
    rw [ih fun j hj ↦ h j (Nat.lt_succ_of_lt hj), lineEnd, if_pos (h n (Nat.lt_succ_self n))]
    rfl

theorem At.lineEnd_eq (h : s.At behind ahead) :
    { s with stop := lineEnd bytes s.stop } = s.past (ahead.takeWhile (· != '\n')) := by
  induction ahead generalizing s behind with
  | nil =>
    have hsize := h.size
    rw [lineEnd, if_neg]
    · simp
    · simp [hsize]
  | cons c ahead ih =>
    by_cases hc : c = '\n'
    · subst hc
      rw [lineEnd, if_neg]
      · simp
      · exact fun hcond ↦ hcond.2 (h.peek_of_lt (by decide))
    · have hbytes : ∀ j < c.utf8Size, s.stop + j < bytes.size ∧ byteAt bytes (s.stop + j) ≠ '\n' :=
        fun j hj ↦ ⟨(h.byteAt_mem hj).1, h.byteAt_ne hc (by decide) hj⟩
      have hstop : s.stop + c.utf8Size = (s.past [c]).stop := by rw [Reader.past, size_utf8Encode_singleton]
      have hline : s.line = (s.past [c]).line := by rw [Reader.past, count_newline_of_ne hc, Nat.add_zero]
      rw [lineEnd_add hbytes, hstop, hline, List.takeWhile_cons, if_pos (by simpa using hc)]
      exact (ih h.head).trans (past_cons s c _).symm

theorem skipString_step (hlt : s.stop < bytes.size) (hquote : s.peek ≠ '"') :
    s.skipString =
      { s with stop := s.stop + 1, line := if s.peek = '\n' then s.line + 1 else s.line }.skipString := by
  rw [skipString, if_pos ⟨hlt, hquote⟩]

theorem skipString_add {n : Nat} (h : ∀ j < n, s.stop + j < bytes.size ∧ byteAt bytes (s.stop + j) ≠ '"')
    (hn : ∀ j < n, byteAt bytes (s.stop + j) ≠ '\n') :
    s.skipString = { s with stop := s.stop + n }.skipString := by
  induction n with
  | zero => rfl
  | succ n ih =>
    have hlast : ({ s with stop := s.stop + n } : Reader bytes).peek ≠ '\n' := hn n (Nat.lt_succ_self n)
    obtain ⟨hlt, hquote⟩ := h n (Nat.lt_succ_self n)
    have hstep := skipString_step (s := { s with stop := s.stop + n }) hlt hquote
    rw [ih (fun j hj ↦ h j (Nat.lt_succ_of_lt hj)) fun j hj ↦ hn j (Nat.lt_succ_of_lt hj),
      hstep, if_neg hlast]
    rfl

theorem At.skipString_cons (h : s.At behind (c :: ahead)) (hc : c ≠ '"') :
    s.skipString = (s.past [c]).skipString := by
  have hbytes : ∀ j < c.utf8Size, s.stop + j < bytes.size ∧ byteAt bytes (s.stop + j) ≠ '"' :=
    fun j hj ↦ ⟨(h.byteAt_mem hj).1, h.byteAt_ne hc (by decide) hj⟩
  by_cases hnewline : c = '\n'
  · subst hnewline
    have hpeek : s.peek = '\n' := h.peek_of_lt (by decide)
    obtain ⟨hlt, hquote⟩ := hbytes 0 (by decide)
    rw [skipString_step hlt hquote, if_pos hpeek, Reader.past, size_utf8Encode_singleton]
    rfl
  · rw [skipString_add hbytes fun j hj ↦ h.byteAt_ne hnewline (by decide) hj, Reader.past,
      count_newline_of_ne hnewline, size_utf8Encode_singleton]
    rfl

theorem At.skipString_eq (h : s.At behind ahead) : s.skipString = s.past (ahead.takeWhile (· != '"')) := by
  induction ahead generalizing s behind with
  | nil =>
    have hsize := h.size
    rw [skipString, if_neg]
    · simp
    · simp [hsize]
  | cons c ahead ih =>
    by_cases hc : c = '"'
    · subst hc
      rw [skipString, if_neg]
      · simp
      · exact fun hcond ↦ hcond.2 (h.peek_of_lt (by decide))
    · rw [h.skipString_cons hc, ih h.head, List.takeWhile_cons, if_pos (by simpa using hc)]
      exact (past_cons s c _).symm

theorem extract_utf8Encode (behind text ahead : List Char) :
    (behind ++ (text ++ ahead)).utf8Encode.extract behind.utf8Encode.size
      (behind.utf8Encode.size + text.utf8Encode.size) = text.utf8Encode := by
  have hmiddle := ByteArray.extract_append_size_add (a := behind.utf8Encode)
    (b := (text ++ ahead).utf8Encode) (i := 0) (j := text.utf8Encode.size)
  rw [Nat.add_zero, ← List.utf8Encode_append, List.utf8Encode_append (l := text),
    ByteArray.extract_append_eq_left rfl] at hmiddle
  exact hmiddle

theorem At.slice?_eq {text : List Char} (h : s.At behind (text ++ ahead)) :
    slice? bytes s.stop (s.past text).stop = some (String.ofList text) := by
  have hle : s.stop ≤ (s.past text).stop ∧ (s.past text).stop ≤ bytes.size := by
    rw [h.size]
    simp [Reader.past]
  have hextract : bytes.extract s.stop (s.past text).stop = text.utf8Encode := by
    obtain ⟨rfl, hstop⟩ := h
    rw [Reader.past, hstop]
    exact extract_utf8Encode behind text ahead
  rw [slice?, if_pos hle, hextract, String.fromUTF8?, dif_pos ByteArray.isValidUTF8_utf8Encode]
  exact congrArg some (String.toByteArray_inj.1 String.toByteArray_ofList.symm)

theorem At.lexeme?_eq {text : List Char} (h : s.At behind (text ++ ahead)) (hs : s.start = s.stop) :
    (s.past text).lexeme? = some (String.ofList text) := by
  have hstart : (s.past text).start = s.stop := hs
  rw [lexeme?, hstart, h.slice?_eq]

theorem At.accept?_eq {d : Char} (hd : Ascii (· == d)) (h : s.At behind ahead) :
    s.accept? d = if ahead.head? = some d then some (s.past [d]) else none := by
  rw [accept?]
  by_cases hhead : ahead.head? = some d
  · obtain ⟨rest, rfl⟩ := List.head?_eq_some_iff.1 hhead
    rw [if_pos hhead, if_pos ⟨h.lt_size, (h.peek_eq_iff hd).2 hhead⟩, hd.advance_eq (beq_self_eq_true d)]
  · rw [if_neg hhead, if_neg fun hc ↦ hhead ((h.peek_eq_iff hd).1 hc.2)]

theorem ascii_isDigit : Ascii Char.isDigit := by
  refine ⟨rfl, rfl, fun c hc ↦ ?_⟩
  have hc : 128 ≤ c.val.toNat := hc
  have hnine : '9'.val.toNat = 57 := rfl
  simp only [Char.isDigit, Bool.and_eq_false_iff, decide_eq_false_iff_not, UInt32.le_iff_toNat_le, ge_iff_le]
  omega

theorem wide_isAlpha {c : Char} (hc : 128 ≤ c.toNat) : c.isAlpha = false := by
  have hc : 128 ≤ c.val.toNat := hc
  have hupper : 'Z'.val.toNat = 90 := rfl
  have hlower : 'z'.val.toNat = 122 := rfl
  delta Char.isAlpha Char.isUpper Char.isLower
  simp only [Bool.or_eq_false_iff, Bool.and_eq_false_iff, decide_eq_false_iff_not, UInt32.le_iff_toNat_le,
    ge_iff_le]
  omega

theorem wide_ne {c d : Char} (hc : 128 ≤ c.toNat) (hd : d.toNat < 128) : c ≠ d := by
  rintro rfl
  omega

theorem wide_isNameStart {c : Char} (hc : 128 ≤ c.toNat) : isNameStart c = false := by
  rw [isNameStart, wide_isAlpha hc, beq_eq_false_iff_ne.2 (wide_ne hc (by decide))]
  rfl

theorem ascii_isNamePart : Ascii isNamePart := by
  refine ⟨rfl, rfl, fun c hc ↦ ?_⟩
  rw [isNamePart, Char.isAlphanum, wide_isAlpha hc, ascii_isDigit.wide c hc,
    beq_eq_false_iff_ne.2 (wide_ne hc (by decide))]
  rfl

end Reader

end Lox
