import Lox.Token.Lexical

namespace Lox

/-- A place in the bytes of a source. The lexeme at hand begins at `start`, and `stop` is the place
behind what has been read of it. -/
structure Reader (bytes : ByteArray) where
  start : Nat
  stop : Nat
  line : Nat

namespace Reader

variable {bytes : ByteArray}

def new (bytes : ByteArray) : Reader bytes := ⟨0, 0, 1⟩

def byteAt (bytes : ByteArray) (i : Nat) : Char :=
  if h : i < bytes.size then Char.ofUInt8 bytes[i] else '\x00'

def peek (s : Reader bytes) : Char := byteAt bytes s.stop

def peekNext (s : Reader bytes) : Char := byteAt bytes (s.stop + 1)

def advance (s : Reader bytes) : Reader bytes := { s with stop := s.stop + 1 }

def begin (s : Reader bytes) : Reader bytes := { s with start := s.stop }

def accept? (c : Char) (s : Reader bytes) : Option (Reader bytes) :=
  if s.stop < bytes.size ∧ s.peek = c then some s.advance else none

/-- The text between two places. There is none if they do not lie between characters. -/
def slice? (bytes : ByteArray) (i j : Nat) : Option String :=
  if i ≤ j ∧ j ≤ bytes.size then String.fromUTF8? (bytes.extract i j) else none

def lexeme? (s : Reader bytes) : Option String := slice? bytes s.start s.stop

theorem lt_size_of_byteAt {p : Char → Bool} (hp : p '\x00' = false) {i : Nat} (h : p (byteAt bytes i) = true) :
    i < bytes.size := by
  by_cases hi : i < bytes.size
  · exact hi
  · rw [byteAt, dif_neg hi, hp] at h
    cases h

/-- Goes on as long as the bytes are of a kind. Zero is not, so this ends at the end. -/
def skip (p : Char → Bool) (hp : p '\x00' = false) (s : Reader bytes) : Reader bytes :=
  if p s.peek then skip p hp s.advance else s
  termination_by bytes.size - s.stop
  decreasing_by
    next h =>
    have hlt : s.stop < bytes.size := lt_size_of_byteAt hp h
    show bytes.size - (s.stop + 1) < bytes.size - s.stop
    omega

def lineEnd (bytes : ByteArray) (i : Nat) : Nat :=
  if i < bytes.size ∧ byteAt bytes i ≠ '\n' then lineEnd bytes (i + 1) else i
  termination_by bytes.size - i

def skipString (s : Reader bytes) : Reader bytes :=
  if s.stop < bytes.size ∧ s.peek ≠ '"' then
    skipString { s with stop := s.stop + 1, line := if s.peek = '\n' then s.line + 1 else s.line }
  else s
  termination_by bytes.size - s.stop

def string (s : Reader bytes) : Option (Piece × Reader bytes) :=
  let s := s.skipString
  if bytes.size ≤ s.stop then some (.error .unterminatedString, s)
  else (slice? bytes (s.start + 1) s.stop).map fun text ↦ (.token (.string text), s.advance)

/-- A number, of which a point is part only before a digit. -/
def number (s : Reader bytes) : Option (Piece × Reader bytes) :=
  let s := s.skip Char.isDigit rfl
  let s := if s.peek = '.' ∧ s.peekNext.isDigit then s.advance.skip Char.isDigit rfl else s
  s.lexeme?.map fun text ↦ (.token (.number (Decimal.ofNumeral text).toFloat), s)

def word (s : Reader bytes) : Option (Piece × Reader bytes) :=
  let s := s.skip Lexical.isNamePart rfl
  s.lexeme?.map fun text ↦ (.token (Lexical.wordKind text), s)

def mark (alone extended : Mark) (s : Reader bytes) : Piece × Reader bytes :=
  match s.accept? '=' with
  | some s => (.token (.mark extended), s)
  | none => (.token (.mark alone), s)

def slash (s : Reader bytes) : Piece × Reader bytes :=
  match s.accept? '/' with
  | some s => (.gap, { s with stop := lineEnd bytes s.stop })
  | none => (.token (.mark .slash), s)

/-- The character that begins where the lexeme does, of however many bytes. -/
def unexpected (s : Reader bytes) : Piece × Reader bytes :=
  let c := (bytes.utf8DecodeChar? s.start).getD '�'
  (.error (.unexpected c), { s with stop := s.start + c.utf8Size })

def pieceFrom (c : Char) (s : Reader bytes) : Option (Piece × Reader bytes) :=
  match Lexical.mark? c, Lexical.markPair? c with
  | some m, _ => some (.token (.mark m), s)
  | none, some (alone, extended) => some (s.mark alone extended)
  | none, none =>
    if c = '\n' then some (.gap, { s with line := s.line + 1 })
    else if Lexical.isBlank c then some (.gap, s)
    else if c = '/' then some s.slash
    else if c = '"' then s.string
    else if c.isDigit then s.number
    else if Lexical.isNameStart c then s.word
    else some s.unexpected

def piece (s : Reader bytes) : Option (Piece × Reader bytes) := s.begin.advance.pieceFrom s.peek

section

variable {s s' : Reader bytes} {p : Piece}

theorem skip_le (q : Char → Bool) (hq : q '\x00' = false) (s : Reader bytes) : s.stop ≤ (s.skip q hq).stop := by
  fun_induction skip q hq s with
  | case1 s h ih => exact Nat.le_trans (Nat.le_succ _) ih
  | case2 s h => exact Nat.le_refl _

theorem le_lineEnd (bytes : ByteArray) (i : Nat) : i ≤ lineEnd bytes i := by
  fun_induction lineEnd bytes i with
  | case1 i h ih => exact Nat.le_trans (Nat.le_succ _) ih
  | case2 i h => exact Nat.le_refl _

theorem skipString_le (s : Reader bytes) : s.stop ≤ s.skipString.stop := by
  fun_induction skipString s with
  | case1 s h ih => exact Nat.le_trans (Nat.le_succ _) ih
  | case2 s h => exact Nat.le_refl _

theorem accept?_le {c : Char} (h : s.accept? c = some s') : s.stop ≤ s'.stop := by
  unfold accept? at h
  split at h
  · cases h
    exact Nat.le_succ _
  · cases h

theorem string_le (h : s.string = some (p, s')) : s.stop ≤ s'.stop := by
  have hle := skipString_le s
  unfold string at h
  dsimp only at h
  split at h
  · cases h
    exact hle
  · obtain ⟨text, -, heq⟩ := Option.map_eq_some_iff.1 h
    cases heq
    exact Nat.le_trans hle (Nat.le_succ _)

theorem number_le (h : s.number = some (p, s')) : s.stop ≤ s'.stop := by
  have hle := skip_le Char.isDigit rfl s
  obtain ⟨text, -, heq⟩ := Option.map_eq_some_iff.1 h
  cases heq
  split
  · have hadvance := Nat.le_succ (s.skip Char.isDigit rfl).stop
    exact Nat.le_trans hle (Nat.le_trans hadvance (skip_le Char.isDigit rfl (s.skip Char.isDigit rfl).advance))
  · exact hle

theorem word_le (h : s.word = some (p, s')) : s.stop ≤ s'.stop := by
  obtain ⟨text, -, heq⟩ := Option.map_eq_some_iff.1 h
  cases heq
  exact skip_le Lexical.isNamePart rfl s

theorem mark_le (alone extended : Mark) (s : Reader bytes) : s.stop ≤ (s.mark alone extended).2.stop := by
  unfold mark
  split
  · next h => exact accept?_le h
  · exact Nat.le_refl _

theorem slash_le (s : Reader bytes) : s.stop ≤ s.slash.2.stop := by
  unfold slash
  split
  · next h => exact Nat.le_trans (accept?_le h) (le_lineEnd bytes _)
  · exact Nat.le_refl _

theorem lt_piece (h : s.piece = some (p, s')) : s.stop < s'.stop := by
  have hbegin : s.stop < s.begin.advance.stop := Nat.lt_succ_self _
  unfold piece pieceFrom at h
  split at h
  · cases h
    exact hbegin
  · next alone extended _ _ =>
    have hmark := mark_le alone extended s.begin.advance
    rw [Option.some.inj h] at hmark
    exact Nat.lt_of_lt_of_le hbegin hmark
  · repeat' split at h
    · cases h
      exact hbegin
    · cases h
      exact hbegin
    · have hslash := slash_le s.begin.advance
      rw [Option.some.inj h] at hslash
      exact Nat.lt_of_lt_of_le hbegin hslash
    · exact Nat.lt_of_lt_of_le hbegin (string_le h)
    · exact Nat.lt_of_lt_of_le hbegin (number_le h)
    · exact Nat.lt_of_lt_of_le hbegin (word_le h)
    · cases h
      exact Nat.lt_add_of_pos_right (Char.utf8Size_pos _)

end

end Reader

end Lox
