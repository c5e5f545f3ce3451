import Lox.Token.Scan

namespace Lox

open Lexical

/-- The first stretch of a source, and the source behind it. -/
structure Span where
  piece : Piece
  text : List Char
  rest : List Char

namespace Span

def markOrPair (c : Char) (alone extended : Mark) : List Char → Span
  | '=' :: cs => ⟨.token (.mark extended), [c, '='], cs⟩
  | cs => ⟨.token (.mark alone), [c], cs⟩

/-- A slash, or a comment up to the end of the line. -/
def slash : List Char → Span
  | '/' :: cs => ⟨.gap, '/' :: '/' :: cs.takeWhile (· != '\n'), cs.dropWhile (· != '\n')⟩
  | cs => ⟨.token (.mark .slash), ['/'], cs⟩

/-- A string, from behind its opening quote. It ends at the next quote, on whatever line. -/
def string (cs : List Char) : Span :=
  let body := cs.takeWhile (· != '"')
  match cs.dropWhile (· != '"') with
  | [] => ⟨.error .unterminatedString, '"' :: body, []⟩
  | q :: rest => ⟨.token (.string (String.ofList body)), '"' :: body ++ [q], rest⟩

/-- A number whose digits before the point are known; a point counts only before a digit. -/
def fraction (whole : List Char) : List Char → Span
  | '.' :: d :: cs =>
    if d.isDigit then
      let part := d :: cs.takeWhile Char.isDigit
      ⟨.token (.number (Decimal.ofDigits whole part).toFloat), whole ++ '.' :: part,
        cs.dropWhile Char.isDigit⟩
    else ⟨.token (.number (Decimal.ofDigits whole []).toFloat), whole, '.' :: d :: cs⟩
  | cs => ⟨.token (.number (Decimal.ofDigits whole []).toFloat), whole, cs⟩

def number (c : Char) (cs : List Char) : Span :=
  fraction (c :: cs.takeWhile Char.isDigit) (cs.dropWhile Char.isDigit)

def word (c : Char) (cs : List Char) : Span :=
  let text := c :: cs.takeWhile isNamePart
  ⟨.token (wordKind (String.ofList text)), text, cs.dropWhile isNamePart⟩

/-- The stretch that begins with `c`; the longest one wherever several are possible. -/
def first (c : Char) (cs : List Char) : Span :=
  match mark? c, markPair? c with
  | some m, _ => ⟨.token (.mark m), [c], cs⟩
  | none, some (alone, extended) => markOrPair c alone extended cs
  | none, none =>
    if c = '/' then slash cs
    else if c = '"' then string cs
    else if c.isDigit then number c cs
    else if isNameStart c then word c cs
    else if isBlank c then ⟨.gap, [c], cs⟩
    else ⟨.error (.unexpected c), [c], cs⟩

def newlines (s : Span) : Nat := s.text.count '\n'

theorem length_dropWhile_le (p : Char → Bool) (cs : List Char) :
    (cs.dropWhile p).length ≤ cs.length := (List.dropWhile_sublist p).length_le

theorem length_rest_fraction (whole cs : List Char) : (fraction whole cs).rest.length ≤ cs.length := by
  fun_cases fraction with
  | case1 d cs _ =>
    have := length_dropWhile_le Char.isDigit cs
    simp only [List.length_cons]
    omega
  | case2 => exact Nat.le_refl _
  | case3 => exact Nat.le_refl _

theorem length_rest_string (cs : List Char) : (string cs).rest.length ≤ cs.length := by
  have h := length_dropWhile_le (· != '"') cs
  unfold string
  split <;> rename_i h' <;> rw [h'] at h
  · exact Nat.zero_le _
  · exact Nat.le_of_succ_le h

theorem length_rest_first (c : Char) (cs : List Char) : (first c cs).rest.length ≤ cs.length := by
  unfold first
  split
  · exact Nat.le_refl _
  · unfold markOrPair
    split
    · exact Nat.le_succ _
    · exact Nat.le_refl _
  · split
    · unfold slash
      split
      · exact Nat.le_succ_of_le (length_dropWhile_le _ _)
      · exact Nat.le_refl _
    split
    · exact length_rest_string cs
    split
    · exact Nat.le_trans (length_rest_fraction _ _) (length_dropWhile_le _ _)
    split
    · exact length_dropWhile_le _ _
    split <;> exact Nat.le_refl _

/-- A source, cut into its stretches. -/
def all : List Char → List Span
  | [] => []
  | c :: cs => first c cs :: all (first c cs).rest
  termination_by cs => cs.length
  decreasing_by exact Nat.lt_succ_of_le (length_rest_first c cs)

theorem text_append_rest_fraction (whole cs : List Char) :
    (fraction whole cs).text ++ (fraction whole cs).rest = whole ++ cs := by
  fun_cases fraction whole cs with
  | case1 d cs _ part =>
    simp only [part, List.append_assoc, List.cons_append, List.takeWhile_append_dropWhile]
  | case2 => rfl
  | case3 => rfl

theorem text_append_rest_string (cs : List Char) :
    (string cs).text ++ (string cs).rest = '"' :: cs := by
  have h := List.takeWhile_append_dropWhile (p := (· != '"')) (l := cs)
  unfold string
  split
  · next hd =>
    rw [hd] at h
    simp only [List.cons_append, h]
  · next q rest hd =>
    rw [hd] at h
    simp only [List.cons_append, List.append_assoc, List.nil_append, h]

/-- Stretches leave nothing out. -/
theorem text_append_rest (c : Char) (cs : List Char) :
    (first c cs).text ++ (first c cs).rest = c :: cs := by
  unfold first
  split
  · rfl
  · unfold markOrPair
    split <;> rfl
  · split
    · next hc =>
      subst hc
      unfold slash
      split
      · simp only [List.cons_append, List.takeWhile_append_dropWhile]
      · rfl
    split
    · next hq =>
      subst hq
      exact text_append_rest_string cs
    split
    · rw [number, text_append_rest_fraction, List.cons_append, List.takeWhile_append_dropWhile]
    split
    · simp only [word, List.cons_append, List.takeWhile_append_dropWhile]
    split <;> rfl

end Span

/-- The tokens and errors among stretches of source that begin on the given line, ended by one
end-of-file token. -/
def Token.itemsFrom (line : Nat) : List Span → List Scanned
  | [] => [.ok ⟨.eof, "", line⟩]
  | s :: rest =>
    let line := line + s.newlines
    match s.piece with
    | .token kind => .ok ⟨kind, String.ofList s.text, line⟩ :: itemsFrom line rest
    | .gap => itemsFrom line rest
    | .error cause => .error ⟨cause, line⟩ :: itemsFrom line rest

end Lox
