import Lox.Token.Reader

namespace Lox

structure LexError where
  cause : LexCause
  line : Nat

namespace LexError

def message (e : LexError) : String :=
  match e.cause with
  | .unexpected c => "Unexpected character: " ++ String.singleton c
  | .unterminatedString => "Unterminated string."

end LexError

abbrev Scanned := Except LexError Token

namespace Reader

variable {bytes : ByteArray}

/-- The next token or error, and the reader behind it. There is an end-of-file token at the end, and
nothing behind it. -/
def next (s : Reader bytes) : Option (Option Scanned × Reader bytes) :=
  if bytes.size < s.stop then some (none, s)
  else if s.stop = bytes.size then some (some (.ok ⟨.eof, "", s.line⟩), s.advance)
  else
    match h : s.piece with
    | none => none
    | some (.gap, s') =>
      have := lt_piece h
      s'.next
    | some (.error cause, s') => some (some (.error ⟨cause, s'.line⟩), s')
    | some (.token kind, s') => s'.lexeme?.map fun text ↦ (some (.ok ⟨kind, text, s'.line⟩), s')
  termination_by bytes.size - s.stop

theorem lt_next {s s' : Reader bytes} {item : Scanned} (h : s.next = some (some item, s')) :
    s.stop ≤ bytes.size ∧ s.stop < s'.stop := by
  fun_induction next s with
  | case1 s hs => cases h
  | case2 s hs heq =>
    cases h
    exact ⟨Nat.le_of_not_lt hs, Nat.lt_succ_self _⟩
  | case3 s hs heq hp => cases h
  | case4 s hs heq s₁ hp _ ih =>
    exact ⟨Nat.le_of_not_lt hs, Nat.lt_trans (lt_piece hp) (ih h).2⟩
  | case5 s hs heq cause s₁ hp =>
    cases h
    exact ⟨Nat.le_of_not_lt hs, lt_piece hp⟩
  | case6 s hs heq kind s₁ hp =>
    obtain ⟨text, -, heq⟩ := Option.map_eq_some_iff.1 h
    cases heq
    exact ⟨Nat.le_of_not_lt hs, lt_piece hp⟩

def drain (s : Reader bytes) : Option (List Scanned) :=
  match h : s.next with
  | none => none
  | some (none, _) => some []
  | some (some item, s') =>
    have := lt_next h
    s'.drain.map (item :: ·)
  termination_by bytes.size + 1 - s.stop

end Reader

namespace Token

/-- The tokens and errors of a source, of which the last is an end-of-file token. -/
def scan (source : String) : List Scanned := (Reader.new source.toUTF8).drain.getD []

def tokensOf (items : List Scanned) : List Token :=
  items.filterMap fun
    | .ok t => some t
    | .error _ => none

def errorsOf (items : List Scanned) : List LexError :=
  items.filterMap fun
    | .ok _ => none
    | .error e => some e

end Token

end Lox
