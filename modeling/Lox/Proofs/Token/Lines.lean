import Lox.Proofs.Token.Newline

namespace Lox.Token

variable {line : Nat} {spans : List Span} {item : Scanned}

def lineOf : Scanned → Nat
  | .ok t => t.line
  | .error e => e.line

def moveDown (k : Nat) : Scanned → Scanned
  | .ok t => .ok { t with line := t.line + k }
  | .error e => .error { e with line := e.line + k }

theorem mem_errorsOf {e : LexError} {items : List Scanned} : e ∈ errorsOf items ↔ .error e ∈ items := by
  unfold errorsOf
  rw [List.mem_filterMap]
  constructor
  · rintro ⟨item, hi, he⟩
    cases item with
    | ok t => cases he
    | error e' => cases he; exact hi
  · exact fun h ↦ ⟨_, h, rfl⟩

theorem lineOf_mem_itemsFrom (h : item ∈ itemsFrom line spans) :
    line ≤ lineOf item ∧ lineOf item ≤ line + Span.newlinesOf spans := by
  induction spans generalizing line with
  | nil =>
    cases List.mem_singleton.1 h
    exact ⟨Nat.le_refl line, Nat.le_refl line⟩
  | cons s spans ih =>
    have hrest (hmem : item ∈ itemsFrom (line + s.newlines) spans) :
        line ≤ lineOf item ∧ lineOf item ≤ line + (s.newlines + Span.newlinesOf spans) := by
      obtain ⟨hle, hge⟩ := ih hmem
      omega
    have hhere : line ≤ line + s.newlines ∧ line + s.newlines ≤ line + (s.newlines + Span.newlinesOf spans) := by
      omega
    rw [itemsFrom] at h
    cases hp : s.piece with
    | gap =>
      rw [hp] at h
      exact hrest h
    | token kind | error cause =>
      rw [hp] at h
      rcases List.mem_cons.1 h with rfl | hmem
      · exact hhere
      · exact hrest hmem

theorem lineOf_mem_scan {source : String} (h : item ∈ scan source) :
    1 ≤ lineOf item ∧ lineOf item ≤ linesOf source := by
  rw [scan_eq] at h
  obtain ⟨hle, hge⟩ := lineOf_mem_itemsFrom h
  rw [Span.newlinesOf_all, Nat.add_comm] at hge
  exact ⟨hle, hge⟩

theorem itemsFrom_add (k : Nat) : itemsFrom (line + k) spans = (itemsFrom line spans).map (moveDown k) := by
  induction spans generalizing line with
  | nil => rfl
  | cons s spans ih =>
    simp only [itemsFrom, Nat.add_right_comm line k]
    cases s.piece <;> simp only [List.map_cons, ih, moveDown]

theorem itemsFrom_ne_nil (line : Nat) (spans : List Span) : itemsFrom line spans ≠ [] := by
  induction spans generalizing line with
  | nil => simp [itemsFrom]
  | cons s spans ih =>
    rw [itemsFrom]
    cases s.piece with
    | gap => exact ih (line + s.newlines)
    | token kind | error cause => simp

theorem itemsFrom_append (line : Nat) (spans spans' : List Span) :
    itemsFrom line (spans ++ spans') =
      (itemsFrom line spans).dropLast ++ itemsFrom (line + Span.newlinesOf spans) spans' := by
  induction spans generalizing line with
  | nil => rfl
  | cons s spans ih =>
    have hne := itemsFrom_ne_nil (line + s.newlines) spans
    rw [List.cons_append, itemsFrom, itemsFrom, Span.newlinesOf, ← Nat.add_assoc, ih]
    cases s.piece with
    | gap => rfl
    | token kind | error cause => simp only [List.dropLast_cons_of_ne_nil hne, List.cons_append]

theorem getLast?_scan (source : String) : (scan source).getLast? = some (.ok ⟨.eof, "", linesOf source⟩) := by
  have h := itemsFrom_append 1 (Span.all source.toList) []
  rw [List.append_nil, Span.newlinesOf_all, Nat.add_comm] at h
  rw [scan_eq, h, itemsFrom, List.getLast?_concat]
  rfl

theorem mem_errorsOf_itemsFrom (line : Nat) {s : Span} {cause : LexCause} (hs : s ∈ spans)
    (hp : s.piece = .error cause) : ∃ e ∈ errorsOf (itemsFrom line spans), e.cause = cause := by
  induction spans generalizing line with
  | nil => cases hs
  | cons s' spans ih =>
    rw [itemsFrom]
    rcases List.mem_cons.1 hs with rfl | hs
    · rw [hp]
      exact ⟨⟨cause, line + s.newlines⟩, List.mem_cons_self .., rfl⟩
    · obtain ⟨e, he, hcause⟩ := ih (line + s'.newlines) hs
      refine ⟨e, ?_, hcause⟩
      cases s'.piece with
      | token kind | gap => exact he
      | error cause' => exact List.mem_cons_of_mem _ he

/-- A source without an open string, errors or not, gives the same items in front of a newline, and what stands behind
gives its own, as many lines further down as the source has. -/
theorem scan_newline {source : String} (h : ∀ e ∈ errorsOf (scan source), e.cause ≠ .unterminatedString)
    (source' : String) :
    (scan source).getLast? = some (.ok ⟨.eof, "", linesOf source⟩) ∧
      scan (source ++ "\n" ++ source') =
        (scan source).dropLast ++ (scan source').map (moveDown (linesOf source)) := by
  have hclosed : ∀ s ∈ Span.all source.toList, s.piece ≠ .error .unterminatedString := by
    intro s hs hp
    obtain ⟨e, he, hcause⟩ := mem_errorsOf_itemsFrom 1 hs hp
    rw [← scan_eq] at he
    exact h e he hcause
  refine ⟨getLast?_scan source, ?_⟩
  calc
    scan (source ++ "\n" ++ source') =
        itemsFrom 1 ((Span.all source.toList).map (·.followedBy ('\n' :: source'.toList)) ++
          Span.all ('\n' :: source'.toList)) := by
      rw [scan_eq, toList_newline, Span.all_append hclosed]
    _ = (scan source).dropLast ++
          itemsFrom (1 + source.toList.count '\n') (Span.all ('\n' :: source'.toList)) := by
      rw [itemsFrom_append, itemsFrom_followedBy, Span.newlinesOf_followedBy, Span.newlinesOf_all, scan_eq]
    _ = (scan source).dropLast ++ itemsFrom (1 + linesOf source) (Span.all source'.toList) := by
      rw [Span.all_newline]
      rfl
    _ = (scan source).dropLast ++ (scan source').map (moveDown (linesOf source)) := by
      rw [itemsFrom_add, scan_eq, scan_eq]

theorem scan_newline_marks :
    (errorsOf (scan "\"a\nb\" @ !")).map LexError.cause = [.unexpected '@'] ∧
      (scan "\"a\nb\" @ !").getLast?.map lineOf = some 2 ∧
      scan ("\"a\nb\" @ !" ++ "\n" ++ "= y") =
        (scan "\"a\nb\" @ !").dropLast ++ (scan "= y").map (moveDown 2) := by
  have hclosed : ∀ e ∈ errorsOf (scan "\"a\nb\" @ !"), e.cause ≠ .unterminatedString := by decide +kernel
  obtain ⟨hlast, hscan⟩ := scan_newline hclosed "= y"
  have hlines : linesOf "\"a\nb\" @ !" = 2 := by decide +kernel
  rw [hlines] at hlast hscan
  exact ⟨by decide +kernel, by rw [hlast]; rfl, hscan⟩

end Lox.Token
