import Lox.Proofs.Token.Lexeme

namespace Lox

theorem Lexeme.ne_nil {text : List Char} {kind : Kind} (h : Lexeme text kind) : text ≠ [] := by
  cases h with
  | mark m => cases m <;> nofun
  | keyword k => cases k <;> nofun
  | identifier | string | whole | decimal => nofun

namespace Span

variable {cs : List Char} {s : Span} {spans : List Span}

theorem WellCut.text_ne_nil (h : s.WellCut) : s.text ≠ [] := by
  obtain ⟨piece, text, rest⟩ := s
  rintro rfl
  cases piece with
  | token kind => exact h.1.ne_nil rfl
  | gap =>
    rcases h with ⟨c, -, ht⟩ | ⟨body, ht, -⟩
    · cases ht
    · cases ht
  | error cause =>
    cases cause with
    | unexpected c => cases h.1
    | unterminatedString =>
      obtain ⟨body, ht, -⟩ := h
      cases ht

/-- Stretches that make up a source without gap or overlap, each cut as the lexical grammar asks. -/
structure Cut (cs : List Char) (spans : List Span) : Prop where
  text : spans.flatMap Span.text = cs
  rest : ∀ before s behind, spans = before ++ s :: behind → s.rest = behind.flatMap Span.text
  wellCut : ∀ s ∈ spans, s.WellCut

namespace Cut

theorem nil : Cut [] [] := ⟨rfl, by simp, by simp⟩

theorem cons (hs : s.WellCut) (h : Cut s.rest spans) : Cut (s.text ++ s.rest) (s :: spans) := by
  refine ⟨?_, fun before s' behind heq ↦ ?_, List.forall_mem_cons.2 ⟨hs, h.wellCut⟩⟩
  · rw [List.flatMap_cons, h.text]
  · cases before with
    | nil =>
      obtain ⟨rfl, rfl⟩ := List.cons.inj heq
      exact h.text.symm
    | cons s₀ before => exact h.rest before s' behind (List.cons.inj heq).2

theorem head (h : Cut cs (s :: spans)) : s.WellCut ∧ s.text ++ s.rest = cs := by
  refine ⟨h.wellCut s (List.mem_cons_self ..), ?_⟩
  rw [h.rest [] s spans rfl, ← h.text, List.flatMap_cons]

theorem tail (h : Cut cs (s :: spans)) : Cut s.rest spans := by
  refine ⟨(h.rest [] s spans rfl).symm, fun before s' behind heq ↦ ?_, ?_⟩
  · exact h.rest (s :: before) s' behind (congrArg _ heq)
  · exact fun s' hs' ↦ h.wellCut s' (List.mem_cons_of_mem _ hs')

theorem all (cs : List Char) : Cut cs (all cs) := by
  induction cs using all.induct with
  | case1 =>
    rw [Span.all]
    exact nil
  | case2 c cs ih =>
    have hcut := cons (wellCut_first c cs) ih
    rw [text_append_rest] at hcut
    rwa [Span.all]

/-- A source can be cut in one way only. -/
theorem eq_all (h : Cut cs spans) : spans = Span.all cs := by
  induction spans generalizing cs with
  | nil =>
    rw [← h.text, List.flatMap_nil, Span.all]
  | cons s spans ih =>
    obtain ⟨hs, hcs⟩ := h.head
    cases cs with
    | nil => exact absurd (List.append_eq_nil_iff.1 hcs).1 hs.text_ne_nil
    | cons c cs =>
      have hfirst := hs.eq_first hcs
      rw [Span.all, hfirst, ← ih h.tail]

end Cut

def item? (s : Span) (line : Nat) : Option Scanned :=
  match s.piece with
  | .token kind => some (.ok ⟨kind, String.ofList s.text, line⟩)
  | .gap => none
  | .error cause => some (.error ⟨cause, line⟩)

def lineAt (spans : List Span) (n : Nat) : Nat := 1 + ((spans.take (n + 1)).flatMap Span.text).count '\n'

end Span

namespace Token

theorem itemsFrom_eq (front spans : List Span) :
    itemsFrom (1 + (front.flatMap Span.text).count '\n') spans =
      (spans.zipIdx front.length).filterMap (fun p ↦ p.1.item? (Span.lineAt (front ++ spans) p.2)) ++
        [.ok ⟨.eof, "", 1 + ((front ++ spans).flatMap Span.text).count '\n'⟩] := by
  induction spans generalizing front with
  | nil => simp [itemsFrom]
  | cons s spans ih =>
    have hline : 1 + (front.flatMap Span.text).count '\n' + s.newlines =
        1 + ((front ++ [s]).flatMap Span.text).count '\n' := by
      simp [Span.newlines, Nat.add_assoc]
    have hat : Span.lineAt (front ++ s :: spans) front.length =
        1 + ((front ++ [s]).flatMap Span.text).count '\n' := by
      have hfront : front.take (front.length + 1) = front := List.take_of_length_le (Nat.le_succ _)
      simp [Span.lineAt, List.take_append, hfront]
    have ih' := ih (front ++ [s])
    rw [List.append_assoc, List.length_append, List.length_singleton] at ih'
    rw [itemsFrom, List.zipIdx_cons, List.filterMap_cons, hat, Span.item?, hline]
    cases s.piece with
    | token kind => simpa using ih'
    | gap => simpa using ih'
    | error cause => simpa using ih'

/-- The bytes of a source are read to the end. The source is the concatenation of its stretches, which can be
cut in one way only: each is the longest token at its place, a blank character, a comment, or an error. The
tokens and errors come out in order, each with the line on which it ends, then one end of the file, and then
nothing any more. -/
theorem scan_partitions (source : String) : ∃ (spans : List Span) (s : Reader source.toUTF8),
    (Reader.new source.toUTF8).Gives (scan source) s ∧ s.next = some (none, s) ∧
    Span.Cut source.toList spans ∧ (∀ spans', Span.Cut source.toList spans' → spans' = spans) ∧
    (∀ s ∈ spans, s.piece ≠ .token .eof) ∧
    scan source = spans.zipIdx.filterMap (fun p ↦ p.1.item? (Span.lineAt spans p.2)) ++
      [.ok ⟨.eof, "", 1 + source.toList.count '\n'⟩] := by
  obtain ⟨s, hgives, hend, hscan⟩ := gives_scan source
  refine ⟨Span.all source.toList, s, hgives, hend, .all _, fun spans' h ↦ h.eq_all,
    fun s hs ↦ ne_eof_of_mem_all hs, ?_⟩
  have hitems := itemsFrom_eq [] (Span.all source.toList)
  rw [List.nil_append, (Span.Cut.all _).text] at hitems
  rwa [hscan]

end Token

end Lox
