import Lox.Proofs.Parse.Acceptance
import Lox.Proofs.Token.Word
import Lox.Proofs.Tree.Relabel

namespace Lox

open Lexical

namespace Span

variable {p : Char → Bool} {c : Char} {cs ds : List Char}

theorem takeWhile_append_stop (hc : p c = false) : (cs ++ c :: ds).takeWhile p = cs.takeWhile p := by
  induction cs with
  | nil => simp [hc]
  | cons a cs ih => simp only [List.cons_append, List.takeWhile_cons, ih]

theorem dropWhile_append_stop (hc : p c = false) :
    (cs ++ c :: ds).dropWhile p = cs.dropWhile p ++ c :: ds := by
  induction cs with
  | nil => simp [hc]
  | cons a cs ih =>
    simp only [List.cons_append, List.dropWhile_cons, ih]
    split <;> rfl

theorem takeWhile_append_inside {q : Char} {rest : List Char} (h : cs.dropWhile p = q :: rest)
    (ds : List Char) :
    (cs ++ ds).takeWhile p = cs.takeWhile p ∧ (cs ++ ds).dropWhile p = q :: (rest ++ ds) := by
  induction cs with
  | nil => cases h
  | cons a cs ih =>
    rw [List.dropWhile_cons] at h
    simp only [List.cons_append, List.takeWhile_cons, List.dropWhile_cons]
    split at h
    · next ha =>
      obtain ⟨ht, hd⟩ := ih h
      simp [ha, ht, hd]
    · next ha =>
      cases h
      simp [ha]

def followedBy (s : Span) (cs : List Char) : Span := { s with rest := s.rest ++ cs }

theorem cons_of_append_newline {q : Char} {rest : List Char} (h : cs ++ '\n' :: ds = q :: rest)
    (hq : q ≠ '\n') : ∃ cs', cs = q :: cs' ∧ rest = cs' ++ '\n' :: ds := by
  cases cs with
  | nil =>
    cases h
    exact absurd rfl hq
  | cons c cs =>
    cases h
    exact ⟨cs, rfl, rfl⟩

theorem markOrPair_append (alone extended : Mark) :
    markOrPair c alone extended (cs ++ '\n' :: ds) =
      (markOrPair c alone extended cs).followedBy ('\n' :: ds) := by
  fun_cases markOrPair c alone extended cs with
  | case1 cs => rfl
  | case2 _ h =>
    rw [markOrPair.eq_2 _ _ _ _ fun rest hrest ↦ ?_]
    · rfl
    · obtain ⟨cs', rfl, -⟩ := cons_of_append_newline hrest (by decide)
      exact h cs' rfl

theorem slash_append : slash (cs ++ '\n' :: ds) = (slash cs).followedBy ('\n' :: ds) := by
  fun_cases slash cs with
  | case1 cs =>
    rw [List.cons_append, slash, takeWhile_append_stop (p := (· != '\n')) rfl,
      dropWhile_append_stop (p := (· != '\n')) rfl]
    rfl
  | case2 _ h =>
    rw [slash.eq_2 _ fun rest hrest ↦ ?_]
    · rfl
    · obtain ⟨cs', rfl, -⟩ := cons_of_append_newline hrest (by decide)
      exact h cs' rfl

theorem string_append (h : (string cs).piece ≠ .error .unterminatedString) (ds : List Char) :
    string (cs ++ ds) = (string cs).followedBy ds := by
  unfold string at h ⊢
  cases hd : cs.dropWhile (· != '"') with
  | nil => simp [hd] at h
  | cons q rest =>
    obtain ⟨ht, hd'⟩ := takeWhile_append_inside hd ds
    simp only [ht, hd']
    rfl

theorem fraction_append (whole : List Char) :
    fraction whole (cs ++ '\n' :: ds) = (fraction whole cs).followedBy ('\n' :: ds) := by
  have hstop : '\n'.isDigit = false := rfl
  fun_cases fraction whole cs with
  | case1 d cs hd part =>
    rw [List.cons_append, List.cons_append, fraction, if_pos hd, takeWhile_append_stop hstop,
      dropWhile_append_stop hstop]
    rfl
  | case2 d cs hd =>
    rw [List.cons_append, List.cons_append, fraction, if_neg hd]
    rfl
  | case3 _ h =>
    by_cases hpoint : cs = ['.']
    · subst hpoint
      rfl
    · rw [fraction.eq_2 _ _ fun d rest hrest ↦ ?_]
      · rfl
      · obtain ⟨cs', rfl, hrest⟩ := cons_of_append_newline hrest (by decide)
        cases cs' with
        | nil => exact hpoint rfl
        | cons d' cs' => exact h d' cs' rfl

theorem number_append : number c (cs ++ '\n' :: ds) = (number c cs).followedBy ('\n' :: ds) := by
  have hstop : '\n'.isDigit = false := rfl
  rw [number, takeWhile_append_stop hstop, dropWhile_append_stop hstop, fraction_append]
  rfl

theorem word_append : word c (cs ++ '\n' :: ds) = (word c cs).followedBy ('\n' :: ds) := by
  have hstop : isNamePart '\n' = false := rfl
  rw [word, takeWhile_append_stop hstop, dropWhile_append_stop hstop]
  rfl

/-- A newline ends every stretch but an open string. -/
theorem first_append (h : (first c cs).piece ≠ .error .unterminatedString) :
    first c (cs ++ '\n' :: ds) = (first c cs).followedBy ('\n' :: ds) := by
  unfold first at h ⊢
  split at h
  · rfl
  · exact markOrPair_append _ _
  · split at h
    · next hc => simpa only [if_pos hc] using slash_append
    split at h
    · next hc hq => simpa only [if_neg hc, if_pos hq] using string_append h _
    split at h
    · next hc hq hd => simpa only [if_neg hc, if_neg hq, if_pos hd] using number_append
    split at h
    · next hc hq hd hn => simpa only [if_neg hc, if_neg hq, if_neg hd, if_pos hn] using word_append
    · next hc hq hd hn =>
      simp only [if_neg hc, if_neg hq, if_neg hd, if_neg hn]
      split <;> rfl

theorem first_ne_eof (c : Char) (cs : List Char) : (first c cs).piece ≠ .token .eof := by
  unfold first
  split
  · simp
  · unfold markOrPair
    split <;> simp
  · split
    · unfold slash
      split <;> simp
    split
    · unfold string
      split <;> simp
    split
    · unfold number fraction
      split
      · split <;> simp
      · simp
    split
    · show Piece.token (wordKind _) ≠ .token .eof
      unfold wordKind
      split <;> simp
    split <;> simp

def IsClean (s : Span) : Prop := ∀ cause, s.piece ≠ .error cause

theorem all_newline (ds : List Char) : all ('\n' :: ds) = ⟨.gap, ['\n'], ds⟩ :: all ds := by
  rw [all]
  rfl

/-- A source without an open string is cut in the same way in front of a newline. -/
theorem all_append {cs : List Char} (h : ∀ s ∈ all cs, s.piece ≠ .error .unterminatedString) (ds : List Char) :
    all (cs ++ '\n' :: ds) = (all cs).map (·.followedBy ('\n' :: ds)) ++ all ('\n' :: ds) := by
  induction cs using all.induct with
  | case1 => simp [all]
  | case2 c cs ih =>
    rw [all, List.forall_mem_cons] at h
    rw [List.cons_append, all, first_append h.1, all, List.map_cons, List.cons_append]
    exact congrArg _ (ih h.2)

def newlinesOf : List Span → Nat
  | [] => 0
  | s :: spans => s.newlines + newlinesOf spans

theorem newlinesOf_all (cs : List Char) : newlinesOf (all cs) = cs.count '\n' := by
  induction cs using all.induct with
  | case1 => simp [all, newlinesOf]
  | case2 c cs ih => rw [all, newlinesOf, ih, newlines, ← List.count_append, text_append_rest]

theorem newlinesOf_followedBy (cs : List Char) (spans : List Span) :
    newlinesOf (spans.map (·.followedBy cs)) = newlinesOf spans := by
  induction spans with
  | nil => rfl
  | cons s spans ih =>
    rw [List.map_cons, newlinesOf, newlinesOf, ih]
    rfl

end Span

namespace Token

variable {line : Nat} {spans spans' : List Span}

theorem itemsFrom_followedBy (cs : List Char) :
    itemsFrom line (spans.map (·.followedBy cs)) = itemsFrom line spans := by
  induction spans generalizing line with
  | nil => rfl
  | cons s spans ih =>
    simp only [List.map_cons, itemsFrom, ih]
    rfl

theorem errorsOf_itemsFrom (line : Nat) : errorsOf (itemsFrom line spans) = [] ↔ ∀ s ∈ spans, s.IsClean := by
  induction spans generalizing line with
  | nil => simp [itemsFrom, errorsOf]
  | cons s spans ih =>
    rw [itemsFrom, List.forall_mem_cons, ← ih (line + s.newlines), Span.IsClean]
    cases s.piece <;> simp [errorsOf]

def wordsFrom (line : Nat) (spans : List Span) : List Token :=
  Parse.beforeEof (tokensOf (itemsFrom line spans))

def ofSpan (line : Nat) (s : Span) : List Token :=
  match s.piece with
  | .token kind => [⟨kind, String.ofList s.text, line⟩]
  | _ => []

theorem wordsFrom_cons {s : Span} (hs : s.piece ≠ .token .eof) :
    wordsFrom line (s :: spans) =
      ofSpan (line + s.newlines) s ++ wordsFrom (line + s.newlines) spans := by
  rw [wordsFrom, itemsFrom, ofSpan]
  cases h : s.piece with
  | token kind =>
    have hk : kind.isEof = false := by
      cases kind with
      | eof => exact absurd h hs
      | _ => rfl
    simp [wordsFrom, tokensOf, Parse.beforeEof, hk]
  | gap => rfl
  | error cause => rfl

theorem wordsFrom_append (hs : ∀ s ∈ spans, s.piece ≠ .token .eof) :
    wordsFrom line (spans ++ spans') =
      wordsFrom line spans ++ wordsFrom (line + Span.newlinesOf spans) spans' := by
  induction spans generalizing line with
  | nil => rfl
  | cons s spans ih =>
    rw [List.forall_mem_cons] at hs
    rw [List.cons_append, wordsFrom_cons hs.1, wordsFrom_cons hs.1, ih hs.2, List.append_assoc,
      Span.newlinesOf, ← Nat.add_assoc]

theorem wordsFrom_add (hs : ∀ s ∈ spans, s.piece ≠ .token .eof) (k : Nat) :
    wordsFrom (line + k) spans = (wordsFrom line spans).map (·.relabel (.lines (· + k))) := by
  induction spans generalizing line with
  | nil => rfl
  | cons s spans ih =>
    rw [List.forall_mem_cons] at hs
    have hword : ofSpan (line + s.newlines + k) s =
        (ofSpan (line + s.newlines) s).map (·.relabel (.lines (· + k))) := by
      unfold ofSpan
      cases s.piece <;> rfl
    rw [wordsFrom_cons hs.1, wordsFrom_cons hs.1, Nat.add_right_comm, hword, ih hs.2, List.map_append]

theorem wordsFrom_newline (ds : List Char) :
    wordsFrom line (Span.all ('\n' :: ds)) = wordsFrom (line + 1) (Span.all ds) := by
  rw [Span.all_newline, wordsFrom_cons (s := ⟨.gap, ['\n'], ds⟩) nofun]
  rfl

theorem ne_eof_of_mem_all {s : Span} {cs : List Char} (h : s ∈ Span.all cs) : s.piece ≠ .token .eof := by
  obtain ⟨c, rest, rfl⟩ := Span.mem_all h
  exact Span.first_ne_eof c rest

theorem wordsFrom_all_append {cs : List Char} (h : ∀ s ∈ Span.all cs, s.IsClean) (line : Nat)
    (ds : List Char) : wordsFrom line (Span.all (cs ++ '\n' :: ds)) =
      wordsFrom line (Span.all cs) ++ wordsFrom (line + cs.count '\n' + 1) (Span.all ds) := by
  have hne : ∀ s ∈ (Span.all cs).map (·.followedBy ('\n' :: ds)), s.piece ≠ .token .eof := by
    rintro _ hs
    obtain ⟨s, hm, rfl⟩ := List.mem_map.1 hs
    exact ne_eof_of_mem_all (s := s) hm
  rw [Span.all_append fun s hs ↦ h s hs _, wordsFrom_append hne, Span.newlinesOf_followedBy, Span.newlinesOf_all,
    wordsFrom_newline]
  exact congrArg (· ++ _) (congrArg (Parse.beforeEof ∘ tokensOf) (itemsFrom_followedBy _))

def words (source : String) : List Token := Parse.beforeEof (tokensOf (scan source))

theorem words_eq (source : String) : words source = wordsFrom 1 (Span.all source.toList) := by
  rw [words, scan_eq]
  rfl

theorem errorsOf_scan {source : String} :
    errorsOf (scan source) = [] ↔ ∀ s ∈ Span.all source.toList, s.IsClean := by
  rw [scan_eq]
  exact errorsOf_itemsFrom 1

/-- The lines by which a source moves what is put behind it, from the next line on. -/
def linesOf (source : String) : Nat := source.toList.count '\n' + 1

theorem toList_newline (source source' : String) :
    (source ++ "\n" ++ source').toList = source.toList ++ '\n' :: source'.toList := by simp

/-- A source that ends in a newline is read like the two parts, each by itself. -/
theorem words_newline {source : String} (h : errorsOf (scan source) = []) (source' : String) :
    words (source ++ "\n" ++ source') =
      words source ++ (words source').map (·.relabel (.lines (· + linesOf source))) := by
  have hwords := wordsFrom_all_append (errorsOf_scan.1 h) 1 source'.toList
  rw [← toList_newline, Nat.add_assoc, wordsFrom_add fun _ ↦ ne_eof_of_mem_all] at hwords
  rw [words_eq, words_eq, words_eq]
  exact hwords

theorem errorsOf_newline {source source' : String} (h : errorsOf (scan source) = [])
    (h' : errorsOf (scan source') = []) : errorsOf (scan (source ++ "\n" ++ source')) = [] := by
  have hclean := errorsOf_scan.1 h
  refine errorsOf_scan.2 ?_
  rw [toList_newline, Span.all_append fun s hs ↦ hclean s hs _, Span.all_newline]
  intro s hs
  obtain hs | hs := List.mem_append.1 hs
  · obtain ⟨s, hm, rfl⟩ := List.mem_map.1 hs
    exact hclean s hm
  · obtain rfl | hs := List.mem_cons.1 hs
    · nofun
    · exact errorsOf_scan.1 h' s hs

def blank (k : Nat) : String := String.ofList (List.replicate k '\n')

theorem toList_blank (k : Nat) (source : String) :
    (blank k ++ source).toList = List.replicate k '\n' ++ source.toList := by simp [blank]

theorem words_blank (k : Nat) (source : String) :
    words (blank k ++ source) = (words source).map (·.relabel (.lines (· + k))) := by
  have h : ∀ line, wordsFrom line (Span.all (List.replicate k '\n' ++ source.toList)) =
      wordsFrom (line + k) (Span.all source.toList) := by
    induction k with
    | zero => exact fun _ ↦ rfl
    | succ k ih =>
      intro line
      rw [List.replicate_succ, List.cons_append, wordsFrom_newline, ih, Nat.add_assoc, Nat.add_comm 1]
  have hwords := h 1
  rw [← toList_blank, wordsFrom_add fun _ ↦ ne_eof_of_mem_all] at hwords
  rw [words_eq, words_eq]
  exact hwords

theorem errorsOf_blank {source : String} (h : errorsOf (scan source) = []) (k : Nat) :
    errorsOf (scan (blank k ++ source)) = [] := by
  refine errorsOf_scan.2 ?_
  rw [toList_blank]
  induction k with
  | zero => exact errorsOf_scan.1 h
  | succ k ih =>
    rw [List.replicate_succ, List.cons_append, Span.all_newline, List.forall_mem_cons]
    exact ⟨nofun, ih⟩

end Token

end Lox
