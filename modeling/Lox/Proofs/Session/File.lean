import Lox.Proofs.Session.Concatenation
import Lox.Proofs.Session.SourceLines

namespace Lox

open Scope Machine

/-- Lines up to `L` are moved by `g`, and those behind them begin anew after line `k`. -/
def lowered (L : Nat) (g : Nat → Nat) (k l : Nat) : Nat := if l ≤ L then g l else l - (L + 1) + k

theorem lowered_of_le {L l : Nat} (g : Nat → Nat) (k : Nat) (h : l ≤ L) : lowered L g k l = g l := if_pos h

theorem lowered_add (L : Nat) (g : Nat → Nat) (k l : Nat) : lowered L g k (l + (L + 1)) = l + k := by
  unfold lowered
  split <;> omega

/-- Interpreters that differ at most in the lines of the code that they hold. -/
structure Interpreter.SameButLines (i i' : Interpreter) : Prop where
  store : i'.store.relabel (.lines fun _ ↦ 0) = i.store.relabel (.lines fun _ ↦ 0)
  rest : i' = { i with store := i'.store }

def Interpreter.onLines (f : Nat → Nat) (i : Interpreter) : Interpreter :=
  i.vary ⟨.lines f, [], i.distances⟩

theorem Interpreter.sameButLines_onLines (i : Interpreter) (f g : Nat → Nat) :
    (i.onLines f).SameButLines (i.onLines g) := by
  refine ⟨?_, rfl⟩
  show (i.store.relabel (.lines g)).relabel _ = (i.store.relabel (.lines f)).relabel _
  rw [Store.relabel_relabel, Store.relabel_relabel]
  rfl

def Diagnostic.fault? : Diagnostic → Option Fault
  | .fault f => some f
  | _ => none

theorem Diagnostic.eq_of_map_fault? {ds : List Diagnostic} {f : Fault} (h : ds.map fault? = [some f]) :
    ds = [.fault f] := by
  obtain ⟨d, rfl, hd⟩ := List.map_eq_singleton_iff.1 h
  cases d <;> cases hd
  rfl

theorem Diagnostic.exists_fault_of_map {ds : List Diagnostic} {r : Relabeling} {f : Fault}
    (h : ds.map (·.relabel r) = [.fault f]) : ∃ f', ds = [.fault f'] := by
  obtain ⟨d, rfl, hd⟩ := List.map_eq_singleton_iff.1 h
  cases d <;> cases hd
  exact ⟨_, rfl⟩

namespace Session

def onLines (f : Nat → Nat) (s : Session) : Session := { s with interpreter := s.interpreter.onLines f }

@[simp] theorem onLines_id (s : Session) : s.onLines id = s := by
  have hstore : s.interpreter.store.relabel (.lines id) = s.interpreter.store := s.interpreter.store.relabel_refl
  unfold onLines Interpreter.onLines Interpreter.vary
  rw [hstore]

/-- The run of a source, as it goes far behind all code that is known, gives its runs on any lines, and
those of the session with its code on other lines. -/
theorem run_blank {H : List (List Stmt × Distances)} {s : Session} (h : History H s) {source : String}
    (hs : Passes source) {L : Nat} (hL : ∀ l ∈ s.interpreter.store.lines, l ≤ L) (fuel : Nat)
    (g : Nat → Nat) (k : Nat) : (s.onLines g).run fuel (Token.blank k ++ source) =
      (s.run fuel (Token.blank (L + 1) ++ source)).map fun r ↦
        (r.1.map (·.relabel (.lines (lowered L g k))), r.2.onLines (lowered L g k)) := by
  obtain ⟨q, n, hr, he⟩ := hs.read s.nextId
  have hbase := prepare_blank hr he (L + 1)
  obtain ⟨A, ⟨a, ha, hprogram⟩, -, htakes⟩ := prepare_takes h hbase
  have hmoved := prepare_blank (s := s.onLines g) hr he k
  rw [run_of_prepare hbase, run_of_prepare hmoved]
  let D := (resolve q s.interpreter.distances).distances
  let v : Variant := ⟨.lines (lowered L g k), [], D⟩
  have hcode : Stmt.relabelAll (.lines (· + k)) q = Stmt.relabelAll v.labels a.program := by
    have hcomp : lowered L g k ∘ (· + (L + 1)) = (· + k) := funext (lowered_add L g k)
    rw [hprogram, Stmt.relabelAll_relabelAll, ← hcomp]
    rfl
  have hstate : { s.interpreter with distances := D }.vary v =
      { (s.onLines g).interpreter with distances := D } := by
    have hstore : s.interpreter.store.relabel v.labels = s.interpreter.store.relabel (.lines g) :=
      s.interpreter.store.relabel_congr fun l hl ↦ lowered_of_le g k (hL l hl)
    simp only [Interpreter.vary, hstore, onLines, Interpreter.onLines, v]
  rw [← hprogram] at htakes ⊢
  have hallows : ({ s.interpreter with distances := D }.start a.program).Allows v := by
    intro m hm
    have hfits := hm.invariant (Interpreter.start_fits htakes.fits htakes.isHome.1 ha) fun _ _ ↦ step_fits
    exact ⟨hfits.plain, hfits.readsAlike (fun _ ↦ rfl) htakes.fits.distances⟩
  have hrun := Interpreter.interpret_vary hallows rfl fuel
  rw [hstate, ← hcode] at hrun
  dsimp only
  have hdistances : (s.onLines g).interpreter.distances = s.interpreter.distances := rfl
  rw [hdistances, hrun]
  cases hi : Interpreter.interpret fuel a.program { s.interpreter with distances := D } with
  | none => rfl
  | some r =>
    have hD := (Interpreter.interpret_follows htakes.isHome hi).distances
    have hD : r.2.distances = D := hD
    simp only [Option.map_some, onLines, Interpreter.onLines, hD, v]

@[simp] theorem sink_onLines (f : Nat → Nat) (s : Session) :
    (s.onLines f).interpreter.sink = s.interpreter.sink := rfl

theorem blank_zero (source : String) : Token.blank 0 ++ source = source := by simp [Token.blank]

/-- Where the line of a fault comes from when a session runs a source: from code that the session holds,
and then the line moves with that code, or from a token of the source, and then it moves with the empty
lines in front of the source. -/
inductive Origin (s : Session) (source : String) : ((Nat → Nat) → Nat → Nat) → Prop
  | held {l : Nat} (h : l ∈ s.interpreter.store.lines) : Origin s source fun g _ ↦ g l
  | token {t : Token} (h : t ∈ Token.words source) : Origin s source fun _ k ↦ t.line + k

theorem Origin.moves {s : Session} {source : String} {line : (Nat → Nat) → Nat → Nat}
    (h : Origin s source line) (hline : line id 0 ∉ s.interpreter.store.lines) (k : Nat) :
    line id k = line id 0 + k := by
  cases h with
  | held h => exact absurd h hline
  | token h => rfl

theorem Origin.stays {s : Session} {source : String} {line : (Nat → Nat) → Nat → Nat}
    (h : Origin s source line) (hline : ∀ t ∈ Token.words source, t.line ≠ line id 0) (k : Nat) :
    line id k = line id 0 := by
  cases h with
  | held h => rfl
  | token h => exact absurd rfl (hline _ h)

theorem readAll_words_eq {source : String} {n m : Nat} {program : List Stmt}
    (h : readAll source n = (.ok program, m)) {f : Nat → Nat} (hf : ∀ t ∈ Token.words source, f t.line = t.line) :
    Stmt.relabelAll (.lines f) program = program := by
  have hwords : (Token.words source).map (·.relabel (.lines f)) = Token.words source := by
    refine (List.map_congr_left fun t ht ↦ ?_).trans (List.map_id _)
    change { t with line := f t.line } = t
    rw [hf t ht]
  have hd := declarations_lines h f
  rw [hwords] at hd
  have hread := readAll_ok_iff.2 ⟨(readAll_ok_iff.1 h).1, hd⟩
  rw [h] at hread
  exact (Except.ok.inj (congrArg Prod.fst hread)).symm

/-- A fault names a line of code that was held before, or the line of a token of the source. -/
theorem run_fault_line {H : List (List Stmt × Distances)} {s s₁ s' : Session} (h : History H s)
    {source : String} {program : List Stmt} (hp : s.prepare source = (.ok program, s₁)) {fuel : Nat}
    {ds : List Diagnostic} (hr : s.run fuel source = some (ds, s')) {f : Fault} (hf : .fault f ∈ ds) :
    f.line ∈ s.interpreter.store.lines ∨ ∃ t ∈ Token.words source, t.line = f.line := by
  by_cases hheld : f.line ∈ s.interpreter.store.lines
  · exact .inl hheld
  refine .inr (Classical.byContradiction fun htoken ↦ ?_)
  let move (l : Nat) : Nat := if l = f.line then l + 1 else l
  have hmove {l : Nat} (hl : l ≠ f.line) : move l = l := if_neg hl
  obtain ⟨A, ⟨a, ha, rfl⟩, hfits, htakes⟩ := prepare_takes h hp
  obtain ⟨n, hread, -, -⟩ := prepare_ok_iff.1 hp
  obtain ⟨D, hD⟩ := prepare_interpreter hp
  have hprogram : Stmt.relabelAll (.lines move) a.program = a.program :=
    readAll_words_eq hread fun t ht ↦ hmove fun heq ↦ htoken ⟨t, ht, heq⟩
  have hstore : s₁.interpreter.store.relabel (.lines move) = s₁.interpreter.store := by
    rw [hD]
    refine (s.interpreter.store.relabel_congr (g := id) fun l hl ↦ hmove ?_).trans
      s.interpreter.store.relabel_refl
    rintro rfl
    exact hheld hl
  rw [run_of_prepare hp] at hr
  obtain ⟨r, hi, heq⟩ := Option.map_eq_some_iff.1 hr
  cases heq
  have hkept := Interpreter.interpret_lines htakes.fits htakes.isHome.1 ha hprogram hstore hi _ hf f.line rfl
  have hmoved : move f.line = f.line + 1 := if_pos rfl
  omega

/-- The line of a fault of a source far behind all code that is known has an origin in any run on other
lines. -/
theorem origin_of_fault {H : List (List Stmt × Distances)} {s s' : Session} (h : History H s)
    {source : String} (hs : Passes source) {L : Nat} (hL : ∀ l ∈ s.interpreter.store.lines, l ≤ L) {fuel : Nat}
    {ds : List Diagnostic} (hr : s.run fuel (Token.blank (L + 1) ++ source) = some (ds, s')) {f : Fault}
    (hf : .fault f ∈ ds) : Origin s source fun g k ↦ lowered L g k f.line := by
  obtain ⟨q, n, hread, he⟩ := hs.read s.nextId
  rcases run_fault_line h (prepare_blank hread he (L + 1)) hr hf with hheld | ⟨t, ht, hline⟩
  · have heq : (fun g k ↦ lowered L g k f.line) = fun g _ ↦ g f.line := by
      funext g k
      exact lowered_of_le g k (hL _ hheld)
    rw [heq]
    exact .held hheld
  · rw [Token.words_blank] at ht
    obtain ⟨t, hmem, rfl⟩ := List.mem_map.1 ht
    have heq : (fun g k ↦ lowered L g k f.line) = fun _ k ↦ t.line + k := by
      funext g k
      rw [← hline]
      exact lowered_add L g k t.line
    rw [heq]
    exact .token hmem

theorem report_eq {H : List (List Stmt × Distances)} {s s' : Session} (h : History H s)
    (hflush : s.interpreter.sink.flushError = none) {source : String} (hs : Passes source) {fuel : Nat}
    {ds : List Diagnostic} (hr : s.run fuel source = some (ds, s')) :
    (ds = [] ∨ ∃ f, ds = [.fault f]) ∧ s.interpreter.sink.Extends s'.interpreter.sink := by
  obtain ⟨p, n, hread, he⟩ := hs.read s.nextId
  have hp := prepare_eq hread (he _)
  obtain ⟨A, -, -, htakes⟩ := prepare_takes h hp
  rw [run_of_prepare hp] at hr
  obtain ⟨r, hr, heq⟩ := Option.map_eq_some_iff.1 hr
  have hsink := (Interpreter.interpret_follows htakes.isHome hr).sink
  obtain ⟨o, j, -, rfl⟩ := (Interpreter.interpret_iff htakes hflush).1 hr
  cases heq
  refine ⟨?_, hsink⟩
  cases o with
  | none => exact .inl rfl
  | some f => exact .inr ⟨f, rfl⟩

/-- A session agrees with a file. Of two sources without static errors, given one after the other or with
a newline between them: if the first one faults, that is all; otherwise the output of the second follows
that of the first, the second ends in the same way, and the state is the same but for the lines of code. A
fault in code held before the second source keeps its line, and one at a token of the second source moves
down by the lines of the first. One way ends if the other does. -/
theorem History.session_agrees_with_file {H : List (List Stmt × Distances)} {s : Session} (h : History H s)
    (hflush : s.interpreter.sink.flushError = none) {P Q : String} (hP : Passes P) (hQ : Passes Q) :
    (∀ fuel₁ f s₁, s.run fuel₁ P = some ([.fault f], s₁) →
      ∃ fuel s', s.run fuel (P ++ "\n" ++ Q) = some ([.fault f], s') ∧
        s'.interpreter = { s₁.interpreter with distances := s'.interpreter.distances }) ∧
    (∀ fuel₁ s₁ fuel₂ ds₂ s₂, s.run fuel₁ P = some ([], s₁) → s₁.run fuel₂ Q = some (ds₂, s₂) →
      ∃ fuel ds' s', s.run fuel (P ++ "\n" ++ Q) = some (ds', s') ∧
        (∃ out₁ out₂, s₁.interpreter.sink.output = s.interpreter.sink.output ++ out₁ ∧
          s₂.interpreter.sink.output = s₁.interpreter.sink.output ++ out₂ ∧
          s'.interpreter.sink.output = s.interpreter.sink.output ++ (out₁ ++ out₂)) ∧
        s₂.interpreter.SameButLines s'.interpreter ∧
        ((ds₂ = [] ∧ ds' = []) ∨ ∃ cause line, Origin s₁ Q line ∧ ds₂ = [.fault ⟨cause, line id 0⟩] ∧
          ds' = [.fault ⟨cause, line id (Token.linesOf P)⟩] ∧
          ∀ g k, ∃ s₃, (s₁.onLines g).run fuel₂ (Token.blank k ++ Q) =
            some ([.fault ⟨cause, line g k⟩], s₃))) ∧
    (∀ fuel₁ ds₁ s₁, s.run fuel₁ P = some (ds₁, s₁) → ds₁ = [] ∨ ∃ f, ds₁ = [.fault f]) ∧
    ∀ fuel ds' s', s.run fuel (P ++ "\n" ++ Q) = some (ds', s') →
      (∃ fuel₁ f s₁, s.run fuel₁ P = some ([.fault f], s₁)) ∨
        ∃ fuel₁ s₁ fuel₂ r, s.run fuel₁ P = some ([], s₁) ∧ s₁.run fuel₂ Q = some r := by
  obtain ⟨n, D, hiff⟩ := run_newline_iff h hflush hP hQ
  refine ⟨fun fuel₁ f s₁ hr ↦ ?_, fun fuel₁ s₁ fuel₂ ds₂ s₂ hr hr₂ ↦ ?_,
    fun fuel₁ ds₁ s₁ hr ↦ (report_eq h hflush hP hr).1, fun fuel ds' s' hr ↦ ?_⟩
  · obtain ⟨fuel, hrun⟩ := (hiff _ _).2 (.inl ⟨f, s₁, ⟨fuel₁, hr⟩, rfl, rfl⟩)
    exact ⟨fuel, _, hrun, rfl⟩
  · obtain ⟨-, hsink₁⟩ := report_eq h hflush hP hr
    have h₁ := h.run hr
    have hflush₁ := hsink₁.flushError.trans hflush
    obtain ⟨hds, hsink₂⟩ := report_eq h₁ hflush₁ hQ hr₂
    obtain ⟨L, hL⟩ := s₁.interpreter.store.exists_lines_le
    have hblank := run_blank h₁ hQ hL fuel₂
    have hzero := hblank id 0
    rw [onLines_id, blank_zero, hr₂] at hzero
    obtain ⟨⟨ds, t⟩, hbase, heq⟩ := Option.map_eq_some_iff.1 hzero.symm
    have hlines (g : Nat → Nat) (k : Nat) : (s₁.onLines g).run fuel₂ (Token.blank k ++ Q) =
        some (ds.map (·.relabel (.lines (lowered L g k))), t.onLines (lowered L g k)) := by
      rw [hblank, hbase]
      rfl
    have hfile := hlines id (Token.linesOf P)
    rw [onLines_id] at hfile
    obtain ⟨fuel, hrun⟩ := (hiff _ _).2 (.inr ⟨s₁, ⟨fuel₁, hr⟩, fuel₂, hfile⟩)
    obtain ⟨out₁, hout₁⟩ := hsink₁.output
    obtain ⟨out₂, hout₂⟩ := hsink₂.output
    cases heq
    rw [sink_onLines] at hout₂
    refine ⟨fuel, _, _, hrun, ⟨out₁, out₂, hout₁, hout₂, ?_⟩,
      t.interpreter.sameButLines_onLines _ _, ?_⟩
    · rw [← String.append_assoc, ← hout₁, sink_onLines]
      exact hout₂
    · rcases hds with hnil | ⟨f, hfault⟩
      · obtain rfl := List.map_eq_nil_iff.1 hnil
        exact .inl ⟨rfl, rfl⟩
      · obtain ⟨⟨cause, line⟩, rfl⟩ := Diagnostic.exists_fault_of_map hfault
        exact .inr ⟨cause, fun g k ↦ lowered L g k line, origin_of_fault h₁ hQ hL hbase (.head _), rfl, rfl,
          fun g k ↦ ⟨_, hlines g k⟩⟩
  · rcases (hiff ds' s').1 ⟨fuel, hr⟩ with ⟨f, s₁, ⟨fuel₁, hr₁⟩, -, -⟩ | ⟨s₁, ⟨fuel₁, hr₁⟩, fuel₂, hr₂⟩
    · exact .inl ⟨fuel₁, f, s₁, hr₁⟩
    · have h₁ := h.run hr₁
      obtain ⟨L, hL⟩ := s₁.interpreter.store.exists_lines_le
      have hblank := run_blank h₁ hQ hL fuel₂ id
      rw [onLines_id] at hblank
      rw [hblank] at hr₂
      obtain ⟨r, hbase, -⟩ := Option.map_eq_some_iff.1 hr₂
      have hzero := hblank 0
      rw [blank_zero, hbase] at hzero
      exact .inr ⟨fuel₁, s₁, fuel₂, _, hr₁, hzero⟩

def negation : String := "fun f(x) \x7b return -x; \x7d\nprint 1;"

/-- After `negation`, a fault at the second line of a source moves down by two lines, and a fault in the
function that the source calls stays on the first line. -/
theorem undefined_name_agrees : ∃ s₁ s₂ s₃ fuel s' fuel' s'',
    run 40 negation (.new .unbounded .ticking) = some ([], s₁) ∧
    s₁.run 40 "print 2;\nb;" = some ([.fault ⟨.undefinedVariable "b", 2⟩], s₂) ∧
    s₁.run 40 "\nf(nil);" = some ([.fault ⟨.operandNotNumber, 1⟩], s₃) ∧
    run fuel (negation ++ "\n" ++ "print 2;\nb;") (.new .unbounded .ticking) =
      some ([.fault ⟨.undefinedVariable "b", 4⟩], s') ∧ s₂.interpreter.SameButLines s'.interpreter ∧
    run fuel' (negation ++ "\n" ++ "\nf(nil);") (.new .unbounded .ticking) =
      some ([.fault ⟨.operandNotNumber, 1⟩], s'') ∧ s₃.interpreter.SameButLines s''.interpreter := by
  have hreach : (run 40 negation (.new .unbounded .ticking)).any (fun r ↦ r.1.isEmpty &&
      (r.2.interpreter.store.lines.all (· == 1) &&
        ((r.2.run 40 "print 2;\nb;").any (·.1.map Diagnostic.fault? = [some ⟨.undefinedVariable "b", 2⟩]) &&
          (r.2.run 40 "\nf(nil);").any (·.1.map Diagnostic.fault? = [some ⟨.operandNotNumber, 1⟩])))) =
        true := by decide +kernel
  obtain ⟨⟨ds, s₁⟩, hr, hreach⟩ := (Option.any_eq_true _ _).1 hreach
  obtain ⟨hnil, hreach⟩ := Bool.and_eq_true_iff.1 hreach
  obtain ⟨hlines, hreach⟩ := Bool.and_eq_true_iff.1 hreach
  obtain ⟨hreach₂, hreach₃⟩ := Bool.and_eq_true_iff.1 hreach
  obtain ⟨⟨ds₂, s₂⟩, hr₂, hfault₂⟩ := (Option.any_eq_true _ _).1 hreach₂
  obtain ⟨⟨ds₃, s₃⟩, hr₃, hfault₃⟩ := (Option.any_eq_true _ _).1 hreach₃
  obtain rfl : ds = [] := List.isEmpty_iff.1 hnil
  obtain rfl : ds₂ = [.fault ⟨.undefinedVariable "b", 2⟩] :=
    Diagnostic.eq_of_map_fault? (of_decide_eq_true hfault₂)
  obtain rfl : ds₃ = [.fault ⟨.operandNotNumber, 1⟩] := Diagnostic.eq_of_map_fault? (of_decide_eq_true hfault₃)
  have h := History.new .unbounded .ticking 0 .empty
  have hP : Passes negation := by decide +kernel
  obtain ⟨-, hmoves, -⟩ := h.session_agrees_with_file rfl hP (show Passes "print 2;\nb;" by decide +kernel)
  obtain ⟨fuel, ds', s', hrun, -, hsame, hends⟩ := hmoves 40 s₁ 40 _ _ hr hr₂
  obtain ⟨cause, line, horigin, hbefore, rfl, -⟩ := hends.resolve_left fun hnil ↦ by cases hnil.1
  obtain ⟨rfl, hline⟩ := Fault.mk.inj (Diagnostic.fault.inj (List.singleton_inj.1 hbefore))
  have hmoved : line id (Token.linesOf negation) = 4 := by
    have hnew : line id 0 ∉ s₁.interpreter.store.lines := by
      intro hmem
      have hone := beq_iff_eq.1 (List.all_eq_true.1 hlines _ hmem)
      omega
    rw [horigin.moves hnew, ← hline]
    rfl
  obtain ⟨-, hstays, -⟩ := h.session_agrees_with_file rfl hP (show Passes "\nf(nil);" by decide +kernel)
  obtain ⟨fuel', ds'', s'', hrun', -, hsame', hends'⟩ := hstays 40 s₁ 40 _ _ hr hr₃
  obtain ⟨cause', line', horigin', hbefore', rfl, -⟩ := hends'.resolve_left fun hnil ↦ by cases hnil.1
  obtain ⟨rfl, hline'⟩ := Fault.mk.inj (Diagnostic.fault.inj (List.singleton_inj.1 hbefore'))
  have hstayed : line' id (Token.linesOf negation) = 1 := by
    have hwords : ∀ t ∈ Token.words "\nf(nil);", t.line ≠ line' id 0 := by
      rw [← hline']
      decide +kernel
    rw [horigin'.stays hwords, ← hline']
  rw [hmoved] at hrun
  rw [hstayed] at hrun'
  exact ⟨s₁, s₂, s₃, fuel, s', fuel', s'', hr, hr₂, hr₃, hrun, hsame, hrun', hsame'⟩

end Session

end Lox
