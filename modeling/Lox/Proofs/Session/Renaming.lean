import Lox.Proofs.Machine.VariantRun
import Lox.Proofs.Parse.Relabel
import Lox.Proofs.Scope.Relabel
import Lox.Proofs.Session.Restored

namespace Lox

open Scope Machine

theorem Token.exists_eof (line : Nat) (spans : List Span) :
    ∃ t ∈ tokensOf (itemsFrom line spans), t.kind.isEof = true := by
  induction spans generalizing line with
  | nil => exact ⟨⟨.eof, "", line⟩, .head _, rfl⟩
  | cons s spans ih =>
    obtain ⟨t, ht, heof⟩ := ih (line + s.newlines)
    refine ⟨t, ?_, heof⟩
    rw [itemsFrom]
    cases s.piece with
    | token kind => exact .tail _ ht
    | gap | error => exact ht

theorem Token.exists_eof_scan (source : String) : ∃ t ∈ tokensOf (scan source), t.kind.isEof = true := by
  rw [scan_eq]
  exact exists_eof 1 _

namespace Session

theorem readAll_add (source : String) (n k : Nat) :
    readAll source (n + k) = ((readAll source n).1.map (Stmt.relabelAll (.ids (· + k))),
      (readAll source n).2 + k) := by
  have hcounts : (Relabeling.ids (· + k)).Counts := fun n ↦ Nat.add_right_comm n 1 k
  have htokens (ts : List Token) : ts.map (·.relabel (.ids (· + k))) = ts := List.map_id' ts
  have herrors (es : List SyntaxError) : es.map (·.relabel (.ids (· + k))) = es := List.map_id' es
  have hparse := Parse.parse_relabel hcounts (Token.exists_eof_scan source) n
  have hparse : Parse.parse (Token.tokensOf (Token.scan source)) (n + k) =
      (Parse.parse (Token.tokensOf (Token.scan source)) n).relabel (.ids (· + k)) := by
    rwa [htokens] at hparse
  unfold readAll
  simp only [hparse]
  cases Parse.parse (Token.tokensOf (Token.scan source)) n with
  | mk outcome m =>
    cases outcome with
    | error es =>
      simp only [Parse.Result.relabel, herrors]
      rfl
    | ok program =>
      simp only [Parse.Result.relabel]
      split <;> rfl

end Session

namespace Store

/-- Code that a relabeling does not move: none in lines up to `L` and ids below `n`. -/
def Keeps (σ : Store) (L n : Nat) : Prop :=
  ∀ r : Relabeling, (∀ l ≤ L, r.line l = l) → (∀ id < n, r.id id = id) → σ.relabel r = σ

theorem Keeps.mono {σ : Store} {L L' n n' : Nat} (h : σ.Keeps L n) (hL : L ≤ L') (hn : n ≤ n') :
    σ.Keeps L' n' :=
  fun r hl hi ↦ h r (fun l hle ↦ hl l (Nat.le_trans hle hL)) fun id hlt ↦ hi id (Nat.lt_of_lt_of_le hlt hn)

end Store

theorem Interpreter.new_relabel (sink : Sink) (clock : Clock) (r : Relabeling) :
    (Interpreter.new sink clock).store.relabel r = (Interpreter.new sink clock).store := by
  have hempty : Store.empty.relabel r = .empty := by simp [Store.relabel, Store.empty]
  simp [Interpreter.new, Interpreter.defineNative, Value.relabel, Callable.relabel, hempty]

theorem Interpreter.new_keeps (sink : Sink) (clock : Clock) (n : Nat) :
    (Interpreter.new sink clock).store.Keeps 0 n := fun r _ _ ↦ new_relabel sink clock r

namespace Interpreter

variable {A : List Accepted} {i i' : Interpreter}

/-- Code that a relabeling leaves as it is stays so along the run of a program. -/
theorem vary_eq_of_start (hi : i.Fits A) (henv : i.env = i.globalEnv) {a : Accepted} (ha : a ∈ A)
    {r : Relabeling} (hprogram : Stmt.relabelAll r a.program = a.program)
    (hstore : i.store.relabel r = i.store) {m : Machine} (hs : Steps (i.start a.program) m) :
    m.vary ⟨r, [], i.distances⟩ = m := by
  have hstart : (i.start a.program).vary ⟨r, [], i.distances⟩ = i.start a.program := by
    simp [Interpreter.start, Machine.vary, Interpreter.vary, Stack.vary, Frame.vary, Control.relabel,
      Flow.relabel, hprogram, hstore]
  have hplain : ∀ m', Steps (i.start a.program) m' → m'.Plain := by
    intro m' hs
    exact (hs.invariant (start_fits hi henv ha) fun _ _ ↦ step_fits).plain
  exact vary_eq_of_steps hplain rfl hstart hs

theorem interpret_keeps (hi : i.Fits A) (henv : i.env = i.globalEnv) {a : Accepted} (ha : a ∈ A)
    {L n : Nat} (hk : i.store.Keeps L n) (hl : ∀ l ∈ Stmt.linesOf a.program, l ≤ L)
    (hn : ∀ ref ∈ Stmt.refsOf a.program, ref.id < n) {fuel : Nat} {ds : List Diagnostic}
    (h : i.interpret fuel a.program = some (ds, i')) : i'.store.Keeps L n := by
  intro r hline hid
  obtain ⟨m, hrun, hm⟩ := Option.bind_eq_some_iff.1 h
  obtain ⟨hsteps, -⟩ := steps_of_run hrun
  have hprogram : Stmt.relabelAll r a.program = a.program :=
    Stmt.relabelAll_eq_self (fun l hmem ↦ hline l (hl l hmem)) fun ref hmem ↦ hid _ (hn ref hmem)
  have hend := vary_eq_of_start hi henv ha hprogram (hk r hline hid) hsteps
  have hstore : m.state.store.relabel r = m.state.store := congrArg (·.state.store) hend
  rcases conclude_state hm with rfl | rfl
  · exact hstore
  · exact hstore

end Interpreter

/-- What holds of a session besides, as to the code in its store and the ids in its table. -/
structure Session.Closed (L : Nat) (s : Session) : Prop where
  isHome : s.interpreter.IsHome
  store : s.interpreter.store.Keeps L s.nextId
  distances : ∀ id, s.nextId ≤ id → s.interpreter.distances.find? id = none

namespace Session

theorem prepare_table {s s' : Session} {source : String} {r : Except (List Diagnostic) (List Stmt)}
    (h : s.prepare source = (r, s')) : s.nextId ≤ s'.nextId ∧ s'.programs = s.programs ∧
      ∀ id, id < s.nextId ∨ s'.nextId ≤ id →
        s'.interpreter.distances.find? id = s.interpreter.distances.find? id := by
  have hle := le_readAll source s.nextId
  unfold prepare at h
  split at h
  · next ds n hr =>
    cases h
    rw [hr] at hle
    exact ⟨hle, rfl, fun _ _ ↦ rfl⟩
  · next program n hr =>
    cases h
    rw [hr] at hle
    have hnumbered := (readAll_yields hr).1
    refine ⟨hle, rfl, ?_⟩
    intro id hid
    refine (effect_stmts topLevel program ⟨[], #[], s.interpreter.distances⟩).distances id ?_
    intro ref hmem heq
    have hwithin := hnumbered.within ref hmem
    have hid : id < s.nextId ∨ n ≤ id := hid
    omega

theorem prepare_closed {s s' : Session} {L : Nat} (h : s.Closed L) {source : String}
    {r : Except (List Diagnostic) (List Stmt)} (hp : s.prepare source = (r, s')) : s'.Closed L := by
  obtain ⟨hle, -, htable⟩ := prepare_table hp
  obtain ⟨D, hD⟩ := prepare_interpreter hp
  refine ⟨?_, ?_, ?_⟩
  · rw [hD]
    exact h.isHome
  · rw [hD]
    exact h.store.mono (Nat.le_refl L) hle
  · intro id hid
    rw [htable id (.inr hid)]
    exact h.distances id (Nat.le_trans hle hid)

/-- Every session that comes about by runs has code of bounded lines with ids that were given out. -/
theorem History.closed {H : List (List Stmt × Distances)} {s : Session} (h : History H s) :
    ∃ L, s.Closed L := by
  induction h with
  | new sink clock n programs =>
    exact ⟨0, ⟨rfl, rfl⟩, Interpreter.new_keeps sink clock n, fun _ _ ↦ rfl⟩
  | @run H s s' fuel source ds h hr ih =>
    obtain ⟨L, hclosed⟩ := ih
    obtain ⟨A, -, hfits⟩ := h.fits
    unfold Session.run at hr
    split at hr
    · next hp =>
      cases hr
      exact ⟨L, prepare_closed hclosed hp⟩
    · next program s₁ hp =>
      have hclosed₁ := prepare_closed hclosed hp
      obtain ⟨a, rfl, -, hfits₁⟩ := prepare_ok_fits hfits hp
      split at hr
      · next ds' i hi =>
        cases hr
        let L' := max L ((Stmt.linesOf a.program).max?.getD 0)
        have hlines : ∀ l ∈ Stmt.linesOf a.program, l ≤ L' := fun l hmem ↦
          Nat.le_trans (List.le_max?_getD_of_mem hmem) (Nat.le_max_right _ _)
        have hids : ∀ ref ∈ Stmt.refsOf a.program, ref.id < s₁.nextId := hfits₁.ids a (.head _)
        have hstore := hclosed₁.store.mono (Nat.le_max_left _ _ : L ≤ L') (Nat.le_refl _)
        have hkeeps := Interpreter.interpret_keeps hfits₁.interpreter hfits₁.env (.head _) hstore hlines hids hi
        have hfollows := Interpreter.interpret_follows hclosed₁.isHome hi
        refine ⟨L', hfollows.isHome, hkeeps, ?_⟩
        intro id hid
        show i.distances.find? id = none
        rw [hfollows.distances]
        exact hclosed₁.distances id hid
      · cases hr

end Session

def Diagnostic.relabel (r : Relabeling) : Diagnostic → Diagnostic
  | .fault f => .fault (f.relabel r)
  | d => d

theorem Diagnostic.relabel_ids (f : Nat → Nat) (ds : List Diagnostic) : ds.map (·.relabel (.ids f)) = ds := by
  have h : ∀ d ∈ ds, d.relabel (.ids f) = d := by
    intro d _
    cases d <;> rfl
  exact (List.map_congr_left h).trans (List.map_id' ds)

namespace Interpreter

variable {v : Variant}

theorem flush_vary (i : Interpreter) (ds : List Diagnostic) :
    (i.vary v).flush ds = ((i.flush ds).1, i.vary v) := by
  have hsink : (i.vary v).sink = i.sink := rfl
  unfold flush
  rw [hsink]
  split <;> rfl

theorem flush_relabel (i : Interpreter) (r : Relabeling) (ds : List Diagnostic) :
    (i.flush (ds.map (·.relabel r))).1 = (i.flush ds).1.map (·.relabel r) := by
  unfold flush
  split <;> rfl

theorem conclude_vary (v : Variant) (m : Machine) :
    conclude (m.vary v) = (conclude m).map fun p ↦ (p.1.map (·.relabel v.labels), p.2.vary v) := by
  obtain ⟨c, k, i⟩ := m
  cases c with
  | done flow =>
    show some ((i.vary v).flush []) = some ((i.flush []).1.map _, (i.flush []).2.vary v)
    rw [flush_vary, flush_snd, ← flush_relabel]
    rfl
  | fault f =>
    show some ((i.reset.vary v).flush ([.fault f].map (Diagnostic.relabel v.labels))) =
      some ((i.reset.flush [.fault f]).1.map _, (i.reset.flush [.fault f]).2.vary v)
    rw [flush_vary, flush_snd, flush_relabel]
  | _ => rfl

theorem interpret_vary {i : Interpreter} {v : Variant} {program : List Stmt}
    (h : (i.start program).Allows v) (hbelow : v.below = []) (fuel : Nat) :
    (i.vary v).interpret fuel (Stmt.relabelAll v.labels program) =
      (i.interpret fuel program).map fun p ↦ (p.1.map (·.relabel v.labels), p.2.vary v) := by
  have hstart : (i.vary v).start (Stmt.relabelAll v.labels program) = (i.start program).vary v := by
    simp [start, Machine.vary, Stack.vary, Frame.vary, Control.relabel, Flow.relabel, hbelow]
  unfold interpret
  rw [hstart, run_vary h hbelow]
  cases Machine.run fuel (i.start program) with
  | none => rfl
  | some m => exact conclude_vary v m

end Interpreter

def moved (n k id : Nat) : Nat := if id < n then id else id + k

theorem moved_of_lt {n k id : Nat} (h : id < n) : moved n k id = id := if_pos h

theorem moved_of_le {n k id : Nat} (h : n ≤ id) : moved n k id = id + k := if_neg (Nat.not_lt.2 h)

theorem moved_inj {n k id id' : Nat} : moved n k id = moved n k id' ↔ id = id' := by
  unfold moved
  split <;> split <;> omega

namespace Session

/-- A session and another one that differs from it in the ids from `n` on, which are moved by `k`. -/
structure Moved (n k : Nat) (s s' : Session) : Prop where
  le : n ≤ s.nextId
  nextId : s'.nextId = s.nextId + k
  interpreter : s'.interpreter = s.interpreter.vary ⟨.ids (moved n k), [], s'.interpreter.distances⟩
  distances : ∀ id, s'.interpreter.distances.find? (moved n k id) = s.interpreter.distances.find? id

theorem follows_moved (n k : Nat) : Scope.Follows (.ids (moved n k))
    fun D D' ↦ ∀ id, D'.find? (moved n k id) = D.find? id := by
  refine ⟨fun h id d j ↦ ?_, fun h id j ↦ ?_⟩
  · show (Distances.record _ (moved n k id) d).find? (moved n k j) = _
    simp only [Distances.find?_record, moved_inj, h]
  · show (Distances.forget _ (moved n k id)).find? (moved n k j) = _
    simp only [Distances.find?_forget, moved_inj, h]

theorem relabel_moved {program : List Stmt} {n k : Nat} (h : ∀ ref ∈ Stmt.refsOf program, n ≤ ref.id) :
    Stmt.relabelAll (.ids (· + k)) program = Stmt.relabelAll (.ids (moved n k)) program :=
  Stmt.relabelAll_congr program (fun _ _ ↦ rfl) fun ref hmem ↦ (moved_of_le (h ref hmem)).symm

theorem Moved.prepare {n k : Nat} {s s' : Session} (h : Moved n k s s') (source : String) :
    (s'.prepare source).1 = (s.prepare source).1.map (Stmt.relabelAll (.ids (moved n k))) ∧
      Moved n k (s.prepare source).2 (s'.prepare source).2 := by
  have hle := le_readAll source s.nextId
  have hread := readAll_add source s.nextId k
  rw [← h.nextId] at hread
  unfold Session.prepare
  rw [hread]
  cases hr : readAll source s.nextId with
  | mk outcome m =>
    have hm : n ≤ m := by
      rw [hr] at hle
      exact Nat.le_trans h.le hle
    cases outcome with
    | error ds => exact ⟨rfl, hm, rfl, h.interpreter, h.distances⟩
    | ok program =>
      have hids : ∀ ref ∈ Stmt.refsOf program, n ≤ ref.id := fun ref hmem ↦
        Nat.le_trans h.le ((readAll_yields hr).1.within ref hmem).1
      obtain ⟨herrors, hD⟩ := resolve_relabel (follows_moved n k) program h.distances
      have hds : (s'.interpreter.resolve (Stmt.relabelAll (.ids (moved n k)) program)).1 =
          (s.interpreter.resolve program).1 := by
        show List.map Diagnostic.scope (resolve _ s'.interpreter.distances).errors = _
        rw [herrors, List.map_map]
        rfl
      have hi := congrArg (fun i ↦ { i with distances :=
        (resolve (Stmt.relabelAll (.ids (moved n k)) program) s'.interpreter.distances).distances })
        h.interpreter
      dsimp only [Except.map]
      rw [relabel_moved hids, hds]
      refine ⟨?_, hm, rfl, hi, hD⟩
      split <;> rfl

theorem Moved.interpret {n k : Nat} {s s' : Session} (h : Moved n k s s') {A : List Accepted}
    (hi : s.interpreter.Fits A) (hhome : s.interpreter.IsHome) {a : Accepted} (ha : a ∈ A) (fuel : Nat) :
    s'.interpreter.interpret fuel (Stmt.relabelAll (.ids (moved n k)) a.program) =
      (s.interpreter.interpret fuel a.program).map fun p ↦
        (p.1, p.2.vary ⟨.ids (moved n k), [], s'.interpreter.distances⟩) := by
  let v : Variant := ⟨.ids (moved n k), [], s'.interpreter.distances⟩
  have hallows : (s.interpreter.start a.program).Allows v := by
    intro m hm
    have hfits := hm.invariant (Interpreter.start_fits hi hhome.1 ha) fun _ _ ↦ step_fits
    have hD := ((Interpreter.start_accounts hhome a.program).steps hm).distances
    refine ⟨hfits.plain, fun ref _ ↦ ?_⟩
    rw [hD]
    exact h.distances ref.id
  have hrun := Interpreter.interpret_vary hallows rfl fuel
  rw [← h.interpreter] at hrun
  refine hrun.trans ?_
  simp only [Diagnostic.relabel_ids, v]

/-- A run does the same in both sessions. -/
theorem Moved.run {H : List (List Stmt × Distances)} {n k : Nat} {s s' : Session} (hs : History H s)
    (h : Moved n k s s') (fuel : Nat) (source : String) :
    (s.run fuel source = none ∧ s'.run fuel source = none) ∨
      ∃ ds s₁ s₁', s.run fuel source = some (ds, s₁) ∧ s'.run fuel source = some (ds, s₁') ∧
        Moved n k s₁ s₁' := by
  obtain ⟨hprogram, hmoved⟩ := h.prepare source
  unfold Session.run
  cases hp : s.prepare source with
  | mk outcome t =>
    cases hp' : s'.prepare source with
    | mk outcome' t' =>
      rw [hp, hp'] at hprogram hmoved
      cases outcome with
      | error ds =>
        cases hprogram
        exact .inr ⟨ds, t, t', rfl, rfl, hmoved⟩
      | ok program =>
        cases hprogram
        obtain ⟨A, -, hfits⟩ := hs.fits
        obtain ⟨a, rfl, -, hfits'⟩ := prepare_ok_fits hfits hp
        obtain ⟨L, hclosed⟩ := hs.closed
        have hhome := (prepare_closed hclosed hp).isHome
        dsimp only
        rw [hmoved.interpret hfits'.interpreter hhome (.head _)]
        cases hi : t.interpreter.interpret fuel a.program with
        | none => exact .inl ⟨rfl, rfl⟩
        | some p =>
          obtain ⟨ds, i⟩ := p
          have hD := (Interpreter.interpret_follows hhome hi).distances
          refine .inr ⟨ds, _, _, rfl, rfl, hmoved.le, hmoved.nextId, rfl, fun id ↦ ?_⟩
          show t'.interpreter.distances.find? (moved n k id) = i.distances.find? id
          rw [hD]
          exact hmoved.distances id

end Session

end Lox
