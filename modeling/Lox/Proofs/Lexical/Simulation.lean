import Lox.Machine.Step
import Lox.Proofs.Lexical.Scene

namespace Lox.Lexical

open Scope

/-- Machines that are about to do the same. -/
inductive Linked : Lox.Machine → Machine → Prop
  | eval {L : Link} {S : List Names} {e : Expr} {k : Lox.Stack} {k' : Stack} {i : Interpreter} {s : State}
      (he : At [L.program] (.expr e) S) (h : Ready L S i s k k') :
      Linked ⟨.eval e, k, i⟩ ⟨.eval e, k', s⟩
  | exec {L : Link} {S : List Names} {stmt : Stmt} {k : Lox.Stack} {k' : Stack} {i : Interpreter}
      {s : State} (hs : At [L.program] (.stmt stmt) S) (h : Scene L S i s) (hi : i.env.inner ∉ inners k)
      (hk : StackLinked L (afterDeclaring stmt.declared? S) k k') :
      Linked ⟨.exec stmt, k, i⟩ ⟨.exec stmt, k', s⟩
  | value {L : Link} {S : List Names} {v : Lox.Value} {v' : Value} {k : Lox.Stack} {k' : Stack}
      {i : Interpreter} {s : State} (hv : ValueLinked L v v') (h : Ready L S i s k k') :
      Linked ⟨.value v, k, i⟩ ⟨.value v', k', s⟩
  | done {L : Link} {S : List Names} {flow : Lox.Flow} {flow' : Flow} {k : Lox.Stack} {k' : Stack}
      {i : Interpreter} {s : State} (hf : FlowLinked L flow flow') (h : Ready L S i s k k') :
      Linked ⟨.done flow, k, i⟩ ⟨.done flow', k', s⟩
  | fault {L : Link} {S : List Names} {f : Fault} {k : Lox.Stack} {k' : Stack} {i : Interpreter}
      {s : State} (h : StateLinked L i s) (hk : StackLinked L S k k') :
      Linked ⟨.fault f, k, i⟩ ⟨.fault f, k', s⟩
  | clock {L : Link} {S : List Names} {k : Lox.Stack} {k' : Stack} {i : Interpreter} {s : State}
      {line : Nat} (h : Ready L S i s k k') :
      Linked ⟨.act line (.time fun seconds ↦ .done (.number seconds)), k, i⟩ ⟨.reading none, k', s⟩
  | seconds {L : Link} {S : List Names} {k : Lox.Stack} {k' : Stack} {i : Interpreter} {s : State}
      {line : Nat} {x : Float} (h : Ready L S i s k k') :
      Linked ⟨.act line (.done (.number x)), k, i⟩ ⟨.reading (some x), k', s⟩

theorem FrameLinked.mono {L L' : Link} (hL : L.Le L') {S : List Names} {f : Lox.Frame} {f' : Frame}
    (h : FrameLinked L S f f') : FrameLinked L' S f f' := by
  have hprogram := hL.program
  cases h with
  | binaryRight h op => exact .binaryRight (h.mono hL) op
  | argument hf hk hr paren =>
    exact .argument (hf.mono hL) (hk.imp fun _ _ hv ↦ hv.mono hL) (hprogram ▸ hr) paren
  | result h => exact .result (h.mono hL)
  | binaryLeft op h => exact .binaryLeft op (hprogram ▸ h)
  | logical op h => exact .logical op (hprogram ▸ h)
  | assign h => exact .assign (hprogram ▸ h)
  | callee h paren => exact .callee (hprogram ▸ h) paren
  | setObject name h => exact .setObject name (hprogram ▸ h)
  | branch hy hn => exact .branch (hprogram ▸ hy) (hprogram ▸ hn)
  | test h => exact .test (hprogram ▸ h)
  | body h => exact .body (hprogram ▸ h)
  | _ => constructor

theorem FrameLinked.inners_cons {L : Link} {S : List Names} {f : Lox.Frame} {f' : Frame}
    (h : FrameLinked L S f f') (k : Lox.Stack) : inners (f :: k) = inners k := by
  cases h <;> rfl

namespace StackLinked

variable {L L' : Link} {S : List Names} {k : Lox.Stack} {k' : Stack}

theorem inners_lt (h : StackLinked L S k k') : ∀ id ∈ inners k, id < L.scopes := by
  induction h with
  | nil => nofun
  | keep hf _ ih =>
    rw [hf.inners_cons]
    exact ih
  | define _ _ ih => exact ih
  | block _ hs _ _ _ ih =>
    intro id hid
    obtain rfl | hid := List.mem_cons.1 hid
    · exact hs.inner_lt
    · exact ih id hid
  | program _ _ ih => exact ih

theorem mono (h : StackLinked L S k k') (hL : L.Le L')
    (hin : ∀ id ∈ inners k, ∀ x, L'.cell id x = L.cell id x) : StackLinked L' S k k' := by
  induction h with
  | nil => exact .nil
  | keep hf _ ih =>
    rw [hf.inners_cons] at hin
    exact .keep (hf.mono hL) (ih hin)
  | define hx _ ih => exact .define hx (ih hin)
  | block hr hs he hi _ ih =>
    have hin' := List.forall_mem_cons.1 hin
    refine .block (hL.program ▸ hr) (hs.mono hL) (fun n hn x c hc ↦ ?_) hi (ih hin'.2)
    rw [hin'.1] at hc
    exact he n hn x c hc
  | program hr _ ih => exact .program (hL.program ▸ hr) (ih hin)

theorem beside (h : StackLinked L S k k') (hL : L.Beside L') : StackLinked L' S k k' :=
  h.mono hL.toLe fun _ hid x ↦ hL.old (h.inners_lt _ hid) x

end StackLinked

namespace Ready

variable {L L' : Link} {S : List Names} {k : Lox.Stack} {k' : Stack} {i i' : Interpreter} {s s' : State}

theorem keep (h : Ready L S i s k k') {f : Lox.Frame} {f' : Frame} (hf : FrameLinked L S f f') :
    Ready L S i s (f :: k) (f' :: k') :=
  ⟨h.scene, by rw [hf.inners_cons]; exact h.inner, .keep hf h.stack⟩

theorem update (h : Ready L S i s k k') (hL : L.Beside L') (hs : StateLinked L' i' s')
    (henv : i'.env = i.env) (henv' : s'.env = s.env) : Ready L' S i' s' k k' := by
  refine ⟨⟨hs, ?_, ?_⟩, ?_, h.stack.beside hL⟩
  · rw [henv, henv']
    exact h.scene.env.mono hL.toLe
  · rw [henv]
    exact h.scene.exact.beside h.scene.env.inner_lt hL
  · rw [henv]
    exact h.inner

theorem withStore (h : Ready L S i s k k') (hL : L.Beside L') {σ : Store} (hσ : StoreLinked L' σ s')
    (henv : s'.env = s.env) (hd : s'.depth = s.depth) (hc : s'.clock = s.clock)
    (hk : s'.sink = s.sink) : Ready L' S { i with store := σ } s' k k' :=
  h.update hL (h.scene.toStateLinked.withStore hL.toLe hσ hd hc hk) rfl henv

theorem declare (h : Scene L S i s) (hi : i.env.inner ∉ inners k) {x : String}
    (hk : StackLinked L (bindIn x S) k k') (hx : ∀ n ∈ S.head?, n.find? x ≠ some true)
    {v : Lox.Value} {v' : Value} (hv : ValueLinked (L.bind i.env.inner x) v v') :
    Ready (L.bind i.env.inner x) (bindIn x S) (i.define x v) (s.declare x v') k k' := by
  refine ⟨h.declare hx hv, hi, hk.mono (L.le_bind ..) fun id hid y ↦ ?_⟩
  exact L.cell_bind_of_ne fun h' ↦ hi (h'.1 ▸ hid)

end Ready

end Lox.Lexical
