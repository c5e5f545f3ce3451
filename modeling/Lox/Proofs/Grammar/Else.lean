import Lox.Proofs.Grammar.Basic

namespace Lox.Grammar

theorem Statement.attach {other : Token} {ts₂ : List Token} {no : Stmt} {q : Nat} {outer : Bool}
    (ho : other.kind = .keyword .kElse) : ∀ {dangling : Bool} {n m : Nat} {ts : List Token} {s : Stmt},
      Statement .nearest dangling n ts s m → dangling = true → Statement .nearest outer m ts₂ no q →
        ∃ dangling' s', Statement .nearest dangling' n (ts ++ other :: ts₂) s' q
  | _, _, _, _, _, .expr _, hd, _ => nomatch hd
  | _, _, _, _, _, .print _ _ _, hd, _ => nomatch hd
  | _, _, _, _, _, .ret _ _ _, hd, _ => nomatch hd
  | _, _, _, _, _, .block _ _ _, hd, _ => nomatch hd
  | _, _, _, _, _, @Statement.cond _ _ _ _ _ _ _ _ _ _ _ inner hk hl ht hr hy, _, hn => by
    by_cases hi : inner = true
    · obtain ⟨_, yes, hy⟩ := hy.attach ho hi hn
      have h := Statement.cond hk hl ht hr hy
      exact ⟨_, _, by simpa using h⟩
    · have h := Statement.condElse hk hl ht hr hy (fun _ ↦ Bool.eq_false_iff.2 hi) ho hn
      exact ⟨_, _, by simpa using h⟩
  | _, _, _, _, _, .condElse hk hl ht hr hy hi ho' hn', hd, hn => by
    obtain ⟨_, no, hn⟩ := hn'.attach ho hd hn
    have h := Statement.condElse hk hl ht hr hy hi ho' hn
    exact ⟨_, _, by simpa using h⟩
  | _, _, _, _, _, .loop hk hl ht hr hb, hd, hn => by
    obtain ⟨_, body, hb⟩ := hb.attach ho hd hn
    have h := Statement.loop hk hl ht hr hb
    exact ⟨_, _, by simpa using h⟩
  | _, _, _, _, _, .forLoop hk hl hf ht hs hi hr hb, hd, hn => by
    obtain ⟨_, body, hb⟩ := hb.attach ho hd hn
    have h := Statement.forLoop hk hl hf ht hs hi hr hb
    exact ⟨_, _, by simpa using h⟩

mutual

/-- Where the grammar leaves open to which `if` an `else` belongs, it can belong to the nearest. -/
theorem Statement.nearest : ∀ {dangling : Bool} {n m : Nat} {ts : List Token} {s : Stmt},
    Statement .any dangling n ts s m → ∃ dangling' s', Statement .nearest dangling' n ts s' m
  | _, _, _, _, _, .expr h => ⟨_, _, .expr h⟩
  | _, _, _, _, _, .print hk he hs => ⟨_, _, .print hk he hs⟩
  | _, _, _, _, _, .ret hk he hs => ⟨_, _, .ret hk he hs⟩
  | _, _, _, _, _, .block hl hb hr =>
    have ⟨_, hb⟩ := hb.nearest
    ⟨_, _, .block hl hb hr⟩
  | _, _, _, _, _, .cond hk hl ht hr hy =>
    have ⟨_, _, hy⟩ := hy.nearest
    ⟨_, _, .cond hk hl ht hr hy⟩
  | _, _, _, _, _, .condElse hk hl ht hr hy _ ho hn => by
    obtain ⟨inner, yes, hy⟩ := hy.nearest
    obtain ⟨dangling, no, hn⟩ := hn.nearest
    cases inner with
    | false => exact ⟨_, _, .condElse hk hl ht hr hy (fun _ ↦ rfl) ho hn⟩
    | true =>
      obtain ⟨_, yes, hy⟩ := hy.attach ho rfl hn
      have h := Statement.cond hk hl ht hr hy
      exact ⟨_, _, by simpa using h⟩
  | _, _, _, _, _, .loop hk hl ht hr hb =>
    have ⟨_, _, hb⟩ := hb.nearest
    ⟨_, _, .loop hk hl ht hr hb⟩
  | _, _, _, _, _, .forLoop hk hl hf ht hs hi hr hb =>
    have ⟨_, _, hb⟩ := hb.nearest
    ⟨_, _, .forLoop hk hl hf ht hs hi hr hb⟩

theorem Declaration.nearest : ∀ {n m : Nat} {ts : List Token} {s : Stmt},
    Declaration .any n ts s m → ∃ s', Declaration .nearest n ts s' m
  | _, _, _, _, .statement h =>
    have ⟨_, _, h⟩ := h.nearest
    ⟨_, .statement h⟩
  | _, _, _, _, .var h => ⟨_, .var h⟩
  | _, _, _, _, .function hk hd =>
    have ⟨_, hd⟩ := hd.nearest
    ⟨_, .function hk hd⟩
  | _, _, _, _, .classDecl hk hn hs hl hm hr =>
    have ⟨_, hm⟩ := hm.nearest
    ⟨_, .classDecl hk hn hs hl hm hr⟩

theorem Declarations.nearest : ∀ {n m : Nat} {ts : List Token} {ss : List Stmt},
    Declarations .any n ts ss m → ∃ ss', Declarations .nearest n ts ss' m
  | _, _, _, _, .nil => ⟨_, .nil⟩
  | _, _, _, _, .cons h hs =>
    have ⟨_, h⟩ := h.nearest
    have ⟨_, hs⟩ := hs.nearest
    ⟨_, .cons h hs⟩

theorem Function.nearest : ∀ {n m : Nat} {ts : List Token} {d : FunctionDecl},
    Function .any n ts d m → ∃ d', Function .nearest n ts d' m
  | _, _, _, _, .intro hn hl hp hc hr ho hb he =>
    have ⟨_, hb⟩ := hb.nearest
    ⟨_, .intro hn hl hp hc hr ho hb he⟩

theorem Functions.nearest : ∀ {n m : Nat} {ts : List Token} {ds : List FunctionDecl},
    Functions .any n ts ds m → ∃ ds', Functions .nearest n ts ds' m
  | _, _, _, _, .nil => ⟨_, .nil⟩
  | _, _, _, _, .cons h hs =>
    have ⟨_, h⟩ := h.nearest
    have ⟨_, hs⟩ := hs.nearest
    ⟨_, .cons h hs⟩

end

mutual

theorem Statement.any : ∀ {dangling : Bool} {n m : Nat} {ts : List Token} {s : Stmt},
    Statement .nearest dangling n ts s m → Statement .any dangling n ts s m
  | _, _, _, _, _, .expr h => .expr h
  | _, _, _, _, _, .print hk he hs => .print hk he hs
  | _, _, _, _, _, .ret hk he hs => .ret hk he hs
  | _, _, _, _, _, .block hl hb hr => .block hl hb.any hr
  | _, _, _, _, _, .cond hk hl ht hr hy => .cond hk hl ht hr hy.any
  | _, _, _, _, _, .condElse hk hl ht hr hy _ ho hn =>
    .condElse hk hl ht hr hy.any (fun h ↦ nomatch h) ho hn.any
  | _, _, _, _, _, .loop hk hl ht hr hb => .loop hk hl ht hr hb.any
  | _, _, _, _, _, .forLoop hk hl hf ht hs hi hr hb => .forLoop hk hl hf ht hs hi hr hb.any

theorem Declaration.any : ∀ {n m : Nat} {ts : List Token} {s : Stmt},
    Declaration .nearest n ts s m → Declaration .any n ts s m
  | _, _, _, _, .statement h => .statement h.any
  | _, _, _, _, .var h => .var h
  | _, _, _, _, .function hk hd => .function hk hd.any
  | _, _, _, _, .classDecl hk hn hs hl hm hr => .classDecl hk hn hs hl hm.any hr

theorem Declarations.any : ∀ {n m : Nat} {ts : List Token} {ss : List Stmt},
    Declarations .nearest n ts ss m → Declarations .any n ts ss m
  | _, _, _, _, .nil => .nil
  | _, _, _, _, .cons h hs => .cons h.any hs.any

theorem Function.any : ∀ {n m : Nat} {ts : List Token} {d : FunctionDecl},
    Function .nearest n ts d m → Function .any n ts d m
  | _, _, _, _, .intro hn hl hp hc hr ho hb he => .intro hn hl hp hc hr ho hb.any he

theorem Functions.any : ∀ {n m : Nat} {ts : List Token} {ds : List FunctionDecl},
    Functions .nearest n ts ds m → Functions .any n ts ds m
  | _, _, _, _, .nil => .nil
  | _, _, _, _, .cons h hs => .cons h.any hs.any

end

end Lox.Grammar
