import Lox.Proofs.Scope.Effect

namespace Lox

namespace Distances

/-- Takes note of an occurrence: of its distance, or that it belongs to the globals. -/
def note (D : Distances) (id : Nat) : Option Nat → Distances
  | some d => D.record id d
  | none => D.forget id

def noteAll (D : Distances) : List (Nat × Option Nat) → Distances
  | [] => D
  | n :: notes => (D.note n.1 n.2).noteAll notes

def lastNote (id : Nat) : List (Nat × Option Nat) → Option (Option Nat)
  | [] => none
  | n :: notes => (lastNote id notes).or (if id = n.1 then some n.2 else none)

def reach : List (Nat × Option Nat) → Nat
  | [] => 0
  | (id, some _) :: notes => max (id + 1) (reach notes)
  | (_, none) :: notes => reach notes

theorem ext_find? {D D' : Distances} (hs : D.entries.size = D'.entries.size)
    (hf : ∀ id, D.find? id = D'.find? id) : D = D' := by
  have hentries : D.entries = D'.entries := by
    refine Array.ext hs fun i hi hi' ↦ ?_
    have h := hf i
    unfold find? at h
    rwa [Array.getElem?_eq_getElem hi, Array.getElem?_eq_getElem hi', Option.join_some, Option.join_some] at h
  cases D
  cases D'
  cases hentries
  rfl

theorem find?_note (D : Distances) (id : Nat) (n : Option Nat) (i : Nat) :
    (D.note id n).find? i = if i = id then n else D.find? i := by
  cases n with
  | none => exact D.find?_forget id i
  | some d => exact D.find?_record id d i

theorem find?_noteAll (D : Distances) (notes : List (Nat × Option Nat)) (id : Nat) :
    (D.noteAll notes).find? id = (lastNote id notes).getD (D.find? id) := by
  induction notes generalizing D with
  | nil => rfl
  | cons n notes ih =>
    rw [noteAll, ih, find?_note, lastNote]
    cases lastNote id notes with
    | none => split <;> rfl
    | some last => rfl

theorem size_record (D : Distances) (id d : Nat) :
    (D.record id d).entries.size = max D.entries.size (id + 1) := by
  unfold record
  split <;> simp <;> omega

theorem size_noteAll (D : Distances) (notes : List (Nat × Option Nat)) :
    (D.noteAll notes).entries.size = max D.entries.size (reach notes) := by
  induction notes generalizing D with
  | nil => simp [noteAll, reach]
  | cons n notes ih =>
    obtain ⟨id, n⟩ := n
    rw [noteAll, ih]
    cases n with
    | none => simp [note, forget, reach]
    | some d => rw [note, size_record, reach, Nat.max_assoc]

theorem noteAll_append (D : Distances) (notes notes' : List (Nat × Option Nat)) :
    D.noteAll (notes ++ notes') = (D.noteAll notes).noteAll notes' := by
  induction notes generalizing D with
  | nil => rfl
  | cons n notes ih => exact ih _

theorem lastNote_eq_none {notes : List (Nat × Option Nat)} {id : Nat} (h : ∀ n ∈ notes, n.1 ≠ id) :
    lastNote id notes = none := by
  induction notes with
  | nil => rfl
  | cons n notes ih =>
    rw [List.forall_mem_cons] at h
    rw [lastNote, ih h.2, if_neg (Ne.symm h.1)]
    rfl

theorem noteAll_noteAll (D : Distances) (notes : List (Nat × Option Nat)) :
    (D.noteAll notes).noteAll notes = D.noteAll notes := by
  refine ext_find? ?_ fun id ↦ ?_
  · simp only [size_noteAll]
    omega
  · simp only [find?_noteAll]
    cases lastNote id notes <;> rfl

/-- Notes on different occurrences can be taken in any order. -/
theorem noteAll_comm (D : Distances) {notes notes' : List (Nat × Option Nat)}
    (h : ∀ n ∈ notes, ∀ n' ∈ notes', n.1 ≠ n'.1) :
    (D.noteAll notes).noteAll notes' = (D.noteAll notes').noteAll notes := by
  refine ext_find? ?_ fun id ↦ ?_
  · simp only [size_noteAll]
    omega
  · simp only [find?_noteAll]
    by_cases hid : ∃ n ∈ notes, n.1 = id
    · obtain ⟨n, hn, rfl⟩ := hid
      rw [lastNote_eq_none fun n' hn' ↦ (h n hn n' hn').symm]
      rfl
    · rw [lastNote_eq_none fun n hn heq ↦ hid ⟨n, hn, heq⟩]
      rfl

end Distances

namespace Scope

/-- From the scopes `S` a part of a walk goes to the scopes `S'`. The errors that it adds and the notes that it
takes, on the given occurrences only, are the same whatever was found before. -/
def Finds (visit : Walk → Walk) (refs : List Ref) (S S' : List Names) : Prop :=
  ∃ (errors : Array ScopeError) (notes : List (Nat × Option Nat)),
    (∀ n ∈ notes, ∃ r ∈ refs, r.id = n.1) ∧
    ∀ w : Walk, w.scopes = S → visit w = ⟨S', w.errors ++ errors, w.distances.noteAll notes⟩

namespace Finds

variable {visit visit' : Walk → Walk} {refs refs' : List Ref} {S S₁ S₂ : List Names}

theorem congr (h : Finds visit refs S S₁) (heq : ∀ w : Walk, w.scopes = S → visit' w = visit w) :
    Finds visit' refs S S₁ := by
  obtain ⟨errors, notes, hnotes, hvisit⟩ := h
  exact ⟨errors, notes, hnotes, fun w hw ↦ (heq w hw).trans (hvisit w hw)⟩

theorem of_moves (h : ∀ w : Walk, w.scopes = S → visit w = { w with scopes := S₁ }) : Finds visit [] S S₁ := by
  refine ⟨#[], [], by simp, fun w hw ↦ ?_⟩
  rw [h w hw, Array.append_empty]
  rfl

theorem refl (S : List Names) : Finds id [] S S := by
  refine of_moves fun w hw ↦ ?_
  rw [← hw]
  rfl

theorem append (h : Finds visit refs S S₁) (h' : Finds visit' refs' S₁ S₂) :
    Finds (fun w ↦ visit' (visit w)) (refs ++ refs') S S₂ := by
  obtain ⟨errors, notes, hnotes, heq⟩ := h
  obtain ⟨errors', notes', hnotes', heq'⟩ := h'
  refine ⟨errors ++ errors', notes ++ notes', fun n hn ↦ ?_, fun w hw ↦ ?_⟩
  · rcases List.mem_append.1 hn with hn | hn
    · obtain ⟨r, hr, hid⟩ := hnotes n hn
      exact ⟨r, List.mem_append_left refs' hr, hid⟩
    · obtain ⟨r, hr, hid⟩ := hnotes' n hn
      exact ⟨r, List.mem_append_right refs hr, hid⟩
  · change visit' (visit w) = _
    rw [heq w hw, heq' _ rfl, Distances.noteAll_append, Array.append_assoc]

theorem silent (h : Finds visit [] S S₁) (h' : Finds visit' refs S₁ S₂) :
    Finds (fun w ↦ visit' (visit w)) refs S S₂ := h.append h'

theorem then_silent (h : Finds visit refs S S₁) (h' : Finds visit' [] S₁ S₂) :
    Finds (fun w ↦ visit' (visit w)) refs S S₂ :=
  List.append_nil refs ▸ h.append h'

theorem mono (h : Finds visit refs S S₁) (hsub : refs ⊆ refs') : Finds visit refs' S S₁ := by
  obtain ⟨errors, notes, hnotes, heq⟩ := h
  refine ⟨errors, notes, fun n hn ↦ ?_, heq⟩
  obtain ⟨r, hr, hid⟩ := hnotes n hn
  exact ⟨r, hsub hr, hid⟩

theorem error (cause : ScopeCause) (token : Token) (S : List Names) :
    Finds (·.error cause token) [] S S := by
  refine ⟨#[⟨cause, token⟩], [], by simp, fun w hw ↦ ?_⟩
  rw [← hw]
  rfl

theorem error_if (p : Prop) [Decidable p] (cause : ScopeCause) (token : Token) (S : List Names) :
    Finds (fun w ↦ if p then w.error cause token else w) [] S S := by
  by_cases hp : p
  · simp only [if_pos hp]
    exact error cause token S
  · simp only [if_neg hp]
    exact refl S

theorem enter (S : List Names) : Finds Walk.enter [] S (.empty :: S) := by
  refine of_moves fun w hw ↦ ?_
  rw [← hw]
  rfl

theorem leave (S : List Names) : Finds Walk.leave [] S S.tail := by
  refine of_moves fun w hw ↦ ?_
  rw [← hw]
  rfl

theorem bind (name : String) (S : List Names) : Finds (·.bind name) [] S (bindIn name S) := by
  refine of_moves fun w hw ↦ ?_
  obtain ⟨S', E, D⟩ := w
  cases hw
  cases S' <;> rfl

theorem define (name : Token) (S : List Names) : Finds (·.define name) [] S (bindIn name.lexeme S) :=
  bind name.lexeme S

theorem declare (name : Token) (S : List Names) :
    Finds (·.declare name) [] S (declareIn name.lexeme S) := by
  cases S with
  | nil =>
    refine of_moves fun w hw ↦ ?_
    obtain ⟨S', E, D⟩ := w
    cases hw
    rfl
  | cons s rest =>
    have hdeclare : ∀ w : Walk, w.scopes = s :: rest → w.declare name =
        if s.contains name.lexeme then w.error .alreadyDeclared name
        else { w with scopes := s.insert name.lexeme false :: rest } := by
      intro w hw
      obtain ⟨S', E, D⟩ := w
      cases hw
      rfl
    simp only [declareIn]
    split
    · next hs => exact (error .alreadyDeclared name _).congr fun w hw ↦ (hdeclare w hw).trans (if_pos hs)
    · next hs => exact of_moves fun w hw ↦ (hdeclare w hw).trans (if_neg hs)

theorem declared (name : Token) (S : List Names) :
    Finds (fun w ↦ (w.declare name).define name) [] S (bindIn name.lexeme S) :=
  bindIn_declareIn name.lexeme S ▸ (declare name S).silent (define name _)

theorem declareAll (names : List Token) (S : List Names) :
    Finds (·.declareAll names) [] S (names.foldl (fun S name ↦ bindIn name.lexeme S) S) := by
  induction names generalizing S with
  | nil => exact refl S
  | cons name names ih => exact (declared name S).silent (ih _)

theorem locate (ref : Ref) (S : List Names) : Finds (·.locate ref) [ref] S S := by
  refine ⟨#[], [(ref.id, S.findIdx? (·.contains ref.name.lexeme))], by simp, fun w hw ↦ ?_⟩
  obtain ⟨S', E, D⟩ := w
  cases hw
  rw [Array.append_empty]
  change Walk.locate ⟨S', E, D⟩ ref = ⟨S', E, D.note ref.id (S'.findIdx? (·.contains ref.name.lexeme))⟩
  unfold Walk.locate Walk.distance?
  cases S'.findIdx? (·.contains ref.name.lexeme) <;> rfl

theorem read (ref : Ref) (S : List Names) : Finds (·.read ref) [ref] S S := by
  refine ((error_if ((⟨S, #[], .empty⟩ : Walk).isPending ref.name.lexeme) .ownInitializer ref.name S).silent
    (locate ref S)).congr fun w hw ↦ ?_
  cases hw
  rfl

end Finds

mutual

theorem finds_expr (k : Context) : ∀ (e : Expr) (S : List Names), Finds (expr k e) e.refs S S
  | .literal _ _, S => .refl S
  | .var ref, S => .read ref S
  | .assign ref value, S => (finds_expr k value S).append (.locate ref S)
  | .unary _ operand, S => finds_expr k operand S
  | .binary left _ right, S => (finds_expr k left S).append (finds_expr k right S)
  | .logical left _ right, S => (finds_expr k left S).append (finds_expr k right S)
  | .grouping inner, S => finds_expr k inner S
  | .call callee arguments _, S => (finds_expr k callee S).append (finds_exprs k arguments S)
  | .get object _, S => finds_expr k object S
  | .set object _ value, S => (finds_expr k value S).append (finds_expr k object S)
  | .this ref, S => by
    by_cases hk : k.cls = .none
    · exact ((Finds.error .thisOutsideClass ref.name S).mono (List.nil_subset _)).congr
        fun w _ ↦ by rw [expr, if_pos hk]
    · exact (Finds.locate ref S).congr fun w _ ↦ by rw [expr, if_neg hk]
  | .super ref method, S => by
    obtain ⟨kind, cls⟩ := k
    cases cls with
    | none => exact (Finds.error .superOutsideClass ref.name S).silent (.locate ref S)
    | plain => exact (Finds.error .superWithoutSuperclass ref.name S).silent (.locate ref S)
    | subclass => exact .locate ref S

theorem finds_exprs (k : Context) : ∀ (es : List Expr) (S : List Names),
    Finds (exprs k es) (Expr.refsOf es) S S
  | [], S => .refl S
  | e :: es, S => (finds_expr k e S).append (finds_exprs k es S)

end

theorem finds_optional (k : Context) (e : Option Expr) (S : List Names) :
    Finds (optional k e) (Expr.optionalRefs e) S S := by
  cases e with
  | none => exact .refl S
  | some e => exact finds_expr k e S

theorem finds_ret (k : Context) (keyword : Token) (value : Option Expr) (S : List Names) :
    Finds (ret k keyword value) (Expr.optionalRefs value) S S :=
  ((Finds.error_if _ .returnAtTopLevel keyword S).silent
    (.error_if _ .returnFromInitializer keyword S)).silent (finds_optional k value S)

theorem finds_classHead (name : Token) (superclass : Option Ref) (S : List Names) :
    Finds (classHead name superclass) superclass.toList S
      (methodScopes superclass (bindIn name.lexeme S)) := by
  cases superclass with
  | none => exact ((Finds.declared name S).silent (.enter _)).silent (.bind "this" _)
  | some ref =>
    have hhead := ((Finds.declared name S).silent
      (.error_if (ref.name.lexeme = name.lexeme) .selfInheritance ref.name _)).silent (.read ref _)
    exact (((hhead.then_silent (.enter _)).then_silent (.bind "super" _)).then_silent
      (.enter _)).then_silent (.bind "this" _)

theorem finds_classEnd (superclass : Option Ref) (S : List Names) :
    Finds (classEnd superclass) [] (methodScopes superclass S) S := by
  cases superclass with
  | none => exact .leave _
  | some ref => exact (Finds.leave _).silent (.leave _)

theorem length_bindIn (name : String) (S : List Names) : (bindIn name S).length = S.length := by
  cases S <;> rfl

mutual

/-- Every scope that a statement opens it closes, whatever errors it holds. -/
theorem finds_stmt (k : Context) : ∀ (s : Stmt) (S : List Names),
    ∃ S', S'.length = S.length ∧ S'.tail = S.tail ∧ Finds (stmt k s) s.refs S S'
  | .expr e, S => ⟨S, rfl, rfl, finds_expr k e S⟩
  | .print e, S => ⟨S, rfl, rfl, finds_expr k e S⟩
  | .var name initial, S => by
    refine ⟨bindIn name.lexeme S, length_bindIn _ S, tail_bindIn _ S, ?_⟩
    rw [← bindIn_declareIn]
    exact ((Finds.declare name S).silent (finds_optional k initial _)).then_silent (.define name _)
  | .block body, S => by
    obtain ⟨S', -, htail, hbody⟩ := finds_stmts k body (.empty :: S)
    refine ⟨S, rfl, rfl, ?_⟩
    have hleave := Finds.leave S'
    rw [htail] at hleave
    exact ((Finds.enter S).silent hbody).then_silent hleave
  | .cond test yes none, S => by
    obtain ⟨S', hlen, htail, hyes⟩ := finds_stmt k yes S
    exact ⟨S', hlen, htail, (finds_expr k test S).append hyes⟩
  | .cond test yes (some no), S => by
    obtain ⟨S', hlen, htail, hyes⟩ := finds_stmt k yes S
    obtain ⟨S₁, hlen₁, htail₁, hno⟩ := finds_stmt k no S'
    exact ⟨S₁, hlen₁.trans hlen, htail₁.trans htail, (finds_expr k test S).append (hyes.append hno)⟩
  | .loop test body, S => by
    obtain ⟨S', hlen, htail, hbody⟩ := finds_stmt k body S
    exact ⟨S', hlen, htail, (finds_expr k test S).append hbody⟩
  | .function decl, S =>
    ⟨_, length_bindIn decl.name.lexeme S, tail_bindIn _ S,
      (Finds.declared decl.name S).silent (finds_function _ decl _)⟩
  | .ret keyword value, S => ⟨S, rfl, rfl, finds_ret k keyword value S⟩
  | .classDecl name superclass methods, S =>
    ⟨_, length_bindIn name.lexeme S, tail_bindIn _ S,
      ((finds_classHead name superclass S).append (finds_functions _ methods _)).then_silent
        (finds_classEnd superclass _)⟩

theorem finds_stmts (k : Context) : ∀ (ss : List Stmt) (S : List Names),
    ∃ S', S'.length = S.length ∧ S'.tail = S.tail ∧ Finds (stmts k ss) (Stmt.refsOf ss) S S'
  | [], S => ⟨S, rfl, rfl, .refl S⟩
  | s :: ss, S => by
    obtain ⟨S', hlen, htail, hs⟩ := finds_stmt k s S
    obtain ⟨S₁, hlen₁, htail₁, hss⟩ := finds_stmts k ss S'
    exact ⟨S₁, hlen₁.trans hlen, htail₁.trans htail, hs.append hss⟩

theorem finds_function (k : Context) : ∀ (d : FunctionDecl) (S : List Names),
    Finds (function k d) d.refs S S
  | .mk name params body, S => by
    have hparams := (Finds.enter S).silent (.declareAll params _)
    obtain ⟨S', -, htail, hbody⟩ := finds_stmts k body _
    have hleave := Finds.leave S'
    have hstart : (params.foldl (fun S name ↦ bindIn name.lexeme S) (.empty :: S)).tail = S := by
      simpa [Walk.scopes_declareAll] using tail_declareAll ⟨.empty :: S, #[], .empty⟩ params
    rw [htail, hstart] at hleave
    exact (hparams.silent hbody).then_silent hleave

theorem finds_functions (k : Context) : ∀ (ds : List FunctionDecl) (S : List Names),
    Finds (functions k ds) (FunctionDecl.refsOf ds) S S
  | [], S => .refl S
  | d :: ds, S => (finds_function _ d S).append (finds_functions k ds S)

end

/-- The findings of a whole program. -/
theorem exists_findings (program : List Stmt) :
    Finds (stmts topLevel program) (Stmt.refsOf program) [] [] := by
  obtain ⟨S', hlen, -, h⟩ := finds_stmts topLevel program []
  rwa [List.length_eq_zero_iff.1 hlen] at h

end Scope

end Lox
