import Lox.Proofs.Grammar.Basic
import Lox.Proofs.Grammar.Ebnf

open Computability

namespace Lox

/-- A token as the grammar knows it: the kind without the value of a string or a number. -/
inductive Terminal where
  | mark (m : Mark)
  | keyword (k : Keyword)
  | identifier
  | string
  | number
  | eof
  deriving DecidableEq

def Kind.terminal : Kind → Terminal
  | mark m => .mark m
  | keyword k => .keyword k
  | identifier => .identifier
  | string _ => .string
  | number _ => .number
  | eof => .eof

def Token.terminal (t : Token) : Terminal := t.kind.terminal

namespace Grammar

/-- What the relaxed grammar has rules for. -/
inductive Phrase where
  | program | declaration | classDecl | funDecl | function | parameters | varDecl
  | statement | exprStmt | forStmt | ifStmt | printStmt | returnStmt | whileStmt | block
  | expr (ℓ : Level) | arguments
  deriving DecidableEq

namespace Phrase

def mark (m : Mark) : Ebnf Terminal Phrase := .one [.mark m]

def keyword (k : Keyword) : Ebnf Terminal Phrase := .one [.keyword k]

def name : Ebnf Terminal Phrase := .one [.identifier]

def operator (ℓ : Level) : Ebnf Terminal Phrase := .one (ℓ.operators.map Kind.terminal)

def expression : Ebnf Terminal Phrase := .rule (.expr .assignment)

def leftAssoc (ℓ operand : Level) : Ebnf Terminal Phrase :=
  .seq (.rule (.expr operand)) (.many (.seq (operator ℓ) (.rule (.expr operand))))

def callSuffix : Ebnf Terminal Phrase :=
  .alt (.seq (mark .leftParen) (.seq (.opt (.rule .arguments)) (mark .rightParen)))
    (.seq (mark .dot) name)

def atoms : List Terminal :=
  [.number, .string, .keyword .kTrue, .keyword .kFalse, .keyword .kNil, .keyword .kThis, .identifier]

def primaries : List (Ebnf Terminal Phrase) :=
  [.one atoms, .run [mark .leftParen, expression, mark .rightParen], .run [keyword .kSuper, mark .dot, name]]

def statements : List Phrase := [exprStmt, forStmt, ifStmt, printStmt, returnStmt, whileStmt, block]

def anyStatement : Ebnf Terminal Phrase := .choice (statements.map .rule)

def declarations : List (Ebnf Terminal Phrase) :=
  [.rule classDecl, .rule funDecl, .rule varDecl, .rule statement]

def ifHead : List (Ebnf Terminal Phrase) := [keyword .kIf, mark .leftParen, expression, mark .rightParen]

def whileHead : List (Ebnf Terminal Phrase) := [keyword .kWhile, mark .leftParen, expression, mark .rightParen]

def forHead : List (Ebnf Terminal Phrase) :=
  [keyword .kFor, mark .leftParen, .choice [.rule varDecl, .rule exprStmt, mark .semicolon], .opt expression,
    mark .semicolon, .opt expression, mark .rightParen]

/-- The grammar, relaxed in that any disjunction may stand left of an equals sign and that lists of
parameters and arguments may have any length. -/
def relaxed : Phrase → Ebnf Terminal Phrase
  | program => .seq (.many (.rule declaration)) (.one [.eof])
  | declaration => .choice declarations
  | classDecl => .run [keyword .kClass, name, .opt (.seq (mark .less) name), mark .leftBrace,
      .many (.rule function), mark .rightBrace]
  | funDecl => .seq (keyword .kFun) (.rule function)
  | function => .run [name, mark .leftParen, .opt (.rule parameters), mark .rightParen, .rule block]
  | parameters => .seq name (.many (.seq (mark .comma) name))
  | varDecl => .run [keyword .kVar, name, .opt (.seq (mark .equal) expression), mark .semicolon]
  | statement => anyStatement
  | exprStmt => .seq expression (mark .semicolon)
  | forStmt => .run (forHead ++ [.rule statement])
  | ifStmt => .run (ifHead ++ [.rule statement, .opt (.seq (keyword .kElse) (.rule statement))])
  | printStmt => .run [keyword .kPrint, expression, mark .semicolon]
  | returnStmt => .run [keyword .kReturn, .opt expression, mark .semicolon]
  | whileStmt => .run (whileHead ++ [.rule statement])
  | block => .run [mark .leftBrace, .many (.rule declaration), mark .rightBrace]
  | expr .assignment => .seq (.rule (expr .disjunction)) (.opt (.seq (mark .equal) expression))
  | expr .disjunction => leftAssoc .disjunction .conjunction
  | expr .conjunction => leftAssoc .conjunction .equality
  | expr .equality => leftAssoc .equality .comparison
  | expr .comparison => leftAssoc .comparison .term
  | expr .term => leftAssoc .term .factor
  | expr .factor => leftAssoc .factor .unary
  | expr .unary => .alt (.seq (operator .unary) (.rule (expr .unary))) (.rule (expr .call))
  | expr .call => .seq (.rule (expr .primary)) (.many callSuffix)
  | expr .primary => .choice primaries
  | arguments => .seq expression (.many (.seq (mark .comma) expression))

def language (a : Phrase) : Language Terminal := words relaxed a

theorem language_eq (a : Phrase) : a.language = (relaxed a).lang language := words_eq a

/-- A coarser grammar, in which an `else` may stand between any two statements. -/
def loose : Phrase → Ebnf Terminal Phrase
  | statement => .seq anyStatement (.many (.seq (keyword .kElse) anyStatement))
  | forStmt => .run (forHead ++ [anyStatement])
  | ifStmt => .run (ifHead ++ [anyStatement])
  | whileStmt => .run (whileHead ++ [anyStatement])
  | a => relaxed a

def exprFirst : Level → List Terminal
  | .primary | .call => atoms ++ [.mark .leftParen, .keyword .kSuper]
  | _ => atoms ++ [.mark .leftParen, .keyword .kSuper, .mark .bang, .mark .minus]

def stmtFirst : List Terminal :=
  exprFirst .assignment ++ [.keyword .kFor, .keyword .kIf, .keyword .kPrint, .keyword .kReturn, .keyword .kWhile,
    .mark .leftBrace]

def declFirst : List Terminal := stmtFirst ++ [.keyword .kClass, .keyword .kFun, .keyword .kVar]

def continuing : List Terminal :=
  [.mark .leftParen, .mark .dot, .mark .slash, .mark .star, .mark .minus, .mark .plus, .mark .greater,
    .mark .greaterEqual, .mark .less, .mark .lessEqual, .mark .bangEqual, .mark .equalEqual, .keyword .kAnd,
    .keyword .kOr, .mark .equal]

def exprFollow : Level → List Terminal
  | .primary => []
  | .call | .unary => continuing.take 2
  | .factor => continuing.take 4
  | .term => continuing.take 6
  | .comparison => continuing.take 10
  | .equality => continuing.take 12
  | .conjunction => continuing.take 13
  | .disjunction => continuing.take 14
  | .assignment => continuing

def looseShape : Phrase → Shape Terminal
  | program => ⟨false, .eof :: declFirst, []⟩
  | declaration => ⟨false, declFirst, [.keyword .kElse]⟩
  | classDecl => ⟨false, [.keyword .kClass], []⟩
  | funDecl => ⟨false, [.keyword .kFun], []⟩
  | function => ⟨false, [.identifier], []⟩
  | parameters => ⟨false, [.identifier], [.mark .comma]⟩
  | varDecl => ⟨false, [.keyword .kVar], []⟩
  | statement => ⟨false, stmtFirst, [.keyword .kElse]⟩
  | exprStmt => ⟨false, exprFirst .assignment, []⟩
  | forStmt => ⟨false, [.keyword .kFor], []⟩
  | ifStmt => ⟨false, [.keyword .kIf], []⟩
  | printStmt => ⟨false, [.keyword .kPrint], []⟩
  | returnStmt => ⟨false, [.keyword .kReturn], []⟩
  | whileStmt => ⟨false, [.keyword .kWhile], []⟩
  | block => ⟨false, [.mark .leftBrace], []⟩
  | expr ℓ => ⟨false, exprFirst ℓ, exprFollow ℓ⟩
  | arguments => ⟨false, exprFirst .assignment, .mark .comma :: exprFollow .assignment⟩

theorem fits_loose (a : Phrase) : (looseShape a).Fits (words loose a) := by
  refine fits_words (fun a ↦ ?_) a
  cases a with
  | expr ℓ => cases ℓ <;> decide
  | _ => decide

section

variable {P : Language Terminal}

theorem loose_statement : words loose statement = anyStatement.lang (words loose) *
    (oneOf [.keyword .kElse] * anyStatement.lang (words loose))∗ := words_eq statement

theorem mul_loose_statement_le {H : Language Terminal}
    (h : H * anyStatement.lang (words loose) ≤ anyStatement.lang (words loose)) :
    H * words loose statement ≤ words loose statement := by
  rw [loose_statement, ← mul_assoc]
  exact mul_le_mul_left h _

theorem loose_else_le :
    words loose statement * (oneOf [.keyword .kElse] * words loose statement) ≤ words loose statement := by
  rw [loose_statement]
  generalize anyStatement.lang (words loose) = P
  generalize hK : (oneOf [Terminal.keyword .kElse] * P)∗ = K
  calc P * K * (oneOf [.keyword .kElse] * (P * K))
      = P * (K * (oneOf [.keyword .kElse] * P) * K) := by simp only [mul_assoc]
    _ ≤ P * (K * K) := mul_le_mul_right (mul_le_mul_left (hK ▸ kstar_mul_le_kstar) K) P
    _ = P * K := by rw [← hK, kstar_mul_kstar]

end

def coarse : Phrase → Phrase
  | forStmt | ifStmt | whileStmt => statement
  | a => a

theorem mem_anyStatement {env : Phrase → Language Terminal} {w : List Terminal} :
    w ∈ anyStatement.lang env ↔ ∃ a ∈ statements, w ∈ env a := by
  simp only [anyStatement, Ebnf.mem_lang_choice, List.mem_map, exists_exists_and_eq_and, Ebnf.lang]

theorem language_le (a : Phrase) : language a ≤ words loose a.coarse := by
  suffices h : ∀ a, (relaxed a).lang (fun a ↦ words loose a.coarse) ≤ words loose a.coarse from words_le h a
  intro a
  have hrule {a : Phrase} (hl : (relaxed a).lang (fun a ↦ words loose a.coarse) = (loose a).lang (words loose))
      (hc : a.coarse = a) : (relaxed a).lang (fun a ↦ words loose a.coarse) ≤ words loose a.coarse := by
    rw [hl, hc, ← words_eq]
  have hsimple : anyStatement.lang (words loose) ≤ words loose statement := by
    rw [loose_statement]
    exact le_mul_of_one_le_right' one_le_kstar
  have hhead {a : Phrase} {head : List (Ebnf Terminal Phrase)}
      (h : loose a = .run (head ++ [anyStatement])) (ha : a ∈ statements) :
      (Ebnf.run head).lang (words loose) * words loose statement ≤ words loose statement := by
    refine mul_loose_statement_le fun w hw ↦ mem_anyStatement.2 ⟨a, ha, ?_⟩
    rwa [words_eq a, h, Ebnf.lang_run_concat]
  cases a with
  | statement =>
    refine fun w hw ↦ ?_
    obtain ⟨a, ha, hw⟩ := mem_anyStatement.1 hw
    by_cases hcoarse : a.coarse = a
    · exact hsimple (mem_anyStatement.2 ⟨a, ha, hcoarse ▸ hw⟩)
    · cases a with
      | forStmt | ifStmt | whileStmt => exact hw
      | _ => exact absurd rfl hcoarse
  | forStmt =>
    rw [relaxed, Ebnf.lang_run_concat]
    exact hhead (a := forStmt) rfl (by decide)
  | ifStmt =>
    have hif : (Ebnf.run ifHead).lang (words loose) * words loose statement ≤ words loose statement :=
      hhead (a := ifStmt) rfl (by decide)
    rw [relaxed, Ebnf.lang_run_append, Ebnf.run, Ebnf.run, Ebnf.run, Ebnf.opt]
    simp only [Ebnf.lang, mul_one, mul_add]
    exact add_le ((mul_le_mul_right loose_else_le _).trans hif) hif
  | whileStmt =>
    rw [relaxed, Ebnf.lang_run_concat]
    exact hhead (a := whileStmt) rfl (by decide)
  | expr ℓ => cases ℓ <;> exact hrule rfl rfl
  | _ => exact hrule rfl rfl

/-- How the words of a phrase begin and how they can be continued. -/
def shape : Phrase → Shape Terminal
  | forStmt => ⟨false, [.keyword .kFor], [.keyword .kElse]⟩
  | ifStmt => ⟨false, [.keyword .kIf], [.keyword .kElse]⟩
  | whileStmt => ⟨false, [.keyword .kWhile], [.keyword .kElse]⟩
  | a => looseShape a

theorem fits (a : Phrase) : (shape a).Fits a.language := by
  have hcoarse := (fits_loose a.coarse).mono (language_le a)
  have hkeyword {k : Keyword} {X : Language Terminal} (h : a.language = oneOf [.keyword k] * X)
      (hc : a.coarse = statement) : Shape.Fits ⟨false, [.keyword k], [.keyword .kElse]⟩ a.language := by
    rw [hc] at hcoarse
    refine ⟨⟨hcoarse.nullable, fun t w hw ↦ ?_⟩, hcoarse.follow⟩
    rw [h] at hw
    obtain ⟨_, ⟨k', hk', rfl⟩, v, -, heq⟩ := Language.mem_mul.1 hw
    exact (List.cons.inj heq).1 ▸ hk'
  cases a with
  | forStmt => exact hkeyword (language_eq forStmt) rfl
  | ifStmt => exact hkeyword (language_eq ifStmt) rfl
  | whileStmt => exact hkeyword (language_eq whileStmt) rfl
  | _ => exact hcoarse

theorem exists_mem (a : Phrase) : ∃ w, w ∈ a.language := by
  have h : productive relaxed 14 a = true := by
    cases a with
    | expr ℓ => cases ℓ <;> decide
    | _ => decide
  exact exists_mem_words h

/-- The end of file stands only at the end of a program. -/
theorem eof_notMem {a : Phrase} (ha : a ≠ program) {w : List Terminal} (hw : w ∈ a.language) : .eof ∉ w := by
  have hrule (a : Phrase) : (relaxed a).lang (fun a ↦ {w | a ≠ program → .eof ∉ w}) ≤
      {w | a ≠ program → Terminal.eof ∉ w} := by
    intro w hw ha
    have havoids : (relaxed a).avoids .eof (fun a ↦ decide (a ≠ program)) = true := by
      cases a with
      | program => exact absurd rfl ha
      | expr ℓ => cases ℓ <;> decide
      | _ => decide
    exact Ebnf.notMem_of_avoids (fun a ha w (hw : a ≠ program → Terminal.eof ∉ w) ↦ hw (of_decide_eq_true ha))
      havoids hw
  exact words_le hrule a hw ha

def separated (A B : Ebnf Terminal Phrase) : Bool :=
  A.isPredictive shape && Ebnf.disjoint (A.shape shape).follow (B.shape shape).first

theorem begins (A : Ebnf Terminal Phrase) : (A.shape shape).Begins (A.lang language) :=
  Ebnf.begins_shape (fun a ↦ (fits a).toBegins) A

theorem splits {A B : Ebnf Terminal Phrase} (h : separated A B = true) :
    Splits (A.lang language) (B.lang language) := by
  obtain ⟨hA, hAB⟩ := Bool.and_eq_true_iff.1 h
  exact (apart_of_fits (Ebnf.fits_shape fits hA) (begins B) hAB).splits

/-- The first token tells of which alternative of a rule a word is. -/
theorem cons_mem_language {a : Phrase} {As : List (Ebnf Terminal Phrase)} {A : Ebnf Terminal Phrase}
    {t : Terminal} {w : List Terminal} (ha : relaxed a = .choice As) (i : Nat) (hA : As[i]? = some A)
    (ht : ∀ B ∈ As.eraseIdx i, t ∉ (B.shape shape).first) :
    t :: w ∈ a.language ↔ t :: w ∈ A.lang language := by
  rw [language_eq, ha]
  exact Ebnf.cons_mem_choice (fun a ↦ (fits a).toBegins) hA ht

theorem exists_mem_lang {A : Ebnf Terminal Phrase} (h : A.isProductive (fun _ ↦ true) = true) :
    ∃ w, w ∈ A.lang language := Ebnf.exists_mem_lang (fun a _ ↦ exists_mem a) h

theorem mem_statement {w : List Terminal} : w ∈ statement.language ↔ ∃ a ∈ statements, w ∈ a.language := by
  rw [language_eq]
  exact mem_anyStatement

theorem mem_of_append_mem_statement {a : Phrase} {u v : List Terminal} (ha : a ∈ statements)
    (hu : u ∈ a.language) (huv : u ++ v ∈ statement.language) : u ++ v ∈ a.language := by
  have hdisjoint : ∀ a ∈ statements, (shape a).nullable = false ∧ ∀ b ∈ statements,
      b ≠ a → Ebnf.disjoint (shape b).first (shape a).first = true := by decide
  obtain ⟨b, hb, huv⟩ := mem_statement.1 huv
  cases u with
  | nil => exact absurd ((fits a).nullable hu) (by simp [(hdisjoint a ha).1])
  | cons t u =>
    by_cases hab : b = a
    · exact hab ▸ huv
    · exact absurd ((fits a).first t u hu)
        (Ebnf.disjoint_iff.1 ((hdisjoint a ha).2 b hb hab) t ((fits b).first t _ huv))

/-- What stands in front of the statement inside another one: it is not empty, and one can tell where it
ends. -/
structure IsHead (H : Language Terminal) : Prop where
  ne_nil : ∀ h ∈ H, h ≠ []
  eq_of_append_eq : ∀ h ∈ H, ∀ h' ∈ H, ∀ x x', h ++ x = h' ++ x' → h = h' ∧ x = x'

theorem isHead_run {As : List (Ebnf Terminal Phrase)} (hp : (Ebnf.run As).isPredictive shape = true)
    (hn : ((Ebnf.run As).shape shape).nullable = false) (hf : ((Ebnf.run As).shape shape).follow = []) :
    IsHead ((Ebnf.run As).lang language) := by
  have hfits := Ebnf.fits_shape fits hp
  refine ⟨fun h hh hnil ↦ ?_, fun h hh h' hh' x x' heq ↦ ?_⟩
  · subst hnil
    simp [hfits.nullable hh] at hn
  · have hapart : Apart ((Ebnf.run As).lang language) ⊤ := fun u t v _ hu hv ↦ by
      have ht := hfits.follow u t v hu hv
      rw [hf] at ht
      cases ht
    exact hapart.eq_of_append_eq hh hh' trivial trivial heq

section

variable {H : Language Terminal} {u s v : List Terminal}

/-- An `else` that a statement can be followed by can be made part of it. -/
def TakesElse (u : List Terminal) : Prop :=
  u ∈ statement.language → Viable statement.language (u ++ [.keyword .kElse]) →
    ∀ s ∈ statement.language, u ++ .keyword .kElse :: s ∈ statement.language

theorem viable_concat {L : Language Terminal} {t : Terminal} (h : u ++ t :: v ∈ L) : Viable L (u ++ [t]) :=
  ⟨v, by rwa [List.append_assoc]⟩

theorem loop_append_else (hH : IsHead H) (ih : ∀ b : List Terminal, b.length < u.length → TakesElse b)
    (hu : u ∈ H * statement.language) (hv : u ++ .keyword .kElse :: v ∈ H * statement.language)
    (hs : s ∈ statement.language) : u ++ .keyword .kElse :: s ∈ H * statement.language := by
  obtain ⟨h, hh, b, hb, rfl⟩ := Language.mem_mul.1 hu
  obtain ⟨h', hh', b', hb', heq⟩ := Language.mem_mul.1 hv
  rw [List.append_assoc] at heq
  obtain ⟨rfl, rfl⟩ := hH.eq_of_append_eq h' hh' h hh _ _ heq
  have hlt : b.length < (h' ++ b).length := by
    simpa using List.length_pos_of_ne_nil (hH.ne_nil h' hh)
  rw [List.append_assoc]
  exact Language.append_mem_mul hh (ih b hlt hb (viable_concat hb') s hs)

def elseClause : Language Terminal := oneOf [.keyword .kElse] * statement.language + 1

theorem nil_mem_elseClause : [] ∈ elseClause := .inr Language.nil_mem_one

theorem cons_mem_elseClause {t : Terminal} {w : List Terminal} :
    t :: w ∈ elseClause ↔ t = .keyword .kElse ∧ w ∈ statement.language := by
  rw [elseClause, Language.mem_add, cons_mem_oneOf_mul, List.mem_singleton, Language.mem_one]
  exact or_iff_left (List.cons_ne_nil t w)

theorem cond_append_else (hH : IsHead H) (ih : ∀ b : List Terminal, b.length < u.length → TakesElse b)
    (hu : u ∈ H * (statement.language * elseClause))
    (hv : u ++ .keyword .kElse :: v ∈
      H * (statement.language * elseClause))
    (hs : s ∈ statement.language) : u ++ .keyword .kElse :: s ∈
      H * (statement.language * elseClause) := by
  obtain ⟨h, hh, bo, hbo, rfl⟩ := Language.mem_mul.1 hu
  obtain ⟨h', hh', bo', hbo', heq⟩ := Language.mem_mul.1 hv
  rw [List.append_assoc] at heq
  obtain ⟨rfl, rfl⟩ := hH.eq_of_append_eq h' hh' h hh _ _ heq
  have hpos := List.length_pos_of_ne_nil (hH.ne_nil h' hh)
  rw [List.append_assoc]
  refine Language.append_mem_mul hh ?_
  obtain ⟨b, hb, o, ho, rfl⟩ := Language.mem_mul.1 hbo
  obtain ⟨b', hb', o', ho', heq⟩ := Language.mem_mul.1 hbo'
  cases o with
  | nil =>
    rw [List.append_nil]
    exact Language.append_mem_mul hb (cons_mem_elseClause.2 ⟨rfl, hs⟩)
  | cons _ s₂ =>
    obtain ⟨rfl, hs₂⟩ := cons_mem_elseClause.1 ho
    have hcases : Viable statement.language (s₂ ++ [.keyword .kElse]) ∨
        Viable statement.language (b ++ [.keyword .kElse]) := by
      rw [List.append_assoc] at heq
      rcases List.append_eq_append_iff.1 heq with ⟨c, rfl, rfl⟩ | ⟨c, rfl, hc⟩
      · cases c with
        | nil => exact .inl (viable_concat (cons_mem_elseClause.1 ho').2)
        | cons t c =>
          obtain ⟨rfl, hs₃⟩ := cons_mem_elseClause.1 ho'
          have hlong := ih b' (by simp; omega) hb' (viable_concat hb) _ hs₃
          exact .inr ⟨_, by simpa using hlong⟩
      · cases c with
        | nil =>
          rw [List.nil_append] at hc
          exact .inl (viable_concat (cons_mem_elseClause.1 (hc ▸ ho')).2)
        | cons t c =>
          obtain ⟨rfl, -⟩ := List.cons.inj hc
          exact .inr (viable_concat hb')
    rcases hcases with hlast | hall
    · have hlong := ih s₂ (by simp; omega) hs₂ hlast s hs
      rw [List.append_assoc]
      exact Language.append_mem_mul hb (cons_mem_elseClause.2 ⟨rfl, hlong⟩)
    · exact Language.append_mem_mul (ih b (by simp; omega) hb hall s₂ hs₂) (cons_mem_elseClause.2 ⟨rfl, hs⟩)

/-- An `else` that a statement can be followed by can always be made part of it. -/
theorem takesElse (u : List Terminal) : TakesElse u := by
  induction hn : u.length using Nat.strong_induction_on generalizing u with
  | _ n ih =>
    intro hu ⟨v, hv⟩ s hs
    have ih (b : List Terminal) (hb : b.length < u.length) : TakesElse b := ih _ (hn ▸ hb) b rfl
    obtain ⟨a, ha, hu⟩ := mem_statement.1 hu
    rw [List.append_assoc] at hv
    have hv := mem_of_append_mem_statement ha hu hv
    have helse := (fits a).follow u _ v hu hv
    refine mem_statement.2 ⟨a, ha, ?_⟩
    cases a with
    | forStmt =>
      have hlang : forStmt.language = (Ebnf.run forHead).lang language * statement.language := by
        rw [language_eq, relaxed, Ebnf.lang_run_concat, Ebnf.lang]
      rw [hlang] at hu hv ⊢
      exact loop_append_else (isHead_run (by decide) (by decide) (by decide)) ih hu hv hs
    | whileStmt =>
      have hlang : whileStmt.language = (Ebnf.run whileHead).lang language * statement.language := by
        rw [language_eq, relaxed, Ebnf.lang_run_concat, Ebnf.lang]
      rw [hlang] at hu hv ⊢
      exact loop_append_else (isHead_run (by decide) (by decide) (by decide)) ih hu hv hs
    | ifStmt =>
      have hlang : ifStmt.language = (Ebnf.run ifHead).lang language *
          (statement.language * elseClause) := by
        rw [language_eq, relaxed, Ebnf.lang_run_append]
        simp only [Ebnf.run, Ebnf.opt, Ebnf.lang, keyword, mul_one, elseClause]
      rw [hlang] at hu hv ⊢
      exact cond_append_else (isHead_run (by decide) (by decide) (by decide)) ih hu hv hs
    | program | declaration | classDecl | funDecl | function | parameters | varDecl | statement | expr | arguments =>
      simp [statements] at ha
    | _ => cases helse

/-- An `else` is best read as part of the statement in front of it. -/
theorem splits_else :
    Splits statement.language elseClause := by
  intro u v hu hblocked huv
  have hwhole (h : u ++ v ∈ statement.language) :
      u ∈ statement.language ∧ v ∈ elseClause := by
    cases hblocked.eq_nil ⟨[], by rwa [List.append_nil]⟩
    exact ⟨by rwa [List.append_nil] at h, nil_mem_elseClause⟩
  obtain ⟨a, ha, b, hb, heq⟩ := Language.mem_mul.1 huv
  cases b with
  | nil =>
    rw [List.append_nil] at heq
    exact hwhole (heq ▸ ha)
  | cons t s =>
    obtain ⟨rfl, hs⟩ := cons_mem_elseClause.1 hb
    rcases List.append_eq_append_iff.1 heq with ⟨c, rfl, hc⟩ | ⟨c, rfl, hc⟩
    · cases c with
      | nil =>
        rw [List.nil_append] at hc
        exact ⟨by rwa [List.append_nil], hc ▸ hb⟩
      | cons t c =>
        obtain ⟨rfl, -⟩ := List.cons.inj hc
        refine hwhole (heq ▸ takesElse a ha (Viable.of_append (v := c) ?_) s hs)
        rwa [List.append_assoc]
    · cases c with
      | nil => exact ⟨by rwa [List.append_nil] at ha, hc ▸ hb⟩
      | cons t c =>
        rw [hc] at hblocked
        exact absurd (viable_concat ha) (hblocked t _ rfl)

end

end Phrase

end Grammar

end Lox
