import Mathlib

open Computability

namespace Lox.Grammar

def oneOf {T : Type} (ts : List T) : Language T := {w | ∃ t ∈ ts, w = [t]}

theorem cons_mem_oneOf_mul {T : Type} {ts : List T} {L : Language T} {t : T} {w : List T} :
    t :: w ∈ oneOf ts * L ↔ t ∈ ts ∧ w ∈ L := by
  refine ⟨fun h ↦ ?_, fun ⟨ht, hw⟩ ↦ Language.mem_mul.2 ⟨[t], ⟨t, ht, rfl⟩, w, hw, rfl⟩⟩
  obtain ⟨_, ⟨t', ht, rfl⟩, v, hv, heq⟩ := Language.mem_mul.1 h
  obtain ⟨rfl, rfl⟩ := List.cons.inj heq
  exact ⟨ht, hv⟩

theorem nil_notMem_oneOf_mul {T : Type} {ts : List T} {L : Language T} : [] ∉ oneOf ts * L := by
  intro h
  obtain ⟨_, ⟨t, _, rfl⟩, v, _, heq⟩ := Language.mem_mul.1 h
  cases heq

/-- The right side of a rule of a grammar, over tokens and names of rules. -/
inductive Ebnf (T N : Type)
  | one (ts : List T)
  | rule (a : N)
  | empty
  | seq (A B : Ebnf T N)
  | alt (A B : Ebnf T N)
  | many (A : Ebnf T N)

namespace Ebnf

variable {T N : Type}

def opt (A : Ebnf T N) : Ebnf T N := alt A empty

def run : List (Ebnf T N) → Ebnf T N
  | [] => empty
  | A :: As => seq A (run As)

def choice : List (Ebnf T N) → Ebnf T N
  | [] => one []
  | A :: As => alt A (choice As)

def lang (env : N → Language T) : Ebnf T N → Language T
  | one ts => oneOf ts
  | rule a => env a
  | empty => 1
  | seq A B => A.lang env * B.lang env
  | alt A B => A.lang env + B.lang env
  | many A => (A.lang env)∗

theorem lang_mono {env env' : N → Language T} (h : ∀ a, env a ≤ env' a) (A : Ebnf T N) :
    A.lang env ≤ A.lang env' := by
  induction A with
  | one | empty => exact le_rfl
  | rule a => exact h a
  | seq A B ihA ihB => exact mul_le_mul' ihA ihB
  | alt A B ihA ihB => exact add_le_add ihA ihB
  | many A ih => exact kstar_mono ih

theorem mem_lang_choice {env : N → Language T} {As : List (Ebnf T N)} {w : List T} :
    w ∈ (choice As).lang env ↔ ∃ A ∈ As, w ∈ A.lang env := by
  induction As with
  | nil =>
    refine ⟨fun ⟨_, h, _⟩ ↦ ?_, fun ⟨_, h, _⟩ ↦ ?_⟩ <;> cases h
  | cons A As ih =>
    rw [choice, lang, Language.mem_add, ih, List.exists_mem_cons_iff]

theorem lang_run_append (env : N → Language T) (As Bs : List (Ebnf T N)) :
    (run (As ++ Bs)).lang env = (run As).lang env * (run Bs).lang env := by
  induction As with
  | nil => exact (one_mul _).symm
  | cons A As ih => rw [List.cons_append, run, lang, ih, run, lang, mul_assoc]

theorem lang_run_concat (env : N → Language T) (As : List (Ebnf T N)) (B : Ebnf T N) :
    (run (As ++ [B])).lang env = (run As).lang env * B.lang env := by
  rw [lang_run_append]
  exact congrArg _ (mul_one _)

theorem lang_many (env : N → Language T) (A : Ebnf T N) :
    (many A).lang env = (alt (seq A (many A)) empty).lang env := by
  simp only [lang]
  rw [add_comm]
  exact (Language.one_add_self_mul_kstar_eq_kstar _).symm

theorem lang_many_seq (env : N → Language T) (A C : Ebnf T N) :
    (seq (many A) C).lang env = (alt (seq A (seq (many A) C)) C).lang env := by
  rw [lang, lang_many]
  simp only [lang, add_mul, one_mul, mul_assoc]

theorem lang_opt_seq (env : N → Language T) (A C : Ebnf T N) :
    (seq (opt A) C).lang env = (alt (seq A C) C).lang env := by
  simp only [opt, lang, add_mul, one_mul]

/-- A list with separators is its first item, or that and a separator and a list. -/
theorem mul_kstar_eq {A c : Language T} : A * (c * (A * (c * A)∗) + 1) = A * (c * A)∗ := by
  rw [← mul_assoc c, add_comm]
  exact congrArg _ (Language.one_add_self_mul_kstar_eq_kstar _)

/-- Whether a right side has a word, by which of the rules have one. -/
def isProductive (known : N → Bool) : Ebnf T N → Bool
  | one ts => !ts.isEmpty
  | rule a => known a
  | empty | many _ => true
  | seq A B => A.isProductive known && B.isProductive known
  | alt A B => A.isProductive known || B.isProductive known

theorem exists_mem_lang {known : N → Bool} {env : N → Language T} (h : ∀ a, known a = true → ∃ w, w ∈ env a)
    {A : Ebnf T N} (hA : A.isProductive known = true) : ∃ w, w ∈ A.lang env := by
  induction A with
  | one ts =>
    cases ts with
    | nil => cases hA
    | cons t ts => exact ⟨[t], t, List.mem_cons_self, rfl⟩
  | rule a => exact h a hA
  | empty => exact ⟨[], Language.nil_mem_one⟩
  | many A => exact ⟨[], Language.nil_mem_kstar _⟩
  | seq A B ihA ihB =>
    obtain ⟨hA, hB⟩ := Bool.and_eq_true_iff.1 hA
    obtain ⟨u, hu⟩ := ihA hA
    obtain ⟨v, hv⟩ := ihB hB
    exact ⟨u ++ v, Language.append_mem_mul hu hv⟩
  | alt A B ihA ihB =>
    rcases Bool.or_eq_true_iff.1 hA with hA | hB
    · obtain ⟨u, hu⟩ := ihA hA
      exact ⟨u, .inl hu⟩
    · obtain ⟨v, hv⟩ := ihB hB
      exact ⟨v, .inr hv⟩

end Ebnf

/-- The words that the rules of a grammar derive with names nested less than `n` deep. -/
def approx {T N : Type} (rules : N → Ebnf T N) : Nat → N → Language T
  | 0, _ => 0
  | n + 1, a => (rules a).lang (approx rules n)

def productive {T N : Type} (rules : N → Ebnf T N) : Nat → N → Bool
  | 0, _ => false
  | n + 1, a => (rules a).isProductive (productive rules n)

def words {T N : Type} (rules : N → Ebnf T N) (a : N) : Language T := {w | ∃ n, w ∈ approx rules n a}

section

variable {T N : Type} {rules : N → Ebnf T N}

theorem approx_le_succ (n : Nat) (a : N) : approx rules n a ≤ approx rules (n + 1) a := by
  induction n generalizing a with
  | zero => exact bot_le
  | succ n ih => exact Ebnf.lang_mono ih (rules a)

theorem approx_mono {n m : Nat} (h : n ≤ m) (a : N) : approx rules n a ≤ approx rules m a :=
  monotone_nat_of_le_succ (f := fun n ↦ approx rules n a) (fun n ↦ approx_le_succ n a) h

theorem lang_approx_mono {n m : Nat} (h : n ≤ m) (A : Ebnf T N) :
    A.lang (approx rules n) ≤ A.lang (approx rules m) := Ebnf.lang_mono (approx_mono h) A

theorem exists_mem_lang_approx {A : Ebnf T N} {w : List T} (h : w ∈ A.lang (words rules)) :
    ∃ n, w ∈ A.lang (approx rules n) := by
  induction A generalizing w with
  | one | empty => exact ⟨0, h⟩
  | rule a => exact h
  | seq A B ihA ihB =>
    obtain ⟨u, hu, v, hv, rfl⟩ := Language.mem_mul.1 h
    obtain ⟨n, hn⟩ := ihA hu
    obtain ⟨m, hm⟩ := ihB hv
    exact ⟨max n m, Language.mem_mul.2 ⟨u, lang_approx_mono (le_max_left n m) A hn, v,
      lang_approx_mono (le_max_right n m) B hm, rfl⟩⟩
  | alt A B ihA ihB =>
    rcases h with h | h
    · obtain ⟨n, hn⟩ := ihA h
      exact ⟨n, .inl hn⟩
    · obtain ⟨n, hn⟩ := ihB h
      exact ⟨n, .inr hn⟩
  | many A ih =>
    obtain ⟨ws, rfl, hws⟩ := h
    have hall : ∃ n, ∀ u ∈ ws, u ∈ A.lang (approx rules n) := by
      induction ws with
      | nil => exact ⟨0, List.forall_mem_nil _⟩
      | cons u ws ihws =>
        obtain ⟨hu, hws⟩ := List.forall_mem_cons.1 hws
        obtain ⟨n, hn⟩ := ih hu
        obtain ⟨m, hm⟩ := ihws hws
        exact ⟨max n m, List.forall_mem_cons.2 ⟨lang_approx_mono (le_max_left n m) A hn,
          fun v hv ↦ lang_approx_mono (le_max_right n m) A (hm v hv)⟩⟩
    obtain ⟨n, hn⟩ := hall
    exact ⟨n, ws, rfl, hn⟩

theorem words_eq (a : N) : words rules a = (rules a).lang (words rules) := by
  refine le_antisymm ?_ fun w hw ↦ ?_
  · rintro w ⟨n, hn⟩
    cases n with
    | zero => cases hn
    | succ n => exact Ebnf.lang_mono (fun _ _ hv ↦ Exists.intro n hv) (rules a) hn
  · obtain ⟨n, hn⟩ := exists_mem_lang_approx hw
    exact ⟨n + 1, hn⟩

theorem exists_mem_words {n : Nat} {a : N} (h : productive rules n a = true) : ∃ w, w ∈ words rules a := by
  induction n generalizing a with
  | zero => cases h
  | succ n ih =>
    rw [words_eq]
    exact Ebnf.exists_mem_lang (fun _ ↦ ih) h

/-- What satisfies the rules has all of their words. -/
theorem words_le {env : N → Language T} (h : ∀ a, (rules a).lang env ≤ env a) (a : N) :
    words rules a ≤ env a := by
  have happrox (n : Nat) : ∀ a, approx rules n a ≤ env a := by
    induction n with
    | zero => exact fun a ↦ bot_le
    | succ n ih => exact fun a ↦ (Ebnf.lang_mono ih (rules a)).trans (h a)
  rintro w ⟨n, hn⟩
  exact happrox n a hn

end

/-- What is known about a language: whether it may have the empty word, the tokens with which a word can
begin, and the tokens with which a word can be continued to a longer one. -/
structure Shape (T : Type) where
  nullable : Bool
  first : List T
  follow : List T

/-- What a shape says about how words begin is true. -/
structure Shape.Begins {T : Type} (τ : Shape T) (L : Language T) : Prop where
  nullable : [] ∈ L → τ.nullable = true
  first : ∀ t w, t :: w ∈ L → t ∈ τ.first

structure Shape.Fits {T : Type} (τ : Shape T) (L : Language T) : Prop extends τ.Begins L where
  follow : ∀ u t v, u ∈ L → u ++ t :: v ∈ L → t ∈ τ.follow

/-- A word can be the beginning of one of the language. -/
def Viable {T : Type} (L : Language T) (w : List T) : Prop := ∃ v, w ++ v ∈ L

/-- One cannot read on in a word, from behind `u` into `v`. -/
def Blocked {T : Type} (L : Language T) (u v : List T) : Prop := ∀ t w, v = t :: w → ¬Viable L (u ++ [t])

/-- Reading a word of `A * B` as far as `A` goes, one comes to where the word of `B` begins. -/
def Splits {T : Type} (A B : Language T) : Prop :=
  ∀ u v, Viable A u → Blocked A u v → u ++ v ∈ A * B → u ∈ A ∧ v ∈ B

/-- No token that continues a word of `A` begins one of `B`. -/
def Apart {T : Type} (A B : Language T) : Prop :=
  ∀ u t v w, u ∈ A → u ++ t :: v ∈ A → t :: w ∉ B

section

variable {T : Type} {A B : Language T} {σ τ : Shape T}

theorem apart_of_fits [DecidableEq T] (hA : σ.Fits A) (hB : τ.Begins B)
    (h : σ.follow.all (· ∉ τ.first) = true) : Apart A B := by
  intro u t v w hu hut ht
  have hnot := List.all_eq_true.1 h t (hA.follow u t v hu hut)
  simp only [decide_eq_true_eq] at hnot
  exact hnot (hB.first t w ht)

theorem Shape.Fits.mono (h : τ.Fits B) (hAB : A ≤ B) : τ.Fits A :=
  ⟨⟨fun hnil ↦ h.nullable (hAB hnil), fun t w hw ↦ h.first t w (hAB hw)⟩,
    fun u t v hu hv ↦ h.follow u t v (hAB hu) (hAB hv)⟩

/-- There is one way to cut a word into a word of `A` and one of `B`. -/
theorem Apart.eq_of_append_eq (h : Apart A B) {a a' b b' : List T} (ha : a ∈ A) (ha' : a' ∈ A) (hb : b ∈ B)
    (hb' : b' ∈ B) (heq : a ++ b = a' ++ b') : a = a' ∧ b = b' := by
  rcases List.append_eq_append_iff.1 heq with ⟨c, rfl, rfl⟩ | ⟨c, rfl, rfl⟩
  · cases c with
    | nil => exact ⟨(List.append_nil a).symm, rfl⟩
    | cons t c => exact absurd hb (h a t c (c ++ b') ha ha')
  · cases c with
    | nil => exact ⟨List.append_nil a', rfl⟩
    | cons t c => exact absurd hb' (h a' t c (c ++ b) ha' ha)

theorem Viable.of_append {L : Language T} {u v : List T} (h : Viable L (u ++ v)) : Viable L u := by
  obtain ⟨w, hw⟩ := h
  exact ⟨v ++ w, by rwa [← List.append_assoc]⟩

theorem Blocked.eq_nil {L : Language T} {u v : List T} (h : Blocked L u v) (huv : Viable L (u ++ v)) :
    v = [] := by
  cases v with
  | nil => rfl
  | cons t v =>
    refine absurd (Viable.of_append (v := v) ?_) (h t v rfl)
    rwa [List.append_assoc]

theorem Blocked.of_head? {L : Language T} {u v v' : List T} (h : Blocked L u v)
    (hv : ∀ t, v'.head? = some t → v.head? = some t) : Blocked L u v' := by
  rintro t w rfl
  obtain ⟨w', rfl⟩ := List.head?_eq_some_iff.1 (hv t rfl)
  exact h t w' rfl

theorem Splits.mem (h : Splits A B) {u v x : List T} (hu : Viable A u) (hb : Blocked A u (v ++ x))
    (huv : u ++ v ∈ A * B) : u ∈ A ∧ v ∈ B := by
  refine h u v hu (hb.of_head? fun t ht ↦ ?_) huv
  rw [List.head?_append, ht]
  rfl

theorem Splits.blocked (h : Splits A B) {u v x : List T} (hu : Viable A u) (hA : Blocked A u (v ++ x))
    (hB : Blocked B v x) : Blocked (A * B) (u ++ v) x := by
  rintro t w rfl ⟨y, hy⟩
  refine hB t w rfl ⟨y, ?_⟩
  rw [List.append_assoc] at hy ⊢
  rw [List.append_assoc] at hy
  refine (h u _ hu (hA.of_head? fun c hc ↦ ?_) hy).2
  cases v with
  | nil => exact hc
  | cons d v => exact hc

theorem Apart.splits (h : Apart A B) : Splits A B := by
  intro u v hu hblocked huv
  obtain ⟨a, ha, b, hb, heq⟩ := Language.mem_mul.1 huv
  rcases List.append_eq_append_iff.1 heq with ⟨c, rfl, rfl⟩ | ⟨c, rfl, rfl⟩
  · cases c with
    | nil => exact ⟨by rwa [List.append_nil], hb⟩
    | cons t c =>
      obtain ⟨w, hw⟩ := hu
      rw [List.append_assoc, List.cons_append] at hw
      exact absurd hb (h a t _ _ ha hw)
  · cases c with
    | nil => exact ⟨by rwa [List.append_nil] at ha, hb⟩
    | cons t c =>
      refine absurd ⟨c, ?_⟩ (hblocked t (c ++ b) rfl)
      rwa [List.append_assoc]

/-- How a word of `A * B` can be continued: behind the word of `B`, or if that is empty, behind the one
of `A`. -/
theorem Apart.follow_mul (h : Apart A B) {u v : List T} {t : T} (hu : u ∈ A * B) (hut : u ++ t :: v ∈ A * B) :
    (∃ b ∈ B, b ++ t :: v ∈ B) ∨ [] ∈ B ∧ ∃ a ∈ A, ∃ v', a ++ t :: v' ∈ A := by
  obtain ⟨a, ha, b, hb, rfl⟩ := Language.mem_mul.1 hu
  obtain ⟨a', ha', b', hb', heq⟩ := Language.mem_mul.1 hut
  rw [List.append_assoc] at heq
  rcases List.append_eq_append_iff.1 heq with ⟨c, rfl, rfl⟩ | ⟨c, rfl, hc⟩
  · cases c with
    | nil => exact .inl ⟨b, hb, hb'⟩
    | cons d c => exact absurd hb' (h a' d c (c ++ (b ++ t :: v)) ha' ha)
  · cases c with
    | nil => exact .inl ⟨b, hb, by rwa [hc]⟩
    | cons d c =>
      cases b with
      | nil =>
        obtain ⟨rfl, -⟩ := List.cons.inj hc
        exact .inr ⟨hb, a, ha, c, ha'⟩
      | cons e b =>
        obtain ⟨rfl, -⟩ := List.cons.inj hc
        exact absurd hb (h a e c b ha ha')

namespace Shape.Begins

theorem one (ts : List T) : Shape.Begins ⟨false, ts, []⟩ (oneOf ts) := by
  refine ⟨fun ⟨_, _, h⟩ ↦ ?_, fun t w ⟨_, ht, h⟩ ↦ ?_⟩
  · cases h
  · cases h
    exact ht

theorem empty : Shape.Begins ⟨true, [], []⟩ (1 : Language T) := by
  refine ⟨fun _ ↦ rfl, fun t w h ↦ ?_⟩
  cases (Language.mem_one _).1 h

theorem mul (hA : σ.Begins A) (hB : τ.Begins B) (ts : List T) :
    Shape.Begins ⟨σ.nullable && τ.nullable, σ.first ++ (if σ.nullable then τ.first else []), ts⟩ (A * B) := by
  refine ⟨fun hnil ↦ ?_, fun t w hw ↦ ?_⟩
  · obtain ⟨a, ha, b, hb, hab⟩ := Language.mem_mul.1 hnil
    obtain ⟨rfl, rfl⟩ := List.append_eq_nil_iff.1 hab
    simp [hA.nullable ha, hB.nullable hb]
  · obtain ⟨a, ha, b, hb, hab⟩ := Language.mem_mul.1 hw
    cases a with
    | nil =>
      have hb : t :: w ∈ B := hab ▸ hb
      simp [hA.nullable ha, hB.first t w hb]
    | cons c a =>
      obtain ⟨rfl, -⟩ := List.cons.inj hab
      exact List.mem_append_left _ (hA.first c a ha)

theorem add (hA : σ.Begins A) (hB : τ.Begins B) (ts : List T) :
    Shape.Begins ⟨σ.nullable || τ.nullable, σ.first ++ τ.first, ts⟩ (A + B) := by
  refine ⟨fun hnil ↦ ?_, fun t w hw ↦ ?_⟩
  · rcases hnil with hnil | hnil
    · simp [hA.nullable hnil]
    · simp [hB.nullable hnil]
  · rcases hw with hw | hw
    · exact List.mem_append_left _ (hA.first t w hw)
    · exact List.mem_append_right _ (hB.first t w hw)

theorem many (hA : σ.Begins A) (ts : List T) : Shape.Begins ⟨true, σ.first, ts⟩ A∗ := by
  refine ⟨fun _ ↦ rfl, ?_⟩
  rintro t w ⟨ws, heq, hws⟩
  induction ws with
  | nil => cases heq
  | cons a ws ih =>
    obtain ⟨ha, hws'⟩ := List.forall_mem_cons.1 hws
    cases a with
    | nil => exact ih heq hws'
    | cons c a =>
      obtain ⟨rfl, -⟩ := List.cons.inj heq
      exact hA.first t a ha

end Shape.Begins

namespace Shape.Fits

theorem one (ts : List T) : Shape.Fits ⟨false, ts, []⟩ (oneOf ts) := by
  refine ⟨.one ts, fun u t v ⟨_, _, hu⟩ ⟨_, _, hv⟩ ↦ ?_⟩
  subst hu
  cases hv

theorem empty : Shape.Fits ⟨true, [], []⟩ (1 : Language T) := by
  refine ⟨.empty, fun u t v _ h ↦ ?_⟩
  exact absurd ((Language.mem_one _).1 h) (by simp)

theorem mul (hA : σ.Fits A) (hB : τ.Fits B) (h : Apart A B) :
    Shape.Fits ⟨σ.nullable && τ.nullable, σ.first ++ (if σ.nullable then τ.first else []),
      τ.follow ++ (if τ.nullable then σ.follow else [])⟩ (A * B) := by
  refine ⟨hA.toBegins.mul hB.toBegins _, fun u t v hu hv ↦ ?_⟩
  rcases h.follow_mul hu hv with ⟨b, hb, hbt⟩ | ⟨hnil, a, ha, v', hat⟩
  · exact List.mem_append_left _ (hB.follow b t v hb hbt)
  · simp [hB.nullable hnil, hA.follow a t v' ha hat]

theorem add (hA : σ.Fits A) (hB : τ.Fits B) (h : ∀ t ∈ σ.first, t ∉ τ.first) :
    Shape.Fits ⟨σ.nullable || τ.nullable, σ.first ++ τ.first,
      σ.follow ++ τ.follow ++ ((if σ.nullable then τ.first else []) ++ if τ.nullable then σ.first else [])⟩
      (A + B) := by
  have hcross {A B : Language T} {σ τ : Shape T} (hA : σ.Begins A) (hB : τ.Begins B)
      (h : ∀ t ∈ σ.first, t ∉ τ.first) {u v : List T} {t : T} (hu : u ∈ A) (hv : u ++ t :: v ∈ B) :
      t ∈ if σ.nullable then τ.first else [] := by
    cases u with
    | nil => simpa [hA.nullable hu] using hB.first t v hv
    | cons c u => exact absurd (hB.first c _ hv) (h c (hA.first c u hu))
  refine ⟨hA.toBegins.add hB.toBegins _, fun u t v hu hv ↦ ?_⟩
  simp only [List.mem_append]
  rcases hu with hu | hu <;> rcases hv with hv | hv
  · exact .inl (.inl (hA.follow u t v hu hv))
  · exact .inr (.inl (hcross hA.toBegins hB.toBegins h hu hv))
  · exact .inr (.inr (hcross hB.toBegins hA.toBegins (fun t ht ht' ↦ h t ht' ht) hu hv))
  · exact .inl (.inr (hB.follow u t v hu hv))

theorem many (hA : σ.Fits A) (hnull : σ.nullable = false) (h : Apart A A) :
    Shape.Fits ⟨true, σ.first, σ.follow ++ σ.first⟩ A∗ := by
  have hne {w : List T} (hw : w ∈ A) : w ≠ [] := by
    rintro rfl
    simp [hA.nullable hw] at hnull
  have hfirst {ws : List (List T)} (hws : ∀ w ∈ ws, w ∈ A) {t : T} {w : List T} (heq : t :: w = ws.flatten) :
      ∃ w' ws', ws = (t :: w') :: ws' := by
    cases ws with
    | nil => cases heq
    | cons a ws =>
      cases a with
      | nil => exact absurd rfl (hne (hws [] List.mem_cons_self))
      | cons c a =>
        obtain ⟨rfl, -⟩ := List.cons.inj heq
        exact ⟨a, ws, rfl⟩
  refine ⟨hA.toBegins.many _, ?_⟩
  rintro u t v ⟨us, rfl, hus⟩ ⟨vs, heq, hvs⟩
  induction us generalizing vs with
  | nil =>
    obtain ⟨w', ws', rfl⟩ := hfirst hvs heq
    exact List.mem_append_right _ (hA.first t w' (hvs _ List.mem_cons_self))
  | cons a us ih =>
    obtain ⟨ha, hus'⟩ := List.forall_mem_cons.1 hus
    obtain ⟨d, a', rfl⟩ := List.exists_cons_of_ne_nil (hne ha)
    obtain ⟨b', vs, rfl⟩ := hfirst hvs heq
    obtain ⟨hb, hvs⟩ := List.forall_mem_cons.1 hvs
    rw [List.flatten_cons, List.flatten_cons, List.append_assoc] at heq
    rcases List.append_eq_append_iff.1 heq with ⟨c, hc, hrest⟩ | ⟨c, hc, hrest⟩
    · cases c with
      | nil =>
        rw [List.nil_append] at hrest
        exact ih hus' vs hrest hvs
      | cons e c =>
        rw [hc] at hb
        cases us with
        | nil =>
          obtain ⟨rfl, -⟩ := List.cons.inj hrest
          exact List.mem_append_left _ (hA.follow _ _ _ ha hb)
        | cons a₂ us =>
          obtain ⟨d₂, a₂, rfl⟩ := List.exists_cons_of_ne_nil (hne (hus' a₂ List.mem_cons_self))
          obtain ⟨rfl, -⟩ := List.cons.inj hrest
          exact absurd (hus' _ List.mem_cons_self) (h _ _ _ _ ha hb)
    · cases c with
      | nil =>
        rw [List.nil_append] at hrest
        exact ih hus' vs hrest.symm hvs
      | cons e c =>
        rw [hc] at ha
        obtain ⟨w', ws', rfl⟩ := hfirst hvs hrest.symm
        exact absurd (hvs _ List.mem_cons_self) (h _ _ _ _ hb ha)

end Shape.Fits

end

namespace Ebnf

variable {T N : Type}

def shape (τ : N → Shape T) : Ebnf T N → Shape T
  | one ts => ⟨false, ts, []⟩
  | rule a => τ a
  | empty => ⟨true, [], []⟩
  | seq A B =>
    let σ := A.shape τ
    let τ := B.shape τ
    ⟨σ.nullable && τ.nullable, σ.first ++ (if σ.nullable then τ.first else []),
      τ.follow ++ (if τ.nullable then σ.follow else [])⟩
  | alt A B =>
    let σ := A.shape τ
    let τ := B.shape τ
    ⟨σ.nullable || τ.nullable, σ.first ++ τ.first,
      σ.follow ++ τ.follow ++ ((if σ.nullable then τ.first else []) ++ if τ.nullable then σ.first else [])⟩
  | many A => ⟨true, (A.shape τ).first, (A.shape τ).follow ++ (A.shape τ).first⟩

theorem begins_shape {τ : N → Shape T} {env : N → Language T} (h : ∀ a, (τ a).Begins (env a))
    (A : Ebnf T N) : (A.shape τ).Begins (A.lang env) := by
  induction A with
  | one ts => exact .one ts
  | rule a => exact h a
  | empty => exact .empty
  | seq A B ihA ihB => exact ihA.mul ihB _
  | alt A B ihA ihB => exact ihA.add ihB _
  | many A ih => exact ih.many _

/-- The first token tells which alternative a word is of. -/
theorem cons_mem_choice {τ : N → Shape T} {env : N → Language T} (h : ∀ a, (τ a).Begins (env a))
    {As : List (Ebnf T N)} {A : Ebnf T N} {i : Nat} {t : T} {w : List T} (hA : As[i]? = some A)
    (ht : ∀ B ∈ As.eraseIdx i, t ∉ (B.shape τ).first) :
    t :: w ∈ (choice As).lang env ↔ t :: w ∈ A.lang env := by
  induction As generalizing i with
  | nil => cases hA
  | cons B As ih =>
    rw [choice, lang, Language.mem_add]
    cases i with
    | zero =>
      cases hA
      refine or_iff_left fun hw ↦ ?_
      obtain ⟨B, hB, hw⟩ := mem_lang_choice.1 hw
      exact ht B hB ((begins_shape h B).first t w hw)
    | succ i =>
      obtain ⟨hB, ht⟩ := List.forall_mem_cons.1 ht
      exact (or_iff_right fun hw ↦ hB ((begins_shape h B).first t w hw)).trans (ih hA ht)

variable [DecidableEq T]

def disjoint (l l' : List T) : Bool := l.all (· ∉ l')

/-- Whether one token is enough to tell how to read a right side. -/
def isPredictive (τ : N → Shape T) : Ebnf T N → Bool
  | one _ | rule _ | empty => true
  | seq A B => A.isPredictive τ && B.isPredictive τ && disjoint (A.shape τ).follow (B.shape τ).first
  | alt A B => A.isPredictive τ && B.isPredictive τ && disjoint (A.shape τ).first (B.shape τ).first
  | many A => A.isPredictive τ && !(A.shape τ).nullable && disjoint (A.shape τ).follow (A.shape τ).first

theorem disjoint_iff {l l' : List T} : disjoint l l' = true ↔ ∀ t ∈ l, t ∉ l' := by
  simp [disjoint]

/-- Whether a token cannot stand in a word, by the rules of which this is known. -/
def avoids (t : T) (known : N → Bool) : Ebnf T N → Bool
  | one ts => t ∉ ts
  | rule a => known a
  | empty => true
  | seq A B | alt A B => A.avoids t known && B.avoids t known
  | many A => A.avoids t known

theorem notMem_of_avoids {t : T} {known : N → Bool} {env : N → Language T}
    (h : ∀ a, known a = true → ∀ w ∈ env a, t ∉ w) {A : Ebnf T N} (hA : A.avoids t known = true) {w : List T}
    (hw : w ∈ A.lang env) : t ∉ w := by
  induction A generalizing w with
  | one ts =>
    obtain ⟨c, hc, rfl⟩ := hw
    rw [List.mem_singleton]
    rintro rfl
    exact absurd hc (by simpa [avoids] using hA)
  | rule a => exact h a hA w hw
  | empty =>
    rw [(Language.mem_one _).1 hw]
    exact List.not_mem_nil
  | seq A B ihA ihB =>
    obtain ⟨hA, hB⟩ := Bool.and_eq_true_iff.1 hA
    obtain ⟨u, hu, v, hv, rfl⟩ := Language.mem_mul.1 hw
    exact fun ht ↦ (List.mem_append.1 ht).elim (ihA hA hu) (ihB hB hv)
  | alt A B ihA ihB =>
    obtain ⟨hA, hB⟩ := Bool.and_eq_true_iff.1 hA
    exact hw.elim (ihA hA) (ihB hB)
  | many A ih =>
    obtain ⟨ws, rfl, hws⟩ := hw
    rw [List.mem_flatten]
    rintro ⟨u, hu, ht⟩
    exact ih hA (hws u hu) ht

theorem fits_shape {τ : N → Shape T} {env : N → Language T} (h : ∀ a, (τ a).Fits (env a)) {A : Ebnf T N}
    (hA : A.isPredictive τ = true) : (A.shape τ).Fits (A.lang env) := by
  induction A with
  | one ts => exact .one ts
  | rule a => exact h a
  | empty => exact .empty
  | seq A B ihA ihB =>
    simp only [isPredictive, Bool.and_eq_true] at hA
    exact (ihA hA.1.1).mul (ihB hA.1.2) (apart_of_fits (ihA hA.1.1) (ihB hA.1.2).toBegins hA.2)
  | alt A B ihA ihB =>
    simp only [isPredictive, Bool.and_eq_true] at hA
    exact (ihA hA.1.1).add (ihB hA.1.2) (disjoint_iff.1 hA.2)
  | many A ih =>
    simp only [isPredictive, Bool.and_eq_true, Bool.not_eq_true'] at hA
    exact (ih hA.1.1).many hA.1.2 (apart_of_fits (ih hA.1.1) (ih hA.1.1).toBegins hA.2)

end Ebnf

def Shape.covers {T : Type} [DecidableEq T] (τ σ : Shape T) : Bool :=
  (!σ.nullable || τ.nullable) && σ.first.all (· ∈ τ.first) && σ.follow.all (· ∈ τ.follow)

theorem Shape.Fits.of_covers {T : Type} [DecidableEq T] {σ τ : Shape T} {L : Language T} (h : σ.Fits L)
    (hτ : τ.covers σ = true) : τ.Fits L := by
  simp only [covers, Bool.and_eq_true, Bool.or_eq_true, Bool.not_eq_true', List.all_eq_true,
    decide_eq_true_eq] at hτ
  obtain ⟨⟨hnull, hfirst⟩, hfollow⟩ := hτ
  refine ⟨⟨fun hnil ↦ ?_, fun t w hw ↦ hfirst t (h.first t w hw)⟩,
    fun u t v hu hv ↦ hfollow t (h.follow u t v hu hv)⟩
  rw [h.nullable hnil] at hnull
  simpa using hnull

/-- The words of a grammar have the shapes that its rules give them, if one token is always enough to
tell how to read on. -/
theorem fits_words {T N : Type} [DecidableEq T] {rules : N → Ebnf T N} {τ : N → Shape T}
    (h : ∀ a, ((rules a).isPredictive τ && (τ a).covers ((rules a).shape τ)) = true) (a : N) :
    (τ a).Fits (words rules a) := by
  have happrox (n : Nat) : ∀ a, (τ a).Fits (approx rules n a) := by
    induction n with
    | zero =>
      have hnone (w : List T) : w ∉ approx rules 0 a := Language.notMem_zero w
      exact fun a ↦ ⟨⟨fun h ↦ absurd h (hnone _), fun _ _ h ↦ absurd h (hnone _)⟩,
        fun _ _ _ h ↦ absurd h (hnone _)⟩
    | succ n ih =>
      intro a
      have ha := Bool.and_eq_true_iff.1 (h a)
      exact (Ebnf.fits_shape ih ha.1).of_covers ha.2
  refine ⟨⟨fun ⟨n, hn⟩ ↦ (happrox n a).nullable hn, fun t w ⟨n, hn⟩ ↦ (happrox n a).first t w hn⟩, ?_⟩
  rintro u t v ⟨n, hn⟩ ⟨m, hm⟩
  exact (happrox (max n m) a).follow u t v (approx_mono (le_max_left n m) a hn)
    (approx_mono (le_max_right n m) a hm)

end Lox.Grammar
