import Lox.Tree.Render

namespace Lox

inductive Form where
  | word (text : String)
  | list (items : List Form)

namespace Form

mutual

def text : Form → List Char
  | word w => w.toList
  | list [] => ['(', ')']
  | list (f :: fs) => '(' :: (f.text ++ (textEach fs ++ [')']))

def textEach : List Form → List Char
  | [] => []
  | f :: fs => ' ' :: (f.text ++ textEach fs)

end

def ends (c : Char) : Bool := c == ' ' || c == '(' || c == ')'

def SolidWord (w : String) : Prop := w.toList ≠ [] ∧ ∀ c ∈ w.toList, ends c = false

mutual

def Solid : Form → Prop
  | word w => SolidWord w
  | list fs => SolidEach fs

def SolidEach : List Form → Prop
  | [] => True
  | f :: fs => f.Solid ∧ SolidEach fs

end

/-- Text that may stand behind a form: a blank or a closing parenthesis comes first in it, if anything. -/
def Follows (rest : List Char) : Prop := ∀ c ∈ rest.head?, c = ' ' ∨ c = ')'

theorem follows_textEach (fs : List Form) (rest : List Char) : Follows (textEach fs ++ ')' :: rest) := by
  cases fs <;> simp [Follows, textEach]

theorem takeWhile_word {w : String} (hw : SolidWord w) {rest : List Char} (hrest : Follows rest) :
    (w.toList ++ rest).takeWhile (fun c ↦ !ends c) = w.toList := by
  have hword : ∀ c ∈ w.toList, (!ends c) = true := fun c hc ↦ by rw [hw.2 c hc]; rfl
  rw [List.takeWhile_append_of_pos hword]
  cases rest with
  | nil => rw [List.takeWhile_nil, List.append_nil]
  | cons c rest =>
    have hc : (!ends c) = false := by rcases hrest c rfl with rfl | rfl <;> rfl
    rw [List.takeWhile_cons, hc, if_neg Bool.false_ne_true, List.append_nil]

theorem word_append_inj {w w' : String} (hw : SolidWord w) (hw' : SolidWord w') {rest rest' : List Char}
    (hrest : Follows rest) (hrest' : Follows rest') (h : w.toList ++ rest = w'.toList ++ rest') :
    w = w' ∧ rest = rest' := by
  have hchars : w.toList = w'.toList := by rw [← takeWhile_word hw hrest, h, takeWhile_word hw' hrest']
  rw [hchars] at h
  exact ⟨String.toList_inj.1 hchars, List.append_cancel_left h⟩

theorem exists_text_list (fs : List Form) : ∃ cs, (list fs).text = '(' :: cs := by
  cases fs <;> exact ⟨_, rfl⟩

theorem exists_text_word {w : String} (hw : SolidWord w) : ∃ c cs, (word w).text = c :: cs ∧ ends c = false := by
  obtain ⟨c, cs, hcs⟩ := List.exists_cons_of_ne_nil hw.1
  exact ⟨c, cs, hcs, hw.2 c (hcs ▸ List.mem_cons_self ..)⟩

theorem word_append_ne_list {w : String} (hw : SolidWord w) (fs : List Form) (rest rest' : List Char) :
    (word w).text ++ rest ≠ (list fs).text ++ rest' := by
  obtain ⟨c, cs, hcs, hc⟩ := exists_text_word hw
  obtain ⟨cs', hcs'⟩ := exists_text_list fs
  rw [hcs, hcs']
  intro h
  rw [(List.cons.inj h).1] at hc
  cases hc

theorem text_append_ne_end {f : Form} (hf : f.Solid) (rest rest' : List Char) : f.text ++ rest ≠ ')' :: rest' := by
  intro h
  cases f with
  | word w =>
    obtain ⟨c, cs, hcs, hc⟩ := exists_text_word hf
    rw [hcs] at h
    rw [(List.cons.inj h).1] at hc
    cases hc
  | list fs =>
    obtain ⟨cs, hcs⟩ := exists_text_list fs
    rw [hcs] at h
    exact absurd (List.cons.inj h).1 (by decide)

mutual

/-- Where two forms, with other text behind them, make up the same text, they are the same. -/
theorem text_append_inj : ∀ {f g : Form} {rest rest' : List Char}, f.Solid → g.Solid → Follows rest → Follows rest' →
    f.text ++ rest = g.text ++ rest' → f = g ∧ rest = rest'
  | word w, word w', _, _, hf, hg, hrest, hrest', h => by
    obtain ⟨rfl, hsame⟩ := word_append_inj hf hg hrest hrest' h
    exact ⟨rfl, hsame⟩
  | word _, list gs, _, _, hf, _, _, _, h => absurd h (word_append_ne_list hf gs _ _)
  | list fs, word _, _, _, _, hg, _, _, h => absurd h.symm (word_append_ne_list hg fs _ _)
  | list [], list [], _, _, _, _, _, _, h => by
    simp only [text, List.cons_append, List.nil_append, List.cons.injEq, true_and] at h
    exact ⟨rfl, h⟩
  | list [], list (g :: gs), rest, rest', _, hg, _, _, h => by
    simp only [text, List.cons_append, List.nil_append, List.append_assoc, List.cons.injEq, true_and] at h
    exact absurd h.symm (text_append_ne_end hg.1 _ _)
  | list (f :: fs), list [], rest, rest', hf, _, _, _, h => by
    simp only [text, List.cons_append, List.nil_append, List.append_assoc, List.cons.injEq, true_and] at h
    exact absurd h (text_append_ne_end hf.1 _ _)
  | list (f :: fs), list (g :: gs), rest, rest', hf, hg, _, _, h => by
    simp only [text, List.cons_append, List.nil_append, List.append_assoc, List.cons.injEq, true_and] at h
    obtain ⟨rfl, hitems⟩ := text_append_inj hf.1 hg.1 (follows_textEach fs rest) (follows_textEach gs rest') h
    obtain ⟨rfl, hsame⟩ := textEach_append_inj hf.2 hg.2 hitems
    exact ⟨rfl, hsame⟩

theorem textEach_append_inj : ∀ {fs gs : List Form} {rest rest' : List Char}, SolidEach fs → SolidEach gs →
    textEach fs ++ ')' :: rest = textEach gs ++ ')' :: rest' → fs = gs ∧ rest = rest'
  | [], [], _, _, _, _, h => ⟨rfl, (List.cons.inj h).2⟩
  | [], _ :: _, _, _, _, _, h => absurd (List.cons.inj h).1 (by decide)
  | _ :: _, [], _, _, _, _, h => absurd (List.cons.inj h).1 (by decide)
  | f :: fs, g :: gs, rest, rest', hf, hg, h => by
    simp only [textEach, List.cons_append, List.append_assoc, List.cons.injEq, true_and] at h
    obtain ⟨rfl, hitems⟩ := text_append_inj hf.1 hg.1 (follows_textEach fs rest) (follows_textEach gs rest') h
    obtain ⟨rfl, hsame⟩ := textEach_append_inj hf.2 hg.2 hitems
    exact ⟨rfl, hsame⟩

end

theorem text_inj {f g : Form} (hf : f.Solid) (hg : g.Solid) (h : f.text = g.text) : f = g := by
  have hends : Follows [] := by simp [Follows]
  exact (text_append_inj hf hg hends hends (congrArg (· ++ []) h)).1

end Form

end Lox
