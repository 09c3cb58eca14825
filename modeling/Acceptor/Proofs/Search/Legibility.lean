import Acceptor.Search.Basic
import Mathlib.Data.List.Forall2

/-!
# What a printed trail tells

A line of a printed trail is read from the left: the digits of the source end at the first blank, the
label takes one character, and the digits of the target end with the line (`Step.line_append_inj`). So
no label, whatever its character, is taken for a part of what stands around it, and a printed trail tells
how many steps there are and between which states each of them leads.

It does not tell a silent step from one on the letter `ε`, which is printed for the empty word. The texts
of two trails are equal exactly if nothing else tells their steps apart (`Trail.text_eq_text_iff`).
-/

namespace Acceptor

/-! ### Numbers -/

theorem toDigits_injective {m n : Nat} (h : Nat.toDigits 10 m = Nat.toDigits 10 n) : m = n := by
  calc
    m = Nat.ofDigitChars 10 (Nat.toDigits 10 m) 0 := Nat.ofDigitChars_ten_toDigits.symm
    _ = Nat.ofDigitChars 10 (Nat.toDigits 10 n) 0 := by rw [h]
    _ = n := Nat.ofDigitChars_ten_toDigits

/-- A number that is printed in front of something else ends where the digits end. -/
theorem toDigits_append_inj {m n : Nat} {c d : Char} {x y : List Char} (hc : ¬c.isDigit)
    (hd : ¬d.isDigit) (h : Nat.toDigits 10 m ++ c :: x = Nat.toDigits 10 n ++ d :: y) :
    m = n ∧ c :: x = d :: y := by
  have hdigits : ∀ (k : Nat) {e : Char} (z : List Char), ¬e.isDigit →
      (Nat.toDigits 10 k ++ e :: z).takeWhile Char.isDigit = Nat.toDigits 10 k := by
    intro k e z he
    rw [List.takeWhile_append_of_pos fun a ha =>
      Nat.isDigit_of_mem_toDigits (by decide) (by decide) ha, List.takeWhile_cons_of_neg he,
      List.append_nil]
  have hsame : Nat.toDigits 10 m = Nat.toDigits 10 n := by
    rw [← hdigits m x hc, h, hdigits n y hd]
  rw [hsame] at h
  exact ⟨toDigits_injective hsame, List.append_cancel_left h⟩

/-! ### Labels and steps -/

namespace Label

def glyph : Label → Char
  | epsilon => 'ε'
  | symbol c => c

theorem toList_text (l : Label) : l.text.toList = [l.glyph] := by
  cases l with
  | epsilon => rfl
  | symbol c => exact String.toList_singleton c

/-- The labels are equal, or one of them is silent and the other is the letter that stands for that. -/
def LooksLike (a b : Label) : Prop :=
  a = b ∨ a = epsilon ∧ b = symbol 'ε' ∨ a = symbol 'ε' ∧ b = epsilon

theorem glyph_eq_iff {a b : Label} : a.glyph = b.glyph ↔ a.LooksLike b := by
  cases a <;> cases b <;> simp [glyph, LooksLike, eq_comm]

end Label

namespace Step

/-- The steps lead between the same states, and their labels look alike. -/
def LooksLike (s s' : Step) : Prop :=
  s.source = s'.source ∧ s.label.LooksLike s'.label ∧ s.target = s'.target

def line (s : Step) : List Char :=
  Nat.toDigits 10 s.source ++ ' ' :: '-' :: '-' :: s.label.glyph :: '-' :: '-' :: '>' :: ' ' ::
    (Nat.toDigits 10 s.target ++ ['\n'])

theorem toList_text (s : Step) : (s.text ++ "\n").toList = s.line := by
  have hbefore : (toString " --").toList = [' ', '-', '-'] := rfl
  have hbehind : (toString "--> ").toList = ['-', '-', '>', ' '] := rfl
  simp [text, line, Label.toList_text, hbefore, hbehind]

/-- A line is read without looking at what stands behind it. -/
theorem line_append_inj {s s' : Step} {x y : List Char} (h : s.line ++ x = s'.line ++ y) :
    s.LooksLike s' ∧ x = y := by
  simp only [line, List.append_assoc, List.cons_append, List.nil_append] at h
  obtain ⟨hsource, hrest⟩ := toDigits_append_inj (by decide) (by decide) h
  simp only [List.cons.injEq, true_and] at hrest
  obtain ⟨hglyph, hrest⟩ := hrest
  obtain ⟨htarget, hend⟩ := toDigits_append_inj (by decide) (by decide) hrest
  exact ⟨⟨hsource, Label.glyph_eq_iff.mp hglyph, htarget⟩, List.tail_eq_of_cons_eq hend⟩

theorem LooksLike.line_eq {s s' : Step} (h : s.LooksLike s') : s.line = s'.line := by
  obtain ⟨hsource, hlabel, htarget⟩ := h
  rw [line, line, hsource, Label.glyph_eq_iff.mpr hlabel, htarget]

theorem LooksLike.eq {s s' : Step} (h : s.LooksLike s') (hs : s.label ≠ .symbol 'ε')
    (hs' : s'.label ≠ .symbol 'ε') : s = s' := by
  obtain ⟨hsource, hlabel, htarget⟩ := h
  rcases hlabel with hlabel | ⟨_, hlabel⟩ | ⟨hlabel, _⟩
  · cases s
    cases s'
    cases hsource
    cases hlabel
    cases htarget
    rfl
  · exact absurd hlabel hs'
  · exact absurd hlabel hs

theorem line_ne_nil (s : Step) : s.line ≠ [] := by
  simp [line]

end Step

/-! ### Trails -/

namespace Trail

variable {t u : Trail}

theorem toList_text (t : Trail) : t.text.toList = t.flatMap Step.line := by
  simp only [text, String.toList_join, List.flatMap_map, Step.toList_text]

theorem forall₂_looksLike_of_flatMap_line (h : t.flatMap Step.line = u.flatMap Step.line) :
    List.Forall₂ Step.LooksLike t u := by
  induction t generalizing u with
  | nil =>
    cases u with
    | nil => exact .nil
    | cons s' u =>
      rw [List.flatMap_cons] at h
      exact absurd (List.append_eq_nil_iff.mp h.symm).1 s'.line_ne_nil
  | cons s t ih =>
    cases u with
    | nil =>
      rw [List.flatMap_cons] at h
      exact absurd (List.append_eq_nil_iff.mp h).1 s.line_ne_nil
    | cons s' u =>
      rw [List.flatMap_cons, List.flatMap_cons] at h
      obtain ⟨hstep, hrest⟩ := Step.line_append_inj h
      exact .cons hstep (ih hrest)

theorem flatMap_line_of_forall₂_looksLike (h : List.Forall₂ Step.LooksLike t u) :
    t.flatMap Step.line = u.flatMap Step.line := by
  induction h with
  | nil => rfl
  | cons hstep _ ih => rw [List.flatMap_cons, List.flatMap_cons, hstep.line_eq, ih]

theorem eq_of_forall₂_looksLike (h : List.Forall₂ Step.LooksLike t u)
    (ht : ∀ s ∈ t, s.label ≠ .symbol 'ε') (hu : ∀ s ∈ u, s.label ≠ .symbol 'ε') : t = u := by
  induction h with
  | nil => rfl
  | cons hstep _ ih =>
    rw [List.forall_mem_cons] at ht hu
    rw [hstep.eq ht.1 hu.1, ih ht.2 hu.2]

/-- The texts of two trails are equal exactly if their steps look alike, one by one: they lead between the
same states, and their labels are equal, or else one is silent and the other the letter `ε`. So trails
without a step on this letter have the same text only if they are the same. -/
theorem text_eq_text_iff (t u : Trail) :
    (t.text = u.text ↔ List.Forall₂ Step.LooksLike t u) ∧
      ((∀ s ∈ t ++ u, s.label ≠ .symbol 'ε') → (t.text = u.text ↔ t = u)) := by
  have hiff : t.text = u.text ↔ List.Forall₂ Step.LooksLike t u := by
    rw [← String.toList_inj, toList_text, toList_text]
    exact ⟨forall₂_looksLike_of_flatMap_line, flatMap_line_of_forall₂_looksLike⟩
  refine ⟨hiff, fun hne => ⟨fun htext => ?_, congrArg text⟩⟩
  rw [List.forall_mem_append] at hne
  exact eq_of_forall₂_looksLike (hiff.mp htext) hne.1 hne.2

end Trail

/-! ### Two trails with one text -/

/-- Two states, with a silent transition and one on the letter `ε` from the first to the second, which
accepts. -/
def twinned : Automaton :=
  ((({} : Automaton).addState.addState.connect 0 1).link 0 (.symbol 'ε') 1).accept 1

/-- The empty word and the word `ε` are explained by the same text, but not by the same trail. -/
theorem exists_text_eq_of_trail_ne :
    ∃ r r' : Search, twinned.search none [] = .ok r ∧ twinned.search none ['ε'] = .ok r' ∧
      r.trail.text = r'.trail.text ∧ r.trail ≠ r'.trail := by
  refine ⟨⟨true, [⟨0, .epsilon, 1⟩]⟩, ⟨true, [⟨0, .symbol 'ε', 1⟩]⟩, ?_, ?_, rfl, by decide⟩
  · rw [Automaton.search, Automaton.explore, Automaton.walk_of_enter rfl]
    exact congrArg Exploration.search (Automaton.walk_of_done rfl)
  · -- The silent step is tried first, and left again.
    rw [Automaton.search, Automaton.explore, Automaton.walk_of_enter rfl]
    show (Automaton.walk _ _ _ _).search = _
    rw [Automaton.walk_of_leave rfl, Automaton.walk_of_enter rfl]
    exact congrArg Exploration.search (Automaton.walk_of_done rfl)

end Acceptor
