import Acceptor.Matcher
import Acceptor.Proofs.Regex.Grammar
import Acceptor.Proofs.Search.Invariant
import Acceptor.Proofs.Table.Matching

/-!
# What a matcher answers

A table and a search both answer whether the automaton accepts an input, each by its own invariant, so
they agree on every automaton (`search_agrees_with_table`). The automaton of a pattern accepts the
language that the grammar gives to the pattern. Hence both answers of a matcher are right whatever the
options are, and options can only keep it from answering (`isMatch_and_search_correct`).
-/

namespace Acceptor

/-! ### Two ways to match -/

/-- A table for all symbols and a search without a limit always answer, and they answer the same. -/
theorem Automaton.search_agrees_with_table (A : Automaton) (input : List Char) :
    ∃ T r b, A.table none none = .ok T ∧ A.search none input = .ok r ∧
      T.isMatch input = .ok b ∧ b = r.accepted := by
  obtain ⟨T, hT⟩ := exists_table_eq_ok A none
  obtain ⟨b, hb⟩ := exists_isMatch_of_table hT input
  rcases A.search_eq_ok_or none input with ⟨r, hr⟩ | ⟨l, hl, _⟩
  · refine ⟨T, r, b, hT, hr, hb, ?_⟩
    rw [Bool.eq_iff_iff, accepts_iff_of_isMatch hT hb, accepted_iff_accepts hr]
  · simp at hl

/-! ### The last setting of an option -/

namespace Options

/-- An option has the value of its last setting, or the one that it had before if it is never set. -/
theorem eq_of_setAll {α : Type} {option : Options → α} {value : Setting → Option α}
    (hset : ∀ o x, option (o.set x) = (value x).getD (option o)) {o : Options} {a : α}
    {settings : List Setting} (h : option (o.setAll settings) = a) :
    (∃ before x after, settings = before ++ x :: after ∧ value x = some a ∧
      ∀ y ∈ after, value y = none) ∨ option o = a ∧ ∀ y ∈ settings, value y = none := by
  induction settings generalizing o with
  | nil => exact .inr ⟨h, fun y hy => absurd hy List.not_mem_nil⟩
  | cons x settings ih =>
    rcases ih h with ⟨before, y, after, rfl, hy, hafter⟩ | ⟨heq, hnone⟩
    · exact .inl ⟨x :: before, y, after, rfl, hy, hafter⟩
    · rw [hset] at heq
      cases hx : value x with
      | some b =>
        rw [hx] at heq
        obtain rfl : b = a := heq
        exact .inl ⟨[], x, settings, rfl, hx, hnone⟩
      | none =>
        rw [hx] at heq
        refine .inr ⟨heq, fun y hy => ?_⟩
        rcases List.mem_cons.mp hy with rfl | hy
        · exact hx
        · exact hnone y hy

variable {settings : List Setting}

theorem alphabet?_setAll {S : Alphabet} (h : (setAll {} settings).alphabet? = some S) :
    ∃ before after, settings = before ++ .alphabet S :: after ∧ ∀ T, .alphabet T ∉ after := by
  let value : Setting → Option (Option Alphabet)
    | .alphabet S => some (some S)
    | _ => none
  have hset : ∀ (o : Options) x, (o.set x).alphabet? = (value x).getD o.alphabet? := by
    intro o x
    cases x <;> rfl
  rcases eq_of_setAll hset h with ⟨before, x, after, rfl, hx, hafter⟩ | ⟨hnone, _⟩
  · cases x with
    | alphabet T =>
      cases hx
      refine ⟨before, after, rfl, fun T hT => ?_⟩
      cases hafter _ hT
    | _ => simp at hx
  · simp at hnone

theorem stepLimit_setAll {l : Nat} (h : (setAll {} settings).stepLimit = some l) :
    ∃ before after, settings = before ++ .stepLimit (some l) :: after ∧
      ∀ k, .stepLimit k ∉ after := by
  let value : Setting → Option Limit
    | .stepLimit k => some k
    | _ => none
  have hset : ∀ (o : Options) x, (o.set x).stepLimit = (value x).getD o.stepLimit := by
    intro o x
    cases x <;> rfl
  rcases eq_of_setAll hset h with ⟨before, x, after, rfl, hx, hafter⟩ | ⟨hnone, _⟩
  · cases x with
    | stepLimit k =>
      cases hx
      refine ⟨before, after, rfl, fun k hk => ?_⟩
      cases hafter _ hk
    | _ => simp at hx
  · simp at hnone

end Options

/-! ### Matchers -/

namespace Matcher

variable {o : Options} {pattern input : String} {m : Matcher} {settings : List Setting}

theorem build_eq_ok (h : build o pattern = .ok m) :
    Automaton.ofPattern o.nestLimit pattern.toList = .ok m.automaton ∧
      m.automaton.table o.alphabet? o.stateLimit = .ok m.table ∧ m.stepLimit = o.stepLimit := by
  unfold build at h
  obtain ⟨A, hA, h⟩ := bind_eq_ok.mp h
  obtain ⟨T, hT, h⟩ := bind_eq_ok.mp h
  cases h
  exact ⟨mapError_eq_ok_iff.mp hA, mapError_eq_ok_iff.mp hT, rfl⟩

theorem exists_build_eq_ok {A : Automaton} (hlimit : o.stateLimit = none)
    (h : Automaton.ofPattern o.nestLimit pattern.toList = .ok A) : ∃ m, build o pattern = .ok m := by
  unfold build
  obtain ⟨T, hT⟩ := Automaton.exists_table_eq_ok A o.alphabet?
  refine exists_bind_eq_ok (mapError_eq_ok_iff.mpr h) ?_
  rw [hlimit]
  exact exists_bind_eq_ok (mapError_eq_ok_iff.mpr hT) ⟨_, rfl⟩

theorem accepts_iff (h : build o pattern = .ok m) (w : List Char) :
    m.automaton.Accepts w ↔ w ∈ patternLanguage pattern.toList := by
  obtain ⟨r, hr, hlanguage⟩ := Automaton.exists_parse_of_ofPattern (build_eq_ok h).1
  rw [patternLanguage_eq hr]
  exact hlanguage w

/-- However the options are set, every answer of a matcher is right. The table gives no answer only if
the input holds a symbol outside the last alphabet set, and the search only if the last step limit set
is a number. -/
theorem isMatch_and_search_correct (h : build (Options.setAll {} settings) pattern = .ok m)
    (input : String) :
    (∀ b, m.isMatch input = .ok b → (b ↔ input.toList ∈ patternLanguage pattern.toList)) ∧
    (∀ r, m.search input = .ok r →
      (r.accepted ↔ input.toList ∈ patternLanguage pattern.toList)) ∧
    (∀ e, m.isMatch input = .error e → ∃ before S after,
      settings = before ++ .alphabet S :: after ∧ (∀ T, .alphabet T ∉ after) ∧
        ∃ c ∈ input.toList, c ∉ S) ∧
    (∀ e, m.search input = .error e → ∃ before l after,
      settings = before ++ .stepLimit (some l) :: after ∧ ∀ k, .stepLimit k ∉ after) := by
  obtain ⟨_, htable, hlimit⟩ := build_eq_ok h
  refine ⟨?_, ?_, ?_, ?_⟩
  · intro b hb
    rw [← accepts_iff h]
    exact Automaton.accepts_iff_of_isMatch htable (mapError_eq_ok_iff.mp hb)
  · intro r hr
    rw [← accepts_iff h]
    exact Automaton.accepted_iff_accepts (mapError_eq_ok_iff.mp hr)
  · intro e he
    rcases Automaton.isMatch_of_table htable input.toList with ⟨hok, _⟩ | ⟨_, _, hrefused⟩
    · rw [isMatch, hok] at he
      cases he
    · obtain ⟨S, hS, hforeign⟩ := hrefused.exists_foreign
      obtain ⟨before, after, hsettings, hafter⟩ := Options.alphabet?_setAll hS
      exact ⟨before, S, after, hsettings, hafter, hforeign⟩
  · intro e he
    rcases m.automaton.search_eq_ok_or m.stepLimit input.toList with ⟨r, hok⟩ | ⟨l, hl, _⟩
    · rw [search, hok] at he
      cases he
    · obtain ⟨before, after, hsettings, hafter⟩ := Options.stepLimit_setAll (hlimit ▸ hl)
      exact ⟨before, l, after, hsettings, hafter⟩

theorem isMatch_and_search_correct_repeated :
    ∃ settings m, settings = [.nestLimit 1, .alphabet .classic, .stateLimit none, .stepLimit (some 90)] ∧
    build (Options.setAll {} settings) "(a|b)*c?" = .ok m ∧
    (∀ b, m.isMatch "abbac" = .ok b →
      (b ↔ "abbac".toList ∈ patternLanguage "(a|b)*c?".toList)) ∧
    (∀ r, m.search "abbac" = .ok r →
      (r.accepted ↔ "abbac".toList ∈ patternLanguage "(a|b)*c?".toList)) ∧
    (∀ e, m.isMatch "abbac" = .error e → ∃ before S after,
      settings = before ++ .alphabet S :: after ∧ (∀ T, .alphabet T ∉ after) ∧
        ∃ c ∈ "abbac".toList, c ∉ S) ∧
    (∀ e, m.search "abbac" = .error e → ∃ before l after,
      settings = before ++ .stepLimit (some l) :: after ∧ ∀ k, .stepLimit k ∉ after) := by
  let r : Regex := .concat (.repeated (.group (.union (.literal 'a') (.literal 'b'))) .star)
    (.repeated (.literal 'c') .optional)
  have hparse : Regex.parse 1 0 0 {} "(a|b)*c?".toList = .ok r := by cbv
  obtain ⟨m, hm⟩ := exists_build_eq_ok (o := Options.setAll {}
    [.nestLimit 1, .alphabet .classic, .stateLimit none, .stepLimit (some 90)]) rfl
    (Automaton.ofPattern_of_parse hparse)
  exact ⟨_, m, rfl, hm, isMatch_and_search_correct hm "abbac"⟩

end Matcher

end Acceptor
