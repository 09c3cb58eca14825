import Acceptor.Proofs.Pattern.Closing
import Acceptor.Proofs.Regex.Shape
import Mathlib.Data.List.Nodup

/-!
# The symbols of a compiled automaton

Of the operations on fragments only `literal` adds a transition on a symbol, and it adds one, out of a
state that is new. So in what is built for an expression no state has two transitions on symbols, and
listed by ascending source they spell the literals of the expression (`Regex.exists_symbolSteps_build`).
Reading a pattern keeps its literals in their order (`Regex.literals_of_parse`).

With the shape of a compiled automaton this is all that its states and transitions have in common,
whatever the pattern (`Automaton.thompson_of_ofPattern`).
-/

namespace Acceptor

/-! ### Literals -/

def Regex.literals : Regex → List Char
  | empty => []
  | literal c => [c]
  | group r => r.literals
  | concat l r => l.literals ++ r.literals
  | union l r => l.literals ++ r.literals
  | repeated r _ => r.literals

/-- The literals of a pattern: all its characters but those that structure it. -/
def literalsOf (pattern : List Char) : List Char := pattern.filter (· ∉ Token.structural)

section literals

variable {c : Char} {cs : List Char} {b b' : Branch} {r : Regex} {op : Repetition}

theorem literalsOf_cons_of_mem (h : c ∈ Token.structural) : literalsOf (c :: cs) = literalsOf cs :=
  List.filter_cons_of_neg (by simpa using h)

theorem literalsOf_cons_of_not_mem (h : c ∉ Token.structural) :
    literalsOf (c :: cs) = c :: literalsOf cs :=
  List.filter_cons_of_pos (by simpa using h)

theorem literalsOf_append (l m : List Char) : literalsOf (l ++ m) = literalsOf l ++ literalsOf m :=
  List.filter_append ..

theorem Branch.literals_push (b : Branch) (r : Regex) :
    (b.push r).regex.literals = b.regex.literals ++ r.literals := by
  unfold Branch.regex Branch.push
  cases hb : b.regex? with
  | none => rfl
  | some l => rfl

theorem Branch.literals_repeat? (h : b.repeat? op = some b') :
    b'.regex.literals = b.regex.literals := by
  obtain ⟨before, operand⟩ := b
  obtain ⟨r, hr, rfl⟩ := Option.map_eq_some_iff.mp h
  obtain rfl : operand = some r := hr
  cases before with
  | none => rfl
  | some l => rfl

theorem Regex.literals_of_parse {limit depth position : Nat}
    (h : parse limit depth position b cs = .ok r) :
    r.literals = b.regex.literals ++ literalsOf cs := by
  fun_induction parse limit depth position b cs generalizing r with
  | case1 depth position b =>
    cases h
    exact (List.append_nil _).symm
  | case2 depth position b c cs d hc ih =>
    obtain ⟨hliteral, rfl⟩ := Token.ofChar_eq_literal_iff.mp hc
    rw [ih h, Branch.literals_push, literalsOf_cons_of_not_mem hliteral, List.append_assoc]
    rfl
  | case3 depth position b c cs op hc b' hop ih =>
    have hmem : c ∈ Token.structural := by
      rw [Token.eq_toChar hc]
      cases op <;> decide
    rw [ih h, Branch.literals_repeat? hop, literalsOf_cons_of_mem hmem]
  | case4 => simp at h
  | case5 depth position b c cs hc ih =>
    cases hr : parse limit depth (position + 1) {} cs with
    | error e => rw [hr] at h; cases h
    | ok r' =>
      rw [hr] at h
      cases h
      have hmem : c ∈ Token.structural := by
        rw [Token.ofChar_eq_bar_iff.mp hc]
        decide
      rw [literals, ih hr, literalsOf_cons_of_mem hmem]
      rfl
  | case6 => simp at h
  | case7 => simp at h
  | case8 => simp at h
  | case9 => simp at h
  | case10 depth position b c cs hc hdepth n hclosing body hbody ihbody ih =>
    have hopening : c ∈ Token.structural := by
      rw [Token.ofChar_eq_opening_iff.mp hc]
      decide
    have hends : ')' ∈ Token.structural := by decide
    have hcs : literalsOf cs = literalsOf (cs.take n) ++ literalsOf (cs.drop (n + 1)) := by
      conv_lhs => rw [eq_append_of_closing? hclosing]
      rw [literalsOf_append, literalsOf_cons_of_mem hends]
    rw [ih h, Branch.literals_push, literals, ihbody hbody, literalsOf_cons_of_mem hopening, hcs,
      List.append_assoc]
    rfl

end literals

namespace Automaton

variable {A B : Automaton} {f g : Fragment} {steps : List Step} {i j : Nat} {c : Char}

/-! ### Transitions on symbols -/

/-- These are the transitions on symbols, by ascending source, and each has a source of its own. -/
structure SymbolSteps (A : Automaton) (steps : List Step) : Prop where
  mem_iff : ∀ s, s ∈ steps ↔ s.label ≠ .epsilon ∧ s.target ∈ A.targets s.source s.label
  ascending : steps.Pairwise (·.source < ·.source)

namespace SymbolSteps

theorem source_lt (h : A.SymbolSteps steps) {s : Step} (hs : s ∈ steps) : s.source < A.size :=
  lt_size_of_mem_targets ((h.mem_iff s).mp hs).2

theorem unique {d : Char} {k : Nat} (h : A.SymbolSteps steps) (hj : j ∈ A.targets i (.symbol c))
    (hk : k ∈ A.targets i (.symbol d)) : c = d ∧ j = k := by
  have hs : ⟨i, .symbol c, j⟩ ∈ steps := (h.mem_iff _).mpr ⟨nofun, hj⟩
  have hs' : ⟨i, .symbol d, k⟩ ∈ steps := (h.mem_iff _).mpr ⟨nofun, hk⟩
  have hnodup : (steps.map Step.source).Nodup :=
    List.pairwise_map.mpr (h.ascending.imp fun hlt => Nat.ne_of_lt hlt)
  cases List.inj_on_of_nodup_map hnodup hs hs' rfl
  exact ⟨rfl, rfl⟩

theorem of_targets_eq (h : A.SymbolSteps steps)
    (htargets : ∀ i c, B.targets i (.symbol c) = A.targets i (.symbol c)) : B.SymbolSteps steps where
  mem_iff s := by
    rw [h.mem_iff]
    cases s.label with
    | epsilon => simp
    | symbol c => rw [htargets]
  ascending := h.ascending

theorem connect (h : A.SymbolSteps steps) (i j : Nat) : (A.connect i j).SymbolSteps steps := by
  apply h.of_targets_eq
  intro k c
  apply Ascending.ext
  simp [Automaton.connect]

theorem addPair (h : A.SymbolSteps steps) : A.addPair.SymbolSteps steps :=
  h.of_targets_eq fun _ _ => targets_addPair

theorem empty (h : A.SymbolSteps steps) : A.empty.1.SymbolSteps steps := h.addPair.connect _ _

theorem concat (h : A.SymbolSteps steps) : (A.concat f g).1.SymbolSteps steps := h.connect _ _

theorem union (h : A.SymbolSteps steps) : (A.union f g).1.SymbolSteps steps :=
  (((h.addPair.connect _ _).connect _ _).connect _ _).connect _ _

theorem plus (h : A.SymbolSteps steps) : (A.plus f).1.SymbolSteps steps :=
  ((h.addPair.connect _ _).connect _ _).connect _ _

theorem repeated (h : A.SymbolSteps steps) (op : Repetition) :
    (A.repeated f op).1.SymbolSteps steps := by
  cases op with
  | star => exact h.plus.connect _ _
  | plus => exact h.plus
  | optional => exact h.connect _ _

theorem literal (h : A.SymbolSteps steps) (c : Char) :
    (A.literal c).1.SymbolSteps (steps ++ [⟨A.size, .symbol c, A.size + 1⟩]) where
  mem_iff s := by
    obtain ⟨i, l, j⟩ := s
    have hnew : A.size < A.addPair.size := by
      rw [size_addPair]
      omega
    simp only [List.mem_append, List.mem_singleton, h.mem_iff, Automaton.literal, newPair,
      mem_targets_link, targets_addPair, Step.mk.injEq]
    constructor
    · rintro (⟨hl, hj⟩ | ⟨rfl, rfl, rfl⟩)
      · exact ⟨hl, .inr hj⟩
      · exact ⟨nofun, .inl ⟨rfl, hnew, rfl, rfl⟩⟩
    · rintro ⟨hl, ⟨rfl, _, rfl, rfl⟩ | hj⟩
      · exact .inr ⟨rfl, rfl, rfl⟩
      · exact .inl ⟨hl, hj⟩
  ascending := by
    refine List.pairwise_append.mpr ⟨h.ascending, List.pairwise_singleton .., ?_⟩
    intro s hs s' hs'
    rw [List.mem_singleton.mp hs']
    exact h.source_lt hs

end SymbolSteps

end Automaton

/-- Building an expression adds transitions on its literals, from left to right. -/
theorem Regex.exists_symbolSteps_build (r : Regex) {A : Automaton} {steps : List Step}
    (h : A.SymbolSteps steps) :
    ∃ more, (r.build A).1.SymbolSteps (steps ++ more) ∧ Trail.consumed more = r.literals := by
  fun_induction Regex.build A r generalizing steps with
  | case1 A => exact ⟨[], by simpa using h.empty, rfl⟩
  | case2 A c => exact ⟨_, h.literal c, rfl⟩
  | case3 A r ih => exact ih h
  | case4 A l r B f hl C g hr ihl ihr =>
    rw [hl] at ihl
    rw [hr] at ihr
    obtain ⟨left, hleft, hl⟩ := ihl h
    obtain ⟨right, hright, hr⟩ := ihr hleft
    refine ⟨left ++ right, ?_, ?_⟩
    · rw [← List.append_assoc]
      exact hright.concat
    · rw [Trail.consumed_append, hl, hr, literals]
  | case5 A r B g hr C f hempty ih =>
    rw [hr] at ih
    obtain ⟨more, hmore, hliterals⟩ := ih h
    have hlast := hmore.empty
    rw [hempty] at hlast
    refine ⟨more, hlast.union, ?_⟩
    rw [hliterals, literals, literals]
    rfl
  | case6 A l r _ B f hl C g hr ihl ihr =>
    rw [hl] at ihl
    rw [hr] at ihr
    obtain ⟨left, hleft, hl⟩ := ihl h
    obtain ⟨right, hright, hr⟩ := ihr hleft
    refine ⟨left ++ right, ?_, ?_⟩
    · rw [← List.append_assoc]
      exact hright.union
    · rw [Trail.consumed_append, hl, hr, literals]
  | case7 A r op B f hr ih =>
    rw [hr] at ih
    obtain ⟨more, hmore, hliterals⟩ := ih h
    exact ⟨more, hmore.repeated op, hliterals⟩

namespace Automaton

variable {A : Automaton} {limit : Nat} {pattern : List Char}

theorem exists_symbolSteps_of_ofPattern (h : ofPattern limit pattern = .ok A) :
    ∃ steps, A.SymbolSteps steps ∧ Trail.consumed steps = literalsOf pattern := by
  rw [ofPattern_eq] at h
  cases hr : Regex.parse limit 0 0 {} pattern with
  | error e => rw [hr] at h; cases h
  | ok r =>
    rw [hr] at h
    cases h
    have hnone : ({} : Automaton).SymbolSteps [] := by
      refine ⟨fun s => ?_, .nil⟩
      simp [targets]
    obtain ⟨steps, hsteps, hliterals⟩ := r.exists_symbolSteps_build hnone
    refine ⟨steps, hsteps.of_targets_eq fun _ _ => targets_finish, ?_⟩
    rw [hliterals, Regex.literals_of_parse hr]
    rfl

/-- A well-formed automaton without useless states, one of which accepts, and whose transitions on
symbols spell a list of literals. -/
structure Thompson (A : Automaton) (literals : List Char) : Prop where
  start_lt : A.start < A.size
  stop_lt : A.stop < A.size
  /-- Transitions lead to states. -/
  target_lt : ∀ i l, ∀ j ∈ A.targets i l, j < A.size
  accepting_iff : ∀ i, A.accepting i ↔ i = A.stop
  start_ne_stop : A.start ≠ A.stop
  /-- No transition enters the start. -/
  fresh : ∀ i l, A.start ∉ A.targets i l
  /-- No transition leaves the stop. -/
  final : ∀ l j, j ∉ A.targets A.stop l
  entered : ∀ i < A.size, A.Leads A.start i
  left : ∀ i < A.size, A.Leads i A.stop
  /-- A state has at most one transition on a symbol. -/
  symbol_unique : ∀ i c d, ∀ j ∈ A.targets i (.symbol c), ∀ k ∈ A.targets i (.symbol d), c = d ∧ j = k
  /-- By ascending source, the transitions on symbols spell the literals. -/
  symbols : ∃ steps : List Step,
    (∀ s, s ∈ steps ↔ s.label ≠ .epsilon ∧ s.target ∈ A.targets s.source s.label) ∧
      steps.Pairwise (·.source < ·.source) ∧ Trail.consumed steps = literals

/-- Every compiled automaton is well formed and trim, and its transitions on symbols are the literals of
the pattern. -/
theorem thompson_of_ofPattern (h : ofPattern limit pattern = .ok A) :
    A.Thompson (literalsOf pattern) := by
  have hcompiled := compiled_of_ofPattern h
  obtain ⟨L, hL⟩ := hcompiled.recognizes
  obtain ⟨steps, hsteps, hliterals⟩ := exists_symbolSteps_of_ofPattern h
  exact {
    start_lt := hL.start_mem
    stop_lt := hL.stop_mem
    target_lt := fun i l j hj => hL.closed i (lt_size_of_mem_targets hj) l j hj
    accepting_iff := hcompiled.accepting_iff
    start_ne_stop := hL.start_ne_stop
    fresh := fun i l hj => hL.fresh i (lt_size_of_mem_targets hj) l hj
    final := hL.final
    entered := hcompiled.trim.entered
    left := hcompiled.trim.left
    symbol_unique := fun i c d j hj k hk => hsteps.unique hj hk
    symbols := ⟨steps, hsteps.mem_iff, hsteps.ascending, hliterals⟩ }

theorem thompson_of_ofPattern_nested :
    ∃ A, ofPattern 250 "((a|)*b|c)+a?".toList = .ok A ∧ A.Thompson ['a', 'b', 'c', 'a'] := by
  let inner : Regex := .concat
    (.repeated (.group (.union (.literal 'a') .empty)) .star) (.literal 'b')
  let r : Regex := .concat
    (.repeated (.group (.union inner (.literal 'c'))) .plus) (.repeated (.literal 'a') .optional)
  have hparse : Regex.parse 250 0 0 {} "((a|)*b|c)+a?".toList = .ok r := by cbv
  have h := ofPattern_of_parse hparse
  have hliterals : literalsOf "((a|)*b|c)+a?".toList = ['a', 'b', 'c', 'a'] := by decide
  exact ⟨_, h, hliterals ▸ thompson_of_ofPattern h⟩

end Automaton

end Acceptor
