import Acceptor.Proofs.Regex.Commands
import Acceptor.Proofs.Regex.Grammar
import Acceptor.Proofs.Regex.Relocation

/-!
# Expressions that are built alike

Different expressions can be built in the same way: a group is built as its body, and it does not
matter how a sequence is associated (`Regex.alike_concat_assoc`). Within a larger expression such
expressions can stand for each other, with one exception: an empty alternative on the left of a union is
built after the right, and a group without content in its place is not (`Regex.Alike`).

A text can be read after alike branches, at other positions and inside fewer groups, and what is read of
it is built alike (`Regex.exists_parse_of_alike`).
-/

namespace Acceptor

/-! ### A transition that is there before -/

theorem Regex.build_connect {A : Automaton} {s t : Nat} (r : Regex) (hs : s < A.size) :
    r.build (A.connect s t) = ((r.build A).1.connect s t, (r.build A).2) := by
  have hfirst := r.build_append (A.connect s t) {}
  have hafter := r.build_append A {}
  rw [Automaton.append_empty] at hfirst hafter
  rw [hfirst, hafter]
  simp only [Automaton.place, Automaton.connect, Automaton.link_append_left hs, Automaton.size_link]

namespace Regex

variable {l l' r r' s : Regex}

/-! ### Alike expressions -/

/-- The same states are added for both expressions, wherever they are built. -/
def BuiltAlike (r s : Regex) : Prop := ∀ A, r.build A = s.build A

/-- Two expressions that can stand for each other in any alternative. -/
structure Alike (r s : Regex) : Prop where
  built : r.BuiltAlike s
  empty_iff : r = .empty ↔ s = .empty

theorem Alike.refl (r : Regex) : r.Alike r := ⟨fun _ => rfl, Iff.rfl⟩

theorem Alike.trans (h : l.Alike r) (h' : r.Alike s) : l.Alike s where
  built A := (h.built A).trans (h'.built A)
  empty_iff := h.empty_iff.trans h'.empty_iff

theorem BuiltAlike.alike (h : r.BuiltAlike s) (hr : r ≠ .empty) (hs : s ≠ .empty) : r.Alike s where
  built := h
  empty_iff := iff_of_false hr hs

theorem alike_group_self (hr : r ≠ .empty) : (group r).Alike r :=
  BuiltAlike.alike (fun _ => rfl) nofun hr

theorem BuiltAlike.group (h : r.BuiltAlike r') : (group r).Alike (group r') :=
  BuiltAlike.alike (fun A => h A) nofun nofun

theorem BuiltAlike.concat (hl : l.BuiltAlike l') (hr : r.BuiltAlike r') :
    (concat l r).Alike (concat l' r') := by
  refine BuiltAlike.alike (fun A => ?_) nofun nofun
  simp only [build, hl A, hr (l'.build A).1]

theorem BuiltAlike.repeated (h : r.BuiltAlike r') (op : Repetition) :
    (repeated r op).Alike (repeated r' op) := by
  refine BuiltAlike.alike (fun A => ?_) nofun nofun
  rw [build, build, h A]

theorem Alike.union (hl : l.Alike l') (hr : r.BuiltAlike r') :
    (union l r).BuiltAlike (union l' r') := by
  intro A
  by_cases hempty : l = .empty
  · rw [hempty, hl.empty_iff.mp hempty, build, build, hr A]
  · rw [build_union hempty, build_union (fun h => hempty (hl.empty_iff.mpr h)), hl.built A, hr]

/-- Associated either way, the second part of three is tied to the first and to the third. -/
theorem alike_concat_assoc (l r s : Regex) :
    (concat l (concat r s)).Alike (concat (concat l r) s) := by
  refine BuiltAlike.alike (fun A => ?_) nofun nofun
  have hstop : (l.build A).2.stop < (r.build (l.build A).1).1.size :=
    Nat.lt_of_lt_of_le (Workspace.lt_size_build l A).2 (Workspace.size_le_build r _)
  -- Tied first to the first part, the second is followed by the third with one transition more around.
  simp only [build, Automaton.concat, build_connect s hstop]
  rw [Automaton.connect, Automaton.connect, Automaton.connect, Automaton.connect, Automaton.link_comm]

end Regex

/-! ### Alike parts of an alternative -/

namespace Regex

variable {x x' y y' z : Option Regex}

def PartAlike (x y : Option Regex) : Prop := Option.Rel Alike x y

theorem PartAlike.refl (x : Option Regex) : PartAlike x x := by
  cases x with
  | none => exact .none
  | some r => exact .some (.refl r)

theorem PartAlike.trans (h : PartAlike x y) (h' : PartAlike y z) : PartAlike x z := by
  cases h with
  | none => exact h'
  | some h =>
    cases h' with
    | some h' => exact .some (h.trans h')

theorem PartAlike.getD (h : PartAlike x y) : (x.getD .empty).Alike (y.getD .empty) := by
  cases h with
  | none => exact .refl _
  | some h => exact h

theorem PartAlike.join (hx : PartAlike x x') (hy : PartAlike y y') :
    PartAlike (join x y) (join x' y') := by
  cases hx with
  | none => exact hy
  | some hx =>
    cases hy with
    | none => exact .some hx
    | some hy => exact .some (hx.built.concat hy.built)

theorem partAlike_join_assoc (x y z : Option Regex) :
    PartAlike (join x (join y z)) (join (join x y) z) := by
  cases x with
  | none => exact .refl _
  | some l =>
    cases y with
    | none => exact .refl _
    | some r =>
      cases z with
      | none => exact .refl _
      | some s => exact .some (alike_concat_assoc l r s)

end Regex

namespace Branch

open Regex (join PartAlike)

variable {b b' : Branch} {r r' : Regex} {op : Repetition}

/-- What was read is alike, and so is what may still be repeated. -/
structure Alike (b b' : Branch) : Prop where
  before : PartAlike b.before b'.before
  operand : PartAlike b.operand b'.operand

namespace Alike

theorem refl (b : Branch) : b.Alike b := ⟨.refl _, .refl _⟩

theorem regex? (h : b.Alike b') : PartAlike b.regex? b'.regex? := h.before.join h.operand

theorem regex (h : b.Alike b') : b.regex.Alike b'.regex := h.regex?.getD

theorem push (h : b.Alike b') (hr : r.Alike r') : (b.push r).Alike (b'.push r') where
  before := h.regex?
  operand := .some hr

theorem repeat? {c : Branch} (h : b.Alike b') (hop : b.repeat? op = some c) :
    ∃ c', b'.repeat? op = some c' ∧ c.Alike c' := by
  obtain ⟨r, hr, rfl⟩ := repeat?_eq_some_iff.mp hop
  have hoperand := h.operand
  rw [hr] at hoperand
  generalize hr' : b'.operand = operand' at hoperand
  cases hoperand with
  | some halike =>
    have hrepeated := h.before.join (.some (halike.built.repeated op))
    exact ⟨_, repeat?_eq_some_iff.mpr ⟨_, hr', rfl⟩, hrepeated, .none⟩

end Alike

end Branch

/-! ### Reading after alike branches -/

namespace Regex

variable {limit depth depth' position n : Nat} {b b' : Branch} {cs : List Char} {r body : Regex}

/-- What is read after a branch is also read after a branch that is alike, at any position and inside
fewer groups. -/
theorem exists_parse_of_alike (hb : b.Alike b') (hdepth : depth' ≤ depth)
    (h : parse limit depth position b cs = .ok r) (position' : Nat) :
    ∃ r', parse limit depth' position' b' cs = .ok r' ∧ r.BuiltAlike r' := by
  fun_induction parse limit depth position b cs generalizing b' depth' position' r with
  | case1 depth position b =>
    cases h
    exact ⟨b'.regex, by rw [parse], hb.regex.built⟩
  | case2 depth position b c cs d hc ih =>
    obtain ⟨hliteral, rfl⟩ := Token.ofChar_eq_literal_iff.mp hc
    rw [parse_literal hliteral]
    exact ih (hb.push (.refl _)) hdepth h _
  | case3 depth position b c cs op hc b₁ hop ih =>
    obtain ⟨b₁', hop', hb₁⟩ := hb.repeat? hop
    rw [Token.eq_toChar hc, parse_repetition hop']
    exact ih hb₁ hdepth h _
  | case4 => cases h
  | case5 depth position b c cs hc ih =>
    rw [Token.ofChar_eq_bar_iff.mp hc, parse_bar]
    cases hright : parse limit depth (position + 1) {} cs with
    | error e => rw [hright] at h; cases h
    | ok s =>
      rw [hright] at h
      cases h
      obtain ⟨s', hs', hss⟩ := ih (.refl _) hdepth hright (position' + 1)
      exact ⟨_, by rw [hs']; rfl, hb.regex.union hss⟩
  | case6 => cases h
  | case7 => cases h
  | case8 => cases h
  | case9 => cases h
  | case10 depth position b c cs hc hlimit n hn body hbody ihbody ih =>
    obtain ⟨body', hbody', hbodies⟩ :=
      ihbody (.refl _) (Nat.succ_le_succ hdepth) hbody (position' + 1)
    rw [Token.ofChar_eq_opening_iff.mp hc, parse_opening (by omega) hn hbody']
    exact ih (hb.push hbodies.group) hdepth h _

end Regex

end Acceptor
