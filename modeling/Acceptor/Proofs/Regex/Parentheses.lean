import Acceptor.Proofs.Regex.Alike
import Acceptor.Proofs.Regex.Fault

/-!
# Parentheses that change nothing

Parentheses may be left out around a part of an alternative that is not repeated, and around all that is
left of a scope where an alternative begins (`Redundant`). The pattern without them is compiled into the
same automaton (`Automaton.ofPattern_without_parentheses`).

In the first case the body of the group is one operand, and without the parentheses there is one operand
after another instead. The branch that reads the body as a scope of its own and the branch that reads it
behind what was read before go together, character by character (`Regex.exists_parse_behind`). In the
second case the group is the whole alternative.

What stands before the parentheses is read in the same way in both texts, by the recursion of
`Regex.parse` (`Regex.exists_parse_of_redundant`). A group that is opened there is closed before the
parentheses in question, or behind them, and then they stand in its body.
-/

namespace Acceptor

variable {limit depth depth' position n : Nat} {u v w cs : List Char} {r r' s : Regex}

/-! ### Texts -/

/-- Outside its own groups the text has no bar. -/
def Undivided (l : List Char) : Prop := ∀ i, l[i]? = some '|' → 0 < depthAt l i

theorem Undivided.of_append {p l : List Char} (h : Undivided (p ++ l)) (hp : balance p = 0) :
    Undivided l := by
  intro i hi
  have hdepth := h (p.length + i) (by rwa [List.getElem?_append_right (Nat.le_add_right ..),
    Nat.add_sub_cancel_left])
  rwa [depthAt_append, hp, Int.zero_add] at hdepth

theorem Undivided.tail {c : Char} {l : List Char} {t : Token} (h : Undivided (c :: l))
    (hc : Token.ofChar c = t) (ht : t.depth? 0 = some 0) : Undivided l := by
  refine h.of_append (p := [c]) ?_
  rw [balance_cons (hc ▸ ht)]
  rfl

theorem Undivided.drop {l : List Char} (h : Undivided ('(' :: l)) (hn : closing? 0 l = some n) :
    Undivided (l.drop (n + 1)) := by
  rw [← List.take_append_drop (n + 1) l, ← List.cons_append] at h
  refine h.of_append ?_
  rw [balance_cons (k := 0) (d := 1) rfl, (balance_of_closing? hn).2.1]
  rfl

theorem depthAt_behind_opening (u l : List Char) (m : Nat) :
    depthAt (u ++ '(' :: l) (u.length + (m + 1)) = balance u + (balance (l.take m) + 1) := by
  rw [depthAt_append, List.take_succ_cons, balance_cons (k := 0) (d := 1) rfl]
  omega

/-- A parenthesis is closed by another if what stands between them is balanced. -/
theorem closes_iff_balanced (u v w : List Char) :
    Closes (u ++ '(' :: (v ++ ')' :: w)) u.length (u.length + v.length + 1) ↔ Balanced v := by
  have hinside (m : Nat) (hm : m ≤ v.length) :
      depthAt (u ++ '(' :: (v ++ ')' :: w)) (u.length + (m + 1)) =
        balance u + (balance (v.take m) + 1) := by
    rw [depthAt_behind_opening, List.take_append_of_le_length hm]
  have hend : depthAt (u ++ '(' :: (v ++ ')' :: w)) (u.length + (v.length + 1 + 1)) =
      balance u + balance v := by
    have hone : balance [')'] = -1 := rfl
    have htake : (v ++ ')' :: w).take (v.length + 1) = v ++ [')'] := List.take_length_add_append ..
    rw [depthAt_behind_opening, htake, balance_append]
    omega
  refine ⟨fun h => ⟨?_, ?_⟩, fun h => ⟨by omega, ?_, ?_, fun m hlt hle => ?_⟩⟩
  · cases hclosing : closing? 0 v with
    | none => rfl
    | some n =>
      have hn := lt_length_of_closing? hclosing
      have hdrop := h.inside (u.length + (n + 1 + 1)) (by omega) (by omega)
      rw [hinside _ hn, depthAt_length, (balance_of_closing? hclosing).2.1] at hdrop
      omega
  · have hbalanced := h.balanced
    rw [Nat.add_assoc, Nat.add_assoc, ← Nat.add_assoc v.length, hend, depthAt_length] at hbalanced
    omega
  · rw [Nat.add_assoc, List.getElem?_append_right (Nat.le_add_right ..), Nat.add_sub_cancel_left,
      List.getElem?_cons_succ, List.getElem?_append_right (Nat.le_refl _), Nat.sub_self]
    rfl
  · rw [Nat.add_assoc, Nat.add_assoc, ← Nat.add_assoc v.length, hend, depthAt_length, h.opened]
    omega
  · obtain ⟨k, rfl⟩ := Nat.exists_eq_add_of_lt hlt
    have hnonneg := balance_of_closing?_eq_none h.closed k
    rw [Nat.add_assoc, hinside k (by omega), depthAt_length]
    omega

/-- A search that passes a balanced text ends before it, or behind it and then behind any other balanced
text in its place. -/
theorem Balanced.closing?_between {g : List Char} (hg : Balanced g)
    (h : closing? 0 (u ++ (g ++ w)) = some n) :
    closing? 0 u = some n ∨ ∃ m, n = u.length + g.length + m ∧
      ∀ v, Balanced v → closing? 0 (u ++ (v ++ w)) = some (u.length + v.length + m) := by
  cases hu : closing? 0 u with
  | some k => exact .inl ((Acceptor.closing?_append hu).symm.trans h)
  | none =>
    have hnonneg := balance_of_closing?_eq_none hu u.length
    rw [List.take_length] at hnonneg
    obtain ⟨d, hd⟩ := Int.eq_ofNat_of_zero_le hnonneg
    have hpast (v : List Char) (hv : Balanced v) :
        closing? 0 (u ++ (v ++ w)) = (closing? d w).map (· + (v.length + u.length)) := by
      rw [closing?_append_of_eq_none hu (by simpa using hd), hv.closing?_append, map_add_map_add]
    rw [hpast g hg] at h
    obtain ⟨m, hm, rfl⟩ := Option.map_eq_some_iff.mp h
    refine .inr ⟨m, by omega, fun v hv => ?_⟩
    rw [hpast v hv, hm, Option.map_some]
    congr 1
    omega

theorem take_past (u g w : List Char) (m : Nat) :
    (u ++ (g ++ w)).take (u.length + g.length + m) = u ++ (g ++ w.take m) := by
  rw [Nat.add_assoc, List.take_length_add_append, List.take_length_add_append]

theorem drop_past (u g w : List Char) (m : Nat) :
    (u ++ (g ++ w)).drop (u.length + g.length + m + 1) = w.drop (m + 1) := by
  rw [Nat.add_assoc, Nat.add_assoc, List.drop_length_add_append, List.drop_length_add_append]

/-! ### Where no repetition follows -/

theorem Unrepeated.take (h : Unrepeated w) (m : Nat) : Unrepeated (w.take m) := by
  intro c hc
  cases m with
  | zero => exact nofun
  | succ m =>
    rw [List.head?_take]
    exact h c hc

namespace Branch

open Regex (join PartAlike exists_join_eq)

variable {b c c' : Branch} {l : Option Regex} {op : Repetition}

/-- Something was read that is not empty. -/
def Filled (b : Branch) : Prop := ∃ r, b.regex? = some r ∧ r ≠ .empty

theorem filled_push (b : Branch) (hr : r ≠ .empty) : (b.push r).Filled := exists_join_eq b.regex? hr

theorem filled_of_repeat? (hop : b.repeat? op = some c) : c.Filled := by
  obtain ⟨r, _, rfl⟩ := repeat?_eq_some_iff.mp hop
  show ∃ s, join (join b.before (some (.repeated r op))) none = some s ∧ s ≠ .empty
  rw [Regex.join_none]
  exact exists_join_eq b.before nofun

theorem Filled.partAlike_group (h : b.Filled) : PartAlike (some (.group b.regex)) b.regex? := by
  obtain ⟨r, hr, hne⟩ := h
  rw [regex, hr]
  exact .some (Regex.alike_group_self hne)

def behind (l : Option Regex) (c : Branch) : Branch := { c with before := join l c.before }

theorem regex?_behind (l : Option Regex) (c : Branch) :
    PartAlike (join l c.regex?) (c.behind l).regex? :=
  Regex.partAlike_join_assoc l c.before c.operand

namespace Alike

theorem push_behind (h : (c.behind l).Alike b) (hr : r.Alike r') :
    ((c.push r).behind l).Alike (b.push r') :=
  ⟨(regex?_behind l c).trans h.regex?, .some hr⟩

theorem repeat?_behind (h : (c.behind l).Alike b) (hop : c.repeat? op = some c') :
    ∃ b', b.repeat? op = some b' ∧ (c'.behind l).Alike b' := by
  obtain ⟨r, hr, rfl⟩ := repeat?_eq_some_iff.mp hop
  obtain ⟨b', hop', hb'⟩ := h.repeat? (repeat?_eq_some_iff.mpr ⟨r, hr, rfl⟩)
  exact ⟨b', hop', (Regex.partAlike_join_assoc ..).trans hb'.before, hb'.operand⟩

end Alike

end Branch

namespace Regex

theorem unrepeated_of_parse (h : parse limit depth position {} v = .ok r) : Unrepeated v := by
  intro c hc hhead
  obtain ⟨op, hop⟩ := Token.isRepetition_iff.mpr (by simpa using hc)
  obtain ⟨v, rfl⟩ := List.head?_eq_some_iff.mp hhead
  rw [parse, hop] at h
  cases h

/-! ### A body without its parentheses -/

/-- A text without alternatives that is read as a scope after `c` is also read where `c` stands behind
`l`, and the rest `w` is then read as if the text had been a group there. -/
theorem exists_parse_behind {b c : Branch} {l : Option Regex} {position' : Nat}
    (hv : Undivided v) (hne : v = [] → c.Filled) (hw : Unrepeated w)
    (hb : (c.behind l).Alike b) (hdepth : depth' ≤ depth)
    (hbody : parse limit depth position c v = .ok s)
    (hrest : parse limit depth' position' { before := join l (some (.group s)) } w = .ok r)
    (position'' : Nat) :
    ∃ r', parse limit depth' position'' b (v ++ w) = .ok r' ∧ r.BuiltAlike r' := by
  fun_induction parse limit depth position c v generalizing b s position'' with
  | case1 depth position c =>
    -- At its end the text is the group that the rest was read after.
    cases hbody
    have hgroup := (PartAlike.refl l).join (hne rfl).partAlike_group
    have hsealed : Branch.Alike { before := join l (some (.group c.regex)) } b.sealed :=
      ⟨hgroup.trans ((Branch.regex?_behind l c).trans hb.regex?), .none⟩
    rw [List.nil_append, ← parse_sealed b hw]
    exact exists_parse_of_alike hsealed (Nat.le_refl _) hrest _
  | case2 depth position c ch v d hc ih =>
    obtain ⟨hliteral, rfl⟩ := Token.ofChar_eq_literal_iff.mp hc
    rw [List.cons_append, parse_literal hliteral]
    exact ih (hv.tail hc rfl) (fun _ => c.filled_push (by simp)) (hb.push_behind (.refl _)) hdepth hbody
      hrest _
  | case3 depth position c ch v op hc c' hop ih =>
    obtain ⟨b', hop', hb'⟩ := hb.repeat?_behind hop
    rw [List.cons_append, Token.eq_toChar hc, parse_repetition hop']
    exact ih (hv.tail hc rfl) (fun _ => Branch.filled_of_repeat? hop) hb' hdepth hbody hrest _
  | case4 => cases hbody
  | case5 depth position c ch v hc ih =>
    have hbar := hv 0 (congrArg some (Token.ofChar_eq_bar_iff.mp hc))
    exact absurd hbar (lt_irrefl _)
  | case6 => cases hbody
  | case7 => cases hbody
  | case8 => cases hbody
  | case9 => cases hbody
  | case10 depth position c ch v hc hlimit n hn body hinner ihbody ih =>
    obtain ⟨body', hinner', hbodies⟩ :=
      exists_parse_of_alike (.refl _) (Nat.succ_le_succ hdepth) hinner (position'' + 1)
    obtain rfl := Token.ofChar_eq_opening_iff.mp hc
    have hlt := lt_length_of_closing? hn
    have htake : (v ++ w).take n = v.take n := List.take_append_of_le_length (Nat.le_of_lt hlt)
    rw [← htake] at hinner'
    rw [List.cons_append, parse_opening (by omega) (closing?_append hn) hinner',
      List.drop_append_of_le_length hlt]
    exact ih (hv.drop hn) (fun _ => c.filled_push (by simp)) (hb.push_behind hbodies.group) hdepth hbody
      hrest _

end Regex

/-! ### Redundant parentheses -/

/-- Parentheses around `v` change nothing between `u` and `w`, where `u` is read after the branch `b`:
they are not repeated, and either the body is undivided, or they are all that stands in a scope from
the beginning of an alternative on. -/
structure Redundant (b : Branch) (u v w : List Char) : Prop where
  balanced : Balanced v
  unrepeated : Unrepeated w
  place : v ≠ [] ∧ Undivided v ∨
    (u = [] ∧ b = {} ∨ u.getLast? = some '(' ∨ u.getLast? = some '|') ∧
      (w = [] ∨ w.head? = some ')')

namespace Redundant

variable {b b' : Branch} {c : Char}

theorem take (h : Redundant b u v w) (m : Nat) : Redundant b u v (w.take m) := by
  refine ⟨h.balanced, h.unrepeated.take m, h.place.imp_right (And.imp_right fun hw => ?_)⟩
  cases m with
  | zero => exact .inl rfl
  | succ m =>
    rcases hw with rfl | hw
    · exact .inl rfl
    · rw [List.head?_take]
      exact .inr hw

/-- The first part of the text before the parentheses may be cut off. What is left is read after some
branch, and after a fresh one if it stands at the beginning of an alternative. -/
theorem behind {p : List Char} (h : Redundant b (p ++ c :: u) v w)
    (hb' : c = '(' ∨ c = '|' → b' = {}) : Redundant b' u v w := by
  refine ⟨h.balanced, h.unrepeated, h.place.imp_right (And.imp_left fun hu => ?_)⟩
  have hlast : (p ++ c :: u).getLast? = some '(' ∨ (p ++ c :: u).getLast? = some '|' :=
    hu.resolve_left fun h => by simp at h
  rw [List.getLast?_append_cons] at hlast
  cases u with
  | nil =>
    refine .inl ⟨rfl, hb' ?_⟩
    simpa using hlast
  | cons d u =>
    rw [List.getLast?_cons_cons] at hlast
    exact .inr hlast

end Redundant

namespace Regex

variable {b b' : Branch} {body : Regex}

theorem exists_parse_of_redundant_here {position₁ position₂ : Nat} (hred : Redundant b [] v w)
    (hb : b.Alike b') (hbody : parse limit (depth + 1) position₁ {} v = .ok body)
    (hrest : parse limit depth position₂ (b.push (.group body)) w = .ok r) (position' : Nat) :
    ∃ r', parse limit depth position' b' (v ++ w) = .ok r' ∧ r.BuiltAlike r' := by
  rcases hred.place with ⟨hne, hv⟩ | ⟨hu, hw⟩
  · -- The operands of the body follow what was read before.
    have hvw : Unrepeated (v ++ w) := by
      intro c hc
      rw [List.head?_append_of_ne_nil _ hne]
      exact unrepeated_of_parse hbody c hc
    have hbehind : (Branch.behind b.regex? {}).Alike b'.sealed := by
      refine ⟨?_, .none⟩
      show PartAlike (join b.regex? none) b'.regex?
      rw [join_none]
      exact hb.regex?
    rw [← parse_sealed _ hred.unrepeated] at hrest
    rw [← parse_sealed _ hvw]
    exact exists_parse_behind hv (fun h => absurd h hne) hred.unrepeated hbehind (Nat.le_succ _) hbody
      hrest position'
  · -- The group is all of the scope that is left.
    obtain rfl : b = {} := by simpa using hu
    rcases hw with rfl | hw
    · rw [parse] at hrest
      cases hrest
      obtain ⟨r', hr', hbuilt⟩ := exists_parse_of_alike hb (Nat.le_succ _) hbody position'
      rw [List.append_nil]
      exact ⟨r', hr', fun A => hbuilt A⟩
    · obtain ⟨w, rfl⟩ := List.head?_eq_some_iff.mp hw
      rw [parse, Token.ofChar_eq_closing_iff.mpr rfl] at hrest
      cases hrest

theorem exists_eq_cons {c : Char} {l : List Char} (h : u ++ ('(' :: l ++ w) = c :: cs)
    (hc : Token.ofChar c ≠ .opening) : ∃ u', u = c :: u' ∧ cs = u' ++ ('(' :: l ++ w) := by
  rcases List.append_eq_cons_iff.mp h with ⟨_, hhere⟩ | hbefore
  · cases hhere
    exact absurd rfl hc
  · exact hbefore

/-- A text with redundant parentheses is read in the same way without them. -/
theorem exists_parse_of_redundant (hred : Redundant b u v w) (hb : b.Alike b')
    (h : parse limit depth position b (u ++ ('(' :: (v ++ [')']) ++ w)) = .ok r) (position' : Nat) :
    ∃ r', parse limit depth position' b' (u ++ (v ++ w)) = .ok r' ∧ r.BuiltAlike r' := by
  generalize htext : u ++ ('(' :: (v ++ [')']) ++ w) = text at h
  fun_induction parse limit depth position b text generalizing u w b' r position' with
  | case1 => simp at htext
  | case2 depth position b c cs d hc ih =>
    obtain ⟨hliteral, rfl⟩ := Token.ofChar_eq_literal_iff.mp hc
    obtain ⟨u, rfl, rfl⟩ := exists_eq_cons htext (by simp [hc])
    rw [List.cons_append, parse_literal hliteral]
    refine ih (hred.behind (p := []) ?_) (hb.push (.refl _)) _ rfl h
    rintro (rfl | rfl) <;> cases hc
  | case3 depth position b c cs op hc b₁ hop ih =>
    obtain ⟨u, rfl, rfl⟩ := exists_eq_cons htext (by simp [hc])
    obtain ⟨b₁', hop', hb₁⟩ := hb.repeat? hop
    rw [List.cons_append, Token.eq_toChar hc, parse_repetition hop']
    refine ih (hred.behind (p := []) ?_) hb₁ _ rfl h
    rintro (rfl | rfl) <;> cases hc
  | case4 => cases h
  | case5 depth position b c cs hc ih =>
    obtain ⟨u, rfl, rfl⟩ := exists_eq_cons htext (by simp [hc])
    rw [List.cons_append, Token.ofChar_eq_bar_iff.mp hc, parse_bar]
    cases hright : parse limit depth (position + 1) {} (u ++ ('(' :: (v ++ [')']) ++ w)) with
    | error e => rw [hright] at h; cases h
    | ok s =>
      rw [hright] at h
      cases h
      have htail : Redundant {} u v w := hred.behind (p := []) fun _ => rfl
      obtain ⟨s', hs', hss⟩ := ih htail (.refl _) (position' + 1) rfl hright
      exact ⟨_, by rw [hs']; rfl, hb.regex.union hss⟩
  | case6 => cases h
  | case7 => cases h
  | case8 => cases h
  | case9 => cases h
  | case10 depth position b c cs hc hlimit n hn body hbody ihbody ih =>
    rcases List.append_eq_cons_iff.mp htext with ⟨rfl, hhere⟩ | ⟨u, rfl, rfl⟩
    · -- the group in question
      rw [List.cons_append, List.append_assoc] at hhere
      obtain ⟨-, rfl⟩ := List.cons.inj hhere
      have hclosing : closing? 0 (v ++ ([')'] ++ w)) = some v.length := by
        rw [hred.balanced.closing?_append]
        exact congrArg some (Nat.zero_add _)
      obtain rfl : v.length = n := Option.some.inj (hclosing.symm.trans hn)
      rw [List.take_left] at hbody
      rw [List.drop_length_add_append] at h
      exact exists_parse_of_redundant_here hred hb hbody h position'
    · obtain rfl := Token.ofChar_eq_opening_iff.mp hc
      rw [List.cons_append]
      rcases hred.balanced.group.closing?_between hn with hu | ⟨m, rfl, hothers⟩
      · -- a group that is closed before
        have hlt := lt_length_of_closing? hu
        obtain ⟨body', hbody', hbodies⟩ :=
          exists_parse_of_alike (.refl _) (Nat.le_refl _) hbody (position' + 1)
        have hbehind : Redundant (b.push (.group body)) (u.drop (n + 1)) v w := by
          rw [eq_append_of_closing? hu] at hred
          exact hred.behind (p := '(' :: u.take n) (by rintro (h | h) <;> cases h)
        have htake (s : List Char) : (u ++ s).take n = u.take n :=
          List.take_append_of_le_length (Nat.le_of_lt hlt)
        rw [htake, ← htake (v ++ w)] at hbody'
        rw [parse_opening (by omega) (closing?_append hu) hbody', List.drop_append_of_le_length hlt]
        exact ih hbehind (hb.push hbodies.group) _ (List.drop_append_of_le_length hlt).symm h
      · -- a group around
        rw [take_past] at hbody ihbody
        rw [drop_past] at h
        have hinner : Redundant {} u v (w.take m) := (hred.behind (p := []) fun _ => rfl).take m
        obtain ⟨body', hbody', hbodies⟩ := ihbody hinner (.refl _) (position' + 1) rfl hbody
        rw [← take_past] at hbody'
        rw [parse_opening (by omega) (hothers v hred.balanced) hbody', drop_past]
        exact exists_parse_of_alike (hb.push hbodies.group) (Nat.le_refl _) h _

end Regex

/-- Without redundant parentheses, a pattern that compiles is compiled into the same automaton. The
parentheses shown belong together and are not repeated. They are redundant if their body is not empty and
has no alternatives outside its own groups, and also if they begin where an alternative begins and end
where its scope ends. -/
theorem Automaton.ofPattern_without_parentheses {A : Automaton}
    (h : ofPattern limit (u ++ '(' :: (v ++ ')' :: w)) = .ok A)
    (hcloses : Closes (u ++ '(' :: (v ++ ')' :: w)) u.length (u.length + v.length + 1))
    (hw : ∀ c ∈ ['*', '+', '?'], w.head? ≠ some c)
    (hplace : v ≠ [] ∧ (∀ i, v[i]? = some '|' → 0 < depthAt v i) ∨
      (u = [] ∨ u.getLast? = some '(' ∨ u.getLast? = some '|') ∧ (w = [] ∨ w.head? = some ')')) :
    ofPattern limit (u ++ v ++ w) = .ok A := by
  have hred : Redundant {} u v w := {
    balanced := (closes_iff_balanced u v w).mp hcloses
    unrepeated := hw
    place := hplace.imp_right (And.imp_left (Or.imp_left fun hu => ⟨hu, rfl⟩)) }
  rw [ofPattern_eq] at h
  cases hparse : Regex.parse limit 0 0 {} (u ++ '(' :: (v ++ ')' :: w)) with
  | error e => rw [hparse] at h; cases h
  | ok r =>
    rw [hparse] at h
    cases h
    have htext : u ++ '(' :: (v ++ ')' :: w) = u ++ ('(' :: (v ++ [')']) ++ w) := by simp
    rw [htext] at hparse
    obtain ⟨r', hr', hbuilt⟩ := Regex.exists_parse_of_redundant hred (.refl _) hparse 0
    rw [List.append_assoc, ofPattern_of_parse hr', ← hbuilt {}]

theorem Automaton.ofPattern_without_parentheses_nested :
    (∃ A, ofPattern 250 "x|(y|z)".toList = .ok A ∧ ofPattern 250 "x|y|z".toList = .ok A) ∧
    (∃ A, ofPattern 250 "(a|(b(|c)*)d)+e".toList = .ok A ∧
      ofPattern 250 "(a|b(|c)*d)+e".toList = .ok A) := by
  have hbar : Regex.parse 250 0 0 {} ("x|".toList ++ '(' :: ("y|z".toList ++ ')' :: [])) =
      .ok (.union (.literal 'x') (.group (.union (.literal 'y') (.literal 'z')))) := by cbv
  let inner : Regex :=
    .concat (.literal 'b') (.repeated (.group (.union .empty (.literal 'c'))) .star)
  let outer : Regex := .union (.literal 'a') (.concat (.group inner) (.literal 'd'))
  have hinner : Regex.parse 250 0 0 {}
      ("(a|".toList ++ '(' :: ("b(|c)*".toList ++ ')' :: "d)+e".toList)) = .ok (.concat (.repeated (.group outer) .plus) (.literal 'e')) := by cbv
  refine ⟨⟨_, ofPattern_of_parse hbar, ?_⟩, ⟨_, ofPattern_of_parse hinner, ?_⟩⟩
  · have hbalanced : Balanced "y|z".toList := ⟨by cbv, by cbv⟩
    have hcloses := (closes_iff_balanced "x|".toList "y|z".toList []).mpr hbalanced
    exact ofPattern_without_parentheses (ofPattern_of_parse hbar) hcloses (by simp)
      (.inr ⟨.inr (.inr rfl), .inl rfl⟩)
  · have hbalanced : Balanced "b(|c)*".toList := ⟨by cbv, by cbv⟩
    have hcloses := (closes_iff_balanced "(a|".toList "b(|c)*".toList "d)+e".toList).mpr hbalanced
    refine ofPattern_without_parentheses (ofPattern_of_parse hinner) hcloses ?_
      (.inl ⟨by decide, fun i hi => ?_⟩)
    · rintro c hc ⟨⟩
      exact absurd hc (by decide)
    have hlt : i < 6 := (List.getElem?_eq_some_iff.mp hi).1
    have hbars : ∀ i < 6, "b(|c)*".toList[i]? = some '|' → 0 < depthAt "b(|c)*".toList i := by decide
    exact hbars i hlt hi

end Acceptor
