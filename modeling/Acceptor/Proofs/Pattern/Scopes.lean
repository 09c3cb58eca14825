import Acceptor.Proofs.Pattern.Closing

/-!
# Scopes and their alternatives

A pattern is a scope, and so is the body of each of its groups (`scopes`). The bars of a scope that
stand in none of its groups divide it into alternatives (`alternatives`), one more than there are such
bars (`length_alternatives`).

An alternative begins where its scope does or behind a bar, and it ends where its scope does or in front
of a bar. So an alternative is empty where something of the one kind stands next to something of the
other, and these places can be counted without a look at scopes (`gaps`, `emptyAlternatives_eq_gaps`).
The proof is by induction on texts whose parentheses match (`Balanced.nested`): past a group, the
alternatives of a scope go on as if the group were a single character (`alternatives_group`).
-/

namespace Acceptor

variable {c : Char} {d k n : Nat} {l m p s t : List Char}

/-! ### Balanced texts -/

theorem Token.depth?_of_ne (hopening : c ≠ '(') (hclosing : c ≠ ')') (k : Nat) :
    (ofChar c).depth? k = some k := by
  cases ht : ofChar c with
  | opening => exact absurd (ofChar_eq_opening_iff.mp ht) hopening
  | closing => exact absurd (ofChar_eq_closing_iff.mp ht) hclosing
  | bar | repetition op | literal d => rfl

theorem balanced_take_of_closing? (h : closing? 0 l = some n) : Balanced (l.take n) where
  closed := by
    cases hclosing : closing? 0 (l.take n) with
    | none => rfl
    | some j =>
      have hj := closing?_append (s := l.drop n) hclosing
      rw [List.take_append_drop, h] at hj
      have hlt := lt_length_of_closing? hclosing
      rw [List.length_take, ← Option.some.inj hj] at hlt
      omega
  opened := by
    obtain ⟨hget, hbalance, _⟩ := balance_of_closing? h
    have hone : balance [')'] = -1 := rfl
    rw [List.take_add_one, hget, balance_append, Option.toList_some, hone] at hbalance
    omega

namespace Balanced

theorem nil : Balanced [] := ⟨rfl, rfl⟩

theorem tail (h : Balanced (c :: l)) (hopening : c ≠ '(') (hclosing : c ≠ ')') : Balanced l := by
  have hdepth := Token.depth?_of_ne hopening hclosing 0
  obtain ⟨hclosed, hopened⟩ := h
  rw [closing?_cons, hdepth] at hclosed
  rw [balance_cons hdepth] at hopened
  exact ⟨Option.map_eq_none_iff.mp hclosed, by omega⟩

theorem closing?_group (h : Balanced l) (m : List Char) :
    closing? 0 (l ++ ')' :: m) = some l.length := by
  rw [h.closing?_append, closing?_cons]
  exact congrArg some (Nat.zero_add _)

theorem exists_eq_append (h : Balanced ('(' :: l)) :
    ∃ body rest, l = body ++ ')' :: rest ∧ Balanced body ∧ Balanced rest := by
  obtain ⟨hclosed, hopened⟩ := h
  rw [balance_cons (k := 0) (d := 1) rfl] at hopened
  cases hn : closing? 0 l with
  | none =>
    have hnonneg := balance_of_closing?_eq_none hn l.length
    rw [List.take_length] at hnonneg
    omega
  | some n =>
    have hbody := balanced_take_of_closing? hn
    have hl := eq_append_of_closing? hn
    refine ⟨_, _, hl, hbody, ?_, ?_⟩
    · have hpast : closing? 1 l = none := Option.map_eq_none_iff.mp hclosed
      rw [closing?_succ, hn] at hpast
      exact Option.map_eq_none_iff.mp hpast
    · have hone : balance [')'] = -1 := rfl
      rw [hl, balance_append, hbody.opened, ← List.singleton_append, balance_append, hone] at hopened
      omega

end Balanced

/-- The text is a sequence of groups and of characters that are no parentheses. -/
inductive Nested : List Char → Prop
  | nil : Nested []
  | cons {c : Char} {l : List Char} : c ≠ '(' → c ≠ ')' → Nested l → Nested (c :: l)
  | group {l m : List Char} : Balanced l → Nested l → Nested m → Nested ('(' :: (l ++ ')' :: m))

theorem Balanced.nested {l : List Char} (h : Balanced l) : Nested l := by
  match l with
  | [] => exact .nil
  | c :: l =>
    by_cases hopening : c = '('
    · subst hopening
      obtain ⟨body, rest, hl, hbody, hrest⟩ := h.exists_eq_append
      have hlength : l.length = body.length + (rest.length + 1) := by
        rw [hl, List.length_append, List.length_cons]
      have hbody' := hbody.nested
      have hrest' := hrest.nested
      exact hl ▸ .group hbody hbody' hrest'
    · have hclosing : c ≠ ')' := by
        rintro rfl
        cases h.closed
      exact .cons hopening hclosing (h.tail hopening hclosing).nested
termination_by l.length
decreasing_by
  all_goals simp only [List.length_cons]
  all_goals omega

/-! ### Scopes -/

/-- The bodies of the groups of a text, each in front of those inside it. -/
def groupBodies : List Char → List (List Char)
  | [] => []
  | c :: cs =>
    if c = '(' then ((closing? 0 cs).map cs.take).toList ++ groupBodies cs else groupBodies cs

def scopes (p : List Char) : List (List Char) := p :: groupBodies p

/-- The text stands between parentheses of the pattern that belong together. -/
theorem mem_groupBodies_iff :
    t ∈ groupBodies p ↔ ∃ u v, p = u ++ '(' :: (t ++ ')' :: v) ∧ Balanced t := by
  induction p with
  | nil => simp [groupBodies]
  | cons c cs ih =>
    have hbehind : (∃ u v, cs = u ++ '(' :: (t ++ ')' :: v) ∧ Balanced t) ↔
        ∃ u v, c :: cs = c :: u ++ '(' :: (t ++ ')' :: v) ∧ Balanced t := by
      simp only [List.cons_append, List.cons.injEq, true_and]
    have hfront : t ∈ ((closing? 0 cs).map cs.take).toList ↔
        ∃ v, cs = t ++ ')' :: v ∧ Balanced t := by
      rw [Option.mem_toList, Option.map_eq_some_iff]
      constructor
      · rintro ⟨n, hn, rfl⟩
        exact ⟨_, eq_append_of_closing? hn, balanced_take_of_closing? hn⟩
      · rintro ⟨v, rfl, ht⟩
        exact ⟨t.length, ht.closing?_group v, List.take_left⟩
    by_cases hopening : c = '('
    · subst hopening
      rw [groupBodies, if_pos rfl, List.mem_append, hfront, ih]
      constructor
      · rintro (⟨v, rfl, ht⟩ | ⟨u, v, rfl, ht⟩)
        · exact ⟨[], v, rfl, ht⟩
        · exact ⟨'(' :: u, v, rfl, ht⟩
      · rintro ⟨u, v, hp, ht⟩
        cases u with
        | nil => exact .inl ⟨v, List.tail_eq_of_cons_eq hp, ht⟩
        | cons d u => exact .inr ⟨u, v, List.tail_eq_of_cons_eq hp, ht⟩
    · rw [groupBodies, if_neg hopening, ih]
      constructor
      · rintro ⟨u, v, rfl, ht⟩
        exact ⟨c :: u, v, rfl, ht⟩
      · rintro ⟨u, v, hp, ht⟩
        cases u with
        | nil => exact absurd (List.head_eq_of_cons_eq hp) hopening
        | cons d u => exact ⟨u, v, List.tail_eq_of_cons_eq hp, ht⟩

theorem balanced_of_mem_scopes (h : Balanced p) (hs : s ∈ scopes p) : Balanced s := by
  rcases List.mem_cons.mp hs with rfl | hs
  · exact h
  · obtain ⟨_, _, _, hs⟩ := mem_groupBodies_iff.mp hs
    exact hs

theorem groupBodies_cons (hl : Balanced l)
    (hpast : ∀ m, groupBodies (l ++ m) = groupBodies l ++ groupBodies m) (m : List Char) :
    groupBodies ('(' :: (l ++ ')' :: m)) = l :: (groupBodies l ++ groupBodies m) := by
  have hbehind : groupBodies (')' :: m) = groupBodies m := if_neg (by decide)
  rw [groupBodies, if_pos rfl, hl.closing?_group, Option.map_some, List.take_left, hpast, hbehind]
  rfl

theorem groupBodies_append (h : Nested l) (m : List Char) :
    groupBodies (l ++ m) = groupBodies l ++ groupBodies m := by
  induction h generalizing m with
  | nil => rfl
  | cons hopening _ _ ih =>
    rw [List.cons_append, groupBodies, groupBodies, if_neg hopening, if_neg hopening, ih]
  | group hl _ _ ihl ihk =>
    rw [List.cons_append, List.append_assoc, List.cons_append, groupBodies_cons hl ihl,
      groupBodies_cons hl ihl, ihk, List.cons_append, List.append_assoc]

theorem groupBodies_group (hl : Balanced l) (m : List Char) :
    groupBodies ('(' :: (l ++ ')' :: m)) = l :: (groupBodies l ++ groupBodies m) :=
  groupBodies_cons hl (groupBodies_append hl.nested) m

/-! ### Alternatives -/

/-- The alternatives of a scope: its parts between the bars that stand in none of its groups, here for a
part of the scope that begins inside `d` of them. -/
def alternatives (d : Nat) : List Char → List (List Char)
  | [] => [[]]
  | c :: cs =>
    if d = 0 ∧ c = '|' then [] :: alternatives d cs
    else (alternatives (((Token.ofChar c).depth? d).getD 0) cs).modifyHead (c :: ·)

/-- At this place there is a bar that stands in no group, if `d` groups are open in front of the text. -/
def DividesAt (d : Nat) (l : List Char) (i : Nat) : Prop :=
  l[i]? = some '|' ∧ d + balance (l.take i) = 0

instance : Decidable (DividesAt d l n) := inferInstanceAs (Decidable (_ ∧ _))

def topLevelBars (s : List Char) : Nat := (List.range s.length).countP (DividesAt 0 s ·)

theorem dividesAt_zero_iff : DividesAt d (c :: l) 0 ↔ d = 0 ∧ c = '|' := by
  rw [DividesAt, List.getElem?_cons_zero, Option.some.injEq, List.take_zero, balance_nil, Int.add_zero,
    Int.natCast_eq_zero, and_comm]

theorem dividesAt_succ_iff (h : (Token.ofChar c).depth? d = some k) :
    DividesAt d (c :: l) (n + 1) ↔ DividesAt k l n := by
  have hdepth : d + balance (c :: l.take n) = k + balance (l.take n) := by
    rw [balance_cons h]
    omega
  rw [DividesAt, DividesAt, List.getElem?_cons_succ, List.take_succ_cons, hdepth]

theorem alternatives_ne_nil (d : Nat) (l : List Char) : alternatives d l ≠ [] := by
  induction l generalizing d with
  | nil => exact List.cons_ne_nil _ _
  | cons c l ih =>
    rw [alternatives]
    split
    · exact List.cons_ne_nil _ _
    · exact mt List.modifyHead_eq_nil_iff.mp (ih _)

theorem alternatives_cons (h : ¬(d = 0 ∧ c = '|')) (hk : (Token.ofChar c).depth? d = some k)
    (l : List Char) : alternatives d (c :: l) = (alternatives k l).modifyHead (c :: ·) := by
  rw [alternatives, if_neg h, hk, Option.getD_some]

theorem intercalate_modifyHead {ss : List (List Char)} (hss : ss ≠ []) :
    ['|'].intercalate (ss.modifyHead (c :: ·)) = c :: ['|'].intercalate ss := by
  cases ss with
  | nil => exact absurd rfl hss
  | cons s ss =>
    cases ss with
    | nil => rfl
    | cons t ss => rfl

theorem intercalate_alternatives (d : Nat) (l : List Char) :
    ['|'].intercalate (alternatives d l) = l := by
  induction l generalizing d with
  | nil => rfl
  | cons c l ih =>
    rw [alternatives]
    split
    · next h => rw [List.intercalate_cons_of_ne_nil (alternatives_ne_nil _ _), ih, h.2]; rfl
    · rw [intercalate_modifyHead (alternatives_ne_nil _ _), ih]

theorem length_alternatives_of_eq_none (h : closing? d l = none) :
    (alternatives d l).length = (List.range l.length).countP (DividesAt d l ·) + 1 := by
  induction l generalizing d with
  | nil => rfl
  | cons c l ih =>
    rw [closing?_cons] at h
    cases hc : (Token.ofChar c).depth? d with
    | none => simp [hc] at h
    | some k =>
      rw [hc] at h
      have ih := ih (Option.map_eq_none_iff.mp h)
      have hbehind : ((fun i => decide (DividesAt d (c :: l) i)) ∘ Nat.succ) =
          fun i => decide (DividesAt k l i) := by
        funext i
        exact decide_eq_decide.mpr (dividesAt_succ_iff hc)
      rw [List.length_cons, List.range_succ_eq_map, List.countP_cons, List.countP_map, hbehind]
      simp only [dividesAt_zero_iff, decide_eq_true_iff]
      by_cases hbar : d = 0 ∧ c = '|'
      · obtain ⟨rfl, rfl⟩ := hbar
        obtain rfl : k = 0 := (Option.some.inj hc).symm
        exact congrArg (· + 1) ih
      · rw [alternatives_cons hbar hc, List.length_modifyHead, ih, if_neg hbar]

theorem length_alternatives (h : Balanced l) : (alternatives 0 l).length = topLevelBars l + 1 :=
  length_alternatives_of_eq_none h.closed

theorem alternatives_succ_append (hnone : closing? k l = none) (hd : balance l + k = d)
    (s : List Char) :
    alternatives (k + 1) (l ++ s) = (alternatives (d + 1) s).modifyHead (l ++ ·) := by
  induction l generalizing k with
  | nil =>
    obtain rfl : k = d := by
      rw [balance_nil] at hd
      omega
    exact (congrFun List.modifyHead_id _).symm
  | cons c l ih =>
    rw [closing?_cons] at hnone
    cases hc : (Token.ofChar c).depth? k with
    | none => simp [hc] at hnone
    | some j =>
      rw [hc] at hnone
      have hj : balance l + j = d := by
        rw [balance_cons hc] at hd
        omega
      have hsucc : (Token.ofChar c).depth? (k + 1) = some (j + 1) := by
        rw [Token.depth?_succ, hc]
        rfl
      rw [List.cons_append, alternatives_cons (fun h => Nat.succ_ne_zero k h.1) hsucc,
        ih (Option.map_eq_none_iff.mp hnone) hj, List.modifyHead_modifyHead]
      rfl

/-- Past a group, the alternatives go on as if the group were one character. -/
theorem alternatives_group (hl : Balanced l) (m : List Char) :
    alternatives 0 ('(' :: (l ++ ')' :: m)) =
      (alternatives 0 m).modifyHead (('(' :: (l ++ [')'])) ++ ·) := by
  have hopened : balance l + (0 : Nat) = (0 : Nat) := by rw [hl.opened]; rfl
  rw [alternatives_cons (k := 1) (by simp) rfl, alternatives_succ_append hl.closed hopened,
    alternatives_cons (k := 0) (by simp) rfl, List.modifyHead_modifyHead, List.modifyHead_modifyHead]
  congr 1
  funext a
  simp

/-! ### Alternatives without a character -/

def emptyIn (ss : List (List Char)) : Nat := (ss.flatMap (alternatives 0)).count []

/-- How many alternatives there are without a character, in all scopes of a pattern. -/
def emptyAlternatives (p : List Char) : Nat := emptyIn (scopes p)

/-- How many alternatives without a character there are, as seen from their neighbours. Here `begins`
says whether an alternative begins in front of the text. -/
def gaps (begins : Bool) : List Char → Nat
  | [] => if begins then 1 else 0
  | c :: cs => (if begins ∧ c ∈ ['|', ')'] then 1 else 0) + gaps (c ∈ ['(', '|']) cs

theorem emptyIn_cons (s : List Char) (ss : List (List Char)) :
    emptyIn (s :: ss) = (alternatives 0 s).count [] + emptyIn ss := by
  rw [emptyIn, List.flatMap_cons, List.count_append, emptyIn]

theorem emptyIn_append (ss ss' : List (List Char)) : emptyIn (ss ++ ss') = emptyIn ss + emptyIn ss' := by
  rw [emptyIn, List.flatMap_append, List.count_append, emptyIn, emptyIn]

theorem gaps_append (begins : Bool) (l m : List Char) :
    gaps begins (l ++ ')' :: m) = gaps begins l + gaps false m := by
  induction l generalizing begins with
  | nil => cases begins <;> rfl
  | cons c l ih => rw [List.cons_append, gaps, gaps, ih, Nat.add_assoc]

theorem gaps_cons (hopening : c ≠ '(') (hclosing : c ≠ ')') (hbar : c ≠ '|') (begins : Bool)
    (l : List Char) : gaps begins (c :: l) = gaps false l := by
  simp [gaps, hopening, hclosing, hbar]

theorem gaps_bar (begins : Bool) (l : List Char) :
    gaps begins ('|' :: l) = gaps begins [] + gaps true l := by
  cases begins <;> rfl

theorem gaps_group (begins : Bool) (l m : List Char) :
    gaps begins ('(' :: (l ++ ')' :: m)) = gaps true l + gaps false m := by
  rw [← gaps_append]
  cases begins <;> exact Nat.zero_add _

theorem count_modifyHead {f : List Char → List Char} (hf : ∀ a, f a ≠ []) (ss : List (List Char)) :
    (ss.modifyHead f).count [] = ss.tail.count [] := by
  cases ss with
  | nil => rfl
  | cons s ss => exact List.count_cons_of_ne (hf s)

/-- The alternatives without a character are where their neighbours leave no room for one. The second
equation does without the first alternative, which goes on what stands in front of the text. -/
theorem count_alternatives_of_nested (h : Nested p) :
    (alternatives 0 p).count [] + emptyIn (groupBodies p) = gaps true p ∧
      (alternatives 0 p).tail.count [] + emptyIn (groupBodies p) = gaps false p := by
  induction h with
  | nil => exact ⟨rfl, rfl⟩
  | @cons c l hopening hclosing _ ih =>
    have hbodies : groupBodies (c :: l) = groupBodies l := if_neg hopening
    by_cases hbar : c = '|'
    · subst hbar
      have halternatives : alternatives 0 ('|' :: l) = [] :: alternatives 0 l := if_pos ⟨rfl, rfl⟩
      rw [halternatives, hbodies, gaps_bar, gaps_bar, List.tail_cons, List.count_cons_self, ← ih.1,
        gaps, gaps, if_pos rfl, if_neg Bool.false_ne_true]
      omega
    · have hdivided : ¬(0 = 0 ∧ c = '|') := fun h => hbar h.2
      rw [alternatives_cons hdivided (Token.depth?_of_ne hopening hclosing 0), List.tail_modifyHead,
        count_modifyHead fun a => List.cons_ne_nil _ _, hbodies, gaps_cons hopening hclosing hbar,
        gaps_cons hopening hclosing hbar]
      exact ⟨ih.2, ih.2⟩
  | @group l m hl _ _ ihl ihm =>
    have hhead (a : List Char) : '(' :: (l ++ [')']) ++ a ≠ [] := List.cons_ne_nil _ _
    rw [groupBodies_group hl, emptyIn_cons, emptyIn_append, alternatives_group hl, List.tail_modifyHead,
      count_modifyHead hhead, gaps_group, gaps_group, ← ihl.1, ← ihm.2]
    omega

/-- The empty alternatives of a pattern are counted without a look at its scopes. -/
theorem emptyAlternatives_eq_gaps (h : Balanced p) : emptyAlternatives p = gaps true p := by
  rw [emptyAlternatives, scopes, emptyIn_cons]
  exact (count_alternatives_of_nested h.nested).1

/-- An alternative begins at the beginning, or behind a parenthesis or a bar. -/
theorem gaps_le (begins : Bool) (l : List Char) :
    gaps begins l ≤ l.count '(' + l.count '|' + if begins then 1 else 0 := by
  induction l generalizing begins with
  | nil => exact Nat.le_add_left ..
  | cons c l ih =>
    have ih := ih (c ∈ ['(', '|'])
    have hfirst : (if begins ∧ c ∈ ['|', ')'] then 1 else 0) ≤ if begins then 1 else 0 := by
      split <;> simp_all
    have hcount : (l.count '(' + l.count '|') + (if decide (c ∈ ['(', '|']) then 1 else 0) =
        (c :: l).count '(' + (c :: l).count '|' := by
      by_cases hopening : c = '('
      · subst hopening
        simp
        omega
      · by_cases hbar : c = '|'
        · subst hbar
          simp
          omega
        · simp [hopening, hbar]
    rw [gaps]
    omega

end Acceptor
