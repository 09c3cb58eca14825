import Acceptor.Pattern.Token

/-!
# The parenthesis that closes a group

The balance of a text is the number of its opening parentheses less that of its closing ones. What
`closing?` finds is the first place after which the balance has dropped below what it was allowed to
(`balance_of_closing?`, `balance_of_closing?_eq_none`).

A search that starts inside one more group is one search after another (`closing?_succ`), and a search
does not look beyond what it finds (`closing?_append`, `closing?_of_append`). It passes over a text in
which every parenthesis has its counterpart (`Balanced.closing?_append`). All of it goes by induction on
the text, with one case for a character that ends the search and one for any other (`closing?_cons`).
-/

namespace Acceptor

/-! ### Tokens and characters -/

namespace Token

variable {c d : Char} {t : Token}

theorem eq_toChar (h : ofChar c = t) : c = t.toChar := by
  rw [← h, toChar_ofChar]

theorem ofChar_eq_opening_iff : ofChar c = .opening ↔ c = '(' := by
  constructor
  · exact eq_toChar
  · rintro rfl
    rfl

theorem ofChar_eq_closing_iff : ofChar c = .closing ↔ c = ')' := by
  constructor
  · exact eq_toChar
  · rintro rfl
    rfl

theorem ofChar_eq_bar_iff : ofChar c = .bar ↔ c = '|' := by
  constructor
  · exact eq_toChar
  · rintro rfl
    rfl

theorem ofChar_eq_repetition_iff {op : Repetition} :
    ofChar c = .repetition op ↔ c = (repetition op).toChar := by
  constructor
  · exact eq_toChar
  · rintro rfl
    cases op <;> rfl

theorem isRepetition_iff : (∃ op, ofChar c = .repetition op) ↔ c = '*' ∨ c = '+' ∨ c = '?' := by
  refine ⟨fun h => ?_, fun h => ?_⟩
  · obtain ⟨op, h⟩ := h
    rw [ofChar_eq_repetition_iff] at h
    cases op with
    | star => exact .inl h
    | plus => exact .inr (.inl h)
    | optional => exact .inr (.inr h)
  · rcases h with rfl | rfl | rfl
    · exact ⟨.star, rfl⟩
    · exact ⟨.plus, rfl⟩
    · exact ⟨.optional, rfl⟩

def structural : List Char := ['(', ')', '|', '*', '+', '?']

theorem ofChar_eq_literal_iff : ofChar c = .literal d ↔ c ∉ structural ∧ c = d := by
  refine ⟨fun h => ?_, fun h => ?_⟩
  · have hcd : c = d := eq_toChar h
    subst hcd
    refine ⟨?_, rfl⟩
    intro hc
    simp only [structural, List.mem_cons, List.not_mem_nil, or_false] at hc
    rcases hc with rfl | rfl | rfl | rfl | rfl | rfl <;> cases h
  · obtain ⟨hc, rfl⟩ := h
    simp only [structural, List.mem_cons, List.not_mem_nil, or_false, not_or] at hc
    simp [ofChar, hc]

/-- How many groups are open after a token, unless it closes the group around the `k` that are open
before it. -/
def depth? (k : Nat) : Token → Option Nat
  | opening => some (k + 1)
  | closing => match k with
    | 0 => none
    | k + 1 => some k
  | _ => some k

theorem depth?_succ (t : Token) (k : Nat) : t.depth? (k + 1) = some ((t.depth? k).elim 0 (· + 1)) := by
  cases t with
  | closing => cases k <;> rfl
  | _ => rfl

theorem depth?_eq_none {k : Nat} (h : (ofChar c).depth? k = none) : c = ')' ∧ k = 0 := by
  cases ht : ofChar c with
  | closing =>
    rw [ht] at h
    cases k with
    | zero => exact ⟨ofChar_eq_closing_iff.mp ht, rfl⟩
    | succ k => cases h
  | _ => rw [ht] at h; cases h

end Token

variable {k d n : Nat} {c : Char} {l s : List Char}

theorem closing?_cons (k : Nat) (c : Char) (l : List Char) : closing? k (c :: l) =
    match (Token.ofChar c).depth? k with
    | some d => (closing? d l).map (· + 1)
    | none => some 0 := by
  conv => lhs; unfold closing?
  cases Token.ofChar c with
  | closing => cases k <;> rfl
  | _ => rfl

theorem map_add_map_add (o : Option Nat) (m n : Nat) :
    (o.map (· + m)).map (· + n) = o.map (· + (m + n)) := by
  cases o with
  | none => rfl
  | some k => exact congrArg some (Nat.add_assoc k m n)

/-! ### More text -/

theorem closing?_append (h : closing? k l = some n) : closing? k (l ++ s) = some n := by
  induction l generalizing k n with
  | nil => cases h
  | cons c l ih =>
    rw [List.cons_append]
    rw [closing?_cons] at h ⊢
    cases hd : (Token.ofChar c).depth? k with
    | none => rwa [hd] at h
    | some d =>
      rw [hd] at h
      obtain ⟨m, hm, rfl⟩ := Option.map_eq_some_iff.mp h
      show (closing? d (l ++ s)).map (· + 1) = _
      rw [ih hm]
      rfl

theorem closing?_of_append (h : closing? k (l ++ s) = some n) (hn : n < l.length) :
    closing? k l = some n := by
  induction l generalizing k n with
  | nil => exact absurd hn (Nat.not_lt_zero n)
  | cons c l ih =>
    rw [List.cons_append] at h
    rw [closing?_cons] at h ⊢
    cases hd : (Token.ofChar c).depth? k with
    | none => rwa [hd] at h
    | some d =>
      rw [hd] at h
      obtain ⟨m, hm, rfl⟩ := Option.map_eq_some_iff.mp h
      show (closing? d l).map (· + 1) = _
      rw [ih hm (Nat.lt_of_succ_lt_succ hn)]
      rfl

/-- Inside one more group, the search goes on where the inner one has ended. -/
theorem closing?_succ (k : Nat) (l : List Char) : closing? (k + 1) l =
    (closing? k l).bind fun n => (closing? 0 (l.drop (n + 1))).map (· + (n + 1)) := by
  induction l generalizing k with
  | nil => rfl
  | cons c l ih =>
    rw [closing?_cons, closing?_cons, Token.depth?_succ]
    cases (Token.ofChar c).depth? k with
    | none => rfl
    | some d =>
      show (closing? (d + 1) l).map (· + 1) = ((closing? d l).map (· + 1)).bind _
      rw [ih]
      cases closing? d l with
      | none => rfl
      | some m =>
        exact map_add_map_add (closing? 0 (l.drop (m + 1))) (m + 1) 1

/-! ### Balance -/

/-- How many more parentheses are opened than closed. -/
def balance (l : List Char) : Int := l.count '(' - l.count ')'

@[simp] theorem balance_nil : balance [] = 0 := rfl

@[simp] theorem balance_append : balance (l ++ s) = balance l + balance s := by
  simp only [balance, List.count_append]
  omega

theorem balance_cons (h : (Token.ofChar c).depth? k = some d) :
    balance (c :: l) = balance l + d - k := by
  have hone : balance (c :: l) = balance l + balance [c] := by
    rw [← List.singleton_append, balance_append]
    omega
  rw [hone]
  cases ht : Token.ofChar c with
  | opening =>
    rw [ht] at h
    cases h
    rw [Token.eq_toChar ht]
    show balance l + 1 = balance l + ((k + 1 : Nat) : Int) - k
    omega
  | closing =>
    rw [ht] at h
    cases k with
    | zero => cases h
    | succ k =>
      obtain rfl : k = d := Option.some.inj h
      rw [Token.eq_toChar ht]
      show balance l + -1 = balance l + (k : Int) - ((k + 1 : Nat) : Int)
      omega
  | bar | repetition op | literal c' =>
    rw [ht] at h
    cases h
    have hopening : c ≠ '(' := fun h => by rw [Token.ofChar_eq_opening_iff.mpr h] at ht; cases ht
    have hclosing : c ≠ ')' := fun h => by rw [Token.ofChar_eq_closing_iff.mpr h] at ht; cases ht
    simp [balance, hopening, hclosing]

/-- The balance stays at least `-k` up to the parenthesis found, and drops to `-(k + 1)` there. -/
theorem balance_of_closing? (h : closing? k l = some n) :
    l[n]? = some ')' ∧ balance (l.take (n + 1)) = -(k + 1) ∧ ∀ m ≤ n, -k ≤ balance (l.take m) := by
  induction l generalizing k n with
  | nil => cases h
  | cons c l ih =>
    rw [closing?_cons] at h
    cases hd : (Token.ofChar c).depth? k with
    | none =>
      rw [hd] at h
      cases h
      obtain ⟨rfl, rfl⟩ := Token.depth?_eq_none hd
      refine ⟨rfl, rfl, fun m hm => ?_⟩
      obtain rfl : m = 0 := Nat.le_zero.mp hm
      exact Int.le_refl 0
    | some d =>
      rw [hd] at h
      obtain ⟨j, hj, rfl⟩ := Option.map_eq_some_iff.mp h
      obtain ⟨hget, hbalance, hall⟩ := ih hj
      refine ⟨hget, ?_, fun m hm => ?_⟩
      · rw [List.take_succ_cons, balance_cons hd, hbalance]
        omega
      · cases m with
        | zero =>
          rw [List.take_zero, balance_nil]
          omega
        | succ m =>
          rw [List.take_succ_cons, balance_cons hd]
          have := hall m (Nat.le_of_succ_le_succ hm)
          omega

theorem balance_of_closing?_eq_none (h : closing? k l = none) (m : Nat) :
    -k ≤ balance (l.take m) := by
  induction l generalizing k m with
  | nil =>
    rw [List.take_nil, balance_nil]
    omega
  | cons c l ih =>
    rw [closing?_cons] at h
    cases hd : (Token.ofChar c).depth? k with
    | none =>
      simp [hd] at h
    | some d =>
      rw [hd] at h
      cases m with
      | zero =>
        rw [List.take_zero, balance_nil]
        omega
      | succ m =>
        rw [List.take_succ_cons, balance_cons hd]
        have := ih (Option.map_eq_none_iff.mp h) m
        omega

theorem eq_append_of_closing? (h : closing? k l = some n) :
    l = l.take n ++ ')' :: l.drop (n + 1) := by
  have hn := lt_length_of_closing? h
  have hget := (balance_of_closing? h).1
  rw [List.getElem?_eq_getElem hn] at hget
  rw [← Option.some.inj hget, ← List.drop_eq_getElem_cons hn, List.take_append_drop]

/-! ### Past a text -/

/-- Without a closing parenthesis too many, the search goes on behind a text with the groups that are open
there. -/
theorem closing?_append_of_eq_none (hnone : closing? k l = none) (hd : balance l + k = d) :
    closing? k (l ++ s) = (closing? d s).map (· + l.length) := by
  induction l generalizing k with
  | nil =>
    obtain rfl : k = d := by
      rw [balance_nil] at hd
      omega
    exact Option.map_id'.symm
  | cons c l ih =>
    rw [closing?_cons] at hnone
    rw [List.cons_append, closing?_cons]
    cases hc : (Token.ofChar c).depth? k with
    | none => simp [hc] at hnone
    | some j =>
      rw [hc] at hnone
      have hj : balance l + j = d := by
        rw [balance_cons hc] at hd
        omega
      show (closing? j (l ++ s)).map (· + 1) = _
      rw [ih (Option.map_eq_none_iff.mp hnone) hj, map_add_map_add]
      rfl

/-! ### Balanced texts -/

/-- Every parenthesis of the text has its counterpart in the text. -/
structure Balanced (l : List Char) : Prop where
  closed : closing? 0 l = none
  opened : balance l = 0

namespace Balanced

theorem closing?_eq_none (h : Balanced l) (k : Nat) : closing? k l = none := by
  induction k with
  | zero => exact h.closed
  | succ k ih => rw [closing?_succ, ih, Option.bind_none]

theorem closing?_append (h : Balanced l) (k : Nat) (s : List Char) :
    closing? k (l ++ s) = (closing? k s).map (· + l.length) :=
  closing?_append_of_eq_none (h.closing?_eq_none k) (by rw [h.opened, Int.zero_add])

theorem group (h : Balanced l) : Balanced ('(' :: (l ++ [')'])) where
  closed := by
    rw [closing?_cons]
    show (closing? 1 (l ++ [')'])).map _ = none
    rw [h.closing?_append]
    rfl
  opened := by
    rw [balance_cons (k := 0) (d := 1) rfl, balance_append, h.opened]
    rfl

end Balanced

end Acceptor
