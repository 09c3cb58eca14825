import Acceptor.Proofs.Pattern.Closing
import Acceptor.Regex.Compilation

/-!
# Where a pattern is at fault

`Fault` says which indices of a pattern are at fault, and how. It looks at the pattern as a whole:
groups are seen only through the balance of the parentheses before an index. A pattern is read scope by
scope, and the fault reported is the one at the smallest index.

Between the two stands `scan`, which goes over the whole pattern once and only keeps count of the groups
that are open.

* Reading a scope is scanning it (`scanned_parse`). A scope is either the rest of the pattern outside
  all groups or ends where its group is closed (`Scope`), so a scope that has to do with a group never
  meets a parenthesis that closes too much.
* Whatever the scan finds is the first fault (`scan_spec`), since at every index what it has counted
  decides about a fault there (`fault?_eq_some_iff`).
-/

namespace Acceptor

/-! ### Faults -/

/-- How many groups are open before an index, less those closed without being opened. -/
def depthAt (p : List Char) (i : Nat) : Int := balance (p.take i)

/-- The parenthesis at `j` closes the group opened at `i`, which is open all the way between. -/
structure Closes (p : List Char) (i j : Nat) : Prop where
  lt : i < j
  closing : p[j]? = some ')'
  balanced : depthAt p (j + 1) = depthAt p i
  inside : ∀ m, i < m → m ≤ j → depthAt p i < depthAt p m

/-- A pattern is at fault at this index, and this is the error that says so. -/
inductive Fault (limit : Nat) (p : List Char) (i : Nat) : PatternError → Prop
  | unopened : p[i]? = some ')' → depthAt p i = 0 → Fault limit p i (.unopenedGroup i)
  | missing {c : Char} : p[i]? = some c → c ∈ ['*', '+', '?'] →
      (i = 0 ∨ ∃ d ∈ ['(', '|', '*', '+', '?'], p[i - 1]? = some d) →
        Fault limit p i (.missingOperand c i)
  | nested : p[i]? = some '(' → limit ≤ depthAt p i → Fault limit p i (.nestLimit limit)
  | unclosed : p[i]? = some '(' → depthAt p i < limit → (∀ j, ¬Closes p i j) →
      Fault limit p i (.unclosedGroup i)

/-- The error is that of the smallest index from `start` on that is at fault. -/
def FirstFault (limit : Nat) (p : List Char) (start : Nat) (e : PatternError) : Prop :=
  ∃ i, start ≤ i ∧ Fault limit p i e ∧ ∀ j, start ≤ j → j < i → ∀ e', ¬Fault limit p j e'

/-! ### One pass over the pattern -/

/-- Whether what ends in this character can be repeated. -/
def repeatable (c : Char) : Bool := c ∉ ['(', '|', '*', '+', '?']

/-- The fault at a character, when `d` groups are open before it, and what stands before it can be
repeated or not. -/
def fault? (limit d : Nat) (operand : Bool) (position : Nat) (c : Char) (cs : List Char) :
    Option PatternError :=
  match Token.ofChar c with
  | .repetition _ => if operand then none else some (.missingOperand c position)
  | .closing => if d = 0 then some (.unopenedGroup position) else none
  | .opening =>
    if limit ≤ d then some (.nestLimit limit)
    else if (closing? 0 cs).isNone then some (.unclosedGroup position)
    else none
  | _ => none

/-- The first fault of what is left of a pattern. -/
def scan (limit d : Nat) (operand : Bool) (position : Nat) : List Char → Option PatternError
  | [] => none
  | c :: cs =>
    match fault? limit d operand position c cs with
    | some e => some e
    | none => scan limit (((Token.ofChar c).depth? d).getD 0) (repeatable c) (position + 1) cs

variable {limit d n position : Nat} {operand : Bool} {c : Char} {p cs pre post : List Char}
  {e : PatternError}

/-! ### The scan finds the first fault -/

theorem depthAt_append (pre l : List Char) (m : Nat) :
    depthAt (pre ++ l) (pre.length + m) = balance pre + balance (l.take m) := by
  rw [depthAt, List.take_length_add_append, balance_append]

theorem depthAt_length (pre l : List Char) : depthAt (pre ++ l) pre.length = balance pre := by
  have h := depthAt_append pre l 0
  rwa [List.take_zero, balance_nil, Int.add_zero] at h

theorem exists_closes_iff (pre cs : List Char) :
    (∃ j, Closes (pre ++ '(' :: cs) pre.length j) ↔ ∃ n, closing? 0 cs = some n := by
  have hstart : depthAt (pre ++ '(' :: cs) pre.length = balance pre := depthAt_length ..
  have hinside (m : Nat) : depthAt (pre ++ '(' :: cs) (pre.length + (m + 1)) =
      balance pre + (balance (cs.take m) + 1) := by
    rw [depthAt_append, List.take_succ_cons, balance_cons (k := 0) (d := 1) rfl]
    omega
  refine ⟨fun h => ?_, fun h => ?_⟩
  · obtain ⟨j, hlt, _, hbalanced, _⟩ := h
    obtain ⟨m, rfl⟩ := Nat.exists_eq_add_of_lt hlt
    cases hclosing : closing? 0 cs with
    | some n => exact ⟨n, rfl⟩
    | none =>
      have := balance_of_closing?_eq_none hclosing (m + 1)
      rw [Nat.add_assoc, Nat.add_assoc, hinside, hstart] at hbalanced
      omega
  · obtain ⟨n, hn⟩ := h
    obtain ⟨hget, hbalance, hall⟩ := balance_of_closing? hn
    refine ⟨pre.length + (n + 1), by omega, ?_, ?_, ?_⟩
    · rw [List.getElem?_append_right (by omega), Nat.add_sub_cancel_left]
      exact hget
    · rw [Nat.add_assoc, hinside, hstart, hbalance]
      omega
    · intro m hm hmn
      obtain ⟨k, rfl⟩ := Nat.exists_eq_add_of_lt hm
      have := hall k (by omega)
      rw [Nat.add_assoc, hinside, hstart]
      omega

theorem repeatable_eq_false_iff : repeatable c = false ↔ c ∈ ['(', '|', '*', '+', '?'] := by
  rw [repeatable, decide_eq_false_iff_not, Decidable.not_not]

/-- What stands before an index cannot be repeated, or nothing stands there. -/
theorem getLast?_any_repeatable_eq_false_iff (pre l : List Char) :
    pre.getLast?.any repeatable = false ↔ pre.length = 0 ∨
      ∃ x ∈ ['(', '|', '*', '+', '?'], (pre ++ l)[pre.length - 1]? = some x := by
  rcases List.eq_nil_or_concat pre with rfl | ⟨before, x, rfl⟩
  · simp
  · rw [List.concat_eq_append]
    have hget : (before ++ [x] ++ l)[(before ++ [x]).length - 1]? = some x := by simp
    rw [List.getLast?_concat, Option.any_some, hget]
    refine ⟨fun h => ?_, fun h => ?_⟩
    · exact .inr ⟨x, repeatable_eq_false_iff.mp h, rfl⟩
    · rcases h with h | ⟨y, hy, hxy⟩
      · simp at h
      · rw [Option.some.inj hxy]
        exact repeatable_eq_false_iff.mpr hy

theorem fault_of_fault? (hd : balance pre = d) (hoperand : operand = pre.getLast?.any repeatable)
    (h : fault? limit d operand pre.length c cs = some e) :
    Fault limit (pre ++ c :: cs) pre.length e := by
  have hget : (pre ++ c :: cs)[pre.length]? = some c := by simp
  have hdepth : depthAt (pre ++ c :: cs) pre.length = d := (depthAt_length pre _).trans hd
  unfold fault? at h
  cases ht : Token.ofChar c with
  | opening =>
    obtain rfl := Token.ofChar_eq_opening_iff.mp ht
    rw [ht] at h
    simp only at h
    split at h
    · cases h
      exact .nested hget (by omega)
    · split at h
      · next hnone =>
        cases h
        refine .unclosed hget (by omega) fun j hj => ?_
        obtain ⟨n, hn⟩ := (exists_closes_iff pre cs).mp ⟨j, hj⟩
        simp [hn] at hnone
      · simp at h
  | closing =>
    obtain rfl := Token.ofChar_eq_closing_iff.mp ht
    rw [ht] at h
    simp only at h
    split at h
    · cases h
      exact .unopened hget (by omega)
    · simp at h
  | repetition op =>
    rw [ht] at h
    simp only at h
    split at h
    · simp at h
    · next hfalse =>
      cases h
      have hop := Token.isRepetition_iff.mp ⟨op, ht⟩
      have hbefore := getLast?_any_repeatable_eq_false_iff pre (c :: cs)
      rw [← hoperand] at hbefore
      exact .missing hget (by simpa using hop) (hbefore.mp (Bool.eq_false_iff.mpr hfalse))
  | bar | literal =>
    simp [ht] at h

theorem fault?_of_fault (hd : balance pre = d) (hoperand : operand = pre.getLast?.any repeatable)
    (h : Fault limit (pre ++ c :: cs) pre.length e) :
    fault? limit d operand pre.length c cs = some e := by
  have hget : (pre ++ c :: cs)[pre.length]? = some c := by simp
  have hdepth : depthAt (pre ++ c :: cs) pre.length = d := (depthAt_length pre _).trans hd
  cases h with
  | unopened hc hzero =>
    obtain rfl := Option.some.inj (hget.symm.trans hc)
    rw [fault?, Token.ofChar_eq_closing_iff.mpr rfl]
    exact if_pos (by omega)
  | @missing x hc hx hbefore =>
    obtain rfl := Option.some.inj (hget.symm.trans hc)
    obtain ⟨op, hop⟩ := Token.isRepetition_iff.mpr (by simpa using hx)
    rw [fault?, hop, hoperand, (getLast?_any_repeatable_eq_false_iff pre (c :: cs)).mpr hbefore]
    rfl
  | nested hc hlimit =>
    obtain rfl := Option.some.inj (hget.symm.trans hc)
    rw [fault?, Token.ofChar_eq_opening_iff.mpr rfl]
    exact if_pos (by omega)
  | unclosed hc hlimit hclosed =>
    obtain rfl := Option.some.inj (hget.symm.trans hc)
    have hnone : closing? 0 cs = none := by
      cases hclosing : closing? 0 cs with
      | none => rfl
      | some n =>
        obtain ⟨j, hj⟩ := (exists_closes_iff pre cs).mpr ⟨n, hclosing⟩
        exact absurd hj (hclosed j)
    rw [fault?, Token.ofChar_eq_opening_iff.mpr rfl, hnone]
    exact if_neg (by omega)

theorem fault?_eq_some_iff (hd : balance pre = d) (hoperand : operand = pre.getLast?.any repeatable) :
    fault? limit d operand pre.length c cs = some e ↔ Fault limit (pre ++ c :: cs) pre.length e := by
  constructor
  · exact fault_of_fault? hd hoperand
  · exact fault?_of_fault hd hoperand

theorem balance_snoc (hd : balance pre = d) (h : fault? limit d operand position c cs = none) :
    balance (pre ++ [c]) = (((Token.ofChar c).depth? d).getD 0 : Nat) := by
  rw [balance_append, hd]
  cases hdepth : (Token.ofChar c).depth? d with
  | none =>
    obtain ⟨rfl, rfl⟩ := Token.depth?_eq_none hdepth
    cases h
  | some k =>
    rw [balance_cons hdepth, balance_nil, Option.getD_some]
    omega

theorem FirstFault.of_succ {i : Nat} (hnone : ∀ e, ¬Fault limit p i e)
    (h : FirstFault limit p (i + 1) e) : FirstFault limit p i e := by
  obtain ⟨k, hk, hfault, hfirst⟩ := h
  refine ⟨k, by omega, hfault, fun j hij hjk e' => ?_⟩
  by_cases hj : j = i
  · subst hj
    exact hnone e'
  · exact hfirst j (by omega) hjk e'

/-- The scan reports the first fault of what is left, if there is one. -/
theorem scan_spec (hd : balance pre = d) (hoperand : operand = pre.getLast?.any repeatable) :
    match scan limit d operand pre.length cs with
    | some e => FirstFault limit (pre ++ cs) pre.length e
    | none => ∀ i, pre.length ≤ i → ∀ e, ¬Fault limit (pre ++ cs) i e := by
  induction cs generalizing pre d operand with
  | nil =>
    intro i hi e h
    have hget : (pre ++ [])[i]? = none := by simp [hi]
    cases h with
    | unopened hc | missing hc | nested hc | unclosed hc => rw [hget] at hc; cases hc
  | cons c cs ih =>
    unfold scan
    cases hfault : fault? limit d operand pre.length c cs with
    | some e =>
      refine ⟨pre.length, Nat.le_refl _, (fault?_eq_some_iff hd hoperand).mp hfault, ?_⟩
      intro j hle hlt
      omega
    | none =>
      have hhere : ∀ e, ¬Fault limit (pre ++ c :: cs) pre.length e := by
        intro e he
        simp [(fault?_eq_some_iff hd hoperand).mpr he] at hfault
      have hlast : repeatable c = (pre ++ [c]).getLast?.any repeatable := by
        rw [List.getLast?_concat]
        rfl
      have hrest := ih (balance_snoc hd hfault) hlast
      rw [List.length_append, List.length_singleton, List.append_assoc, List.singleton_append] at hrest
      simp only
      split at hrest
      · exact hrest.of_succ hhere
      · intro i hi e
        by_cases heq : i = pre.length
        · subst heq
          exact hhere e
        · exact hrest i (by omega) e

/-! ### Scopes -/

/-- The text `cs` is the rest of a scope inside `depth` groups, and `post` stands behind the scope:
nothing outside all groups, and otherwise the parenthesis that closes the innermost group, and more. -/
def Scope (depth : Nat) (cs post : List Char) : Prop :=
  depth = 0 ∧ post = [] ∨ closing? 0 (cs ++ post) = some cs.length

namespace Scope

variable {depth : Nat}

theorem tail (h : Scope depth (c :: cs) post) (hc : (Token.ofChar c).depth? 0 = some 0) :
    Scope depth cs post := by
  rcases h with h | h
  · exact .inl h
  · right
    rw [List.cons_append, closing?_cons, hc] at h
    obtain ⟨n, hn, heq⟩ := Option.map_eq_some_iff.mp h
    rw [hn, Nat.succ.inj heq]

theorem depth_eq_zero (h : Scope depth (')' :: cs) post) : depth = 0 := by
  rcases h with h | h
  · exact h.1
  · cases h

/-- A group that is opened within a scope is closed there or nowhere. -/
theorem closing?_append_eq_none (h : Scope depth ('(' :: cs) post) (hnone : closing? 0 cs = none) :
    closing? 0 (cs ++ post) = none := by
  rcases h with ⟨_, rfl⟩ | h
  · rwa [List.append_nil]
  · rw [List.cons_append, closing?_cons] at h
    obtain ⟨m, hm, heq⟩ := Option.map_eq_some_iff.mp h
    rw [closing?_succ] at hm
    obtain ⟨n, hn, hrest⟩ := Option.bind_eq_some_iff.mp hm
    obtain ⟨k, _, hk⟩ := Option.map_eq_some_iff.mp hrest
    have hlt : n < cs.length := by
      have : m = cs.length := Nat.succ.inj heq
      omega
    simp [closing?_of_append hn hlt] at hnone

theorem body (hn : closing? 0 cs = some n) (post : List Char) :
    Scope (depth + 1) (cs.take n) (')' :: (cs.drop (n + 1) ++ post)) := by
  right
  have hlength : (cs.take n).length = n := List.length_take_of_le (Nat.le_of_lt (lt_length_of_closing? hn))
  rw [← List.cons_append, ← List.append_assoc, ← eq_append_of_closing? hn, hlength]
  exact closing?_append hn

theorem drop (h : Scope depth ('(' :: cs) post) (hn : closing? 0 cs = some n) :
    Scope depth (cs.drop (n + 1)) post := by
  rcases h with h | h
  · exact .inl h
  · right
    have hlt := lt_length_of_closing? hn
    rw [List.cons_append, closing?_cons] at h
    obtain ⟨m, hm, heq⟩ := Option.map_eq_some_iff.mp h
    rw [closing?_succ, closing?_append hn] at hm
    obtain ⟨k, hk, hkm⟩ := Option.map_eq_some_iff.mp hm
    rw [List.drop_append_of_le_length hlt] at hk
    have : m = cs.length := Nat.succ.inj heq
    rw [hk, List.length_drop]
    congr 1
    omega

end Scope

/-! ### Reading a scope is scanning it -/

theorem scan_cons_of_some (h : fault? limit d operand position c cs = some e) :
    scan limit d operand position (c :: cs) = some e := by
  rw [scan, h]

theorem scan_cons_of_none {k : Nat} (h : fault? limit d operand position c cs = none)
    (hdepth : (Token.ofChar c).depth? d = some k) :
    scan limit d operand position (c :: cs) = scan limit k (repeatable c) (position + 1) cs := by
  rw [scan, h, hdepth]
  rfl

/-- The result of reading `cs` is that of scanning it: the fault that was found, or no fault until the
text behind it. -/
def Scanned (limit depth position : Nat) (operand : Bool) (cs post : List Char) :
    Except PatternError Regex → Prop
  | .error e => scan limit depth operand position (cs ++ post) = some e
  | .ok _ => ∃ operand', scan limit depth operand position (cs ++ post) =
      scan limit depth operand' (position + cs.length) post

namespace Scanned

variable {depth : Nat} {x : Except PatternError Regex}

theorem map (f : Regex → Regex) (h : Scanned limit depth position operand cs post x) :
    Scanned limit depth position operand cs post (x.map f) := by
  cases x with
  | error e => exact h
  | ok r => exact h

theorem of_scan_eq {position' : Nat} {operand' : Bool} {cs' : List Char}
    (hscan : scan limit depth operand position (cs ++ post) =
      scan limit depth operand' position' (cs' ++ post))
    (hend : position + cs.length = position' + cs'.length)
    (h : Scanned limit depth position' operand' cs' post x) :
    Scanned limit depth position operand cs post x := by
  cases x with
  | error e => exact hscan.trans h
  | ok r =>
    obtain ⟨operand'', h⟩ := h
    exact ⟨operand'', by rw [hscan, h, hend]⟩

theorem cons (hfault : fault? limit depth operand position c (cs ++ post) = none)
    (hdepth : (Token.ofChar c).depth? depth = some depth)
    (h : Scanned limit depth (position + 1) (repeatable c) cs post x) :
    Scanned limit depth position operand (c :: cs) post x := by
  refine of_scan_eq (scan_cons_of_none hfault hdepth) ?_ h
  rw [List.length_cons]
  omega

end Scanned

theorem repeatable_of_literal {c' : Char} (h : Token.ofChar c = .literal c') : repeatable c = true := by
  have hc := (Token.ofChar_eq_literal_iff.mp h).1
  rw [repeatable, decide_eq_true_eq]
  intro hmem
  apply hc
  simp only [Token.structural, List.mem_cons, List.not_mem_nil, or_false] at hmem ⊢
  exact hmem.imp_right .inr

theorem isSome_operand_of_repeat? {b b' : Branch} {op : Repetition} (h : b.repeat? op = some b') :
    b.operand.isSome = true ∧ b'.operand.isSome = false := by
  rw [Branch.repeat?, Option.map_eq_some_iff] at h
  obtain ⟨r, hr, rfl⟩ := h
  exact ⟨by rw [hr]; rfl, rfl⟩

theorem scan_opening {depth : Nat} (hlimit : ¬limit ≤ depth) (hn : closing? 0 cs = some n) :
    scan limit depth operand position ('(' :: (cs ++ post)) =
      scan limit (depth + 1) false (position + 1)
        (cs.take n ++ ')' :: (cs.drop (n + 1) ++ post)) := by
  have hfault : fault? limit depth operand position '(' (cs ++ post) = none := by
    rw [fault?, Token.ofChar_eq_opening_iff.mpr rfl, closing?_append hn]
    exact if_neg hlimit
  rw [scan_cons_of_none hfault rfl, ← List.cons_append, ← List.append_assoc,
    ← eq_append_of_closing? hn]
  rfl

/-- A scope that is read is scanned to its end, and the fault found in any other is the same. -/
theorem scanned_parse (limit depth position : Nat) (b : Branch) (cs post : List Char)
    (hscope : Scope depth cs post) :
    Scanned limit depth position b.operand.isSome cs post
      (Regex.parse limit depth position b cs) := by
  fun_induction Regex.parse limit depth position b cs generalizing post with
  | case1 depth position b => exact ⟨b.operand.isSome, rfl⟩
  | case2 depth position b c cs d hc ih =>
    refine .cons (by rw [fault?, hc]) (by rw [hc]; rfl) ?_
    rw [repeatable_of_literal hc]
    exact ih post (hscope.tail (by rw [hc]; rfl))
  | case3 depth position b c cs op hc b' hop ih =>
    obtain ⟨hb, hb'⟩ := isSome_operand_of_repeat? hop
    refine .cons (by rw [fault?, hc, hb]; rfl) (by rw [hc]; rfl) ?_
    have hrepeatable : repeatable c = b'.operand.isSome := by
      rw [hb', Token.eq_toChar hc]
      cases op <;> rfl
    rw [hrepeatable]
    exact ih post (hscope.tail (by rw [hc]; rfl))
  | case4 depth position b c cs op hc hop =>
    have hb : b.operand = none := Option.map_eq_none_iff.mp hop
    exact scan_cons_of_some (by rw [fault?, hc, hb]; rfl)
  | case5 depth position b c cs hc ih =>
    refine .cons (by rw [fault?, hc]) (by rw [hc]; rfl) ?_
    obtain rfl := Token.ofChar_eq_bar_iff.mp hc
    exact (ih post (hscope.tail rfl)).map _
  | case6 depth position b c cs hc =>
    obtain rfl := Token.ofChar_eq_closing_iff.mp hc
    have hdepth := hscope.depth_eq_zero
    exact scan_cons_of_some (by rw [fault?, hc]; exact if_pos hdepth)
  | case7 depth position b c cs hc hlimit =>
    exact scan_cons_of_some (by rw [fault?, hc]; exact if_pos hlimit)
  | case8 depth position b c cs hc hlimit hnone =>
    obtain rfl := Token.ofChar_eq_opening_iff.mp hc
    have hfault : fault? limit depth b.operand.isSome position '(' (cs ++ post) =
        some (.unclosedGroup position) := by
      rw [fault?, hc, hscope.closing?_append_eq_none hnone]
      exact if_neg hlimit
    exact scan_cons_of_some hfault
  | case9 depth position b c cs hc hlimit n hn e herror ih =>
    obtain rfl := Token.ofChar_eq_opening_iff.mp hc
    have hbody := ih _ (Scope.body hn post)
    rw [herror] at hbody
    exact (scan_opening hlimit hn).trans hbody
  | case10 depth position b c cs hc hlimit n hn body hbody ihbody ih =>
    obtain rfl := Token.ofChar_eq_opening_iff.mp hc
    have hgroup := ihbody _ (Scope.body hn post)
    rw [hbody] at hgroup
    obtain ⟨operand, hscan⟩ := hgroup
    have hlength : (cs.take n).length = n :=
      List.length_take_of_le (Nat.le_of_lt (lt_length_of_closing? hn))
    -- The body is scanned up to the parenthesis behind it, which is no fault at this depth.
    refine .of_scan_eq ?_ ?_ (ih post (hscope.drop hn))
    · rw [List.cons_append, scan_opening hlimit hn]
      refine hscan.trans ?_
      rw [scan_cons_of_none rfl rfl, hlength]
      congr 1
      omega
    · have := lt_length_of_closing? hn
      rw [List.length_cons, List.length_drop]
      omega

/-! ### Patterns -/

def errorAt (limit : Nat) (p : List Char) (i : Nat) (c : Char) : PatternError :=
  if c = ')' then .unopenedGroup i
  else if c = '(' then
    if limit ≤ depthAt p i then .nestLimit limit else .unclosedGroup i
  else .missingOperand c i

theorem Fault.exists_eq_errorAt {i : Nat} (h : Fault limit p i e) :
    ∃ c, p[i]? = some c ∧ e = errorAt limit p i c := by
  cases h with
  | unopened hc _ => exact ⟨_, hc, rfl⟩
  | @missing c hc hop _ =>
    refine ⟨c, hc, ?_⟩
    have hclosing : c ≠ ')' := fun h => absurd (h ▸ hop) (by decide)
    have hopening : c ≠ '(' := fun h => absurd (h ▸ hop) (by decide)
    rw [errorAt, if_neg hclosing, if_neg hopening]
  | nested hc hlimit =>
    refine ⟨_, hc, ?_⟩
    rw [errorAt, if_neg (by decide), if_pos rfl, if_pos hlimit]
  | unclosed hc hdepth _ =>
    refine ⟨_, hc, ?_⟩
    rw [errorAt, if_neg (by decide), if_pos rfl, if_neg (by omega)]

theorem Fault.unique {i : Nat} {e' : PatternError} (h : Fault limit p i e) (h' : Fault limit p i e') :
    e = e' := by
  obtain ⟨c, hc, rfl⟩ := h.exists_eq_errorAt
  obtain ⟨c', hc', rfl⟩ := h'.exists_eq_errorAt
  obtain rfl : c = c' := Option.some.inj (hc.symm.trans hc')
  rfl

theorem FirstFault.unique {i : Nat} {e' : PatternError} (h : FirstFault limit p i e)
    (h' : FirstFault limit p i e') : e = e' := by
  obtain ⟨j, hij, hj, hfirst⟩ := h
  obtain ⟨k, hik, hk, hfirst'⟩ := h'
  rcases Nat.lt_trichotomy j k with hlt | rfl | hlt
  · exact absurd hj (hfirst' j hij hlt e)
  · exact hj.unique hk
  · exact absurd hk (hfirst k hik hlt e')

/-- The fault reported for a pattern is the first one, and a pattern without fault is read. -/
theorem parse_spec (limit : Nat) (p : List Char) :
    match Regex.parse limit 0 0 {} p with
    | .error e => FirstFault limit p 0 e
    | .ok _ => ∀ i e, ¬Fault limit p i e := by
  have hscanned : Scanned limit 0 0 false p [] (Regex.parse limit 0 0 {} p) :=
    scanned_parse limit 0 0 {} p [] (.inl ⟨rfl, rfl⟩)
  have hscan : match scan limit 0 false 0 p with
      | some e => FirstFault limit p 0 e
      | none => ∀ i, 0 ≤ i → ∀ e, ¬Fault limit p i e :=
    scan_spec balance_nil rfl
  cases hparse : Regex.parse limit 0 0 {} p with
  | error e =>
    rw [hparse] at hscanned
    have hfound : scan limit 0 false 0 (p ++ []) = some e := hscanned
    rw [List.append_nil] at hfound
    rw [hfound] at hscan
    exact hscan
  | ok r =>
    rw [hparse] at hscanned
    obtain ⟨operand, hnone⟩ := hscanned
    rw [List.append_nil] at hnone
    rw [hnone] at hscan
    exact fun i => hscan i (Nat.zero_le i)

end Acceptor
