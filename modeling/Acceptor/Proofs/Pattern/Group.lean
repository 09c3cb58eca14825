import Acceptor.Pattern.Cursor
import Acceptor.Proofs.Pattern.Scopes
import Mathlib.Order.Bounds.Basic

/-!
# The end of a group in its scope

The group in front of a cursor ends at the first position of the scope up to which one more group is closed
than opened (`Cursor.closings`). There its body is read, and nowhere else (`Cursor.readGroup_eq_ok_iff`,
`Cursor.readGroup_eq_error_iff`), since the balance of the rest of the scope is not negative before that
parenthesis.

The loop that counts keeps the balance itself (`Cursor.Pending`): while it runs, the number of open groups is
what was opened less what was closed, the group in front of the cursor included, and it has been positive at
all positions so far. So a turn always has something to close where it meets a closing parenthesis, and it
looks at positions of the scope only (`Cursor.Counted.turn`). The loop ends with the answer of
`Cursor.readGroup` (`Cursor.exists_counting?_ended`).
-/

namespace Acceptor

theorem Balanced.count_eq {l : List Char} (h : Balanced l) : l.count ')' = l.count '(' := by
  have hopened := h.opened
  rw [balance] at hopened
  omega

theorem Balanced.count_le {l t : List Char} (h : Balanced l) (ht : t <+: l) :
    t.count ')' ≤ t.count '(' := by
  have hnonneg := balance_of_closing?_eq_none h.closed t.length
  rw [← List.prefix_iff_eq_take.mp ht, balance] at hnonneg
  omega

namespace Cursor

variable {c c' : Cursor} {s : Span} {e : PatternError} {ch : Char} {i d k m n : Nat}
  {r r' : Counting}

/-! ### Where a group ends -/

/-- The characters from the cursor up to position `i`, the latter excluded. -/
def passed (c : Cursor) (i : Nat) : List Char := (c.pattern.take i).drop c.position

/-- The positions in the rest of the scope up to which, the position itself included, one more group is
closed than opened. -/
def closings (c : Cursor) : Set Nat :=
  {i | c.position ≤ i ∧ i < c.stop ∧ (c.passed (i + 1)).count ')' = (c.passed (i + 1)).count '(' + 1}

theorem exists_getElem?_eq (hi : i < c.stop) : ∃ ch, c.pattern[i]? = some ch :=
  ⟨_, List.getElem?_eq_getElem (Nat.lt_of_lt_of_le hi c.stop_le)⟩

theorem passed_add (h : c.position + n ≤ c.stop) : c.passed (c.position + n) = c.remaining.take n := by
  rw [passed, remaining, List.take_drop, List.take_take, Nat.min_eq_left h]

theorem passed_succ (hposition : c.position ≤ i) (hch : c.pattern[i]? = some ch) :
    c.passed (i + 1) = c.passed i ++ [ch] := by
  have hlt : i < c.pattern.length := (List.getElem?_eq_some_iff.mp hch).1
  have hle : c.position ≤ (c.pattern.take i).length := by
    rw [List.length_take]
    omega
  rw [passed, List.take_add_one, hch, Option.toList_some, List.drop_append_of_le_length hle, passed]

theorem add_mem_closings_iff :
    c.position + n ∈ c.closings ↔ c.position + n < c.stop ∧ balance (c.remaining.take (n + 1)) = -1 := by
  have hle : c.position ≤ c.position + n := Nat.le_add_right _ _
  simp only [closings, Set.mem_ofPred_eq, hle, true_and]
  refine and_congr_right fun hlt => ?_
  rw [Nat.add_assoc, passed_add hlt, balance]
  omega

theorem isLeast_closings (h : closing? 0 c.remaining = some n) :
    IsLeast c.closings (c.position + n) := by
  obtain ⟨_, hbalance, hinside⟩ := balance_of_closing? h
  have hlt := lt_length_of_closing? h
  rw [length_remaining] at hlt
  refine ⟨add_mem_closings_iff.mpr ⟨by omega, hbalance⟩, fun i hi => ?_⟩
  obtain ⟨m, rfl⟩ := Nat.exists_eq_add_of_le hi.1
  obtain ⟨_, hm⟩ := add_mem_closings_iff.mp hi
  by_contra hlt
  have := hinside (m + 1) (by omega)
  omega

theorem closings_eq_empty (h : closing? 0 c.remaining = none) : c.closings = ∅ := by
  refine Set.eq_empty_of_forall_notMem fun i hi => ?_
  obtain ⟨m, rfl⟩ := Nat.exists_eq_add_of_le hi.1
  obtain ⟨_, hm⟩ := add_mem_closings_iff.mp hi
  have := balance_of_closing?_eq_none h (m + 1)
  omega

theorem exists_closing?_eq_some (h : IsLeast c.closings i) :
    ∃ n, closing? 0 c.remaining = some n ∧ i = c.position + n := by
  cases hn : closing? 0 c.remaining with
  | some n => exact ⟨n, rfl, h.unique (isLeast_closings hn)⟩
  | none =>
    have hmem := h.1
    rw [closings_eq_empty hn] at hmem
    exact hmem.elim

theorem readGroup_eq_ok_iff : c.readGroup = .ok (s, c') ↔
    s.start = c.position ∧ IsLeast c.closings s.stop ∧ c' = { c with position := s.stop + 1 } := by
  rw [readGroup]
  constructor
  · intro h
    cases hn : closing? 0 c.remaining with
    | some n =>
      rw [hn] at h
      cases h
      exact ⟨rfl, isLeast_closings hn, rfl⟩
    | none =>
      rw [hn] at h
      cases h
  · obtain ⟨start, stop⟩ := s
    rintro ⟨rfl, hleast, rfl⟩
    obtain ⟨n, hn, rfl⟩ := exists_closing?_eq_some hleast
    rw [hn]

theorem readGroup_eq_error_iff : c.readGroup = .error e ↔
    c.closings = ∅ ∧ e = .unclosedGroup (c.position - 1) := by
  rw [readGroup]
  cases hn : closing? 0 c.remaining with
  | none => simp [closings_eq_empty hn, eq_comm]
  | some n =>
    have hne : c.closings ≠ ∅ := Set.nonempty_iff_ne_empty.mp ⟨_, (isLeast_closings hn).1⟩
    simp [hne]

theorem balanced_of_isLeast (h : IsLeast c.closings i) : Balanced (c.passed i) := by
  obtain ⟨n, hn, rfl⟩ := exists_closing?_eq_some h
  have hlt := lt_length_of_closing? hn
  rw [length_remaining] at hlt
  rw [passed_add (by omega)]
  exact balanced_take_of_closing? hn

/-! ### Counting -/

/-- The loop has come to position `i`, the group has not ended before, and `d` groups are open. -/
structure Pending (c : Cursor) (i d : Nat) : Prop where
  position_le : c.position ≤ i
  le_stop : i ≤ max c.position c.stop
  /-- The group in front of the cursor is open too. -/
  depth : d + (c.passed i).count ')' = 1 + (c.passed i).count '('
  inside : ∀ m ≤ i, (c.passed m).count ')' ≤ (c.passed m).count '('

inductive Counted (c : Cursor) : Counting → Prop
  | pending {i d : Nat} : c.Pending i d → c.Counted ⟨c, i, d, none⟩
  | closed {i : Nat} : IsLeast c.closings i →
      c.Counted ⟨{ c with position := i + 1 }, i, 0, some (.ok ⟨c.position, i⟩)⟩
  | unclosed {i d : Nat} : c.Pending i d → c.closings = ∅ →
      c.Counted ⟨c, i, d, some (.error (.unclosedGroup (c.position - 1)))⟩

theorem pending_begin (c : Cursor) : c.Pending c.position 1 := by
  have hnil (m : Nat) (hm : m ≤ c.position) : c.passed m = [] :=
    List.drop_eq_nil_of_le (Nat.le_trans (List.length_take_le _ _) hm)
  refine ⟨Nat.le_refl _, Nat.le_max_left _ _, ?_, fun m hm => ?_⟩
  · rw [hnil _ (Nat.le_refl _)]
    rfl
  · rw [hnil m hm]
    exact Nat.le_refl _

namespace Pending

theorem depth_pos (h : c.Pending i d) : 0 < d := by
  have hdepth := h.depth
  have hinside := h.inside i (Nat.le_refl i)
  omega

theorem depth_le (h : c.Pending i d) : d ≤ c.pattern.length + 1 := by
  have hdepth := h.depth
  have hcount : (c.passed i).count '(' ≤ (c.passed i).length := List.count_le_length
  have hpassed : (c.passed i).length ≤ c.pattern.length := by
    rw [passed, List.length_drop, List.length_take]
    omega
  omega

theorem pass (h : c.Pending i d) (hi : i < c.stop) (hch : c.pattern[i]? = some ch)
    (hk : k + [ch].count ')' = d + [ch].count '(') (hpos : 0 < k) : c.Pending (i + 1) k := by
  have hdepth := h.depth
  have hsucc := passed_succ h.position_le hch
  have hcount : k + (c.passed (i + 1)).count ')' = 1 + (c.passed (i + 1)).count '(' := by
    rw [hsucc, List.count_append, List.count_append]
    omega
  refine ⟨Nat.le_succ_of_le h.position_le, by omega, hcount, fun m hm => ?_⟩
  rcases Nat.lt_or_eq_of_le hm with hlt | rfl
  · exact h.inside m (Nat.le_of_lt_succ hlt)
  · omega

theorem not_mem_closings (h : c.Pending i d) (hm : m < i) : m ∉ c.closings := by
  intro hmem
  have hcount := hmem.2.2
  have hinside := h.inside (m + 1) hm
  omega

theorem isLeast (h : c.Pending i 1) (hi : i < c.stop) (hch : c.pattern[i]? = some ')') :
    IsLeast c.closings i := by
  have hdepth := h.depth
  refine ⟨⟨h.position_le, hi, ?_⟩, fun m hm => ?_⟩
  · rw [passed_succ h.position_le hch, List.count_append, List.count_append]
    have hclosing : [')'].count ')' = 1 := rfl
    have hopening : [')'].count '(' = 0 := rfl
    omega
  · exact Nat.le_of_not_lt fun hlt => h.not_mem_closings hlt hm

theorem closings_eq_empty (h : c.Pending i d) (hi : c.stop ≤ i) : c.closings = ∅ :=
  Set.eq_empty_of_forall_notMem fun _ hm =>
    h.not_mem_closings (Nat.lt_of_lt_of_le hm.2.1 hi) hm

theorem turn (h : c.Pending i d) : ∃ r, Counting.turn? ⟨c, i, d, none⟩ = some r ∧ c.Counted r ∧
    (r.outcome = none → r.index = i + 1) := by
  rw [Counting.turn?]
  by_cases hi : i < c.stop
  · obtain ⟨ch, hch⟩ := exists_getElem?_eq hi
    simp only [if_pos hi, hch, Option.bind_some]
    cases ht : Token.ofChar ch with
    | opening =>
      obtain rfl := Token.eq_toChar ht
      exact ⟨_, rfl, .pending (h.pass hi hch rfl (Nat.succ_pos d)), fun _ => rfl⟩
    | closing =>
      obtain rfl := Token.eq_toChar ht
      -- The group that is sought is open, and this closes it unless there are others inside it.
      obtain ⟨k, rfl⟩ := Nat.exists_eq_succ_of_ne_zero h.depth_pos.ne'
      by_cases hk : k = 0
      · subst hk
        exact ⟨_, rfl, .closed (h.isLeast hi hch), fun hnone => by cases hnone⟩
      · refine ⟨_, congrArg some (if_neg hk), ?_, fun _ => rfl⟩
        exact .pending (h.pass hi hch rfl (Nat.pos_of_ne_zero hk))
    | bar | repetition op | literal x =>
      have hopening : ch ≠ '(' := fun h => by rw [Token.ofChar_eq_opening_iff.mpr h] at ht; cases ht
      have hclosing : ch ≠ ')' := fun h => by rw [Token.ofChar_eq_closing_iff.mpr h] at ht; cases ht
      have hnone : d + [ch].count ')' = d + [ch].count '(' := by simp [hopening, hclosing]
      exact ⟨_, rfl, .pending (h.pass hi hch hnone h.depth_pos), fun _ => rfl⟩
  · simp only [if_neg hi]
    exact ⟨_, rfl, .unclosed h (h.closings_eq_empty (Nat.le_of_not_lt hi)), fun hnone => by cases hnone⟩

end Pending

/-- A turn finds a character wherever it looks for one, and an open group wherever it has to close one. As
long as there is no answer, it goes one position further. -/
theorem Counted.turn (h : c.Counted r) : ∃ r', r.turn? = some r' ∧ c.Counted r' ∧
    (r'.outcome = none → r.outcome = none ∧ r'.index = r.index + 1) := by
  cases h with
  | pending hpending =>
    obtain ⟨r', hturn, hr', hindex⟩ := hpending.turn
    exact ⟨r', hturn, hr', fun hnone => ⟨rfl, hindex hnone⟩⟩
  | closed hleast => exact ⟨_, rfl, .closed hleast, fun hnone => by cases hnone⟩
  | unclosed hpending hempty => exact ⟨_, rfl, .unclosed hpending hempty, fun hnone => by cases hnone⟩

theorem exists_counting?_counted (c : Cursor) (n : Nat) : ∃ r, c.counting? n = some r ∧ c.Counted r ∧
    (r.outcome = none → r.index = c.position + n) := by
  induction n with
  | zero => exact ⟨_, rfl, .pending c.pending_begin, fun _ => rfl⟩
  | succ n ih =>
    obtain ⟨r, hr, hcounted, hindex⟩ := ih
    obtain ⟨r', hturn, hcounted', hstep⟩ := hcounted.turn
    refine ⟨r', ?_, hcounted', fun hnone => ?_⟩
    · rw [counting?, hr]
      exact hturn
    · obtain ⟨hbefore, hsucc⟩ := hstep hnone
      rw [hsucc, hindex hbefore, Nat.add_assoc]

/-- The loop gives an answer after as many turns as there are characters left, and one more. -/
theorem exists_counting?_ended (c : Cursor) : ∃ r, c.counting? (c.stop - c.position + 1) = some r ∧
    match c.readGroup with
    | .ok (s, c') => r.outcome = some (.ok s) ∧ r.cursor = c'
    | .error e => r.outcome = some (.error e) ∧ r.cursor = c := by
  obtain ⟨r, hr, hcounted, hindex⟩ := c.exists_counting?_counted (c.stop - c.position + 1)
  refine ⟨r, hr, ?_⟩
  cases hcounted with
  | @pending i d hpending =>
    have hle := hpending.le_stop
    have hi : i = c.position + (c.stop - c.position + 1) := hindex rfl
    omega
  | @closed i hleast =>
    have hok : c.readGroup = .ok (⟨c.position, i⟩, { c with position := i + 1 }) :=
      readGroup_eq_ok_iff.mpr ⟨rfl, hleast, rfl⟩
    rw [hok]
    exact ⟨rfl, rfl⟩
  | unclosed hpending hempty =>
    rw [readGroup_eq_error_iff.mpr ⟨hempty, rfl⟩]
    exact ⟨rfl, rfl⟩

/-- The body of a group reaches up to the first position of the scope at which one more group is closed than
opened, and every parenthesis in it has its counterpart there. Without such a position the group is reported
as unclosed. The loop that counts looks at positions of the scope only, never closes more groups than are
open, and ends with this answer; it moves the cursor behind the group, or leaves it as it is. -/
theorem readGroup_spec (c : Cursor) :
    (∀ s c', c.readGroup = .ok (s, c') ↔
      s.start = c.position ∧ IsLeast c.closings s.stop ∧ c' = { c with position := s.stop + 1 }) ∧
    (∀ i, IsLeast c.closings i → (∀ t, t <+: c.passed i → t.count ')' ≤ t.count '(') ∧
      (c.passed i).count ')' = (c.passed i).count '(') ∧
    (∀ e, c.readGroup = .error e ↔ c.closings = ∅ ∧ e = .unclosedGroup (c.position - 1)) ∧
    (∀ n, ∃ r, c.counting? n = some r ∧ c.Counted r ∧
      (r.outcome = none → 0 < r.depth ∧ r.depth ≤ c.pattern.length + 1)) ∧
    ∃ n r, c.counting? n = some r ∧
      match c.readGroup with
      | .ok (s, c') => r.outcome = some (.ok s) ∧ r.cursor = c'
      | .error e => r.outcome = some (.error e) ∧ r.cursor = c := by
  refine ⟨fun s c' => readGroup_eq_ok_iff, fun i hi => ?_, fun e => readGroup_eq_error_iff,
    fun n => ?_, _, c.exists_counting?_ended⟩
  · have hbalanced := balanced_of_isLeast hi
    exact ⟨fun t ht => hbalanced.count_le ht, hbalanced.count_eq⟩
  · obtain ⟨r, hr, hcounted, _⟩ := c.exists_counting?_counted n
    refine ⟨r, hr, hcounted, fun hnone => ?_⟩
    cases hcounted with
    | pending hpending => exact ⟨hpending.depth_pos, hpending.depth_le⟩
    | closed hleast => cases hnone
    | unclosed hpending hempty => cases hnone

/-- The scope ends inside the group that is open, so the parenthesis behind it is not found. -/
example : (⟨"((a)b)".toList, 2, 3, by decide⟩ : Cursor).readGroup = .error (.unclosedGroup 1) := rfl

end Cursor

end Acceptor
