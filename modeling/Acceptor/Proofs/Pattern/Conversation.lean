import Acceptor.Pattern.Session
import Acceptor.Proofs.Pattern.Group
import Mathlib.Data.List.Induction

/-!
# Cursors stay in their scopes

A scope may be made over any span, and its cursor can even stand behind its end. In a conversation scopes are
made only over spans that a cursor of the session has read (`Session.Conversation`). Then each cursor stands in
the span that its scope was made over, its extent, and whatever is read lies in the extent of the cursor that
was asked for it (`Session.Kept`).

What a request does is in `Session.Responds`: it leaves the cursors alone, it moves the one that is asked, or it
adds one. A cursor is moved forward, since it has not come to the end of its scope before (`Kept.advance`). A
cursor that is added stands in its extent, since the span was read by a cursor that stood in its own
(`Kept.standsIn_within`).
-/

namespace Acceptor

structure Exchange where
  index : Nat
  request : Request
  answer : Answer

/-- The cursor reads the pattern `p`, and it stands in the span `e`, up to the end of which it reads. -/
structure Cursor.StandsIn (p : List Char) (e : Span) (c : Cursor) : Prop where
  pattern : c.pattern = p
  start_le : e.start ≤ c.position
  position_le : c.position ≤ c.stop
  stop : c.stop = e.stop

/-- The characters and the span of an answer are those of the pattern `p` in the span `e`. -/
def Answer.ReadsIn (p : List Char) (e : Span) : Answer → Prop
  | .char ch | .ahead (some ch) => ∃ k, e.start ≤ k ∧ k < e.stop ∧ p[k]? = some ch
  | .span s => e.start ≤ s.start ∧ s.start ≤ s.stop ∧ s.stop ≤ e.stop
  | _ => True

namespace Cursor

variable {c : Cursor}

theorem peek?_eq_none (h : c.stop ≤ c.position) : c.peek? = none := by
  rw [← Option.not_isSome_iff_eq_none, isSome_peek?_iff, hasNext, decide_eq_true_eq]
  exact Nat.not_lt.mpr h

theorem exists_peek?_eq_some (h : c.position < c.stop) :
    ∃ ch, c.peek? = some ch ∧ c.pattern[c.position]? = some ch := by
  obtain ⟨ch, hch⟩ := exists_getElem?_eq h
  refine ⟨ch, ?_, hch⟩
  rw [peek?, remaining, List.head?_drop, List.getElem?_take_of_lt h, hch]

end Cursor

namespace Session

variable {p : List Char} {past : List Exchange} {x : Exchange} {S S' : Session} {E : Array Span}
  {r : Request} {a : Answer} {c d : Cursor} {e s : Span} {i j q : Nat}

/-! ### One request -/

/-- What a request to the cursor `c` at index `i` does to the cursors, and what it is answered. -/
inductive Responds (S : Session) (i : Nat) (c : Cursor) : Request → Session → Answer → Prop
  | read {ch : Char} : c.position < c.stop → c.pattern[c.position]? = some ch →
      Responds S i c .next (S.setIfInBounds i { c with position := c.position + 1 }) (.char ch)
  | ended : c.stop ≤ c.position →
      Responds S i c .next S (.failed (.outOfScope c.position c.pattern.length))
  | seen {ch : Char} : c.position < c.stop → c.pattern[c.position]? = some ch →
      Responds S i c .peek S (.ahead (some ch))
  | unseen : c.stop ≤ c.position → Responds S i c .peek S (.ahead none)
  | asked : Responds S i c .hasNext S (.flag c.hasNext)
  | closed {n : Nat} : IsLeast c.closings n →
      Responds S i c .readGroup (S.setIfInBounds i { c with position := n + 1 })
        (.span ⟨c.position, n⟩)
  | unclosed : c.closings = ∅ →
      Responds S i c .readGroup S (.failed (.unclosedGroup (c.position - 1)))
  | remaining : Responds S i c .readRemaining (S.setIfInBounds i { c with position := c.stop })
      (.span ⟨c.position, c.stop⟩)
  | within {s : Span} : Responds S i c (.within s) (S.push (c.within s)) (.cursor S.size)
  | copy : Responds S i c .copy (S.push c) (.cursor S.size)

theorem exists_responds (hc : S[i]? = some c) (r : Request) :
    ∃ S' a, S.request i r = some (S', a) ∧ S.Responds i c r S' a := by
  cases r with
  | next =>
    rcases Nat.lt_or_ge c.position c.stop with hlt | hle
    · obtain ⟨ch, hpeek, hch⟩ := Cursor.exists_peek?_eq_some hlt
      refine ⟨_, _, ?_, .read hlt hch⟩
      simp [request, hc, Cursor.next, hpeek]
    · refine ⟨_, _, ?_, .ended hle⟩
      simp [request, hc, Cursor.next, Cursor.peek?_eq_none hle]
  | peek =>
    rcases Nat.lt_or_ge c.position c.stop with hlt | hle
    · obtain ⟨ch, hpeek, hch⟩ := Cursor.exists_peek?_eq_some hlt
      refine ⟨_, _, ?_, .seen hlt hch⟩
      simp [request, hc, hpeek]
    · refine ⟨_, _, ?_, .unseen hle⟩
      simp [request, hc, Cursor.peek?_eq_none hle]
  | readGroup =>
    cases hgroup : c.readGroup with
    | ok read =>
      obtain ⟨⟨start, stop⟩, c'⟩ := read
      obtain ⟨rfl, hleast, rfl⟩ := Cursor.readGroup_eq_ok_iff.mp hgroup
      refine ⟨_, _, ?_, .closed hleast⟩
      simp [request, hc, hgroup]
    | error fault =>
      obtain ⟨hempty, rfl⟩ := Cursor.readGroup_eq_error_iff.mp hgroup
      refine ⟨_, _, ?_, .unclosed hempty⟩
      simp [request, hc, hgroup]
  | hasNext => exact ⟨_, _, by rw [request, hc]; rfl, .asked⟩
  | readRemaining => exact ⟨_, _, by rw [request, hc]; rfl, .remaining⟩
  | within s => exact ⟨_, _, by rw [request, hc]; rfl, .within⟩
  | copy => exact ⟨_, _, by rw [request, hc]; rfl, .copy⟩

theorem responds_of_request (hc : S[i]? = some c) (h : S.request i r = some (S', a)) :
    S.Responds i c r S' a := by
  obtain ⟨S₁, a₁, hrequest, hresponds⟩ := exists_responds hc r
  rw [h] at hrequest
  cases hrequest
  exact hresponds

theorem exists_of_request (h : S.request i r = some (S', a)) : ∃ c, S[i]? = some c := by
  cases hc : S[i]? with
  | some c => exact ⟨c, rfl⟩
  | none =>
    rw [request, hc] at h
    cases h

theorem Responds.eq_of_failed {fault : PatternError} (h : S.Responds i c r S' (.failed fault)) :
    S' = S := by
  cases h <;> rfl

theorem Responds.getElem?_position {ch : Char} (h : S.Responds i c r S' a)
    (ha : a = .char ch ∨ a = .ahead (some ch)) :
    c.position < c.stop ∧ c.pattern[c.position]? = some ch := by
  cases h with
  | read hlt hch | seen hlt hch =>
    rcases ha with ha | ha
    all_goals cases ha
    exact ⟨hlt, hch⟩
  | _ => rcases ha with ha | ha <;> cases ha

theorem exists_char_iff (hc : S[i]? = some c) :
    (∃ S' ch, S.request i .next = some (S', .char ch)) ↔ c.hasNext := by
  obtain ⟨S', a, hrequest, hresponds⟩ := exists_responds hc .next
  rw [hrequest, Cursor.hasNext, decide_eq_true_iff]
  cases hresponds with
  | read hlt hch => simp [hlt]
  | ended hle => simp [hle]

theorem getElem?_push_of_eq_some {α : Type} {A : Array α} {v w : α} (h : A[j]? = some v) :
    (A.push w)[j]? = some v := by
  obtain ⟨hlt, rfl⟩ := Array.getElem?_eq_some_iff.mp h
  exact Array.getElem?_push_lt hlt

theorem exists_getElem?_advance (hc : S[i]? = some c) (hq : c.position ≤ q) (hd : S[j]? = some d) :
    ∃ d', (S.setIfInBounds i { c with position := q })[j]? = some d' ∧
      d.position ≤ d'.position ∧ d'.stop = d.stop := by
  by_cases hij : i = j
  · subst hij
    obtain rfl : c = d := Option.some.inj (hc.symm.trans hd)
    have hlt : i < S.size := (Array.getElem?_eq_some_iff.mp hc).1
    exact ⟨_, Array.getElem?_setIfInBounds_self_of_lt hlt, hq, rfl⟩
  · exact ⟨d, (Array.getElem?_setIfInBounds_ne hij).trans hd, Nat.le_refl _, rfl⟩

theorem Responds.forward (h : S.Responds i c r S' a) (hc : S[i]? = some c)
    (hle : c.position ≤ c.stop) (hd : S[j]? = some d) :
    ∃ d', S'[j]? = some d' ∧ d.position ≤ d'.position ∧ d'.stop = d.stop := by
  cases h with
  | read _ _ => exact exists_getElem?_advance hc (Nat.le_succ _) hd
  | closed hleast => exact exists_getElem?_advance hc (Nat.le_succ_of_le hleast.1.1) hd
  | remaining => exact exists_getElem?_advance hc hle hd
  | within | copy => exact ⟨d, getElem?_push_of_eq_some hd, Nat.le_refl _, rfl⟩
  | ended | seen | unseen | asked | unclosed => exact ⟨d, hd, Nat.le_refl _, rfl⟩

/-! ### Conversations -/

def Known (past : List Exchange) (s : Span) : Prop :=
  ∃ x ∈ past, (x.request = .readGroup ∨ x.request = .readRemaining) ∧ x.answer = .span s

/-- The exchanges of a session over the pattern `p`, oldest first, and the cursors after them. A scope is
made over a span that is known only. -/
inductive Conversation (p : List Char) : List Exchange → Session → Prop
  | begin : Conversation p [] (.ofPattern p)
  | snoc {past : List Exchange} {S S' : Session} {i : Nat} {r : Request} {a : Answer} :
      Conversation p past S → (∀ s, r = .within s → Known past s) → S.request i r = some (S', a) →
      Conversation p (past ++ [⟨i, r, a⟩]) S'

def addExtent (E : Array Span) (x : Exchange) : Array Span :=
  match x.request, E[x.index]? with
  | .within s, _ => E.push s
  | .copy, some e => E.push e
  | _, _ => E

/-- The extents of the cursors of a session over the pattern `p`: the first has all of it, a cursor that was
made over a span has that span, and a copy has the extent of the cursor that was copied. -/
def extents (p : List Char) (past : List Exchange) : Array Span :=
  past.foldl addExtent #[⟨0, p.length⟩]

/-- What is known after the exchanges `past`. -/
structure Kept (p : List Char) (past : List Exchange) (S : Session) : Prop where
  size_eq : (extents p past).size = S.size
  standsIn : ∀ (i : Nat) (c : Cursor), S[i]? = some c → ∃ e, (extents p past)[i]? = some e ∧ c.StandsIn p e
  readsIn : ∀ x ∈ past, ∃ e, (extents p past)[x.index]? = some e ∧ x.answer.ReadsIn p e

theorem extents_snoc (p : List Char) (past : List Exchange) (x : Exchange) :
    extents p (past ++ [x]) = addExtent (extents p past) x := by
  rw [extents, List.foldl_append]
  rfl

theorem getElem?_addExtent (h : E[j]? = some e) : (addExtent E x)[j]? = some e := by
  rw [addExtent]
  split
  · exact getElem?_push_of_eq_some h
  · exact getElem?_push_of_eq_some h
  · exact h

theorem kept_begin (p : List Char) : Kept p [] (.ofPattern p) where
  size_eq := rfl
  standsIn i c hc := by
    obtain ⟨hlt, rfl⟩ := Array.getElem?_eq_some_iff.mp hc
    obtain rfl : i = 0 := Nat.lt_one_iff.mp hlt
    exact ⟨⟨0, p.length⟩, rfl, rfl, Nat.le_refl _, Nat.zero_le _, rfl⟩
  readsIn x hx := by cases hx

namespace Kept

/-- An exchange is kept if its answer is about the extent of the cursor that was asked, and if each cursor
stands in its extent afterwards. -/
theorem snoc (h : Kept p past S) (hx : (extents p past)[x.index]? = some e)
    (hreads : x.answer.ReadsIn p e) (hsize : (addExtent (extents p past) x).size = S'.size)
    (hstands : ∀ (j : Nat) (d : Cursor), S'[j]? = some d →
      ∃ e, (addExtent (extents p past) x)[j]? = some e ∧ d.StandsIn p e) :
    Kept p (past ++ [x]) S' := by
  refine ⟨?_, ?_, fun y hy => ?_⟩
  · rw [extents_snoc]
    exact hsize
  · rw [extents_snoc]
    exact hstands
  · rw [extents_snoc]
    rcases List.mem_append.mp hy with hy | hy
    · obtain ⟨e', he', hreads'⟩ := h.readsIn y hy
      exact ⟨e', getElem?_addExtent he', hreads'⟩
    · obtain rfl := List.mem_singleton.mp hy
      exact ⟨e, getElem?_addExtent hx, hreads⟩

theorem stay (h : Kept p past S) (hx : (extents p past)[x.index]? = some e)
    (hreads : x.answer.ReadsIn p e) (hadd : addExtent (extents p past) x = extents p past) :
    Kept p (past ++ [x]) S := by
  refine h.snoc hx hreads ?_ ?_
  · rw [hadd]
    exact h.size_eq
  · rw [hadd]
    exact h.standsIn

theorem advance (h : Kept p past S) (hx : (extents p past)[x.index]? = some e) (hc : c.StandsIn p e)
    (hposition : c.position ≤ q) (hstop : q ≤ c.stop) (hreads : x.answer.ReadsIn p e)
    (hadd : addExtent (extents p past) x = extents p past) :
    Kept p (past ++ [x]) (S.setIfInBounds x.index { c with position := q }) := by
  refine h.snoc hx hreads ?_ fun j d hd => ?_
  · rw [hadd, Array.size_setIfInBounds]
    exact h.size_eq
  · rw [hadd]
    by_cases hj : x.index = j
    · subst hj
      rw [Array.getElem?_setIfInBounds_self] at hd
      split at hd
      · cases hd
        exact ⟨e, hx, hc.pattern, Nat.le_trans hc.start_le hposition, hstop, hc.stop⟩
      · cases hd
    · rw [Array.getElem?_setIfInBounds_ne hj] at hd
      exact h.standsIn j d hd

theorem add (h : Kept p past S) (hx : (extents p past)[x.index]? = some e)
    (hreads : x.answer.ReadsIn p e) (hadd : addExtent (extents p past) x = (extents p past).push s)
    (hc : c.StandsIn p s) : Kept p (past ++ [x]) (S.push c) := by
  refine h.snoc hx hreads ?_ fun j d hd => ?_
  · rw [hadd, Array.size_push, Array.size_push, h.size_eq]
  · rw [hadd]
    rw [Array.getElem?_push] at hd
    split at hd
    · next hj =>
      cases hd
      refine ⟨s, ?_, hc⟩
      rw [Array.getElem?_push, if_pos (hj.trans h.size_eq.symm)]
    · obtain ⟨e', he', hd'⟩ := h.standsIn j d hd
      exact ⟨e', getElem?_push_of_eq_some he', hd'⟩

theorem le_length_of_known (h : Kept p past S) (hs : Known past s) :
    s.start ≤ s.stop ∧ s.stop ≤ p.length := by
  obtain ⟨x, hx, _, hanswer⟩ := hs
  obtain ⟨e, he, hreads⟩ := h.readsIn x hx
  rw [hanswer] at hreads
  obtain ⟨_, hle, hstop⟩ := hreads
  have hlt : x.index < S.size := h.size_eq ▸ (Array.getElem?_eq_some_iff.mp he).1
  obtain ⟨e', he', hc⟩ := h.standsIn x.index S[x.index] (Array.getElem?_eq_getElem hlt)
  obtain rfl : e = e' := Option.some.inj (he.symm.trans he')
  have hlength := S[x.index].stop_le
  rw [hc.stop, hc.pattern] at hlength
  exact ⟨hle, Nat.le_trans hstop hlength⟩

theorem standsIn_within (h : Kept p past S) (hc : c.pattern = p) (hs : Known past s) :
    (c.within s).StandsIn p s := by
  obtain ⟨hle, hlength⟩ := h.le_length_of_known hs
  have hmin : min s.stop c.pattern.length = s.stop := by
    rw [hc]
    exact Nat.min_eq_left hlength
  refine ⟨hc, Nat.le_refl _, ?_, hmin⟩
  show s.start ≤ min s.stop c.pattern.length
  rw [hmin]
  exact hle

theorem step (h : Kept p past S) (hknown : ∀ s, r = .within s → Known past s) (hc : S[i]? = some c)
    (hr : S.Responds i c r S' a) : Kept p (past ++ [⟨i, r, a⟩]) S' := by
  obtain ⟨e, he, hin⟩ := h.standsIn i c hc
  have hpattern := hin.pattern
  have hstart := hin.start_le
  have hstop := hin.stop
  cases hr with
  | read hlt hch =>
    exact h.advance he hin (Nat.le_succ _) hlt ⟨c.position, hstart, hstop ▸ hlt, hpattern ▸ hch⟩ rfl
  | seen hlt hch =>
    exact h.stay he ⟨c.position, hstart, hstop ▸ hlt, hpattern ▸ hch⟩ rfl
  | closed hleast =>
    obtain ⟨hle, hlt, _⟩ := hleast.1
    exact h.advance he hin (Nat.le_succ_of_le hle) hlt ⟨hstart, hle, hstop ▸ Nat.le_of_lt hlt⟩ rfl
  | remaining =>
    have hle := hin.position_le
    exact h.advance he hin hle (Nat.le_refl _) ⟨hstart, hle, Nat.le_of_eq hstop⟩ rfl
  | within => exact h.add he trivial rfl (h.standsIn_within hpattern (hknown _ rfl))
  | copy =>
    have hadd : addExtent (extents p past) ⟨i, .copy, .cursor S.size⟩ = (extents p past).push e := by
      rw [addExtent, he]
    exact h.add he trivial hadd hin
  | ended | unseen | asked | unclosed => exact h.stay he trivial rfl

end Kept

namespace Conversation

theorem kept (h : Conversation p past S) : Kept p past S := by
  induction h with
  | begin => exact kept_begin p
  | snoc _ hknown hrequest ih =>
    obtain ⟨c, hc⟩ := exists_of_request hrequest
    exact ih.step hknown hc (responds_of_request hc hrequest)

theorem eq_of_nil (h : Conversation p [] S) : S = .ofPattern p := by
  generalize hpast : [] = past at h
  cases h with
  | begin => rfl
  | snoc => simp at hpast

theorem exists_of_concat (h : Conversation p (past ++ [x]) S') :
    ∃ S, Conversation p past S ∧ S.request x.index x.request = some (S', x.answer) := by
  generalize hpast : past ++ [x] = past' at h
  cases h with
  | begin => simp at hpast
  | snoc h _ hrequest =>
    obtain ⟨rfl, hx⟩ := List.append_inj' hpast rfl
    cases hx
    exact ⟨_, h, hrequest⟩

theorem unique (h : Conversation p past S) (h' : Conversation p past S') : S = S' := by
  induction h generalizing S' with
  | begin => exact h'.eq_of_nil.symm
  | snoc _ _ hrequest ih =>
    obtain ⟨S₁, h₁, hrequest'⟩ := h'.exists_of_concat
    obtain rfl := ih h₁
    rw [hrequest] at hrequest'
    cases hrequest'
    rfl

theorem forward {later : List Exchange} (h : Conversation p past S)
    (h' : Conversation p (past ++ later) S') (hd : S[j]? = some d) :
    ∃ d', S'[j]? = some d' ∧ d.position ≤ d'.position ∧ d'.stop = d.stop := by
  induction later using List.reverseRecOn generalizing S' with
  | nil =>
    -- The same exchanges have led to the same cursors.
    rw [List.append_nil] at h'
    obtain rfl := h.unique h'
    exact ⟨d, hd, Nat.le_refl _, rfl⟩
  | append_singleton later x ih =>
    rw [← List.append_assoc] at h'
    obtain ⟨S₁, h₁, hrequest⟩ := h'.exists_of_concat
    obtain ⟨d₁, hd₁, hposition₁, hstop₁⟩ := ih h₁
    obtain ⟨c, hc⟩ := exists_of_request hrequest
    -- Reading all that is left moves a cursor to the end of its scope, so it must not be behind it.
    obtain ⟨_, _, hin⟩ := h₁.kept.standsIn x.index c hc
    obtain ⟨d', hd', hposition, hstop⟩ :=
      (responds_of_request hc hrequest).forward hc hin.position_le hd₁
    exact ⟨d', hd', Nat.le_trans hposition₁ hposition, hstop.trans hstop₁⟩

end Conversation

/-- In a conversation each cursor stands in its extent, with its position at most at the end of its scope and
this at most at the end of the pattern; all that is read lies in the extent of the cursor that was asked, with
bounds in order. No cursor is ever moved back. Every request to a cursor is answered: a character is read
exactly if one is left, and then it is the one at the position of the cursor; a request that fails leaves the
cursors as they are. -/
theorem scopes_of_conversation (h : Conversation p past S) :
    Kept p past S ∧
    (∀ (i : Nat) (c : Cursor), S[i]? = some c → c.position ≤ c.stop ∧ c.stop ≤ p.length) ∧
    (∀ x ∈ past, ∀ s, x.answer = .span s → s.length? = some (s.stop - s.start)) ∧
    (∀ later S', Conversation p (past ++ later) S' → ∀ (i : Nat) (c : Cursor), S[i]? = some c →
      ∃ c', S'[i]? = some c' ∧ c.position ≤ c'.position ∧ c'.stop = c.stop) ∧
    ∀ (i : Nat) (c : Cursor), S[i]? = some c →
      ((∃ S' ch, S.request i .next = some (S', .char ch)) ↔ c.hasNext) ∧
      ∀ r, ∃ S' a, S.request i r = some (S', a) ∧ (∀ fault, a = .failed fault → S' = S) ∧
        ∀ ch, a = .char ch ∨ a = .ahead (some ch) →
          c.position < c.stop ∧ p[c.position]? = some ch := by
  have hkept := h.kept
  refine ⟨hkept, fun i c hc => ?_, fun x hx s hs => ?_, fun later S' h' i c hc => h.forward h' hc,
    fun i c hc => ⟨exists_char_iff hc, fun r => ?_⟩⟩
  · obtain ⟨_, _, hin⟩ := hkept.standsIn i c hc
    have hlength := c.stop_le
    rw [hin.pattern] at hlength
    exact ⟨hin.position_le, hlength⟩
  · obtain ⟨e, _, hreads⟩ := hkept.readsIn x hx
    rw [hs] at hreads
    exact if_pos hreads.2.1
  · obtain ⟨S', a, hrequest, hresponds⟩ := exists_responds hc r
    obtain ⟨_, _, hin⟩ := hkept.standsIn i c hc
    refine ⟨S', a, hrequest, ?_, fun ch ha => ?_⟩
    · rintro fault rfl
      exact hresponds.eq_of_failed
    · rw [← hin.pattern]
      exact hresponds.getElem?_position ha

/-- A group is read and gets a cursor of its own, a copy of which goes on when a group inside it was read. -/
def nestedGroups : List Exchange :=
  [⟨0, .next, .char '('⟩, ⟨0, .readGroup, .span ⟨1, 6⟩⟩, ⟨0, .within ⟨1, 6⟩, .cursor 1⟩,
    ⟨1, .next, .char 'a'⟩, ⟨1, .copy, .cursor 2⟩, ⟨1, .next, .char '('⟩,
    ⟨1, .readGroup, .span ⟨3, 4⟩⟩, ⟨0, .within ⟨3, 4⟩, .cursor 3⟩,
    ⟨3, .readGroup, .failed (.unclosedGroup 2)⟩, ⟨2, .readRemaining, .span ⟨2, 6⟩⟩]

theorem scopes_of_conversation_nested :
    ∃ S : Session, Conversation "(a(b)c)d".toList nestedGroups S ∧
      Kept "(a(b)c)d".toList nestedGroups S ∧
      extents "(a(b)c)d".toList nestedGroups = #[⟨0, 8⟩, ⟨1, 6⟩, ⟨1, 6⟩, ⟨3, 4⟩] ∧
      S.toList.map (·.position) = [7, 5, 6, 3] ∧
      (∃ S' ch, S.request 3 .next = some (S', .char ch)) ∧
      ¬∃ S' ch, S.request 2 .next = some (S', .char ch) := by
  let p := "(a(b)c)d".toList
  let stands (position stop : Nat) : Cursor := (Cursor.ofPattern p).within ⟨position, stop⟩
  have h₁ : Conversation p _ #[stands 1 8] :=
    Conversation.begin.snoc (i := 0) (r := .next) (a := .char '(') (by simp) rfl
  have h₂ : Conversation p _ #[stands 7 8] :=
    h₁.snoc (i := 0) (r := .readGroup) (a := .span ⟨1, 6⟩) (by simp) rfl
  have h₃ : Conversation p _ #[stands 7 8, stands 1 6] :=
    h₂.snoc (i := 0) (r := .within ⟨1, 6⟩) (a := .cursor 1) (by simp [Known]) rfl
  have h₄ : Conversation p _ #[stands 7 8, stands 2 6] :=
    h₃.snoc (i := 1) (r := .next) (a := .char 'a') (by simp) rfl
  have h₅ : Conversation p _ #[stands 7 8, stands 2 6, stands 2 6] :=
    h₄.snoc (i := 1) (r := .copy) (a := .cursor 2) (by simp) rfl
  have h₆ : Conversation p _ #[stands 7 8, stands 3 6, stands 2 6] :=
    h₅.snoc (i := 1) (r := .next) (a := .char '(') (by simp) rfl
  have h₇ : Conversation p _ #[stands 7 8, stands 5 6, stands 2 6] :=
    h₆.snoc (i := 1) (r := .readGroup) (a := .span ⟨3, 4⟩) (by simp) rfl
  have h₈ : Conversation p _ #[stands 7 8, stands 5 6, stands 2 6, stands 3 4] :=
    h₇.snoc (i := 0) (r := .within ⟨3, 4⟩) (a := .cursor 3) (by simp [Known]) rfl
  have h₉ : Conversation p _ #[stands 7 8, stands 5 6, stands 2 6, stands 3 4] :=
    h₈.snoc (i := 3) (r := .readGroup) (a := .failed (.unclosedGroup 2)) (by simp) rfl
  have h : Conversation p nestedGroups #[stands 7 8, stands 5 6, stands 6 6, stands 3 4] :=
    h₉.snoc (i := 2) (r := .readRemaining) (a := .span ⟨2, 6⟩) (by simp) rfl
  obtain ⟨hkept, _, _, _, hrequests⟩ := scopes_of_conversation h
  have hleft := (hrequests 3 _ rfl).1.mpr rfl
  have hended := mt (hrequests 2 _ rfl).1.mp Bool.false_ne_true
  exact ⟨_, h, hkept, rfl, rfl, hleft, hended⟩

end Session

end Acceptor
