import Acceptor.Proofs.Regex.Commands
import Acceptor.Proofs.Regex.Fault
import Acceptor.Proofs.Regex.Reading

/-!
# Compiling a pattern

A pass carries out an operation as soon as its operands are there. What it has built at any time are the
expressions that it has read so far, one after the other: the alternatives that have ended, and the part of
the present one that no repetition can follow any more (`Built`). So the rest of the scope is compiled as if
all of it had been read before (`Pass.run_eq`), and no operation is refused, also none before a fault.

With the faults of the pattern this says all that can happen when a pattern is compiled
(`Automaton.ofPattern_spec`).
-/

namespace Acceptor

/-! ### Operations that are not refused -/

namespace Automaton

variable {A : Automaton} {f g : Fragment}

theorem perform_concat (hstop : f.stop < A.size) :
    A.perform [f, g] (.concat 0 1) = .ok (A.concat f g) := by
  rw [perform, Workspace.run_concat rfl rfl hstop]
  rfl

theorem perform_union (hfstop : f.stop < A.size) (hgstop : g.stop < A.size) :
    A.perform [f, g] (.union 0 1) = .ok (A.union f g) := by
  rw [perform, Workspace.run_union rfl rfl hfstop hgstop]
  rfl

theorem perform_command (op : Repetition) (hstart : f.start < A.size) (hstop : f.stop < A.size) :
    A.perform [f] (op.command 0) = .ok (A.repeated f op) := by
  rw [perform, Workspace.run_command rfl hstart hstop]
  rfl

theorem perform_finish (hstop : f.stop < A.size) :
    A.perform [f] (.finish 0) = .ok (A.finish f, f) := by
  rw [perform, Workspace.run_finish rfl hstop]
  rfl

end Automaton

/-! ### Compiling in one pass -/

/-- Expressions were built one after the other onto `A₀`, the last of them stands first. There is a
fragment for each that is not empty. -/
inductive Built (A₀ : Automaton) : Automaton → List (Option Regex) → List (Option Fragment) → Prop
  | nil : Built A₀ A₀ [] []
  | none {A : Automaton} {rs : List (Option Regex)} {fs : List (Option Fragment)} :
      Built A₀ A rs fs → Built A₀ A (none :: rs) (none :: fs)
  | some {A : Automaton} {rs : List (Option Regex)} {fs : List (Option Fragment)} {r : Regex} :
      Built A₀ A rs fs → r ≠ .empty →
      Built A₀ (r.build A).1 (some r :: rs) (some (r.build A).2 :: fs)

/-- The union of `r` with the alternatives before it, the nearest of which stands first. -/
def Regex.unite (r : Regex) (before : List (Option Regex)) : Regex :=
  before.foldl (fun r l => .union (l.getD .empty) r) r

variable {A₀ A : Automaton} {rs : List (Option Regex)} {fs : List (Option Fragment)} {r : Regex}
  {g : Option Regex} {f : Option Fragment}

theorem Built.join (h : Built A₀ A rs fs) (r : Regex) :
    (r.build A).1.join (r.build A).2 fs = .ok ((r.unite rs).build A₀) := by
  induction h generalizing r with
  | nil => rfl
  | @none A rs fs _ ih =>
    have hfstop := (Workspace.lt_size_build .empty (r.build A).1).2
    have hle := Workspace.size_le_build .empty (r.build A).1
    have hgstop := (Workspace.lt_size_build r A).2
    have hunion := Automaton.perform_union hfstop (Nat.lt_of_lt_of_le hgstop hle)
    refine Eq.trans ?_ (ih (.union .empty r))
    rw [Automaton.join]
    exact congrArg (· >>= fun p => p.1.join p.2 fs) hunion
  | @some A rs fs l _ hl ih =>
    have hfstop := (Workspace.lt_size_build l A).2
    have hle := Workspace.size_le_build r (l.build A).1
    have hgstop := (Workspace.lt_size_build r (l.build A).1).2
    have hunion := Automaton.perform_union (Nat.lt_of_lt_of_le hfstop hle) hgstop
    rw [← Regex.build_union hl] at hunion
    refine Eq.trans ?_ (ih (.union l r))
    rw [Automaton.join]
    exact congrArg (· >>= fun p => p.1.join p.2 fs) hunion

theorem Built.finish (h : Built A₀ A (g :: rs) (f :: fs)) :
    (do let (A, right) ← A.orEmpty f; A.join right fs) =
      .ok (((g.getD .empty).unite rs).build A₀) := by
  cases h with
  | none h => exact h.join .empty
  | some h _ => exact h.join _

namespace Pass

open Regex (join parse)

variable {P : Pass} {f : Fragment} {limit depth : Nat}

/-- An operand is built with the repetition behind it, if there is one, as it is read. -/
theorem exists_applyPostfix (hbuild : r.build A = (P.automaton, f)) (hr : r ≠ .empty)
    (g : Option Regex) : ∃ c B f' r',
      P.applyPostfix f = .ok ({ P with cursor := c, automaton := B }, f') ∧
      r'.build A = (B, f') ∧ r' ≠ .empty ∧ ∀ limit depth,
      parse limit depth P.cursor.position (Branch.push { before := g } r) P.cursor.remaining =
        parse limit depth c.position { before := join g (some r') } c.remaining := by
  rw [applyPostfix]
  split
  · next op hop =>
    obtain ⟨ch, hpeek, hch⟩ := Option.map_eq_some_iff.mp hop
    obtain ⟨c, hnext⟩ : ∃ c, P.cursor.next = .ok (ch, c) := ⟨_, by rw [Cursor.next, hpeek]⟩
    obtain ⟨hread, hposition⟩ := Cursor.read_of_next hnext
    obtain ⟨hstart, hstop⟩ := Workspace.lt_size_build r A
    rw [hbuild] at hstart hstop
    rw [Automaton.perform_command op hstart hstop, hnext]
    refine ⟨_, _, _, .repeated r op, rfl, ?_, by simp, fun limit depth => ?_⟩
    · rw [Regex.build, hbuild]
      rfl
    · have hrepeat : (Branch.push { before := g } r).repeat? op =
          some { before := join (join g none) (some (.repeated r op)) } := rfl
      rw [hread, Token.eq_toChar hch, Regex.parse_repetition hrepeat, Regex.join_none, hposition]
  · next hnone =>
    have hcs : Unrepeated P.cursor.remaining := by
      intro c hc hhead
      obtain ⟨op, hop⟩ := Token.isRepetition_iff.mpr (by simpa using hc)
      exact hnone op (Option.map_eq_some_iff.mpr ⟨c, hhead, hop⟩)
    refine ⟨_, _, _, r, rfl, hbuild, hr, fun limit depth => ?_⟩
    have hsealed : (Branch.push { before := g } r).sealed =
        { before := join (join g none) (some r) } := rfl
    rw [← Regex.parse_sealed _ hcs, hsealed, Regex.join_none]

theorem exists_append (h : Built A₀ A (g :: rs) (P.graph :: P.ended))
    (hbuild : r.build A = (P.automaton, f)) (hr : r ≠ .empty) : ∃ P', P.append f = .ok P' ∧
      P'.cursor = P.cursor ∧ Built A₀ P'.automaton (join g (some r) :: rs) (P'.graph :: P'.ended) := by
  obtain ⟨c, B, ended, graph⟩ := P
  obtain rfl : (r.build A).1 = B := congrArg Prod.fst hbuild
  obtain rfl : (r.build A).2 = f := congrArg Prod.snd hbuild
  cases h with
  | none h => exact ⟨_, rfl, rfl, h.some hr⟩
  | @some A _ _ l h _ =>
    have hstop := Nat.lt_of_lt_of_le (Workspace.lt_size_build l A).2 (Workspace.size_le_build r _)
    have hconcat := h.some (r := .concat l r) (by simp)
    rw [Regex.build] at hconcat
    rw [append]
    simp only [Automaton.perform_concat hstop]
    exact ⟨_, rfl, rfl, hconcat⟩

theorem exists_operand (h : Built A₀ P.automaton (g :: rs) (P.graph :: P.ended)) (hr : r ≠ .empty)
    (c : Cursor) : ∃ P' r', P.operand c (r.build P.automaton) = .ok P' ∧
      Built A₀ P'.automaton (join g (some r') :: rs) (P'.graph :: P'.ended) ∧ ∀ limit depth,
      parse limit depth c.position (Branch.push { before := g } r) c.remaining =
        parse limit depth P'.cursor.position { before := join g (some r') } P'.cursor.remaining := by
  obtain ⟨c', B, f, r', hpostfix, hbuild, hr', hparse⟩ :=
    exists_applyPostfix (P := { P with cursor := c, automaton := (r.build P.automaton).1 }) rfl hr g
  obtain ⟨P', happend, hcursor, hbuilt⟩ :=
    exists_append (P := { P with cursor := c', automaton := B }) h hbuild hr'
  refine ⟨P', r', ?_, hbuilt, fun limit depth => ?_⟩
  · rw [operand, hpostfix]
    exact happend
  · rw [hparse, hcursor]

theorem regex_before (g : Option Regex) : Branch.regex { before := g } = g.getD .empty :=
  congrArg (·.getD .empty) (Regex.join_none g)

theorem parse_group {c c' c'' : Cursor} {ch : Char} {body : Span} (b : Branch)
    (hnext : c.next = .ok (ch, c')) (hch : Token.ofChar ch = .opening) (hlimit : ¬limit ≤ depth)
    (hgroup : c'.readGroup = .ok (body, c'')) : parse limit depth c.position b c.remaining =
      match parse limit (depth + 1) (c''.within body).position {} (c''.within body).remaining with
      | .error e => .error e
      | .ok r => parse limit depth c''.position (b.push (.group r)) c''.remaining := by
  obtain ⟨hread, hposition⟩ := Cursor.read_of_next hnext
  obtain ⟨n, hn, hbody, hbodyposition, hbehind, hbehindposition⟩ := Cursor.read_of_readGroup hgroup
  have hsum : c.position + n + 2 = c.position + 1 + n + 1 := by omega
  rw [hbody, hbodyposition, hbehind, hbehindposition, hposition, hread, parse, hch]
  cases hinner : parse limit (depth + 1) (c.position + 1) {} (c'.remaining.take n) with
  | error e => simp only [if_neg hlimit, hn, hinner]
  | ok r => simp only [if_neg hlimit, hn, hinner, hsum]

/-- The rest of the scope is compiled as if all of it had been read before it is built. -/
theorem run_eq (limit depth : Nat) (P : Pass)
    (h : Built A₀ P.automaton (g :: rs) (P.graph :: P.ended)) : P.run limit depth =
      ((parse limit depth P.cursor.position { before := g } P.cursor.remaining).mapError .fault).map
        fun r => (r.unite rs).build A₀ := by
  fun_induction run limit depth P generalizing A₀ g rs with
  | case1 depth P hmore e hnext =>
    rw [← Cursor.isSome_peek?_iff, Option.isSome_iff_exists] at hmore
    obtain ⟨ch, hpeek⟩ := hmore
    rw [Cursor.next, hpeek] at hnext
    cases hnext
  | case2 depth P _ ch c hnext hch hlimit =>
    rw [(Cursor.read_of_next hnext).1, parse, hch]
    simp only [if_pos hlimit]
    rfl
  | case3 depth P _ ch c hnext hch hlimit e hgroup =>
    obtain ⟨hread, hposition⟩ := Cursor.read_of_next hnext
    rw [Cursor.readGroup] at hgroup
    split at hgroup
    · cases hgroup
    · next hclosing =>
      cases hgroup
      rw [hread, parse, hch]
      simp only [if_neg hlimit, hclosing, hposition]
      rfl
  | case4 depth P _ ch c hnext hch hlimit body c' hgroup halt hbody ihbody =>
    rw [parse_group _ hnext hch hlimit hgroup]
    rw [ihbody (.none .nil)] at hbody
    cases hparse : parse limit _ (c'.within body).position {} (c'.within body).remaining with
    | error e =>
      simp only [hparse] at hbody
      cases hbody
      rfl
    | ok r =>
      simp only [hparse] at hbody
      cases hbody
  | case5 depth P _ ch c _ _ _ body c' _ p hbody halt hoperand ihbody =>
    rw [ihbody (.none .nil), map_eq_ok_iff] at hbody
    obtain ⟨r, -, rfl⟩ := hbody
    obtain ⟨P', _, hP', _⟩ := exists_operand h (r := .group r) (by simp) c'
    cases hoperand.symm.trans hP'
  | case6 depth P _ ch c hnext hch hlimit body c' hgroup p hbody P' hoperand ihbody ih =>
    rw [ihbody (.none .nil), map_eq_ok_iff] at hbody
    obtain ⟨r, hparse, rfl⟩ := hbody
    obtain ⟨_, r', hP', hbuilt, hrest⟩ := exists_operand h (r := .group r) (by simp) c'
    cases hoperand.symm.trans hP'
    rw [ih hbuilt, parse_group _ hnext hch hlimit hgroup, mapError_eq_ok_iff.mp hparse, ← hrest]
  | case7 depth P _ ch c hnext hch =>
    rw [(Cursor.read_of_next hnext).1, parse, hch]
    rfl
  | case8 depth P _ ch c hnext hch ih =>
    obtain ⟨hread, hposition⟩ := Cursor.read_of_next hnext
    rw [ih (.none h), hread, parse, hch]
    simp only [hposition]
    rw [regex_before]
    cases parse limit depth (P.cursor.position + 1) {} c.remaining <;> rfl
  | case9 depth P _ ch c hnext op hch =>
    rw [(Cursor.read_of_next hnext).1, parse, hch]
    rfl
  | case10 depth P _ ch c _ d _ halt hliteral =>
    obtain ⟨P', _, hP', _⟩ := exists_operand h (r := .literal d) (by simp) c
    cases hliteral.symm.trans hP'
  | case11 depth P _ ch c hnext d hch P' hliteral ih =>
    obtain ⟨hread, hposition⟩ := Cursor.read_of_next hnext
    obtain ⟨_, r', hP', hbuilt, hrest⟩ := exists_operand h (r := .literal d) (by simp) c
    cases hliteral.symm.trans hP'
    rw [ih hbuilt, hread, parse, hch, ← hposition, ← hrest]
  | case12 depth P hmore =>
    rw [← Cursor.isSome_peek?_iff, Option.not_isSome_iff_eq_none, Cursor.peek?,
      List.head?_eq_none_iff] at hmore
    rw [hmore, parse, h.finish, regex_before]
    rfl

end Pass

/-- In one pass the same automaton is built or the same error found, and no operation is refused. -/
theorem Automaton.onePass_eq (limit : Nat) (pattern : List Char) :
    onePass limit pattern = (ofPattern limit pattern).mapError .fault := by
  rw [onePass, Pass.run_eq limit 0 { cursor := .ofPattern pattern, automaton := {} } (.none .nil),
    ofPattern_eq, Cursor.remaining_ofPattern]
  show (((Regex.parse limit 0 0 {} pattern).mapError Halt.fault).map _ >>= _) = _
  cases Regex.parse limit 0 0 {} pattern with
  | error e => rfl
  | ok r =>
    have hfinish := perform_finish (Workspace.lt_size_build r {}).2
    exact congrArg (· >>= fun p => .ok p.1) hfinish

/-! ### All that can happen -/

namespace Automaton

/-- A pattern compiles exactly if no index is at fault, and otherwise the error is that of the smallest
index at fault. No character is asked for beyond the end of a scope. What is compiled is what a program
of operations builds by hand, none of which is refused. In one pass the outcome is the same, so none of the
operations before a fault is refused either. -/
theorem ofPattern_spec (limit : Nat) (pattern : List Char) :
    ((∃ A, ofPattern limit pattern = .ok A) ↔ ∀ i e, ¬Fault limit pattern i e) ∧
    (∀ e, ofPattern limit pattern = .error e ↔
      ∃ i, Fault limit pattern i e ∧ ∀ j < i, ∀ e', ¬Fault limit pattern j e') ∧
    (∀ position length, ofPattern limit pattern ≠ .error (.outOfScope position length)) ∧
    (∀ A, ofPattern limit pattern = .ok A →
      ∃ r W, Regex.parse limit 0 0 {} pattern = .ok r ∧
        Workspace.runAll {} r.program = some W ∧ W.automaton = A) ∧
    onePass limit pattern = (ofPattern limit pattern).mapError .fault := by
  have hspec := parse_spec limit pattern
  have hfirst : ∀ e, FirstFault limit pattern 0 e ↔
      ∃ i, Fault limit pattern i e ∧ ∀ j < i, ∀ e', ¬Fault limit pattern j e' := by
    intro e
    simp only [FirstFault, Nat.zero_le, true_and, true_implies]
  simp only [← hfirst]
  rw [onePass_eq, ofPattern_eq]
  cases hparse : Regex.parse limit 0 0 {} pattern with
  | error e =>
    rw [hparse] at hspec
    replace hspec : FirstFault limit pattern 0 e := hspec
    obtain ⟨i, _, hfault, _⟩ := id hspec
    refine ⟨⟨?_, fun h => absurd hfault (h i e)⟩, fun e' => ⟨?_, ?_⟩, ?_, ?_, rfl⟩
    · rintro ⟨A, hA⟩
      cases hA
    · intro h
      cases h
      exact hspec
    · intro h
      rw [hspec.unique h]
      rfl
    · intro position length h
      cases h
      cases hfault
    · intro A hA
      cases hA
  | ok r =>
    rw [hparse] at hspec
    replace hspec : ∀ i e, ¬Fault limit pattern i e := hspec
    refine ⟨⟨fun _ => hspec, fun _ => ⟨_, rfl⟩⟩, fun e => ⟨?_, ?_⟩, ?_, ?_, rfl⟩
    · intro h
      cases h
    · rintro ⟨i, _, hfault, _⟩
      exact absurd hfault (hspec i e)
    · intro position length h
      cases h
    · intro A hA
      cases hA
      obtain ⟨W, hrun, hW⟩ := r.exists_runAll_program
      exact ⟨r, W, rfl, hrun, hW⟩

end Automaton

end Acceptor
