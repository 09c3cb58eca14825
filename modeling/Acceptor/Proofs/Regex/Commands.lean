import Acceptor.Proofs.Regex.Language

/-!
# Building an expression by hand

What is built for an expression could be built by hand: `Regex.commands` lists the operations, each on
fragments that were made before. Built by hand, an operation that changes a state that does not exist is
refused. None of these is, because a fragment that was built lies among the states that there are
(`Regex.exists_runAll_program`).
-/

namespace Acceptor

namespace Regex

/-- How many fragments are made for an expression. -/
def fragments : Regex → Nat
  | empty => 1
  | literal _ => 1
  | group r => r.fragments
  | concat l r => l.fragments + r.fragments
  | union l r => l.fragments + r.fragments
  | repeated r _ => r.fragments

/-- The fragment that stands for an expression in the end, if its first fragment is number `n`. -/
def fragment (n : Nat) : Regex → Nat
  | empty => n
  | literal _ => n
  | group r => r.fragment n
  | concat l _ => l.fragment n
  | union empty r => n + r.fragments
  | union l _ => l.fragment n
  | repeated r _ => r.fragment n

/-- The operations by which an expression is built, if its first fragment is number `n`. -/
def commands (n : Nat) : Regex → List Command
  | empty => [.empty]
  | literal c => [.literal c]
  | group r => r.commands n
  | concat l r =>
    l.commands n ++ r.commands (n + l.fragments) ++
      [.concat (l.fragment n) (r.fragment (n + l.fragments))]
  | union empty r => r.commands n ++ [.empty, .union (n + r.fragments) (r.fragment n)]
  | union l r =>
    l.commands n ++ r.commands (n + l.fragments) ++
      [.union (l.fragment n) (r.fragment (n + l.fragments))]
  | repeated r op => r.commands n ++ [op.command (r.fragment n)]

theorem le_fragment (n : Nat) (r : Regex) : n ≤ r.fragment n := by
  fun_induction fragment n r with
  | case1 | case2 => exact Nat.le_refl _
  | case5 => exact Nat.le_add_right ..
  | case3 _ ih | case4 _ _ ih | case6 _ _ _ ih | case7 _ _ ih => exact ih

end Regex

namespace Workspace

variable {W : Workspace} {c : Command}

theorem runAll_append (W : Workspace) (cs ds : List Command) :
    W.runAll (cs ++ ds) = (W.runAll cs).bind (·.runAll ds) := by
  induction cs generalizing W with
  | nil => rfl
  | cons c cs ih =>
    rw [List.cons_append, runAll, runAll]
    cases W.run c with
    | none => rfl
    | some p => exact ih p.1

theorem runAll_singleton {p : Workspace × Reply} (h : W.run c = some p) : W.runAll [c] = some p.1 := by
  rw [runAll, h]
  rfl

/-- The workspace `W'` holds what was built for an expression, and the fragments that `W` held. -/
structure Holds (W W' : Workspace) (p : Automaton × Fragment) (index count : Nat) : Prop where
  automaton : W'.automaton = p.1
  fragment : W'.fragments[index]? = some p.2
  size : W'.fragments.size = W.fragments.size + count
  keeps : ∀ i < W.fragments.size, W'.fragments[i]? = W.fragments[i]?

namespace Holds

variable {W₁ W₂ : Workspace} {p q : Automaton × Fragment} {i j m n : Nat}

theorem push (W : Workspace) (p : Automaton × Fragment) :
    Holds W (W.pushFragment p).1 p W.fragments.size 1 where
  automaton := rfl
  fragment := Array.getElem?_push_size
  size := Array.size_push ..
  keeps _ hi := Array.getElem?_push_lt hi ▸ (Array.getElem?_eq_getElem hi).symm

theorem set (h : Holds W W₁ p j n) (hle : W.fragments.size ≤ i) (hlt : i < W₁.fragments.size)
    (q : Automaton × Fragment) : Holds W (W₁.setFragment i q).1 q i n where
  automaton := rfl
  fragment := by simp [setFragment, hlt]
  size := (Array.size_setIfInBounds ..).trans h.size
  keeps k hk := by
    have hne : i ≠ k := by omega
    rw [← h.keeps k hk]
    exact Array.getElem?_setIfInBounds_ne hne

theorem lt_size (h : Holds W W₁ p i n) : i < W₁.fragments.size :=
  (Array.getElem?_eq_some_iff.mp h.fragment).1

theorem both (hp : Holds W W₁ p i m) (hq : Holds W₁ W₂ q j n) :
    W₂.fragments[i]? = some p.2 ∧ Holds W W₂ (q.1, p.2) i (m + n) := by
  have hi : W₂.fragments[i]? = some p.2 := (hq.keeps i hp.lt_size).trans hp.fragment
  refine ⟨hi, hq.automaton, hi, ?_, fun k hk => ?_⟩
  · rw [hq.size, hp.size, Nat.add_assoc]
  · have hsize := hp.size
    exact (hq.keeps k (by omega)).trans (hp.keeps k hk)

end Holds

variable {f g : Fragment} {i j n : Nat} {op : Repetition} {r : Regex}

theorem run_command (hf : W.fragments[i]? = some f) (hstart : f.start < W.automaton.size)
    (hstop : f.stop < W.automaton.size) :
    W.run (op.command i) = some (W.setFragment i (W.automaton.repeated f op)) := by
  have hstop' : f.stop < W.automaton.size + 2 := by omega
  cases op with
  | star | plus => simp [Repetition.command, run, hf, hstop', guard, Automaton.repeated]
  | optional => simp [Repetition.command, run, hf, hstart, guard, Automaton.repeated]

theorem run_concat (hf : W.fragments[i]? = some f) (hg : W.fragments[j]? = some g)
    (hstop : f.stop < W.automaton.size) :
    W.run (.concat i j) = some (W.setFragment i (W.automaton.concat f g)) := by
  simp [run, hf, hg, hstop, guard]

theorem run_union (hf : W.fragments[i]? = some f) (hg : W.fragments[j]? = some g)
    (hfstop : f.stop < W.automaton.size) (hgstop : g.stop < W.automaton.size) :
    W.run (.union i j) = some (W.setFragment i (W.automaton.union f g)) := by
  have hf' : f.stop < W.automaton.size + 2 := by omega
  have hg' : g.stop < W.automaton.size + 2 := by omega
  simp [run, hf, hg, hf', hg', guard]

theorem run_finish (hf : W.fragments[i]? = some f) (hstop : f.stop < W.automaton.size) :
    W.run (.finish i) = some (W.setFragment i (W.automaton.finish f, f)) := by
  simp [run, hf, hstop, guard]

theorem lt_size_build (r : Regex) (A : Automaton) :
    (r.build A).2.start < (r.build A).1.size ∧ (r.build A).2.stop < (r.build A).1.size := by
  obtain ⟨R, _, hR⟩ := (r.builds_build A).recognizes
  exact ⟨hR.lt_size _ hR.start_mem, hR.lt_size _ hR.stop_mem⟩

theorem size_le_build (r : Regex) (A : Automaton) : A.size ≤ (r.build A).1.size :=
  (r.builds_build A).confined.size_le

/-- Of two expressions built one after the other, the second leaves the fragment of the first. -/
theorem Holds.both_build {W₁ W₂ : Workspace} {l r : Regex} {m : Nat}
    (hl : Holds W W₁ (l.build W.automaton) i m) (hr : Holds W₁ W₂ (r.build W₁.automaton) j n) :
    ∃ f g, W₂.fragments[i]? = some f ∧ W₂.fragments[j]? = some g ∧
      f.stop < W₂.automaton.size ∧ g.stop < W₂.automaton.size ∧
      l.build W.automaton = (W₁.automaton, f) ∧ r.build W₁.automaton = (W₂.automaton, g) ∧
      Holds W W₂ (W₂.automaton, f) i (m + n) := by
  obtain ⟨hf, hboth⟩ := hl.both hr
  have hl' : l.build W.automaton = (W₁.automaton, (l.build W.automaton).2) := by
    rw [hl.automaton]
  have hr' : r.build W₁.automaton = (W₂.automaton, (r.build W₁.automaton).2) := by
    rw [hr.automaton]
  have hfstop := (lt_size_build l W.automaton).2
  have hgstop := (lt_size_build r W₁.automaton).2
  have hle := size_le_build r W₁.automaton
  rw [← hl.automaton] at hfstop
  rw [← hr.automaton] at hgstop hle hboth
  exact ⟨_, _, hf, hr.fragment, Nat.lt_of_lt_of_le hfstop hle, hgstop, hl', hr', hboth⟩

/-- No operation is refused, and together they build the expression. -/
theorem exists_runAll_commands (hn : W.fragments.size = n) :
    ∃ W', W.runAll (r.commands n) = some W' ∧
      Holds W W' (r.build W.automaton) (r.fragment n) r.fragments := by
  fun_induction Regex.commands n r generalizing W with
  | case1 n =>
    subst hn
    exact ⟨(W.pushFragment W.automaton.empty).1, runAll_singleton rfl, .push W W.automaton.empty⟩
  | case2 n c =>
    subst hn
    exact ⟨(W.pushFragment (W.automaton.literal c)).1, runAll_singleton rfl, .push W _⟩
  | case3 n r ih => exact ih hn
  | case4 n l r ihl ihr =>
    obtain ⟨W₁, hrun₁, hl⟩ := ihl hn
    obtain ⟨W₂, hrun₂, hr⟩ := ihr (W := W₁) (by rw [hl.size, hn])
    obtain ⟨f, g, hf, hg, hfstop, _, hlbuild, hrbuild, hboth⟩ := hl.both_build hr
    refine ⟨(W₂.setFragment (l.fragment n) (W₂.automaton.concat f g)).1, ?_, ?_⟩
    · rw [runAll_append, runAll_append, hrun₁, Option.bind_some, hrun₂, Option.bind_some]
      exact runAll_singleton (run_concat hf hg hfstop)
    · rw [Regex.build, hlbuild]
      simp only [hrbuild]
      exact hboth.set (hn ▸ Regex.le_fragment n l) hboth.lt_size _
  | case5 n r ih =>
    obtain ⟨W₁, hrun₁, hr⟩ := ih hn
    -- The fragment of the empty alternative is made last and takes the place of the union.
    let W₂ := (W₁.pushFragment W₁.automaton.empty).1
    have hlast : Holds W₁ W₂ (Regex.empty.build W₁.automaton) (n + r.fragments) 1 := by
      rw [← hn, ← hr.size]
      exact .push W₁ W₁.automaton.empty
    obtain ⟨g, f, hg, hf, hgstop, hfstop, hrbuild, hempty, hboth⟩ := hr.both_build hlast
    refine ⟨(W₂.setFragment (n + r.fragments) (W₂.automaton.union f g)).1, ?_, ?_⟩
    · rw [runAll_append, hrun₁, Option.bind_some]
      exact runAll_singleton (run_union hf hg hfstop hgstop)
    · rw [Regex.build, hrbuild]
      simp only [show W₁.automaton.empty = (W₂.automaton, f) from hempty]
      have hset := hboth.set (i := n + r.fragments) (by omega) hlast.lt_size
        (W₂.automaton.union f g)
      rwa [Nat.add_comm r.fragments 1] at hset
  | case6 n l r hne ihl ihr =>
    obtain ⟨W₁, hrun₁, hl⟩ := ihl hn
    obtain ⟨W₂, hrun₂, hr⟩ := ihr (W := W₁) (by rw [hl.size, hn])
    obtain ⟨f, g, hf, hg, hfstop, hgstop, hlbuild, hrbuild, hboth⟩ := hl.both_build hr
    refine ⟨(W₂.setFragment (l.fragment n) (W₂.automaton.union f g)).1, ?_, ?_⟩
    · rw [runAll_append, runAll_append, hrun₁, Option.bind_some, hrun₂, Option.bind_some]
      exact runAll_singleton (run_union hf hg hfstop hgstop)
    · rw [Regex.build, Regex.fragment, hlbuild]
      · simp only [hrbuild]
        exact hboth.set (hn ▸ Regex.le_fragment n l) hboth.lt_size _
      · exact hne
      · exact hne
  | case7 n r op ih =>
    obtain ⟨W₁, hrun₁, hr⟩ := ih hn
    obtain ⟨hstart, hstop⟩ := lt_size_build r W.automaton
    rw [← hr.automaton] at hstart hstop
    refine ⟨(W₁.setFragment (r.fragment n)
      (W₁.automaton.repeated (r.build W.automaton).2 op)).1, ?_, ?_⟩
    · rw [runAll_append, hrun₁, Option.bind_some]
      exact runAll_singleton (run_command hr.fragment hstart hstop)
    · have hbuild : r.build W.automaton = (W₁.automaton, (r.build W.automaton).2) := by
        rw [hr.automaton]
      rw [Regex.build, hbuild]
      exact hr.set (hn ▸ Regex.le_fragment n r) hr.lt_size _

end Workspace

def Regex.program (r : Regex) : List Command := r.commands 0 ++ [.finish (r.fragment 0)]

theorem Regex.exists_runAll_program (r : Regex) :
    ∃ W, Workspace.runAll {} r.program = some W ∧
      W.automaton = (r.build {}).1.finish (r.build {}).2 := by
  obtain ⟨W, hrun, hholds⟩ := Workspace.exists_runAll_commands (W := {}) (r := r) (n := 0) rfl
  have hstop := (Workspace.lt_size_build r {}).2
  have hsize : (r.build {}).2.stop < W.automaton.size := hholds.automaton ▸ hstop
  let f := (r.build {}).2
  refine ⟨(W.setFragment (r.fragment 0) (W.automaton.finish f, f)).1, ?_, ?_⟩
  · rw [program, Workspace.runAll_append, hrun, Option.bind_some]
    exact Workspace.runAll_singleton (Workspace.run_finish hholds.fragment hsize)
  · rw [← hholds.automaton]
    rfl

end Acceptor
