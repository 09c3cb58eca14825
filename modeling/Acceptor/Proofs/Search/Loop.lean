import Acceptor.Proofs.Search.Consistency
import Acceptor.Proofs.Search.Invariant
import Mathlib.Logic.Relation

/-!
# The loop follows the walk

An iteration of the loop does one of a few things (`Automaton.Iterates`). Whichever it is, frames and
trail stay consistent (`Iterates.consistent`), so no index is ever out of range (`exists_iterates`).

Each visit of the walk is shown by a frame (`Shows`). The choices of a visit are the exits of the frame
but for those that lead back into its run. An iteration that skips such an exit leaves the walk where it
is, and any other iteration is a turn of the walk (`Shows.progress`). The exits of a frame are finitely
many and every walk ends, so the loop ends, and with the answer of the search (`loop?_spec`).
-/

namespace Acceptor

/-- The states of the run of the frame `f`, which stands on the frames `below`. -/
def Frame.run (f : Frame) (below : List Frame) : List Nat :=
  ((below ++ [f]).drop f.runStart).map (·.state)

/-- The frame that the step `s` leads to from the frame `f` at depth `d`. -/
def Frame.enter (f : Frame) (d : Nat) (s : Step) : Frame :=
  match s.label with
  | .epsilon => { f with state := s.target, tried := 0 }
  | .symbol _ => { state := s.target, position := f.position + 1, runStart := d + 1 }

namespace Automaton

variable {A : Automaton} {limit : Limit} {input : List Char} {l l' : Loop} {below : List Frame}
  {f : Frame} {s : Step} {t : Trail} {n : Nat} {w w' : Walk} {v : Visit} {vs : List Visit}

/-! ### One iteration -/

inductive Iterates (A : Automaton) (limit : Limit) (input : List Char) : Loop → Loop → Prop
  | ended {l : Loop} : l.outcome.isSome → A.Iterates limit input l l
  | exhausted {t : Trail} {n : Nat} :
      A.Iterates limit input ⟨[], t, n, none⟩ ⟨[], t, n, some (.ok false)⟩
  /-- All exits of the last frame were tried, and it accepts. -/
  | accepted {below : List Frame} {f : Frame} {t : Trail} {n : Nat} :
      (A.exits input f.toPlace)[f.tried]? = none → f.position = input.length → A.accepting f.state →
      A.Iterates limit input ⟨below ++ [f], t, n, none⟩ ⟨below ++ [f], t, n, some (.ok true)⟩
  /-- All exits of the last frame were tried, and it is dropped. -/
  | left {below : List Frame} {f : Frame} {t : Trail} {n : Nat} :
      (A.exits input f.toPlace)[f.tried]? = none →
      ¬(f.position = input.length ∧ A.accepting f.state) →
      A.Iterates limit input ⟨below ++ [f], t, n, none⟩ ⟨below, t, n, none⟩
  /-- The next exit leads back into the run. -/
  | skipped {below : List Frame} {f : Frame} {t : Trail} {n : Nat} {s : Step} :
      (A.exits input f.toPlace)[f.tried]? = some s → s.label = .epsilon → s.target ∈ f.run below →
      A.Iterates limit input ⟨below ++ [f], t, n, none⟩ ⟨below ++ [f.tick], t, n, none⟩
  /-- The next exit would be a step too many. -/
  | refused {below : List Frame} {f : Frame} {t : Trail} {n k : Nat} {s : Step} :
      (A.exits input f.toPlace)[f.tried]? = some s → (s.label = .epsilon → s.target ∉ f.run below) →
      limit.exceededBy? (n + 1) = some k →
      A.Iterates limit input ⟨below ++ [f], t, n, none⟩
        ⟨below ++ [f.tick], t, n + 1, some (.error (.stepLimit k))⟩
  /-- The next exit is taken. -/
  | entered {below : List Frame} {f : Frame} {t : Trail} {n : Nat} {s : Step} :
      (A.exits input f.toPlace)[f.tried]? = some s → (s.label = .epsilon → s.target ∉ f.run below) →
      limit.exceededBy? (n + 1) = none →
      A.Iterates limit input ⟨below ++ [f], t, n, none⟩
        ⟨below ++ [f.tick] ++ [f.enter below.length s], t.take below.length ++ [s], n + 1, none⟩

theorem mem_exits_iff {p : Place} : s ∈ A.exits input p ↔
    (∃ i ∈ A.targets p.state .epsilon, s = ⟨p.state, .epsilon, i⟩) ∨
      ∃ c, input[p.position]? = some c ∧
        ∃ i ∈ A.targets p.state (.symbol c), s = ⟨p.state, .symbol c, i⟩ := by
  have hsilent : s ∈ A.silentExits p ↔
      ∃ i ∈ A.targets p.state .epsilon, s = ⟨p.state, .epsilon, i⟩ := by
    simp only [silentExits, epsilons, List.mem_map, Ascending.mem_toList, @eq_comm Step]
  rw [exits, List.mem_append, hsilent, symbolExits]
  cases input[p.position]? with
  | none => simp
  | some c => simp [Ascending.mem_toList, @eq_comm Step]

theorem modify_concat (below : List Frame) (f : Frame) (g : Frame → Frame) :
    (below ++ [f]).modify below.length g = below ++ [g f] := by
  induction below with
  | nil => rfl
  | cons x below ih => exact congrArg (x :: ·) ih

theorem tick?_concat (below : List Frame) (f : Frame) (t : Trail) (n : Nat)
    (o : Option (Except MatchError Bool)) :
    (⟨below ++ [f], t, n, o⟩ : Loop).tick? below.length = some ⟨below ++ [f.tick], t, n, o⟩ := by
  rw [Loop.tick?, if_pos (by simp), modify_concat]

theorem run_tick (below : List Frame) (f : Frame) :
    ((below ++ [f.tick]).drop f.runStart).map (·.state) = f.run below := by
  rw [Frame.run, List.map_drop, List.map_drop, List.map_append, List.map_append]
  rfl

theorem run_of_le (below : List Frame) (f : Frame) (h : f.runStart ≤ below.length) :
    f.run below = (below.drop f.runStart).map (·.state) ++ [f.state] := by
  rw [Frame.run, List.drop_append_of_le_length h, List.map_append]
  rfl

theorem run_places (below : List Frame) (f : Frame) :
    ((below.map (·.toPlace) ++ [f.toPlace]).drop f.runStart).map (·.state) = f.run below := by
  rw [Frame.run, List.map_drop, List.map_drop, List.map_append, List.map_append, List.map_map]
  rfl

theorem places_concat (below : List Frame) (f : Frame) (t : Trail) (n : Nat)
    (o : Option (Except MatchError Bool)) :
    (⟨below ++ [f], t, n, o⟩ : Loop).places = below.map (·.toPlace) ++ [f.toPlace] :=
  List.map_append

theorem iterates_attempt (limit : Limit) (t : Trail) (n : Nat)
    (hs : (A.exits input f.toPlace)[f.tried]? = some s)
    (hadmitted : s.label = .epsilon → s.target ∉ f.run below) :
    A.Iterates limit input ⟨below ++ [f], t, n, none⟩
      ((⟨below ++ [f.tick], t, n, none⟩ : Loop).attempt limit below.length s
        (f.enter below.length s)) := by
  unfold Loop.attempt
  cases hk : limit.exceededBy? (n + 1) with
  | some k => exact .refused hs hadmitted hk
  | none => exact .entered hs hadmitted hk

theorem last_places (below : List Frame) (f : Frame) (t : Trail) (n : Nat)
    (o : Option (Except MatchError Bool)) :
    (⟨below ++ [f], t, n, o⟩ : Loop).places.length = below.length + 1 ∧
      (⟨below ++ [f], t, n, o⟩ : Loop).places[below.length]? = some f.toPlace := by
  rw [places_concat]
  simp

theorem Consistent.last_le {o : Option (Except MatchError Bool)}
    (h : A.Consistent input (⟨below ++ [f], t, n, o⟩ : Loop).places t) :
    f.position ≤ input.length ∧ f.runStart ≤ below.length := by
  obtain ⟨hlength, hlast⟩ := last_places below f t n o
  obtain ⟨⟨p, hp, _⟩, _⟩ := h.runStart f.toPlace (List.mem_of_getElem? hlast)
  have hlt := (List.getElem?_eq_some_iff.mp hp).1
  rw [hlength] at hlt
  exact ⟨(h.path_to hlast).2.2.1, Nat.le_of_lt_succ hlt⟩

/-- With consistent frames, no index is out of range. -/
theorem exists_iterates (limit : Limit) (h : A.Consistent input l.places l.trail) :
    ∃ l', A.iterate? limit input l = some l' ∧ A.Iterates limit input l l' := by
  obtain ⟨stack, t, n, outcome⟩ := l
  cases outcome with
  | some o => exact ⟨_, rfl, .ended rfl⟩
  | none =>
    rcases List.eq_nil_or_concat' stack with rfl | ⟨below, f, rfl⟩
    · exact ⟨_, rfl, .exhausted⟩
    · have hdepth : (below ++ [f]).length - 1 = below.length := by simp
      simp only [iterate?, List.getLast?_concat, hdepth]
      cases hs : (A.exits input f.toPlace)[f.tried]? with
      | none =>
        by_cases haccept : f.position = input.length ∧ A.accepting f.state
        · exact ⟨_, if_pos haccept, .accepted hs haccept.1 haccept.2⟩
        · refine ⟨_, if_neg haccept, ?_⟩
          rw [List.dropLast_concat]
          exact .left hs haccept
      | some s =>
        have hattempt (hadmitted : s.label = .epsilon → s.target ∉ f.run below) :=
          iterates_attempt limit t n hs hadmitted
        unfold Frame.enter at hattempt
        simp only [tick?_concat, Option.bind_some]
        cases hlabel : s.label with
        | epsilon =>
          rw [hlabel] at hattempt
          have hany : ((below ++ [f.tick]).drop f.runStart).any (·.state == s.target) ↔
              s.target ∈ f.run below := by
            rw [← run_tick, List.any_eq_true, List.mem_map]
            simp only [beq_iff_eq]
          have hframes : f.runStart ≤ (below ++ [f.tick]).length := by
            rw [List.length_append]
            exact Nat.le_succ_of_le h.last_le.2
          simp only [Loop.framesFrom?, if_pos hframes, Option.map_some, hany]
          by_cases hrun : s.target ∈ f.run below
          · exact ⟨_, congrArg some (if_pos hrun), .skipped hs hlabel hrun⟩
          · exact ⟨_, congrArg some (if_neg hrun), hattempt fun _ => hrun⟩
        | symbol c =>
          rw [hlabel] at hattempt
          refine ⟨_, rfl, ?_⟩
          rw [List.length_append, List.length_singleton]
          exact hattempt (by simp)

/-- An iteration keeps frames and trail consistent. -/
theorem Iterates.consistent (hi : A.Iterates limit input l l')
    (h : A.Consistent input l.places l.trail) : A.Consistent input l'.places l'.trail := by
  cases hi with
  | ended _ => exact h
  | exhausted => exact h
  | accepted _ _ _ => exact h
  | left _ _ =>
    have hpop := h.pop
    rwa [places_concat, List.dropLast_concat] at hpop
  | skipped _ _ _ =>
    rw [places_concat] at h ⊢
    exact h
  | refused _ _ _ =>
    rw [places_concat] at h ⊢
    exact h
  | @entered below f t n s hs hadmitted hk =>
    obtain ⟨hlength, hlast⟩ := last_places below f t n none
    rw [places_concat] at h hlength hlast
    rw [places_concat, List.map_append]
    rcases mem_exits_iff.mp (List.mem_of_getElem? hs) with ⟨i, hi, rfl⟩ | ⟨c, hc, i, hi, rfl⟩
    · have hrun := hadmitted rfl
      rw [← run_places] at hrun
      exact h.push_silent hlength hlast hi hrun
    · have hpush := h.push_symbol hlength hlast hc hi
      rwa [hlength] at hpush

/-! ### Frames and visits -/

/-- The exits that may be taken: all but those that lead back into the run. -/
def Admitted (run : List Nat) (s : Step) : Prop := s.label = .epsilon → s.target ∉ run

instance (run : List Nat) (s : Step) : Decidable (Admitted run s) :=
  inferInstanceAs (Decidable (_ → _))

theorem choices_eq_filter {p : Place} (hstate : v.state = p.state)
    (hrest : v.rest = input.drop p.position) :
    A.choices v = (A.exits input p).filter (Admitted v.run) := by
  have hsilent : A.silentChoices v = (A.silentExits p).filter (Admitted v.run) := by
    have hadmitted : ((Admitted v.run ·) : Step → Bool) ∘ (⟨p.state, .epsilon, ·⟩) = (· ∉ v.run) := by
      funext i
      simp [Admitted]
    rw [silentChoices, silentExits, hstate, List.filter_map, hadmitted]
    rfl
  have hsymbol : A.symbolChoices v = (A.symbolExits input p).filter (Admitted v.run) := by
    rw [symbolChoices, symbolExits, hrest, hstate]
    cases hc : input[p.position]? with
    | none =>
      rw [List.drop_of_length_le (List.getElem?_eq_none_iff.mp hc)]
      rfl
    | some c =>
      obtain ⟨hlt, rfl⟩ := List.getElem?_eq_some_iff.mp hc
      rw [List.drop_eq_getElem_cons hlt]
      refine (List.filter_eq_self.mpr fun s hs => ?_).symm
      obtain ⟨i, _, rfl⟩ := List.mem_map.mp hs
      simp [Admitted]
  rw [choices, exits, List.filter_append, hsilent, hsymbol]

/-- The frame `f` on the frames `below` shows the visit `v`. -/
structure Matches (A : Automaton) (input : List Char) (below : List Frame) (f : Frame) (v : Visit) :
    Prop where
  state : v.state = f.state
  rest : v.rest = input.drop f.position
  run : v.run.reverse = f.run below
  /-- What is left to try from the visit is what is left to try from the frame and may be taken. -/
  pending : (A.choices v).drop v.tried =
    ((A.exits input f.toPlace).drop f.tried).filter (Admitted v.run)

/-- The frames show the visits, each on the frames that show the visits below. -/
inductive Mirrors (A : Automaton) (input : List Char) : List Frame → List Visit → Prop
  | nil : A.Mirrors input [] []
  | snoc {below : List Frame} {f : Frame} {v : Visit} {vs : List Visit} :
      A.Mirrors input below vs → A.Matches input below f v → A.Mirrors input (below ++ [f]) (v :: vs)

theorem Mirrors.length_eq {fs : List Frame} (h : A.Mirrors input fs vs) : fs.length = vs.length := by
  induction h with
  | nil => rfl
  | snoc _ _ ih => rw [List.length_append, ih]; rfl

theorem Mirrors.exists_of_concat (h : A.Mirrors input (below ++ [f]) vs) :
    ∃ v vs', vs = v :: vs' ∧ A.Mirrors input below vs' ∧ A.Matches input below f v := by
  generalize hfs : below ++ [f] = fs at h
  cases h with
  | nil => simp at hfs
  | snoc hbelow hmatches =>
    obtain ⟨rfl, hf⟩ := List.append_inj' hfs rfl
    obtain rfl := List.singleton_inj.mp hf
    exact ⟨_, _, rfl, hbelow, hmatches⟩

namespace Matches

variable (h : A.Matches input below f v)

include h

theorem admitted_iff : Admitted v.run s ↔ (s.label = .epsilon → s.target ∉ f.run below) := by
  rw [Admitted, ← h.run, List.mem_reverse]

theorem accepts_iff (hposition : f.position ≤ input.length) :
    (v.rest.isEmpty && A.accepting v.state) = true ↔
      f.position = input.length ∧ A.accepting f.state := by
  rw [Bool.and_eq_true, List.isEmpty_iff, h.rest, h.state, List.drop_eq_nil_iff]
  exact and_congr_left fun _ => ⟨fun hle => Nat.le_antisymm hposition hle, Nat.le_of_eq ∘ Eq.symm⟩

theorem choices_eq_none (hs : (A.exits input f.toPlace)[f.tried]? = none) :
    (A.choices v)[v.tried]? = none := by
  have hpending := h.pending
  rw [List.drop_of_length_le (List.getElem?_eq_none_iff.mp hs), List.filter_nil,
    List.drop_eq_nil_iff] at hpending
  exact List.getElem?_eq_none hpending

theorem pending_eq (hs : (A.exits input f.toPlace)[f.tried]? = some s) :
    (A.choices v).drop v.tried =
      (s :: (A.exits input f.toPlace).drop (f.tried + 1)).filter (Admitted v.run) := by
  obtain ⟨hlt, rfl⟩ := List.getElem?_eq_some_iff.mp hs
  rw [h.pending, List.drop_eq_getElem_cons hlt]

theorem skip (hs : (A.exits input f.toPlace)[f.tried]? = some s) (hadmitted : ¬Admitted v.run s) :
    A.Matches input below f.tick v where
  state := h.state
  rest := h.rest
  run := by rw [h.run]; exact (run_tick below f).symm
  pending := by
    rw [h.pending_eq hs, List.filter_cons_of_neg (by simpa using hadmitted)]
    rfl

theorem choices_eq_some (hs : (A.exits input f.toPlace)[f.tried]? = some s)
    (hadmitted : Admitted v.run s) : (A.choices v)[v.tried]? = some s := by
  have hpending := h.pending_eq hs
  rw [List.filter_cons_of_pos (by simpa using hadmitted)] at hpending
  have hhead := congrArg List.head? hpending
  rwa [List.head?_drop] at hhead

theorem tick (hs : (A.exits input f.toPlace)[f.tried]? = some s) (hadmitted : Admitted v.run s) :
    A.Matches input below f.tick { v with tried := v.tried + 1 } where
  state := h.state
  rest := h.rest
  run := by rw [h.run]; exact (run_tick below f).symm
  pending := by
    have hpending := congrArg List.tail (h.pending_eq hs)
    rw [List.filter_cons_of_pos (by simpa using hadmitted), List.tail_drop] at hpending
    exact hpending

theorem enter (hrunStart : f.runStart ≤ below.length) (hs : s ∈ A.exits input f.toPlace) :
    A.Matches input (below ++ [f.tick]) (f.enter below.length s) (v.enter s) := by
  have hlength : (below ++ [f.tick]).length = below.length + 1 := List.length_append
  rcases mem_exits_iff.mp hs with ⟨i, _, rfl⟩ | ⟨c, _, i, _, rfl⟩
  · have hle : f.runStart ≤ (below ++ [f.tick]).length := hlength ▸ Nat.le_succ_of_le hrunStart
    refine ⟨rfl, h.rest, ?_, choices_eq_filter rfl h.rest⟩
    rw [run_of_le _ (f.enter below.length ⟨f.state, .epsilon, i⟩) hle]
    show (i :: v.run).reverse =
      ((below ++ [f.tick]).drop f.runStart).map (fun g : Frame => g.state) ++ [i]
    rw [run_tick, List.reverse_cons, h.run]
  · have hrest : v.rest.tail = input.drop (f.position + 1) := by
      rw [h.rest, List.tail_drop]
    refine ⟨rfl, hrest, ?_, choices_eq_filter rfl hrest⟩
    rw [run_of_le _ (f.enter below.length ⟨f.state, .symbol c, i⟩) (Nat.le_of_eq hlength.symm)]
    show [i] = ((below ++ [f.tick]).drop (below.length + 1)).map _ ++ [i]
    rw [← hlength, List.drop_length]
    rfl

end Matches

/-! ### The trail and the path of the latest visit -/

section path

variable {root : Visit} {last : List Step} {attempts : List (List Step)}

theorem Stacked.length_path (h : A.Stacked root v vs) :
    v.path.length = root.path.length + vs.length := by
  induction h with
  | root => rfl
  | enter _ _ _ ih => rw [Visit.path_enter, List.length_cons, List.length_cons, ih, Nat.add_assoc]

theorem Latest.path_isPrefix (h : A.Latest v n last) : v.path.reverse <+: last.reverse := by
  cases h with
  | fresh => exact List.prefix_refl _
  | tried _ =>
    rw [List.reverse_append, List.reverse_cons, List.append_assoc]
    exact List.prefix_append ..

/-- The path tried last begins with the path to the latest visit. -/
theorem Explored.take_eq (h : A.Explored (.first A.start input) ⟨v :: vs, attempts⟩) :
    (attempts.headD []).reverse.take vs.length = v.path.reverse := by
  cases h with
  | @running u _ n _ hstacked _ hlatest =>
    have hlength := hstacked.length_path
    rw [Visit.first, List.length_nil, Nat.zero_add] at hlength
    rw [← hlength, ← List.length_reverse]
    exact (List.prefix_iff_eq_take.mp hlatest.path_isPrefix).symm

end path

/-! ### The loop and the walk -/

structure Shows (A : Automaton) (input : List Char) (w : Walk) (l : Loop) : Prop where
  consistent : A.Consistent input l.places l.trail
  mirrors : A.Mirrors input l.stack w.stack
  explored : A.Explored (.first A.start input) w
  trail : l.trail = (w.attempts.headD []).reverse
  running : l.outcome = none

theorem shows_begin (A : Automaton) (input : List Char) :
    A.Shows input (.begin A.start input) (.begin A.start) where
  consistent := consistent_begin A input
  mirrors := by
    have hrest : (Visit.first A.start input).rest = input.drop 0 := rfl
    have hmatches : A.Matches input [] { state := A.start, position := 0, runStart := 0 }
        (.first A.start input) := ⟨rfl, hrest, rfl, choices_eq_filter rfl hrest⟩
    have hmirrors := Mirrors.nil.snoc hmatches
    exact hmirrors
  explored := explored_begin A input
  trail := rfl
  running := rfl

/-- The number of exits that are left to try from the last frame. -/
def ahead (A : Automaton) (input : List Char) (l : Loop) : Nat :=
  match l.stack.getLast? with
  | none => 0
  | some f => (A.exits input f.toPlace).length - f.tried

/-- What an iteration that leads to `l'` is for the walk. -/
inductive Progress (A : Automaton) (limit : Limit) (input : List Char) (w : Walk) (l l' : Loop) : Prop
  /-- An exit was skipped, and the walk stays where it is. -/
  | skipped : A.Shows input w l' → l'.steps = l.steps → A.ahead input l' < A.ahead input l →
      A.Progress limit input w l l'
  | done {b : Bool} : A.next w = .done b → l'.outcome = some (.ok b) → l'.trail = l.trail →
      A.Progress limit input w l l'
  | left {w' : Walk} : A.next w = .leave w' → A.Shows input w' l' → l'.steps = l.steps →
      A.Progress limit input w l l'
  | refused {w' : Walk} {k : Nat} : A.next w = .enter w' → limit.exceededBy? (l.steps + 1) = some k →
      l'.outcome = some (.error (.stepLimit k)) → l'.trail = l.trail → A.Progress limit input w l l'
  | entered {w' : Walk} : A.next w = .enter w' → limit.exceededBy? (l.steps + 1) = none →
      A.Shows input w' l' → l'.steps = l.steps + 1 → A.Progress limit input w l l'

theorem next_of_none (vs : List Visit) (attempts : List (List Step))
    (hs : (A.choices v)[v.tried]? = none) : A.next ⟨v :: vs, attempts⟩ =
      if v.rest.isEmpty && A.accepting v.state then .done true else .leave ⟨vs, attempts⟩ := by
  simp only [next, hs]

theorem next_of_some (vs : List Visit) (attempts : List (List Step))
    (hs : (A.choices v)[v.tried]? = some s) : A.next ⟨v :: vs, attempts⟩ =
      .enter ⟨v.enter s :: { v with tried := v.tried + 1 } :: vs, (s :: v.path) :: attempts⟩ := by
  simp only [next, hs]

/-- An iteration skips an exit or is a turn of the walk. -/
theorem Shows.progress (h : A.Shows input w l) (hi : A.Iterates limit input l l') :
    A.Progress limit input w l l' := by
  have hconsistent := hi.consistent h.consistent
  have hmirrors := h.mirrors
  obtain ⟨stack, attempts⟩ := w
  cases hi with
  | ended hended => simp [h.running] at hended
  | exhausted =>
    obtain rfl : stack = [] := List.eq_nil_of_length_eq_zero hmirrors.length_eq.symm
    exact .done rfl rfl rfl
  | accepted hs hposition haccept =>
    obtain ⟨v, vs, rfl, _, hmatches⟩ := hmirrors.exists_of_concat
    have hnext := next_of_none vs attempts (hmatches.choices_eq_none hs)
    rw [if_pos ((hmatches.accepts_iff (Nat.le_of_eq hposition)).mpr ⟨hposition, haccept⟩)] at hnext
    exact .done hnext rfl rfl
  | @left below f t n hs haccept =>
    obtain ⟨v, vs, rfl, hbelow, hmatches⟩ := hmirrors.exists_of_concat
    have hnext := next_of_none vs attempts (hmatches.choices_eq_none hs)
    rw [if_neg (mt (hmatches.accepts_iff h.consistent.last_le.1).mp haccept)] at hnext
    exact .left hnext ⟨hconsistent, hbelow, h.explored.leave hnext, h.trail, rfl⟩ rfl
  | @skipped below f t n s hs hlabel hrun =>
    obtain ⟨v, vs, rfl, hbelow, hmatches⟩ := hmirrors.exists_of_concat
    have hrefused : ¬Admitted v.run s := fun hadmitted => hmatches.admitted_iff.mp hadmitted hlabel hrun
    refine .skipped ⟨hconsistent, .snoc hbelow (hmatches.skip hs hrefused), h.explored, h.trail, rfl⟩
      rfl ?_
    have hlt := (List.getElem?_eq_some_iff.mp hs).1
    simp only [ahead, List.getLast?_concat]
    exact Nat.sub_succ_lt_self _ _ hlt
  | refused hs hadmitted hk =>
    obtain ⟨v, vs, rfl, _, hmatches⟩ := hmirrors.exists_of_concat
    have hchoice := hmatches.choices_eq_some hs (hmatches.admitted_iff.mpr hadmitted)
    exact .refused (next_of_some vs attempts hchoice) hk rfl rfl
  | @entered below f t n s hs hadmitted hk =>
    obtain ⟨v, vs, rfl, hbelow, hmatches⟩ := hmirrors.exists_of_concat
    have hadmitted := hmatches.admitted_iff.mpr hadmitted
    have hnext := next_of_some vs attempts (hmatches.choices_eq_some hs hadmitted)
    refine .entered hnext hk ⟨hconsistent, ?_, h.explored.enter hnext, ?_, rfl⟩ rfl
    · have hmem := List.mem_of_getElem? hs
      exact .snoc (.snoc hbelow (hmatches.tick hs hadmitted))
        (hmatches.enter h.consistent.last_le.2 hmem)
    · have htrail : t = (attempts.headD []).reverse := h.trail
      show t.take below.length ++ [s] = (s :: v.path).reverse
      rw [htrail, hbelow.length_eq, h.explored.take_eq, List.reverse_cons]

/-! ### The whole loop -/

def Continues (A : Automaton) (limit : Limit) (input : List Char) : Loop → Loop → Prop :=
  Relation.ReflTransGen fun l l' => A.iterate? limit input l = some l'

/-- The loop ends where the walk does. -/
theorem Shows.exists_ended (limit : Limit) {w : Walk} {l : Loop} (h : A.Shows input w l) :
    ∃ l', A.Continues limit input l l' ∧ l'.outcome = some (A.walk limit l.steps w).outcome ∧
      l'.trail = ((A.walk limit l.steps w).attempts.headD []).reverse := by
  obtain ⟨l₁, hstep, hi⟩ := exists_iterates limit h.consistent
  cases h.progress hi with
  | skipped hshows hsteps hahead =>
    obtain ⟨l', hrun, hend⟩ := hshows.exists_ended limit
    exact ⟨l', .head hstep hrun, hsteps ▸ hend⟩
  | done hnext houtcome htrail =>
    rw [walk_of_done hnext]
    exact ⟨l₁, .single hstep, houtcome, htrail.trans h.trail⟩
  | left hnext hshows hsteps =>
    have hlt := weight_lt_of_next_leave hnext
    obtain ⟨l', hrun, hend⟩ := hshows.exists_ended limit
    rw [walk_of_leave hnext]
    exact ⟨l', .head hstep hrun, hsteps ▸ hend⟩
  | refused hnext hk houtcome htrail =>
    rw [walk_of_enter hnext, hk]
    exact ⟨l₁, .single hstep, houtcome, htrail.trans h.trail⟩
  | entered hnext hk hshows hsteps =>
    have hlt := weight_lt_of_next_enter hnext
    obtain ⟨l', hrun, hend⟩ := hshows.exists_ended limit
    rw [walk_of_enter hnext, hk]
    exact ⟨l', .head hstep hrun, hsteps ▸ hend⟩
termination_by (A.weight w, A.ahead input l)
decreasing_by
  · exact Prod.Lex.right _ hahead
  · exact Prod.Lex.left _ _ hlt
  · exact Prod.Lex.left _ _ hlt

theorem Continues.exists_loop? (h : A.Continues limit input l l')
    (hn : A.loop? limit input n = some l) : ∃ m, A.loop? limit input m = some l' := by
  induction h with
  | refl => exact ⟨n, hn⟩
  | tail _ hstep ih =>
    obtain ⟨m, hm⟩ := ih
    refine ⟨m + 1, ?_⟩
    rw [loop?, hm]
    exact hstep

theorem exists_loop?_consistent (A : Automaton) (limit : Limit) (input : List Char) (n : Nat) :
    ∃ l, A.loop? limit input n = some l ∧ A.Consistent input l.places l.trail := by
  induction n with
  | zero => exact ⟨_, rfl, consistent_begin A input⟩
  | succ n ih =>
    obtain ⟨l, hl, hconsistent⟩ := ih
    obtain ⟨l', hstep, hi⟩ := exists_iterates limit hconsistent
    refine ⟨l', ?_, hi.consistent hconsistent⟩
    rw [loop?, hl]
    exact hstep

theorem nodup_run (h : A.Consistent input l.places l.trail) (hf : l.stack.getLast? = some f) :
    ((l.stack.drop f.runStart).map (·.state)).Nodup := by
  obtain ⟨below, hstack⟩ := List.getLast?_eq_some_iff.mp hf
  obtain ⟨stack, t, n, o⟩ := l
  obtain rfl : stack = below ++ [f] := hstack
  obtain ⟨hlength, hlast⟩ := last_places below f t n o
  have hnodup := h.nodup_drop_runStart hlength hlast
  rwa [places_concat, run_places] at hnodup

/-- No iteration meets an index that is out of range, and all of them keep frames and trail consistent.
The states from the `runStart` of the last frame on are different, and there are at most as many frames
as pairs of a position and a state that can be entered. After finitely many iterations the loop ends,
with the answer and the trail of the search. -/
theorem loop?_spec (A : Automaton) (limit : Limit) (input : List Char) :
    (∀ n, ∃ l, A.loop? limit input n = some l ∧ A.Consistent input l.places l.trail ∧
      (∀ f, l.stack.getLast? = some f → ((l.stack.drop f.runStart).map (·.state)).Nodup) ∧
      l.stack.length ≤ (input.length + 1) * A.entries.ncard) ∧
    ∃ n l outcome, A.loop? limit input n = some l ∧ l.outcome = some outcome ∧
      outcome.map (⟨·, l.trail⟩) = A.search limit input := by
  constructor
  · intro n
    obtain ⟨l, hl, hconsistent⟩ := A.exists_loop?_consistent limit input n
    refine ⟨l, hl, hconsistent, fun f hf => nodup_run hconsistent hf, ?_⟩
    have hlength := hconsistent.length_le
    rwa [Loop.places, List.length_map] at hlength
  · obtain ⟨l, hrun, houtcome, htrail⟩ := (A.shows_begin input).exists_ended limit
    obtain ⟨n, hn⟩ := hrun.exists_loop? (n := 0) rfl
    refine ⟨n, l, _, hn, houtcome, ?_⟩
    rw [htrail]
    rfl

end Automaton

end Acceptor
