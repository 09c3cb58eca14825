import Acceptor.Automaton.Fragment
import Acceptor.Automaton.Lemmas

/-!
# Automata put behind one another

`A.append B` has the states of `A` and behind them those of `B`, with the identifiers of `B` moved by the
size of `A`. What is built by an operation on the part `B` is what the operation builds on `B` alone, put
behind `A` (`place`): an operation takes no notice of states that it is not pointed at.

Transitions are sets, so the order in which they were added is forgotten (`link_comm`).
-/

namespace Acceptor

/-! ### States whose targets are moved -/

def Edge.shift (n : Nat) (e : Edge) : Edge := { e with target := n + e.target }

theorem Edge.shift_lt_shift {n : Nat} {a b : Edge} (h : a < b) : a.shift n < b.shift n := by
  rcases Edge.lt_iff.mp h with h | ⟨hl, h⟩
  · exact Edge.lt_iff.mpr (.inl h)
  · exact Edge.lt_iff.mpr (.inr ⟨hl, Nat.add_lt_add_left h n⟩)

namespace State

variable {q : State} {n t u : Nat} {l m : Label} {e : Edge}

def shift (n : Nat) (q : State) : State where
  edges :=
    ⟨q.edges.toList.map (Edge.shift n), List.pairwise_map.mpr (q.edges.ascending.imp Edge.shift_lt_shift)⟩
  accepting := q.accepting

theorem mem_edges_shift : e ∈ (q.shift n).edges ↔ ∃ d ∈ q.edges, d.shift n = e := List.mem_map

theorem mem_edges_link : e ∈ (q.link l t).edges ↔ e = ⟨l, t⟩ ∨ e ∈ q.edges := Ascending.mem_insert

theorem eq_of_edges {p q : State} (hedges : ∀ e, e ∈ p.edges ↔ e ∈ q.edges)
    (haccepting : p.accepting = q.accepting) : p = q := by
  obtain ⟨edges, accepting⟩ := p
  obtain rfl : edges = q.edges := Ascending.ext hedges
  obtain rfl : accepting = q.accepting := haccepting
  rfl

theorem shift_link : (q.link l t).shift n = (q.shift n).link l (n + t) := by
  refine eq_of_edges (fun e => ?_) rfl
  simp only [mem_edges_shift, mem_edges_link]
  constructor
  · rintro ⟨d, rfl | hd, rfl⟩
    · exact .inl rfl
    · exact .inr ⟨d, hd, rfl⟩
  · rintro (rfl | ⟨d, hd, rfl⟩)
    · exact ⟨⟨l, t⟩, .inl rfl, rfl⟩
    · exact ⟨d, .inr hd, rfl⟩

theorem link_comm : (q.link l t).link m u = (q.link m u).link l t := by
  refine eq_of_edges (fun e => ?_) rfl
  simp only [mem_edges_link]
  exact or_left_comm

end State

def Fragment.shift (n : Nat) (f : Fragment) : Fragment := ⟨n + f.start, n + f.stop⟩

namespace Automaton

variable {A B : Automaton} {f g : Fragment} {s t i j : Nat} {l m : Label}

/-! ### One automaton behind another -/

/-- The automaton `A` with the states of `B` behind its own. -/
def append (A B : Automaton) : Automaton :=
  { A with states := A.states ++ B.states.map (State.shift A.size) }

/-- What was built apart, put behind the states of `A`. -/
def place (A : Automaton) (p : Automaton × Fragment) : Automaton × Fragment :=
  (A.append p.1, p.2.shift A.size)

@[simp] theorem size_append : (A.append B).size = A.size + B.size := by
  simp [append, size]

theorem append_empty (A : Automaton) : A.append {} = A := by
  simp [append]

theorem eq_of_states {A B : Automaton} (hstates : A.states = B.states) (hstart : A.start = B.start)
    (hstop : A.stop = B.stop) : A = B := by
  cases A; cases B; cases hstates; cases hstart; cases hstop; rfl

theorem getElem?_link (A : Automaton) (s : Nat) (l : Label) (t i : Nat) : (A.link s l t).states[i]? =
    if s = i then (A.states[i]?).map (·.link l t) else A.states[i]? :=
  Array.getElem?_modify

theorem link_comm : (A.link s l t).link i m j = (A.link i m j).link s l t := by
  refine eq_of_states (Array.ext_getElem? fun k => ?_) rfl rfl
  simp only [getElem?_link]
  by_cases hs : s = k
  · by_cases hi : i = k
    · simp only [hs, hi, if_true, Option.map_map]
      congr 1
      funext q
      exact State.link_comm
    · simp only [hs, hi, if_true, if_false]
  · simp only [hs, if_false]

theorem getElem?_append_left (hi : i < A.size) : (A.append B).states[i]? = A.states[i]? :=
  Array.getElem?_append_left hi

theorem getElem?_append_right (A B : Automaton) (i : Nat) :
    (A.append B).states[A.size + i]? = (B.states[i]?).map (State.shift A.size) := by
  show (A.states ++ B.states.map (State.shift A.size))[A.states.size + i]? = _
  rw [Array.getElem?_append_right (Nat.le_add_right ..), Nat.add_sub_cancel_left, Array.getElem?_map]

theorem eq_of_states_around {A B : Automaton} (n : Nat)
    (hbefore : ∀ i < n, A.states[i]? = B.states[i]?)
    (hfrom : ∀ i, A.states[n + i]? = B.states[n + i]?)
    (hstart : A.start = B.start) (hstop : A.stop = B.stop) : A = B := by
  refine eq_of_states (Array.ext_getElem? fun k => ?_) hstart hstop
  rcases Nat.lt_or_ge k n with hlt | hle
  · exact hbefore k hlt
  · obtain ⟨i, rfl⟩ := Nat.exists_eq_add_of_le hle
    exact hfrom i

theorem link_append_left (hs : s < A.size) : (A.append B).link s l t = (A.link s l t).append B := by
  refine eq_of_states_around A.size (fun i hi => ?_) (fun i => ?_) rfl rfl
  · rw [getElem?_link, getElem?_append_left hi, getElem?_append_left (by rwa [size_link]),
      getElem?_link]
  · have hright := getElem?_append_right (A.link s l t) B i
    rw [size_link] at hright
    rw [getElem?_link, if_neg (by omega), getElem?_append_right, hright]

theorem link_append_right :
    (A.append B).link (A.size + s) l (A.size + t) = A.append (B.link s l t) := by
  refine eq_of_states_around A.size (fun i hi => ?_) (fun i => ?_) rfl rfl
  · rw [getElem?_link, if_neg (by omega), getElem?_append_left hi, getElem?_append_left hi]
  · simp only [getElem?_link, getElem?_append_right, Nat.add_left_cancel_iff]
    split
    · simp only [Option.map_map]
      congr 1
      funext q
      exact State.shift_link.symm
    · rfl

theorem addState_append : (A.append B).addState = A.append B.addState := by
  refine eq_of_states ?_ rfl rfl
  rw [addState, append, append, addState, Array.map_push, Array.append_push]
  rfl

/-! ### Operations behind other states -/

theorem connect_append :
    (A.append B).connect (A.size + s) (A.size + t) = A.append (B.connect s t) := link_append_right

theorem addPair_append : (A.append B).addPair = A.append B.addPair := by
  rw [addPair, addState_append, addState_append, addPair]

theorem newPair_append : (A.append B).newPair = B.newPair.shift A.size := by
  rw [newPair, size_append]
  rfl

theorem literal_append (c : Char) : (A.append B).literal c = A.place (B.literal c) := by
  simp only [literal, newPair_append, addPair_append]
  rw [place, ← link_append_right]
  rfl

theorem empty_append : (A.append B).empty = A.place B.empty := by
  simp only [empty, newPair_append, addPair_append]
  rw [place, ← connect_append]
  rfl

theorem concat_append :
    (A.append B).concat (f.shift A.size) (g.shift A.size) = A.place (B.concat f g) := by
  rw [place, concat, concat, ← connect_append]
  rfl

theorem union_append :
    (A.append B).union (f.shift A.size) (g.shift A.size) = A.place (B.union f g) := by
  simp only [union, newPair_append, addPair_append]
  simp only [place, ← connect_append]
  rfl

theorem plus_append : (A.append B).plus (f.shift A.size) = A.place (B.plus f) := by
  simp only [plus, newPair_append, addPair_append]
  simp only [place, ← connect_append]
  rfl

theorem optional_append : (A.append B).optional (f.shift A.size) = A.place (B.optional f) := by
  rw [place, optional, optional, ← connect_append]
  rfl

theorem star_append : (A.append B).star (f.shift A.size) = A.place (B.star f) := by
  simp only [star, plus_append]
  exact optional_append

end Automaton

end Acceptor
