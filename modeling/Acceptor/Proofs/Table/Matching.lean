import Acceptor.Proofs.Table.Limit

/-!
# What a discovered table decides

Each place of a discovered table stands for a set of states of the automaton. A symbol of the alphabet
leads to the place of the set that the symbol leads to; another symbol is refused if the alphabet is
restricted, and leads nowhere in the automaton if it is not (`Discovered.next?_spec`). By induction an
input leads to the place of the set that it reaches, or is refused at its first foreign symbol
(`Discovered.follow_spec`). So a table over a restricted alphabet answers as the table for all symbols
does as long as the input stays within the alphabet (`isMatch_restricted_spec`).
-/

namespace Acceptor.Automaton

variable {A : Automaton} {restricted : Option Alphabet} {limit : Limit} {T : Table}
  {found : Array IdSet} {s : IdSet} {id : Nat} {c : Char} {input : List Char} {q : Macrostate}

/-- The input holds a symbol outside the restricted alphabet, and this is the error for the first one. -/
def Refused (restricted : Option Alphabet) (offset : Nat) (input : List Char) (e : MatchError) :
    Prop :=
  ∃ S before c after, restricted = some S ∧ input = before ++ c :: after ∧ (∀ d ∈ before, d ∈ S) ∧
    c ∉ S ∧ e = .foreignSymbol c (offset + before.length)

theorem Refused.exists_foreign {offset : Nat} {e : MatchError}
    (h : Refused restricted offset input e) : ∃ S, restricted = some S ∧ ∃ c ∈ input, c ∉ S := by
  obtain ⟨S, before, c, after, hS, rfl, _, hc, _⟩ := h
  exact ⟨S, hS, c, List.mem_append_right _ (List.mem_cons_self ..), hc⟩

theorem Refused.cons {S : Alphabet} {offset : Nat} {e : MatchError} (hS : restricted = some S)
    (hc : c ∈ S) (h : Refused restricted (offset + 1) input e) :
    Refused restricted offset (c :: input) e := by
  obtain ⟨S', before, d, after, hS', rfl, hbefore, hd, rfl⟩ := h
  obtain rfl : S = S' := Option.some.inj (hS.symm.trans hS')
  refine ⟨S, c :: before, d, after, hS, rfl, ?_, hd, ?_⟩
  · intro x hx
    rcases List.mem_cons.mp hx with rfl | hx
    · exact hc
    · exact hbefore x hx
  · rw [List.length_cons, Nat.add_assoc, Nat.add_comm 1]

namespace Discovered

/-! ### Places and states -/

theorem size_eq (h : A.Discovered restricted T found) : T.size = found.size := by
  rw [Table.size, h.states, Array.size_map]

theorem accepting_eq (h : A.Discovered restricted T found) (hs : found[id]? = some s) :
    T.accepting id = A.acceptsAny s := by
  rw [Table.accepting, h.states, Array.getElem?_map, hs]
  rfl

theorem getElem?_states (h : A.Discovered restricted T found) (hs : found[id]? = some s) :
    T.states[id]? = some (A.macrostate s) := by
  rw [h.states, Array.getElem?_map, hs]
  rfl

theorem exists_getElem?_eq (h : A.Discovered restricted T found) (hq : T.states[id]? = some q) :
    ∃ s, found[id]? = some s ∧ A.macrostate s = q := by
  rwa [h.states, Array.getElem?_map, Option.map_eq_some_iff] at hq

theorem exists_getElem?_of_lt (h : A.Discovered restricted T found) (hid : id < T.size) :
    ∃ s, found[id]? = some s := by
  rw [h.size_eq] at hid
  exact ⟨found[id], Array.getElem?_eq_getElem hid⟩

theorem lt_size (h : A.Discovered restricted T found) (hs : found[id]? = some s) : id < T.size := by
  rw [h.size_eq]
  exact (Array.getElem?_eq_some_iff.mp hs).1

theorem place_unique (h : A.Discovered restricted T found) {j : Nat} (hid : found[id]? = some s)
    (hj : found[j]? = some s) : id = j := by
  have hlt : id < found.toList.length := (Array.getElem?_eq_some_iff.mp hid).1
  apply (List.getElem?_inj hlt h.tabulated.distinct).mp
  rw [Array.getElem?_toList, Array.getElem?_toList, hid, hj]

/-! ### One symbol -/

theorem next?_of_mem (h : A.Discovered restricted T found) (hs : found[id]? = some s)
    (hc : c ∈ T.alphabet) : ∃ j, T.next? id c = some j ∧ found[j]? = some (A.move s c) := by
  have hid : id < found.size := (Array.getElem?_eq_some_iff.mp hs).1
  obtain ⟨column, hcolumn⟩ := Option.isSome_iff_exists.mp (Alphabet.isSome_index?_iff.mpr hc)
  obtain ⟨hlt, hget, _⟩ := List.idxOf?_eq_some_iff.mp hcolumn
  have hsymbol : T.alphabet.toList[column]? = some c := by rw [List.getElem?_eq_getElem hlt, hget]
  have hsize : id < T.rows.size := h.size_rows ▸ hid
  have hrow : T.rows[id]? = some T.rows[id] := Array.getElem?_eq_getElem hsize
  obtain ⟨t, ht, hrowOf⟩ := h.tabulated.filled id _ hrow
  obtain rfl : s = t := Option.some.inj (hs.symm.trans ht)
  obtain ⟨j, hj, hfound⟩ := hrowOf.getElem? hsymbol
  refine ⟨j, ?_, hfound⟩
  rw [Table.next?, if_pos (h.size_eq ▸ hid), hcolumn]
  show (T.rows[id]?).bind (·[column]?) = some j
  rw [hrow]
  exact hj

theorem next?_of_not_mem (h : A.Discovered restricted T found) (hs : found[id]? = some s)
    (hc : c ∉ T.alphabet) : T.next? id c = T.dead? := by
  have hid : id < found.size := (Array.getElem?_eq_some_iff.mp hs).1
  have hnone : T.alphabet.index? c = none := by
    rw [← Option.not_isSome_iff_eq_none, Alphabet.isSome_index?_iff]
    exact hc
  rw [Table.next?, if_pos (h.size_eq ▸ hid), hnone]

theorem next?_spec (h : A.Discovered restricted T found) (hs : found[id]? = some s) (c : Char) :
    (∃ j, T.next? id c = some j ∧ found[j]? = some (A.move s c) ∧ ∀ S, restricted = some S → c ∈ S) ∨
      ∃ S, restricted = some S ∧ c ∉ S ∧ T.next? id c = none := by
  have halphabet := h.alphabet
  have hdead := h.isSome_dead?
  by_cases hc : c ∈ T.alphabet
  · obtain ⟨j, hj, hfound⟩ := h.next?_of_mem hs hc
    refine .inl ⟨j, hj, hfound, ?_⟩
    rintro S rfl
    rwa [halphabet] at hc
  · have hnext := h.next?_of_not_mem hs hc
    rw [halphabet] at hc
    cases restricted with
    | none =>
      obtain ⟨d, hd⟩ := Option.isSome_iff_exists.mp hdead
      refine .inl ⟨d, hnext.trans hd, ?_, fun S hS => by cases hS⟩
      rw [move_eq_empty_of_not_mem_symbols hc]
      exact h.dead d hd
    | some S =>
      refine .inr ⟨S, rfl, hc, hnext.trans ?_⟩
      cases hnone : T.dead? with
      | none => rfl
      | some d => simp [hnone] at hdead

/-! ### An input -/

/-- An input leads to the place of the set that it reaches, unless it is refused. -/
theorem follow_spec (h : A.Discovered restricted T found) (hs : found[id]? = some s)
    (offset : Nat) (input : List Char) :
    (∃ j, T.follow id offset input = .ok j ∧ found[j]? = some (input.foldl A.move s) ∧
        ∀ S, restricted = some S → ∀ c ∈ input, c ∈ S) ∨
      ∃ e, T.follow id offset input = .error e ∧ Refused restricted offset input e := by
  induction input generalizing id s offset with
  | nil => exact .inl ⟨id, rfl, hs, fun _ _ _ hc => by cases hc⟩
  | cons c input ih =>
    unfold Table.follow
    rcases h.next?_spec hs c with ⟨j, hj, hfound, hmem⟩ | ⟨S, hS, hc, hnone⟩
    · rw [hj]
      rcases ih hfound (offset + 1) with ⟨k, hk, hreach, hall⟩ | ⟨e, he, hrefused⟩
      · refine .inl ⟨k, hk, hreach, ?_⟩
        intro S hS d hd
        rcases List.mem_cons.mp hd with rfl | hd
        · exact hmem S hS
        · exact hall S hS d hd
      · refine .inr ⟨e, he, ?_⟩
        obtain ⟨S, hS, _⟩ := hrefused.exists_foreign
        exact hrefused.cons hS (hmem S hS)
    · rw [hnone]
      exact .inr ⟨_, rfl, S, [], c, input, hS, rfl, fun _ hd => (by cases hd), hc, rfl⟩

theorem exists_follow_eq_ok (h : A.Discovered restricted T found) (hs : found[id]? = some s)
    (hin : ∀ c ∈ input, c ∈ T.alphabet) (offset : Nat) :
    ∃ j, T.follow id offset input = .ok j ∧ found[j]? = some (input.foldl A.move s) := by
  rcases h.follow_spec hs offset input with ⟨j, hj, hfound, _⟩ | ⟨_, _, hrefused⟩
  · exact ⟨j, hj, hfound⟩
  · obtain ⟨S, rfl, c, hc, hforeign⟩ := hrefused.exists_foreign
    have halphabet : T.alphabet = S := h.alphabet
    exact absurd (halphabet ▸ hin c hc) hforeign

/-- A table decides whether the automaton accepts, or refuses the first foreign symbol. -/
theorem isMatch_spec (h : A.Discovered restricted T found) (input : List Char) :
    (T.isMatch input = .ok (A.acceptsAny (A.reach input)) ∧
        ∀ S, restricted = some S → ∀ c ∈ input, c ∈ S) ∨
      ∃ e, T.isMatch input = .error e ∧ Refused restricted 0 input e := by
  rcases h.follow_spec h.start 0 input with ⟨j, hj, hfound, hall⟩ | ⟨e, he, hrefused⟩
  · refine .inl ⟨?_, hall⟩
    rw [Table.isMatch, hj]
    show Except.ok (T.accepting j) = _
    rw [h.accepting_eq hfound, reach]
  · refine .inr ⟨e, ?_, hrefused⟩
    rw [Table.isMatch, he]
    rfl

end Discovered

/-! ### Tables of an automaton -/

theorem exists_discovered_of_table (h : A.table restricted limit = .ok T) :
    ∃ found, A.Discovered restricted T found :=
  exists_discovered (table_eq_ok_iff.mp h)

theorem isMatch_of_table (h : A.table restricted limit = .ok T) (input : List Char) :
    (T.isMatch input = .ok (A.acceptsAny (A.reach input)) ∧
        ∀ S, restricted = some S → ∀ c ∈ input, c ∈ S) ∨
      ∃ e, T.isMatch input = .error e ∧ Refused restricted 0 input e := by
  obtain ⟨found, hfound⟩ := exists_discovered_of_table h
  exact hfound.isMatch_spec input

theorem accepts_iff_of_isMatch {b : Bool} (h : A.table restricted limit = .ok T)
    (hb : T.isMatch input = .ok b) : b ↔ A.Accepts input := by
  rw [← acceptsAny_reach_iff]
  rcases isMatch_of_table h input with ⟨hok, _⟩ | ⟨e, he, _⟩
  · rw [hok] at hb
    cases hb
    rfl
  · simp [he] at hb

theorem exists_isMatch_of_table (h : A.table none limit = .ok T) (input : List Char) :
    ∃ b, T.isMatch input = .ok b := by
  rcases isMatch_of_table h input with ⟨hok, _⟩ | ⟨e, _, hrefused⟩
  · exact ⟨_, hok⟩
  · obtain ⟨S, hS, _⟩ := hrefused.exists_foreign
    cases hS

/-! ### Restricted alphabets

An alphabet may be chosen that has nothing to do with the symbols of the automaton. The table over it
has other columns and other states than the table for all symbols, but a walk through either stands at
the set that the input reaches. -/

variable {S : Alphabet}

theorem Refused.exists_first {e : MatchError} (h : Refused (some S) 0 input e) :
    ∃ i c, input[i]? = some c ∧ c ∉ S ∧ (∀ j < i, ∀ d, input[j]? = some d → d ∈ S) ∧
      e = .foreignSymbol c i := by
  obtain ⟨S', before, c, after, hS, rfl, hbefore, hc, rfl⟩ := h
  cases hS
  refine ⟨before.length, c, by simp, hc, fun j hj d hd => ?_, by rw [Nat.zero_add]⟩
  rw [List.getElem?_append_left hj] at hd
  exact hbefore d (List.mem_of_getElem? hd)

theorem isMatch_of_forall_mem (h : A.table (some S) limit = .ok T) (hin : ∀ c ∈ input, c ∈ S) :
    T.isMatch input = .ok (A.acceptsAny (A.reach input)) := by
  rcases isMatch_of_table h input with ⟨hok, _⟩ | ⟨_, _, hrefused⟩
  · exact hok
  · obtain ⟨_, hS, c, hc, hforeign⟩ := hrefused.exists_foreign
    cases hS
    exact absurd (hin c hc) hforeign

theorem isMatch_of_not_forall_mem (h : A.table (some S) limit = .ok T)
    (hout : ¬∀ c ∈ input, c ∈ S) :
    ∃ i c, input[i]? = some c ∧ c ∉ S ∧ (∀ j < i, ∀ d, input[j]? = some d → d ∈ S) ∧
      T.isMatch input = .error (.foreignSymbol c i) := by
  rcases isMatch_of_table h input with ⟨_, hall⟩ | ⟨e, he, hrefused⟩
  · exact absurd (hall S rfl) hout
  · obtain ⟨i, c, hi, hc, hfirst, rfl⟩ := hrefused.exists_first
    exact ⟨i, c, hi, hc, hfirst, he⟩

/-- The table for all symbols answers every input. Any table over a restricted alphabet gives the same
answer to an input within the alphabet, and refuses any other at its first foreign symbol. -/
theorem isMatch_restricted_spec (A : Automaton) (S : Alphabet) :
    ∃ T, A.table none none = .ok T ∧ (∃ U, A.table (some S) none = .ok U) ∧
      ∀ input : List Char, ∃ b, T.isMatch input = .ok b ∧
        ∀ limit U, A.table (some S) limit = .ok U →
          ((∀ c ∈ input, c ∈ S) → U.isMatch input = .ok b) ∧
          ((¬∀ c ∈ input, c ∈ S) → ∃ i c, input[i]? = some c ∧ c ∉ S ∧
            (∀ j < i, ∀ d, input[j]? = some d → d ∈ S) ∧
              U.isMatch input = .error (.foreignSymbol c i)) := by
  obtain ⟨T, hT⟩ := exists_table_eq_ok A none
  refine ⟨T, hT, exists_table_eq_ok A (some S), fun input => ?_⟩
  rcases isMatch_of_table hT input with ⟨hok, _⟩ | ⟨_, _, hrefused⟩
  · refine ⟨_, hok, fun limit U hU => ⟨?_, ?_⟩⟩
    · exact isMatch_of_forall_mem hU
    · exact isMatch_of_not_forall_mem hU
  · obtain ⟨_, hS, _⟩ := hrefused.exists_foreign
    cases hS

end Acceptor.Automaton
