import Acceptor.Proofs.Table.Matching
import Mathlib.Data.List.Induction
import Mathlib.Data.List.Shortlex

/-!
# In which order states are numbered

Discovery takes the sets found in turn and follows the symbols in ascending order, so a set is found by
way of the smallest word that reaches it, where a shorter word is smaller and words of one length are
compared symbol by symbol. The argument keeps a list of words beside the sets found, one for each.

* The words on the list ascend, and each reaches the set in its place (`Listed`).
* All words on the list are below what the next one can be extended to (`Traced.ahead`), so a set that
  is new goes to the end with a word that is above all others (`Listed.push`).
* Whatever an extension of a word with a row reaches, some word on the list reaches too, one that is not
  above the extension (`Traced.reduced`).

When every row is filled, the last point holds of all words over the alphabet, by induction on the word
(`Traced.covers`). Hence the word on the list is the smallest that leads to the state of its place
(`Indexed.least_iff`).
-/

namespace Acceptor

/-! ### The order of words -/

/-- Shorter words come first, and words of one length in the order of their symbols. -/
def Shortlex (v w : List Char) : Prop := List.Shortlex (· < ·) v w

namespace Shortlex

variable {u v w : List Char} {c d : Char}

theorem trans (h : Shortlex u v) (h' : Shortlex v w) : Shortlex u w := by
  unfold Shortlex at *
  rw [List.shortlex_def] at *
  rcases h with h | ⟨hlength, h⟩
  · rcases h' with h' | ⟨hlength', _⟩
    · exact .inl (Nat.lt_trans h h')
    · exact .inl (hlength' ▸ h)
  · rcases h' with h' | ⟨hlength', h'⟩
    · exact .inl (hlength ▸ h')
    · exact .inr ⟨hlength.trans hlength', List.lt_trans h h'⟩

theorem snoc (h : Shortlex v w) (c d : Char) : Shortlex (v ++ [c]) (w ++ [d]) := by
  unfold Shortlex at *
  rcases List.shortlex_def.mp h with hlt | ⟨hlength, hlex⟩
  · exact .of_length_lt (by simpa using hlt)
  · refine .of_lex (by simp [hlength]) ?_
    clear h
    induction hlex with
    | nil => simp at hlength
    | cons _ ih => exact .cons (ih (Nat.succ.inj hlength))
    | rel h => exact .rel h

theorem snoc_of_lt (w : List Char) (h : c < d) : Shortlex (w ++ [c]) (w ++ [d]) :=
  ((List.shortlex_singleton_iff c d).mpr h).append_left w

end Shortlex

def ShortlexLE (v w : List Char) : Prop := v = w ∨ Shortlex v w

theorem ShortlexLE.trans {u v w : List Char} (h : ShortlexLE u v) (h' : ShortlexLE v w) :
    ShortlexLE u w := by
  rcases h with rfl | h
  · exact h'
  · rcases h' with rfl | h'
    · exact .inr h
    · exact .inr (h.trans h')

theorem ShortlexLE.snoc {v w : List Char} (h : ShortlexLE v w) (c : Char) :
    ShortlexLE (v ++ [c]) (w ++ [c]) := by
  rcases h with rfl | h
  · exact .inl rfl
  · exact .inr (h.snoc c c)

namespace Automaton

variable {A : Automaton} {limit : Limit} {symbols cs : List Char} {found found' : Array IdSet}
  {row row' : Array Nat} {rows rows' : Array (Array Nat)} {words words' : List (List Char)}
  {s : IdSet} {v w : List Char} {c : Char} {i k : Nat}

/-! ### Words beside the sets found -/

/-- The words ascend, and each of them reaches the set found in its place. -/
structure Listed (A : Automaton) (symbols : List Char) (found : Array IdSet)
    (words : List (List Char)) : Prop where
  reaches : found.toList = words.map A.reach
  mem_symbols : ∀ w ∈ words, ∀ c ∈ w, c ∈ symbols
  ascending : words.Pairwise Shortlex

/-- Some word on the list reaches what `v` reaches, and is not above `v`. -/
def Reduced (A : Automaton) (words : List (List Char)) (v : List Char) : Prop :=
  ∃ w ∈ words, A.reach w = A.reach v ∧ ShortlexLE w v

theorem Reduced.mono (h : A.Reduced words v) (hsub : words ⊆ words') : A.Reduced words' v := by
  obtain ⟨w, hw, hreach⟩ := h
  exact ⟨w, hsub hw, hreach⟩

namespace Listed

theorem size_eq (h : A.Listed symbols found words) : found.size = words.length := by
  rw [← Array.length_toList, h.reaches, List.length_map]

theorem getElem?_eq (h : A.Listed symbols found words) (k : Nat) :
    found[k]? = (words[k]?).map A.reach := by
  rw [← Array.getElem?_toList, h.reaches, List.getElem?_map]

theorem push (h : A.Listed symbols found words) (hv : ∀ c ∈ v, c ∈ symbols)
    (habove : ∀ w ∈ words, Shortlex w v) :
    A.Listed symbols (found.push (A.reach v)) (words ++ [v]) where
  reaches := by
    rw [Array.toList_push, h.reaches, List.map_append]
    rfl
  mem_symbols w hw := by
    rcases List.mem_append.mp hw with hw | hw
    · exact h.mem_symbols w hw
    · rw [List.mem_singleton.mp hw]
      exact hv
  ascending := by
    refine List.pairwise_append.mpr ⟨h.ascending, List.pairwise_singleton .., ?_⟩
    intro w hw v' hv'
    rw [List.mem_singleton.mp hv']
    exact habove w hw

end Listed

/-! ### One row -/

/-- The second list is the first with some of the words `vs` at its end, and reduces all of them. -/
structure Grown (A : Automaton) (vs words words' : List (List Char)) : Prop where
  keeps : words <+: words'
  new : ∀ u ∈ words', u ∈ words ∨ u ∈ vs
  reduced : ∀ v ∈ vs, A.Reduced words' v

theorem Grown.refl (words : List (List Char)) : A.Grown [] words words where
  keeps := List.prefix_rfl
  new _ hu := .inl hu
  reduced _ hv := absurd hv List.not_mem_nil

theorem Grown.trans {vs vs' words'' : List (List Char)} (h : A.Grown vs words words')
    (h' : A.Grown vs' words' words'') : A.Grown (vs ++ vs') words words'' where
  keeps := h.keeps.trans h'.keeps
  new u hu := by
    rw [List.mem_append]
    rcases h'.new u hu with hu | hu
    · exact (h.new u hu).imp_right .inl
    · exact .inr (.inr hu)
  reduced v hv := by
    rcases List.mem_append.mp hv with hv | hv
    · exact (h.reduced v hv).mono h'.keeps.subset
    · exact h'.reduced v hv

/-- A set is looked up under a word that is above all others, and if it is new it is listed under that
word. -/
theorem Listed.exists_grown_of_locate (h : A.Listed symbols found words)
    (hv : ∀ c ∈ v, c ∈ symbols) (habove : ∀ u ∈ words, Shortlex u v)
    (hlocate : locate limit found (A.reach v) = .ok (found', i)) :
    ∃ words', A.Listed symbols found' words' ∧ A.Grown [v] words words' := by
  unfold locate at hlocate
  split at hlocate
  · next hfound =>
    cases hlocate
    have hmem : A.reach v ∈ found.toList :=
      Array.mem_toList_iff.mpr (Array.mem_of_getElem? (getElem?_of_idxOf? hfound))
    rw [h.reaches, List.mem_map] at hmem
    obtain ⟨u, hu, hreach⟩ := hmem
    refine ⟨words, h, List.prefix_rfl, fun u hu => .inl hu, fun v' hv' => ?_⟩
    rw [List.mem_singleton.mp hv']
    exact ⟨u, hu, hreach, .inr (habove u hu)⟩
  · obtain ⟨rfl, -⟩ := addFound_eq_ok hlocate
    have hlast : v ∈ words ++ [v] := by simp
    refine ⟨words ++ [v], h.push hv habove, List.prefix_append .., fun u => List.mem_append.mp, ?_⟩
    intro v' hv'
    rw [List.mem_singleton.mp hv']
    exact ⟨v, hlast, rfl, .inl rfl⟩

def extensions (w cs : List Char) : List (List Char) := cs.map fun c => w ++ [c]

/-- Filling a row looks up the extensions of its word. They ascend, so it is enough that all of them
are above the words that are there before. -/
theorem Listed.exists_grown_of_fillRow (h : A.Listed symbols found words)
    (hw : ∀ c ∈ w, c ∈ symbols) (hcs : cs.Pairwise (· < ·)) (hsub : ∀ c ∈ cs, c ∈ symbols)
    (habove : ∀ u ∈ words, ∀ c ∈ cs, Shortlex u (w ++ [c]))
    (hrow : A.fillRow limit (A.reach w) found row cs = .ok (found', row')) :
    ∃ words', A.Listed symbols found' words' ∧ A.Grown (extensions w cs) words words' := by
  induction cs generalizing found row words with
  | nil =>
    cases hrow
    exact ⟨words, h, .refl words⟩
  | cons c cs ih =>
    obtain ⟨hlt, hcs⟩ := List.pairwise_cons.mp hcs
    rw [fillRow_cons, ← reach_snoc] at hrow
    obtain ⟨⟨found₁, i⟩, hlocate, hrest⟩ := bind_eq_ok.mp hrow
    have hv : ∀ d ∈ w ++ [c], d ∈ symbols := by
      intro d hd
      rcases List.mem_append.mp hd with hd | hd
      · exact hw d hd
      · rw [List.mem_singleton.mp hd]
        exact hsub c (List.mem_cons_self ..)
    obtain ⟨words₁, h₁, hgrown₁⟩ := h.exists_grown_of_locate hv
      (fun u hu => habove u hu c (List.mem_cons_self ..)) hlocate
    have habove₁ : ∀ u ∈ words₁, ∀ d ∈ cs, Shortlex u (w ++ [d]) := by
      intro u hu d hd
      rcases hgrown₁.new u hu with hu | hu
      · exact habove u hu d (List.mem_cons_of_mem _ hd)
      · rw [List.mem_singleton.mp hu]
        exact .snoc_of_lt w (hlt d hd)
    obtain ⟨words', h', hgrown'⟩ := ih h₁ hcs (fun d hd => hsub d (List.mem_cons_of_mem _ hd))
      habove₁ hrest
    exact ⟨words', h', hgrown₁.trans hgrown'⟩

/-! ### All rows -/

/-- The invariant of the loop over the sets found, when `n` of them have their row. -/
structure Traced (A : Automaton) (symbols : List Char) (found : Array IdSet) (n : Nat)
    (words : List (List Char)) : Prop extends A.Listed symbols found words where
  /-- Each extension of a word with a row is reduced. -/
  reduced : ∀ k < n, ∀ w, words[k]? = some w → ∀ v ∈ extensions w symbols, A.Reduced words v
  /-- All words are below what the next one can be extended to. -/
  ahead : ∀ w, words[n]? = some w → ∀ u ∈ words, ∀ v ∈ extensions w symbols, Shortlex u v

theorem Traced.start (A : Automaton) (symbols : List Char) :
    A.Traced symbols #[A.closure (.singleton A.start)] 0 [[]] where
  reaches := rfl
  mem_symbols w hw c hc := by
    rw [List.mem_singleton.mp hw] at hc
    cases hc
  ascending := List.pairwise_singleton ..
  reduced k hk := absurd hk (Nat.not_lt_zero k)
  ahead w hw u hu v hv := by
    obtain ⟨c, _, rfl⟩ := List.mem_map.mp hv
    cases hw
    rw [List.mem_singleton.mp hu]
    exact List.Shortlex.of_length_lt (Nat.zero_lt_one)

theorem Traced.next {n : Nat} (h : A.Traced symbols found n words) (hw : words[n]? = some w)
    (h' : A.Listed symbols found' words') (hgrown : A.Grown (extensions w symbols) words words') :
    A.Traced symbols found' (n + 1) words' where
  toListed := h'
  reduced k hk u hu v hv := by
    have hn : n < words.length := (List.getElem?_eq_some_iff.mp hw).1
    have hold : words'[k]? = words[k]? := by
      obtain ⟨more, rfl⟩ := hgrown.keeps
      exact List.getElem?_append_left (by omega)
    rw [hold] at hu
    by_cases hkn : k = n
    · subst hkn
      cases hw.symm.trans hu
      exact hgrown.reduced v hv
    · exact (h.reduced k (by omega) u hu v hv).mono hgrown.keeps.subset
  ahead x hx u hu v hv := by
    obtain ⟨c, hc, rfl⟩ := List.mem_map.mp hv
    have hw' : words'[n]? = some w := by
      obtain ⟨more, rfl⟩ := hgrown.keeps
      rw [List.getElem?_append_left (List.getElem?_eq_some_iff.mp hw).1, hw]
    -- The next word is above `w`, so its extensions are above those of `w`.
    have hwx : Shortlex w x := by
      obtain ⟨hn, rfl⟩ := List.getElem?_eq_some_iff.mp hw'
      obtain ⟨hn', rfl⟩ := List.getElem?_eq_some_iff.mp hx
      exact List.pairwise_iff_getElem.mp h'.ascending n (n + 1) hn hn' (Nat.lt_succ_self n)
    rcases hgrown.new u hu with hu | hu
    · exact (h.ahead w hw u hu _ (List.mem_map_of_mem hc)).trans (hwx.snoc c c)
    · obtain ⟨d, _, rfl⟩ := List.mem_map.mp hu
      exact hwx.snoc d c

/-- The loop over the sets found keeps the invariant until every set has its row. -/
theorem Traced.exists_of_fill (h : A.Traced symbols found rows.size words)
    (hsymbols : symbols.Pairwise (· < ·))
    (hfill : A.fill limit symbols found rows = .ok (found', rows')) :
    ∃ words', words <+: words' ∧ A.Traced symbols found' words'.length words' := by
  fun_induction fill A limit symbols found rows generalizing words with
  | case1 found rows hnext =>
    have hlength : words.length ≤ rows.size := by
      rw [← h.size_eq]
      exact Array.getElem?_eq_none_iff.mp hnext
    cases hfill
    refine ⟨words, List.prefix_rfl, h.toListed, fun k hk => h.reduced k (by omega), fun w hw => ?_⟩
    simp at hw
  | case2 => simp at hfill
  | case3 found rows s hnext found₁ row hrow ih =>
    rw [h.getElem?_eq, Option.map_eq_some_iff] at hnext
    obtain ⟨w, hw, rfl⟩ := hnext
    have habove : ∀ u ∈ words, ∀ c ∈ symbols, Shortlex u (w ++ [c]) :=
      fun u hu c hc => h.ahead w hw u hu _ (List.mem_map_of_mem hc)
    obtain ⟨words₁, h₁, hgrown⟩ := h.exists_grown_of_fillRow (h.mem_symbols w (List.mem_of_getElem? hw))
      hsymbols (fun c hc => hc) habove hrow
    have hnext := h.next hw h₁ hgrown
    rw [← Array.size_push row] at hnext
    obtain ⟨words', hkeeps, h'⟩ := ih hnext hfill
    exact ⟨words', hgrown.keeps.trans hkeeps, h'⟩

theorem Traced.covers (h : A.Traced symbols found words.length words) (hnil : [] ∈ words)
    (hv : ∀ c ∈ v, c ∈ symbols) : A.Reduced words v := by
  induction v using List.reverseRecOn with
  | nil => exact ⟨[], hnil, rfl, .inl rfl⟩
  | append_singleton v c ih =>
    obtain ⟨w, hw, hreach, hle⟩ := ih fun d hd => hv d (List.mem_append_left _ hd)
    obtain ⟨k, hk⟩ := List.getElem?_of_mem hw
    have hc : c ∈ symbols := hv c (by simp)
    obtain ⟨u, hu, hreach', hle'⟩ := h.reduced k (List.getElem?_eq_some_iff.mp hk).1 w hk (w ++ [c])
      (List.mem_map_of_mem hc)
    refine ⟨u, hu, ?_, hle'.trans (hle.snoc c)⟩
    rw [hreach', reach_snoc, reach_snoc, hreach]

/-! ### Tables -/

variable {restricted : Option Alphabet} {T : Table}

/-- The sets found while rows were filled are all there is, unless the set without members is added as
the last. -/
theorem exists_fill_of_discover (h : A.discover restricted limit = .ok T) :
    T.start = 0 ∧ ∃ found rows,
      A.fill limit T.alphabet.toList #[A.closure (.singleton A.start)] #[] = .ok (found, rows) ∧
      (T.states = found.map A.macrostate ∨ restricted = none ∧ T.dead? = some found.size ∧
        T.states = (found.push ∅).map A.macrostate) := by
  obtain ⟨found, rows, hzero, _, hfill, hends⟩ := discover_eq_ok h
  refine ⟨hzero, found, rows, hfill, ?_⟩
  rcases hends with ⟨_, hstates, _⟩ | ⟨hnone, found', dead, hdead, hstates, hsome⟩
  · exact .inl hstates
  · rcases addDead_eq_ok hdead with ⟨_, rfl, _⟩ | ⟨_, rfl, rfl, _⟩
    · exact .inl hstates
    · exact .inr ⟨hnone, hsome, hstates⟩

theorem macrostate_injective {s t : IdSet} (h : A.macrostate s = A.macrostate t) : s = t :=
  congrArg Macrostate.members h

/-- The words list the first states of a table, and the only other state there may be is the dead
one. -/
structure Indexed (A : Automaton) (restricted : Option Alphabet) (T : Table)
    (words : List (List Char)) : Prop where
  ascending : words.Pairwise Shortlex
  mem_symbols : ∀ w ∈ words, ∀ c ∈ w, c ∈ T.alphabet
  covers : ∀ v : List Char, (∀ c ∈ v, c ∈ T.alphabet) → A.Reduced words v
  states : ∀ (k : Nat) (w : List Char), words[k]? = some w →
    T.states[k]? = some (A.macrostate (A.reach w))
  others : ∀ id < T.size, words.length ≤ id →
    restricted = none ∧ T.dead? = some id ∧ id + 1 = T.size

theorem Traced.indexed (h : A.Traced T.alphabet.toList found words.length words)
    (hnil : [] ∈ words)
    (hstates : T.states = found.map A.macrostate ∨ restricted = none ∧ T.dead? = some found.size ∧
      T.states = (found.push ∅).map A.macrostate) : A.Indexed restricted T words where
  ascending := h.ascending
  mem_symbols := h.mem_symbols
  covers _ hv := h.covers hnil hv
  states k w hw := by
    have hfound : found[k]? = some (A.reach w) := by
      rw [h.getElem?_eq, hw]
      rfl
    rcases hstates with hstates | ⟨_, _, hstates⟩
    · rw [hstates, Array.getElem?_map, hfound]
      rfl
    · obtain ⟨hlt, _⟩ := Array.getElem?_eq_some_iff.mp hfound
      rw [hstates, Array.getElem?_map, Array.getElem?_push_lt hlt, ← Array.getElem?_eq_getElem hlt,
        hfound]
      rfl
  others id hid hle := by
    have hsize := h.size_eq
    rcases hstates with hstates | ⟨hnone, hdead, hstates⟩
    · rw [Table.size, hstates, Array.size_map] at hid
      omega
    · rw [Table.size, hstates, Array.size_map, Array.size_push] at hid ⊢
      obtain rfl : id = found.size := by omega
      exact ⟨hnone, hdead, rfl⟩

theorem exists_indexed (h : A.discover restricted limit = .ok T) :
    T.start = 0 ∧ ∃ words, A.Indexed restricted T words := by
  obtain ⟨hstart, found, rows, hfill, hstates⟩ := exists_fill_of_discover h
  have htraced : A.Traced T.alphabet.toList #[A.closure (.singleton A.start)]
      (#[] : Array (Array Nat)).size [[]] := .start A T.alphabet.toList
  obtain ⟨words, hkeeps, hwords⟩ := htraced.exists_of_fill T.alphabet.ascending hfill
  exact ⟨hstart, words, hwords.indexed (hkeeps.subset (List.mem_singleton.mpr rfl)) hstates⟩

end Automaton

/-! ### The smallest words that lead to the states -/

namespace Table

/-- The word is over the alphabet of the table and leads from the start to this state. -/
def Leads (T : Table) (w : List Char) (id : Nat) : Prop :=
  (∀ c ∈ w, c ∈ T.alphabet) ∧ T.follow T.start 0 w = .ok id

/-- The word is the smallest of those that lead to this state. -/
def Least (T : Table) (w : List Char) (id : Nat) : Prop :=
  T.Leads w id ∧ ∀ v, T.Leads v id → ShortlexLE w v

/-- The states are numbered in the order of the smallest words that lead to them. -/
structure Canonical (T : Table) (restricted : Option Alphabet) : Prop where
  start : T.start = 0
  /-- A state to which some word leads has a smallest such word. -/
  exists_least : ∀ id, (∃ w, T.Leads w id) → ∃ w, T.Least w id
  shortlex : ∀ i j v w, T.Least v i → T.Least w j → i < j → Shortlex v w
  /-- The only state to which no word leads is the dead state of a table for all symbols, and it is the
  last. -/
  last : ∀ id < T.size, (¬∃ w, T.Leads w id) →
    restricted = none ∧ T.dead? = some id ∧ id + 1 = T.size

end Table

namespace Automaton

variable {A : Automaton} {restricted : Option Alphabet} {limit : Limit} {T : Table}
  {found : Array IdSet} {words : List (List Char)} {s : IdSet} {v w : List Char} {id k : Nat}

theorem Discovered.leads_iff (h : A.Discovered restricted T found)
    (hw : ∀ c ∈ w, c ∈ T.alphabet) : T.Leads w id ↔ found[id]? = some (A.reach w) := by
  obtain ⟨j, hj, hfound⟩ := h.exists_follow_eq_ok h.start hw 0
  rw [← reach] at hfound
  rw [Table.Leads, hj]
  constructor
  · rintro ⟨_, hid⟩
    cases hid
    exact hfound
  · intro hid
    rw [h.place_unique hfound hid]
    exact ⟨hw, rfl⟩

namespace Indexed

theorem getElem?_found (h : A.Indexed restricted T words) (hd : A.Discovered restricted T found)
    (hk : words[k]? = some w) : found[k]? = some (A.reach w) := by
  obtain ⟨s, hs, heq⟩ := hd.exists_getElem?_eq (h.states k w hk)
  rw [hs, macrostate_injective heq]

theorem leads (h : A.Indexed restricted T words) (hd : A.Discovered restricted T found)
    (hk : words[k]? = some w) : T.Leads w k :=
  (hd.leads_iff (h.mem_symbols w (List.mem_of_getElem? hk))).mpr (h.getElem?_found hd hk)

theorem exists_of_leads (h : A.Indexed restricted T words) (hd : A.Discovered restricted T found)
    (hv : T.Leads v id) : ∃ w, words[id]? = some w ∧ ShortlexLE w v := by
  obtain ⟨w, hw, hreach, hle⟩ := h.covers v hv.1
  obtain ⟨k, hk⟩ := List.getElem?_of_mem hw
  have hplace := h.getElem?_found hd hk
  rw [hreach] at hplace
  obtain rfl := hd.place_unique ((hd.leads_iff hv.1).mp hv) hplace
  exact ⟨w, hk, hle⟩

/-- The smallest word that leads to a state is the one on the list. -/
theorem least_iff (h : A.Indexed restricted T words) (hd : A.Discovered restricted T found) :
    T.Least w id ↔ words[id]? = some w := by
  constructor
  · rintro ⟨hleads, hleast⟩
    obtain ⟨u, hu, hle⟩ := h.exists_of_leads hd hleads
    rcases hle with rfl | hlt
    · exact hu
    · rcases hleast u (h.leads hd hu) with rfl | hgt
      · exact hu
      · exact absurd hgt (Std.Asymm.asymm (r := List.Shortlex (· < ·)) u w hlt)
  · intro hw
    refine ⟨h.leads hd hw, fun v hv => ?_⟩
    obtain ⟨u, hu, hle⟩ := h.exists_of_leads hd hv
    cases hw.symm.trans hu
    exact hle

theorem canonical (h : A.Indexed restricted T words) (hd : A.Discovered restricted T found)
    (hstart : T.start = 0) : T.Canonical restricted where
  start := hstart
  exists_least id hid := by
    obtain ⟨v, hv⟩ := hid
    obtain ⟨w, hw, _⟩ := h.exists_of_leads hd hv
    exact ⟨w, (h.least_iff hd).mpr hw⟩
  shortlex i j v w hv hw hij := by
    obtain ⟨hi, rfl⟩ := List.getElem?_eq_some_iff.mp ((h.least_iff hd).mp hv)
    obtain ⟨hj, rfl⟩ := List.getElem?_eq_some_iff.mp ((h.least_iff hd).mp hw)
    exact List.pairwise_iff_getElem.mp h.ascending i j hi hj hij
  last id hid hnone := by
    refine h.others id hid (Nat.not_lt.mp fun hlt => hnone ?_)
    exact ⟨words[id], h.leads hd (List.getElem?_eq_getElem hlt)⟩

end Indexed

/-- The states of any table are numbered in the order of the smallest words that lead to them, whatever
the automaton, the alphabet and the limit on states are. Without a limit there is a table. -/
theorem canonical_of_table (A : Automaton) (restricted : Option Alphabet) :
    (∃ T, A.table restricted none = .ok T) ∧
      ∀ limit T, A.table restricted limit = .ok T → T.Canonical restricted := by
  refine ⟨exists_table_eq_ok A restricted, fun limit T hT => ?_⟩
  obtain ⟨hstart, words, hwords⟩ := exists_indexed (table_eq_ok_iff.mp hT)
  obtain ⟨found, hfound⟩ := exists_discovered_of_table hT
  exact hwords.canonical hfound hstart

end Automaton

end Acceptor
