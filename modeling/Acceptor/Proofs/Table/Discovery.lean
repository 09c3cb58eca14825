import Acceptor.Proofs.Automaton.Closure
import Acceptor.Table

/-!
# What discovery finds

Two things change while a table is discovered: the array of the sets found, which only grows
(`Extends`), and the array of rows, which lags behind it. Their invariant is `Tabulated`: no set was
found twice, and each row that is there points at the sets that the symbols lead to from the set of
the same place.

When no set is left without a row, the invariant says that the table is complete. `Discovered` adds
the places of the first set and of the set without members; a table that discovery returns has them
(`exists_discovered`), as follows from how it comes about (`discover_eq_ok`).
-/

namespace Acceptor

/-! ### Growing arrays of sets -/

/-- The second array is the first with sets that satisfy `P` added at its end, none of them twice. -/
structure Extends (P : IdSet → Prop) (found found' : Array IdSet) : Prop where
  keeps : found.toList <+: found'.toList
  distinct : found.toList.Nodup → found'.toList.Nodup
  new : ∀ s ∈ found', s ∈ found ∨ P s

namespace Extends

variable {P : IdSet → Prop} {found found' found'' : Array IdSet} {s : IdSet} {i : Nat}

theorem refl : Extends P found found where
  keeps := List.prefix_rfl
  distinct := id
  new _ h := .inl h

theorem trans (h : Extends P found found') (h' : Extends P found' found'') :
    Extends P found found'' where
  keeps := h.keeps.trans h'.keeps
  distinct hnodup := h'.distinct (h.distinct hnodup)
  new s hs := (h'.new s hs).elim (h.new s) .inr

theorem getElem? (h : Extends P found found') (hi : found[i]? = some s) : found'[i]? = some s := by
  obtain ⟨hlt, rfl⟩ := Array.getElem?_eq_some_iff.mp hi
  have := List.prefix_iff_getElem?.mp h.keeps i (by simpa using hlt)
  simpa using this

theorem push (hs : P s) (hnew : s ∉ found) : Extends P found (found.push s) where
  keeps := by
    rw [Array.toList_push]
    exact List.prefix_append ..
  distinct hnodup := by
    rw [Array.toList_push, List.nodup_append]
    refine ⟨hnodup, by simp, fun a ha b hb hab => hnew ?_⟩
    rw [List.mem_singleton] at hb
    rw [← hb, ← hab]
    exact Array.mem_toList_iff.mp ha
  new t ht := by
    rcases Array.mem_push.mp ht with ht | rfl
    · exact .inl ht
    · exact .inr hs

end Extends

/-! ### Finding one set -/

variable {limit : Limit} {found found' : Array IdSet} {s : IdSet} {i : Nat}

theorem getElem?_of_idxOf? (h : found.idxOf? s = some i) : found[i]? = some s := by
  obtain ⟨l⟩ := found
  rw [List.idxOf?_toArray] at h
  obtain ⟨hi, hs, _⟩ := List.idxOf?_eq_some_iff.mp h
  rw [List.getElem?_toArray, List.getElem?_eq_getElem hi, hs]

theorem addFound_eq_ok (h : addFound limit found s = .ok (found', i)) :
    found' = found.push s ∧ i = found.size := by
  unfold addFound at h
  split at h
  · simp at h
  · cases h
    exact ⟨rfl, rfl⟩

/-- A set is found at its place afterwards, and nothing else changes. -/
theorem locate_spec {P : IdSet → Prop} (hs : P s) (h : locate limit found s = .ok (found', i)) :
    Extends P found found' ∧ found'[i]? = some s := by
  unfold locate at h
  split at h
  · next hfound =>
    cases h
    exact ⟨.refl, getElem?_of_idxOf? hfound⟩
  · next hfound =>
    obtain ⟨rfl, rfl⟩ := addFound_eq_ok h
    refine ⟨.push hs ?_, Array.getElem?_push_size⟩
    simpa using hfound

namespace Automaton

/-! ### Rows -/

/-- A row points at the sets that the symbols lead to from `s`. -/
def RowOf (A : Automaton) (found : Array IdSet) (s : IdSet) (row : Array Nat) (symbols : List Char) :
    Prop :=
  row.toList.map (found[·]?) = symbols.map fun c => some (A.move s c)

/-- No set was found twice, and the rows that are there are rows of the sets in the same places. -/
structure Tabulated (A : Automaton) (symbols : List Char) (found : Array IdSet)
    (rows : Array (Array Nat)) : Prop where
  distinct : found.toList.Nodup
  filled : ∀ (k : Nat) (row : Array Nat), rows[k]? = some row →
    ∃ s, found[k]? = some s ∧ A.RowOf found s row symbols

variable {A : Automaton} {P : IdSet → Prop} {row row' : Array Nat} {rows rows' : Array (Array Nat)}
  {symbols cs : List Char} {c : Char}

theorem RowOf.extend (h : A.RowOf found s row symbols) (hext : Extends P found found') :
    A.RowOf found' s row symbols := by
  unfold RowOf at h ⊢
  rw [← h]
  apply List.map_congr_left
  intro i hi
  have hmem : found[i]? ∈ symbols.map fun c => some (A.move s c) := h ▸ List.mem_map_of_mem hi
  obtain ⟨c, _, hc⟩ := List.mem_map.mp hmem
  rw [← hc]
  exact hext.getElem? hc.symm

theorem RowOf.getElem? {k : Nat} (h : A.RowOf found s row symbols) (hk : symbols[k]? = some c) :
    ∃ j, row[k]? = some j ∧ found[j]? = some (A.move s c) := by
  have hcell := congrArg (·[k]?) h
  simp only [List.getElem?_map, hk, Option.map_some, Option.map_eq_some_iff] at hcell
  obtain ⟨j, hj, hfound⟩ := hcell
  exact ⟨j, by simpa using hj, hfound⟩

theorem Tabulated.extend (h : A.Tabulated symbols found rows) (hext : Extends P found found') :
    A.Tabulated symbols found' rows where
  distinct := hext.distinct h.distinct
  filled k row hrow := by
    obtain ⟨s, hs, hrowOf⟩ := h.filled k row hrow
    exact ⟨s, hext.getElem? hs, hrowOf.extend hext⟩

theorem Tabulated.push (h : A.Tabulated symbols found rows) (hs : found[rows.size]? = some s)
    (hrow : A.RowOf found s row symbols) : A.Tabulated symbols found (rows.push row) where
  distinct := h.distinct
  filled k row' hk := by
    rw [Array.getElem?_push] at hk
    split at hk
    · next hsize =>
      cases hk
      exact ⟨s, hsize ▸ hs, hrow⟩
    · exact h.filled k row' hk

theorem fillRow_spec {done : List Char} (hP : ∀ c ∈ cs, P (A.move s c))
    (hrow : A.RowOf found s row done)
    (h : A.fillRow limit s found row cs = .ok (found', row')) :
    Extends P found found' ∧ A.RowOf found' s row' (done ++ cs) := by
  induction cs generalizing found row done with
  | nil =>
    cases h
    exact ⟨.refl, by rwa [List.append_nil]⟩
  | cons c cs ih =>
    unfold fillRow at h
    split at h
    · simp at h
    · next found₁ i hlocate =>
      obtain ⟨hext, hi⟩ := locate_spec (hP c (List.mem_cons_self ..)) hlocate
      have hrow₁ : A.RowOf found₁ s (row.push i) (done ++ [c]) := by
        have hold : row.toList.map (found₁[·]?) = _ := hrow.extend hext
        rw [RowOf, Array.toList_push, List.map_append, List.map_append, hold]
        simp only [List.map_cons, List.map_nil, hi]
      obtain ⟨hext', hrow'⟩ := ih (fun d hd => hP d (List.mem_cons_of_mem _ hd)) hrow₁ h
      refine ⟨hext.trans hext', ?_⟩
      rwa [List.append_assoc, List.singleton_append] at hrow'

/-! ### All rows -/

/-- The loop over the sets found keeps the invariant and ends when every set has its row. -/
theorem fill_spec (hP : ∀ s, P s → ∀ c ∈ symbols, P (A.move s c)) (hfound : ∀ s ∈ found, P s)
    (hinv : A.Tabulated symbols found rows) (hle : rows.size ≤ found.size)
    (h : A.fill limit symbols found rows = .ok (found', rows')) :
    Extends P found found' ∧ A.Tabulated symbols found' rows' ∧ rows'.size = found'.size := by
  fun_induction fill A limit symbols found rows with
  | case1 found rows hnext =>
    cases h
    have := Array.getElem?_eq_none_iff.mp hnext
    exact ⟨.refl, hinv, by omega⟩
  | case2 => simp at h
  | case3 found rows s hnext found₁ row hrow ih =>
    have hs : P s := hfound s (Array.mem_of_getElem? hnext)
    have hlt : rows.size < found.size := (Array.getElem?_eq_some_iff.mp hnext).1
    have hempty : A.RowOf found s #[] [] := rfl
    obtain ⟨hext, hrowOf⟩ := fillRow_spec (hP s hs) hempty hrow
    have hfound₁ : ∀ t ∈ found₁, P t := fun t ht => (hext.new t ht).elim (hfound t) fun h => h
    have hsize : found.size ≤ found₁.size := by simpa using hext.keeps.length_le
    have hinv₁ := (hinv.extend hext).push (hext.getElem? hnext) hrowOf
    obtain ⟨hext', htab, hrows⟩ := ih hfound₁ hinv₁ (by rw [Array.size_push]; omega) h
    exact ⟨hext.trans hext', htab, hrows⟩

/-! ### The whole table -/

/-- A complete table over the sets found. A set is found because a word over the alphabet reaches it,
or because symbols outside the alphabet lead to it. -/
structure Discovered (A : Automaton) (restricted : Option Alphabet) (T : Table)
    (found : Array IdSet) : Prop where
  states : T.states = found.map A.macrostate
  alphabet : T.alphabet = restricted.getD A.symbols
  tabulated : A.Tabulated T.alphabet.toList found T.rows
  size_rows : T.rows.size = found.size
  start : found[T.start]? = some (A.closure (.singleton A.start))
  isSome_dead? : T.dead?.isSome = restricted.isNone
  dead : ∀ d, T.dead? = some d → found[d]? = some ∅
  origin : ∀ s ∈ found,
    (∃ w : List Char, (∀ c ∈ w, c ∈ T.alphabet) ∧ s = A.reach w) ∨ restricted = none ∧ s = ∅

theorem Tabulated.singleton (s : IdSet) : A.Tabulated symbols #[s] #[] where
  distinct := by simp
  filled k row hk := by simp at hk

theorem rowOf_empty {dead : Nat} (h : found[dead]? = some ∅) :
    A.RowOf found ∅ (.replicate symbols.length dead) symbols := by
  unfold RowOf
  rw [Array.toList_replicate, List.map_replicate, h]
  simp only [move_empty]
  rw [List.map_const']

theorem addDead_eq_ok {width dead : Nat}
    (h : addDead limit width found rows = .ok (found', rows', dead)) :
    found.idxOf? ∅ = some dead ∧ found' = found ∧ rows' = rows ∨
      found.idxOf? ∅ = none ∧ dead = found.size ∧ found' = found.push ∅ ∧
        rows' = rows.push (.replicate width found.size) := by
  unfold addDead at h
  split at h
  · next hdead =>
    cases h
    exact .inl ⟨hdead, rfl, rfl⟩
  · next hnone =>
    cases hadd : addFound limit found ∅ with
    | error e => rw [hadd] at h; cases h
    | ok r =>
      obtain ⟨found₁, i⟩ := r
      obtain ⟨rfl, rfl⟩ := addFound_eq_ok hadd
      rw [hadd] at h
      cases h
      exact .inr ⟨hnone, rfl, rfl, rfl⟩

theorem addDead_spec {width dead : Nat} (hinv : A.Tabulated symbols found rows)
    (hsize : rows.size = found.size) (hwidth : width = symbols.length)
    (h : addDead limit width found rows = .ok (found', rows', dead)) :
    Extends (· = ∅) found found' ∧ A.Tabulated symbols found' rows' ∧
      rows'.size = found'.size ∧ found'[dead]? = some ∅ := by
  rcases addDead_eq_ok h with ⟨hdead, rfl, rfl⟩ | ⟨hnone, rfl, rfl, rfl⟩
  · exact ⟨.refl, hinv, hsize, getElem?_of_idxOf? hdead⟩
  · have hext : Extends (· = ∅) found (found.push ∅) := .push rfl (by simpa using hnone)
    have hdead : (found.push ∅)[found.size]? = some ∅ := Array.getElem?_push_size
    refine ⟨hext, ?_, by rw [Array.size_push, Array.size_push, hsize], hdead⟩
    exact (hinv.extend hext).push (hsize ▸ hdead) (hwidth ▸ rowOf_empty hdead)

/-- How a table comes about: rows are filled for all the sets that are found, from the first one on, and
the set without members is added unless the alphabet is restricted. -/
theorem discover_eq_ok {restricted : Option Alphabet} {T : Table}
    (h : A.discover restricted limit = .ok T) :
    ∃ found rows, T.start = 0 ∧ T.alphabet = restricted.getD A.symbols ∧
      A.fill limit T.alphabet.toList #[A.closure (.singleton A.start)] #[] = .ok (found, rows) ∧
      ((restricted ≠ none ∧ T.states = found.map A.macrostate ∧ T.rows = rows ∧ T.dead? = none) ∨
        restricted = none ∧ ∃ found' dead,
          addDead limit T.alphabet.size found rows = .ok (found', T.rows, dead) ∧
            T.states = found'.map A.macrostate ∧ T.dead? = some dead) := by
  unfold discover at h
  obtain ⟨⟨found₀, start⟩, hfirst, h⟩ := bind_eq_ok.mp h
  obtain ⟨rfl, rfl⟩ := addFound_eq_ok hfirst
  obtain ⟨⟨found, rows⟩, hfill, h⟩ := bind_eq_ok.mp h
  cases restricted with
  | some S =>
    cases h
    exact ⟨found, rows, rfl, rfl, hfill, .inl ⟨Option.some_ne_none S, rfl, rfl, rfl⟩⟩
  | none =>
    obtain ⟨⟨found', rows', dead⟩, hdead, h⟩ := bind_eq_ok.mp h
    cases h
    exact ⟨found, rows, rfl, rfl, hfill, .inr ⟨rfl, found', dead, hdead, rfl, rfl⟩⟩

theorem reach_snoc (w : List Char) (c : Char) : A.reach (w ++ [c]) = A.move (A.reach w) c := by
  rw [reach, List.foldl_append]
  rfl

theorem exists_discovered {restricted : Option Alphabet} {T : Table}
    (h : A.discover restricted limit = .ok T) : ∃ found, A.Discovered restricted T found := by
  let P (s : IdSet) : Prop := ∃ w : List Char, (∀ c ∈ w, c ∈ T.alphabet) ∧ s = A.reach w
  have hP : ∀ s, P s → ∀ c ∈ T.alphabet.toList, P (A.move s c) := by
    rintro s ⟨w, hw, rfl⟩ c hc
    refine ⟨w ++ [c], fun d hd => ?_, (reach_snoc w c).symm⟩
    rcases List.mem_append.mp hd with hd | hd
    · exact hw d hd
    · rw [List.mem_singleton.mp hd]
      exact hc
  have hfirst : ∀ s ∈ #[A.closure (.singleton A.start)], P s := by
    intro s hs
    have hs : s = A.closure (.singleton A.start) := by simpa using hs
    subst hs
    exact ⟨[], by simp, rfl⟩
  obtain ⟨found, rows, hzero, halphabet, hfill, hends⟩ := discover_eq_ok h
  obtain ⟨hext, htab, hsize⟩ := fill_spec hP hfirst (.singleton _) (Nat.zero_le _) hfill
  have hfound : ∀ s ∈ found, P s := fun s hs => (hext.new s hs).elim (hfirst s) fun h => h
  have hstart : found[T.start]? = some (A.closure (.singleton A.start)) := by
    rw [hzero]
    exact hext.getElem? rfl
  rcases hends with ⟨hrestricted, hstates, rfl, hnone⟩ | ⟨rfl, found', dead, hdead, hstates, hsome⟩
  · refine ⟨found, hstates, halphabet, htab, hsize, hstart, ?_, ?_, fun s hs => .inl (hfound s hs)⟩
    · rw [hnone, Option.isSome_none, Option.isNone_eq_false_iff.mpr]
      exact Option.isSome_iff_ne_none.mpr hrestricted
    · intro d hd
      rw [hnone] at hd
      cases hd
  · obtain ⟨hext', htab', hsize', hempty⟩ := addDead_spec htab hsize rfl hdead
    refine ⟨found', hstates, halphabet, htab', hsize', hext'.getElem? hstart, ?_, ?_, ?_⟩
    · rw [hsome]
      rfl
    · intro d hd
      obtain rfl := Option.some.inj (hsome.symm.trans hd)
      exact hempty
    · intro s hs
      exact (hext'.new s hs).imp (hfound s) fun h => ⟨rfl, h⟩

end Automaton

end Acceptor
