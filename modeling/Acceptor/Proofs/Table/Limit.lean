import Acceptor.Proofs.Table.Discovery

/-!
# What a limit on states does

A limit on the number of states is checked in one place, where a set is added to those found
(`addFound`), but that place is reached in three ways: for the first set, for the sets that rows lead
to, and for the set without members. `Limited` says of a part of the construction that a limit decides
only where it stops. It holds of the place itself and is kept when parts follow each other
(`Limited.bind`), so it holds of the whole construction (`exists_limited_discover`).

Hence a table is the same with a limit as without, unless it has too many states. Then the states found
before the failure are the first ones of the table, one more than the limit allows
(`table_and_events_of_limit`).
-/

namespace Acceptor

variable {α β : Type} {found found' found'' : Array IdSet} {s : IdSet} {a : α} {b : β} {l : Nat}

/-! ### Parts of the construction -/

/-- Without a limit, this part of the construction starts with the sets `found`, adds to them until
they are `found'` and comes to `a`. A limit changes nothing unless it is exceeded; then the part fails
with the first set that is too many. -/
structure Limited (found : Array IdSet) (x : Limit → Except Overflow α) (found' : Array IdSet)
    (a : α) : Prop where
  unlimited : x none = .ok a
  keeps : found.toList <+: found'.toList
  within : ∀ l, found'.size ≤ l → x (some l) = .ok a
  beyond : ∀ l, found.size ≤ l → l < found'.size → x (some l) = .error ⟨l, found'.take (l + 1)⟩

namespace Limited

variable {x y : Limit → Except Overflow α} {f : Limit → α → Except Overflow β}

theorem congr (h : Limited found y found' a) (hxy : ∀ limit, x limit = y limit) :
    Limited found x found' a := by
  rwa [funext hxy]

theorem size_le (h : Limited found x found' a) : found.size ≤ found'.size := by
  simpa using h.keeps.length_le

theorem take_eq (h : Limited found x found' a) (hl : l ≤ found.size) :
    found'.take l = found.take l := by
  apply Array.toList_inj.mp
  obtain ⟨more, hmore⟩ := h.keeps
  simp only [Array.take_eq_extract, Array.toList_extract, List.extract_eq_take_drop, List.drop_zero,
    Nat.sub_zero, ← hmore]
  exact List.take_append_of_le_length (by simpa using hl)

theorem pure (found : Array IdSet) (a : α) : Limited found (fun _ => .ok a) found a where
  unlimited := rfl
  keeps := List.prefix_rfl
  within _ _ := rfl
  beyond _ hle hlt := absurd hlt (Nat.not_lt_of_le hle)

theorem bind (hx : Limited found x found' a) (hf : Limited found' (f · a) found'' b) :
    Limited found (fun limit => x limit >>= f limit) found'' b where
  unlimited := by
    rw [hx.unlimited]
    exact hf.unlimited
  keeps := hx.keeps.trans hf.keeps
  within l hle := by
    rw [hx.within l (Nat.le_trans hf.size_le hle)]
    exact hf.within l hle
  beyond l hle hlt := by
    rcases Nat.lt_or_ge l found'.size with hlt' | hle'
    · -- The limit is exceeded in the first part, and the second is not begun.
      rw [hx.beyond l hle hlt', hf.take_eq hlt']
      rfl
    · rw [hx.within l hle']
      exact hf.beyond l hle' hlt

theorem map (hx : Limited found x found' a) (g : α → β) :
    Limited found (fun limit => (x limit).map g) found' (g a) := by
  have hpure : Limited found' (fun _ => .ok (g a)) found' (g a) := .pure found' (g a)
  refine (hx.bind (f := fun _ a => .ok (g a)) hpure).congr fun limit => ?_
  cases x limit <;> rfl

end Limited

/-! ### Sets -/

theorem limited_addFound (found : Array IdSet) (s : IdSet) :
    Limited found (addFound · found s) (found.push s) (found.push s, found.size) where
  unlimited := rfl
  keeps := by
    rw [Array.toList_push]
    exact List.prefix_append ..
  within l hle := by
    rw [Array.size_push] at hle
    rw [addFound, Limit.exceededBy?_of_le hle]
  beyond l hle hlt := by
    rw [Array.size_push] at hlt
    obtain rfl : l = found.size := by omega
    rw [addFound, Limit.exceededBy?_of_lt hlt, ← Array.size_push s, Array.take_eq_extract,
      Array.extract_size]

theorem exists_limited_locate (found : Array IdSet) (s : IdSet) :
    ∃ found' i, Limited found (locate · found s) found' (found', i) := by
  cases h : found.idxOf? s with
  | some i => exact ⟨found, i, (Limited.pure ..).congr fun _ => by rw [locate, h]⟩
  | none => exact ⟨_, _, (limited_addFound found s).congr fun _ => by rw [locate, h]⟩

namespace Automaton

variable {A : Automaton} {limit : Limit} {symbols cs : List Char} {c : Char} {row : Array Nat}
  {rows : Array (Array Nat)}

/-! ### Rows -/

theorem fillRow_cons :
    A.fillRow limit s found row (c :: cs) =
      locate limit found (A.move s c) >>= fun r => A.fillRow limit s r.1 (row.push r.2) cs := by
  rw [fillRow]
  cases locate limit found (A.move s c) <;> rfl

theorem exists_limited_fillRow (A : Automaton) (s : IdSet) (cs : List Char) (found : Array IdSet)
    (row : Array Nat) :
    ∃ found' row', Limited found (A.fillRow · s found row cs) found' (found', row') := by
  induction cs generalizing found row with
  | nil => exact ⟨found, row, .pure ..⟩
  | cons c cs ih =>
    obtain ⟨found₁, i, hlocate⟩ := exists_limited_locate found (A.move s c)
    obtain ⟨found', row', hrest⟩ := ih found₁ (row.push i)
    exact ⟨found', row', (hlocate.bind hrest).congr fun _ => fillRow_cons⟩

theorem fill_of_none (h : found[rows.size]? = none) :
    A.fill limit symbols found rows = .ok (found, rows) := by
  rw [fill]
  split
  · rfl
  · next hsome => simp [h] at hsome

theorem fill_of_some (h : found[rows.size]? = some s) :
    A.fill limit symbols found rows =
      A.fillRow limit s found #[] symbols >>= fun r =>
        A.fill limit symbols r.1 (rows.push r.2) := by
  rw [fill]
  split
  · next hnone => simp [h] at hnone
  · next s' hsome =>
    rw [h] at hsome
    cases hsome
    split
    · next e hrow => rw [hrow]; rfl
    · next found' row hrow => rw [hrow]; rfl

theorem exists_limited_fill (A : Automaton) (symbols : List Char) (found : Array IdSet)
    (rows : Array (Array Nat)) :
    ∃ found' rows', Limited found (A.fill · symbols found rows) found' (found', rows') := by
  fun_induction fill A none symbols found rows with
  | case1 found rows hnext => exact ⟨found, rows, (Limited.pure ..).congr fun _ => fill_of_none hnext⟩
  | case2 found rows s hnext e hrow =>
    obtain ⟨found', row, hlimited⟩ := A.exists_limited_fillRow s symbols found #[]
    have := hlimited.unlimited
    simp [hrow] at this
  | case3 found rows s hnext found₁ row hrow ih =>
    obtain ⟨found', rows', hrest⟩ := ih
    obtain ⟨_, _, hlimited⟩ := A.exists_limited_fillRow s symbols found #[]
    have hsame := hlimited.unlimited
    rw [hrow] at hsame
    cases hsame
    exact ⟨found', rows', (hlimited.bind hrest).congr fun _ => fill_of_some hnext⟩

/-! ### The whole construction -/

theorem exists_limited_addDead (width : Nat) (found : Array IdSet) (rows : Array (Array Nat)) :
    ∃ found' rows' dead, Limited found (addDead · width found rows) found' (found', rows', dead) := by
  cases h : found.idxOf? ∅ with
  | some dead => exact ⟨found, rows, dead, (Limited.pure ..).congr fun _ => by rw [addDead, h]⟩
  | none =>
    have hadd := (limited_addFound found ∅).map fun r => (r.1, rows.push (.replicate width r.2), r.2)
    exact ⟨_, _, _, hadd.congr fun _ => by rw [addDead, h]⟩

/-- The construction of a table is cut off at the limit. -/
theorem exists_limited_discover (A : Automaton) (restricted : Option Alphabet) :
    ∃ found T, Limited #[] (A.discover restricted) found T ∧ T.states = found.map A.macrostate := by
  have hfirst := limited_addFound #[] (A.closure (.singleton A.start))
  obtain ⟨found, rows, hfill⟩ :=
    A.exists_limited_fill (restricted.getD A.symbols).toList #[A.closure (.singleton A.start)] #[]
  cases restricted with
  | some S => exact ⟨found, _, hfirst.bind (hfill.bind (.pure found _)), rfl⟩
  | none =>
    obtain ⟨found', rows', dead, hdead⟩ := exists_limited_addDead A.symbols.size found rows
    exact ⟨found', _, hfirst.bind (hfill.bind (hdead.bind (.pure found' _))), rfl⟩

end Automaton

/-! ### Tables -/

def Table.discoveries (states : List Macrostate) : List Event :=
  states.mapIdx fun id q => .discovered id q.members.toList q.accepting

namespace Automaton

variable {A : Automaton} {restricted : Option Alphabet} {limit : Limit} {T : Table} {o : Overflow}

theorem table_eq_ok_iff : A.table restricted limit = .ok T ↔ A.discover restricted limit = .ok T :=
  mapError_eq_ok_iff

theorem exists_table_eq_ok (A : Automaton) (restricted : Option Alphabet) :
    ∃ T, A.table restricted none = .ok T := by
  obtain ⟨_, T, hT, _⟩ := A.exists_limited_discover restricted
  exact ⟨T, table_eq_ok_iff.mpr hT.unlimited⟩

theorem table_of_error (h : A.discover restricted limit = .error o) :
    A.table restricted limit = .error (.tooManyStates o.limit) := by
  rw [table, h]
  rfl

/-- Without a limit there is a table. With a limit it is the same if its states are no more, and else
there is none, and the states found before the failure are the first of the table, one more than the
limit. -/
theorem table_and_events_of_limit (A : Automaton) (restricted : Option Alphabet) :
    ∃ T : Table,
      A.table restricted none = .ok T ∧
      A.discoveryEvents (A.discover restricted none) =
        Table.discoveries T.states.toList ++ [.determinized A.size T.size T.alphabet.size] ∧
      ∀ l : Nat,
        (T.size ≤ l → A.table restricted (some l) = .ok T ∧
          A.discoveryEvents (A.discover restricted (some l)) =
            Table.discoveries T.states.toList ++ [.determinized A.size T.size T.alphabet.size]) ∧
        (l < T.size → A.table restricted (some l) = .error (.tooManyStates l) ∧
          A.discoveryEvents (A.discover restricted (some l)) =
            Table.discoveries (T.states.toList.take (l + 1))) := by
  obtain ⟨found, T, hT, hstates⟩ := A.exists_limited_discover restricted
  have hsize : T.size = found.size := by rw [Table.size, hstates, Array.size_map]
  refine ⟨T, table_eq_ok_iff.mpr hT.unlimited, ?_, fun l => ⟨fun hle => ?_, fun hlt => ?_⟩⟩
  · rw [hT.unlimited]
    rfl
  · rw [hsize] at hle
    rw [table_eq_ok_iff, hT.within l hle]
    exact ⟨rfl, rfl⟩
  · rw [hsize] at hlt
    have herror := hT.beyond l (Nat.zero_le l) hlt
    refine ⟨table_of_error herror, ?_⟩
    rw [herror, hstates, Array.toList_map, ← List.map_take]
    simp [discoveryEvents, Table.discoveries, Array.take_eq_extract]

end Automaton

end Acceptor
