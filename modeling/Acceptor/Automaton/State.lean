import Acceptor.Ascending

/-!
# States and their transitions

A transition out of a state carries a label, `epsilon` or a symbol, and the identifier of the state
it leads to. A state holds its transitions as an ascending set: the epsilon label comes first, the
symbols follow by code point, and under one label the targets ascend.
-/

namespace Acceptor

abbrev IdSet := Ascending Nat

/-- What a transition consumes: nothing, or one symbol. -/
inductive Label where
  | epsilon
  | symbol (c : Char)
deriving DecidableEq, Repr

namespace Label

/-- The place of a label in the order of labels. -/
def rank : Label → Nat
  | epsilon => 0
  | symbol c => c.toNat + 1

theorem rank_injective {a b : Label} (h : a.rank = b.rank) : a = b := by
  cases a <;> cases b <;> simp only [rank] at h
  · rfl
  · omega
  · omega
  · rw [Char.toNat_inj.mp (Nat.succ.inj h)]

instance : LT Label where
  lt a b := a.rank < b.rank

instance : DecidableLT Label := fun a b => inferInstanceAs (Decidable (a.rank < b.rank))

instance : Trans (α := Label) (· < ·) (· < ·) (· < ·) where
  trans hab hbc := Nat.lt_trans hab hbc

instance : Std.Irrefl (α := Label) (· < ·) where
  irrefl a := Nat.lt_irrefl a.rank

instance : Std.Trichotomous (α := Label) (· < ·) where
  trichotomous _ _ hab hba := rank_injective (Nat.le_antisymm (Nat.not_lt.mp hba) (Nat.not_lt.mp hab))

def symbol? : Label → Option Char
  | epsilon => none
  | symbol c => some c

/-- The text of a label: the symbol itself, or the Greek letter for the empty word. -/
def text : Label → String
  | epsilon => "ε"
  | symbol c => String.singleton c

end Label

/-- A transition as seen from its source. -/
structure Edge where
  label : Label
  target : Nat
deriving DecidableEq, Repr

namespace Edge

instance : LT Edge where
  lt a b := a.label < b.label ∨ a.label = b.label ∧ a.target < b.target

instance : DecidableLT Edge := fun a b =>
  inferInstanceAs (Decidable (a.label < b.label ∨ a.label = b.label ∧ a.target < b.target))

theorem lt_iff {a b : Edge} :
    a < b ↔ a.label < b.label ∨ a.label = b.label ∧ a.target < b.target := Iff.rfl

instance : Trans (α := Edge) (· < ·) (· < ·) (· < ·) where
  trans {a b c} hab hbc := by
    rcases hab with hab | ⟨hab, hab'⟩
    · rcases hbc with hbc | ⟨hbc, _⟩
      · exact .inl (Std.lt_trans hab hbc)
      · exact .inl (hbc ▸ hab)
    · rcases hbc with hbc | ⟨hbc, hbc'⟩
      · exact .inl (hab ▸ hbc)
      · exact .inr ⟨hab.trans hbc, Nat.lt_trans hab' hbc'⟩

instance : Std.Irrefl (α := Edge) (· < ·) where
  irrefl a h := by
    rcases h with h | ⟨_, h⟩
    · exact Std.lt_irrefl h
    · exact Nat.lt_irrefl _ h

instance : Std.Trichotomous (α := Edge) (· < ·) where
  trichotomous a b hab hba := by
    have hl : a.label = b.label :=
      Std.Trichotomous.trichotomous (r := ((· < ·) : Label → Label → Prop)) _ _
        (fun h => hab (.inl h)) (fun h => hba (.inl h))
    have ht : a.target = b.target := Nat.le_antisymm
      (Nat.not_lt.mp fun h => hba (.inr ⟨hl.symm, h⟩)) (Nat.not_lt.mp fun h => hab (.inr ⟨hl, h⟩))
    cases a; cases b; cases hl; cases ht; rfl

end Edge

/-- A state: its transitions, and whether a word that ends here is accepted. -/
structure State where
  edges : Ascending Edge := ∅
  accepting : Bool := false
deriving DecidableEq, Inhabited

namespace State

def targets (q : State) (label : Label) : IdSet where
  toList := (q.edges.toList.filter (·.label = label)).map Edge.target
  ascending := by
    refine List.pairwise_map.mpr ((q.edges.ascending.filter _).imp_of_mem fun ha hb hab => ?_)
    simp only [List.mem_filter, decide_eq_true_eq] at ha hb
    rcases hab with hab | hab
    · exact absurd (ha.2 ▸ hb.2 ▸ hab) Std.lt_irrefl
    · exact hab.2

def epsilons (q : State) : IdSet := q.targets .epsilon

/-- The symbols on the outgoing transitions, ascending, each as often as it labels one. -/
def symbols (q : State) : List Char := q.edges.toList.filterMap (·.label.symbol?)

/-- The state with a further transition; one that is already there is kept once. -/
def link (q : State) (label : Label) (target : Nat) : State :=
  { q with edges := q.edges.insert ⟨label, target⟩ }

theorem mem_targets {q : State} {label : Label} {t : Nat} :
    t ∈ q.targets label ↔ (⟨label, t⟩ : Edge) ∈ q.edges := by
  simp only [targets, Ascending.mem_iff, List.mem_map, List.mem_filter, decide_eq_true_eq]
  constructor
  · rintro ⟨⟨l, _⟩, ⟨h, hl⟩, rfl⟩
    cases hl; exact h
  · exact fun h => ⟨_, ⟨h, rfl⟩, rfl⟩

theorem mem_symbols {q : State} {c : Char} : c ∈ q.symbols ↔ ∃ t, t ∈ q.targets (.symbol c) := by
  simp only [symbols, List.mem_filterMap, mem_targets]
  constructor
  · rintro ⟨⟨l, t⟩, h, hl⟩
    cases l with
    | epsilon => cases hl
    | symbol d =>
      cases hl
      exact ⟨t, h⟩
  · rintro ⟨t, h⟩
    exact ⟨_, h, rfl⟩

@[simp] theorem mem_targets_link {q : State} {l m : Label} {t u : Nat} :
    u ∈ (q.link l t).targets m ↔ m = l ∧ u = t ∨ u ∈ q.targets m := by
  simp [mem_targets, link]

@[simp] theorem accepting_link {q : State} {l : Label} {t : Nat} :
    (q.link l t).accepting = q.accepting := rfl

end State

end Acceptor
