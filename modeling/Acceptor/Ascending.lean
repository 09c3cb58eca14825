/-!
# Ascending sets

`Ascending α` is a finite set kept as its list of members in strictly ascending order. The order is
part of the type, so two sets with the same members are the same value (`Ascending.ext`), and the
list that is printed is the set itself. Identifier sets, alphabets and the transitions of a state are
all of this type.

Every operation is characterised by membership: `mem_insert`, `mem_union`, `mem_ofList`,
`mem_filter`.

An alphabet is a set of symbols. The place of a symbol in the ascending order is its column in a
transition table.
-/

namespace Acceptor

/-- A finite set, held as the list of its members in strictly ascending order. -/
structure Ascending (α : Type) [LT α] where
  toList : List α
  ascending : toList.Pairwise (· < ·)
deriving DecidableEq

namespace Ascending

variable {α : Type} [LT α]

instance : Membership α (Ascending α) where
  mem s a := a ∈ s.toList

instance [DecidableEq α] (a : α) (s : Ascending α) : Decidable (a ∈ s) :=
  inferInstanceAs (Decidable (a ∈ s.toList))

instance : EmptyCollection (Ascending α) where
  emptyCollection := ⟨[], .nil⟩

instance : Inhabited (Ascending α) where
  default := ∅

def singleton (a : α) : Ascending α := ⟨[a], List.pairwise_singleton _ _⟩

def size (s : Ascending α) : Nat := s.toList.length

def isEmpty (s : Ascending α) : Bool := s.toList.isEmpty

def filter (p : α → Bool) (s : Ascending α) : Ascending α :=
  ⟨s.toList.filter p, s.ascending.filter p⟩

theorem mem_iff {a : α} {s : Ascending α} : a ∈ s ↔ a ∈ s.toList := Iff.rfl

@[simp] theorem mem_toList {a : α} {s : Ascending α} : a ∈ s.toList ↔ a ∈ s := Iff.rfl

@[simp] theorem toList_empty : (∅ : Ascending α).toList = [] := rfl

@[simp] theorem not_mem_empty (a : α) : a ∉ (∅ : Ascending α) := List.not_mem_nil

@[simp] theorem mem_singleton {a b : α} : a ∈ singleton b ↔ a = b := List.mem_singleton

@[simp] theorem mem_filter {p : α → Bool} {a : α} {s : Ascending α} :
    a ∈ s.filter p ↔ a ∈ s ∧ p a := List.mem_filter

theorem toList_injective {s t : Ascending α} (h : s.toList = t.toList) : s = t := by
  cases s; cases t; cases h; rfl

theorem isEmpty_iff {s : Ascending α} : s.isEmpty ↔ s = ∅ :=
  ⟨fun h => toList_injective (List.isEmpty_iff.mp h), fun h => h ▸ rfl⟩

theorem size_filter_le (p : α → Bool) (s : Ascending α) : (s.filter p).size ≤ s.size :=
  List.length_filter_le ..

theorem exists_mem_of_ne_empty {s : Ascending α} (h : s ≠ ∅) : ∃ a, a ∈ s := by
  obtain ⟨l, hl⟩ := s
  cases l with
  | nil => exact absurd rfl h
  | cons a l => exact ⟨a, List.mem_cons_self ..⟩

theorem size_filter_lt {s : Ascending α} {p q : α → Bool} (h : ∀ a ∈ s, p a → q a) {a : α}
    (ha : a ∈ s) (hq : q a) (hp : ¬p a) : (s.filter p).size < (s.filter q).size := by
  obtain ⟨l, _⟩ := s
  simp only [size, filter, ← List.countP_eq_length_filter]
  simp only [mem_iff] at h ha
  induction l with
  | nil => exact absurd ha List.not_mem_nil
  | cons b l ih =>
    have hle : l.countP p ≤ l.countP q :=
      List.countP_mono_left fun c hc => h c (List.mem_cons_of_mem _ hc)
    rcases List.mem_cons.mp ha with rfl | ha
    · rw [List.countP_cons_of_neg hp, List.countP_cons_of_pos hq]
      omega
    · have hlt := ih (List.pairwise_cons.mp ‹_›).2 (fun c hc => h c (List.mem_cons_of_mem _ hc)) ha
      have hb := h b (List.mem_cons_self ..)
      by_cases hpb : p b
      · rw [List.countP_cons_of_pos hpb, List.countP_cons_of_pos (hb hpb)]
        omega
      · rw [List.countP_cons_of_neg hpb, List.countP_cons]
        omega

/-! ### Insertion -/

section insertion

variable [DecidableLT α]

/-- An ascending list with `a` put in its place, unless an equal element stands there. -/
def insertList (a : α) : List α → List α
  | [] => [a]
  | b :: l => if a < b then a :: b :: l else if b < a then b :: insertList a l else b :: l

theorem mem_or_eq_of_mem_insertList {a b : α} {l : List α} (h : b ∈ insertList a l) :
    b = a ∨ b ∈ l := by
  induction l with
  | nil => exact Or.inl (List.mem_singleton.mp h)
  | cons c l ih =>
    simp only [insertList] at h
    split at h
    · exact List.mem_cons.mp h
    · split at h
      · rcases List.mem_cons.mp h with rfl | h
        · exact Or.inr (List.mem_cons_self ..)
        · exact (ih h).imp_right (List.mem_cons_of_mem _)
      · exact Or.inr h

theorem pairwise_insertList [Trans (α := α) (· < ·) (· < ·) (· < ·)] {a : α} {l : List α}
    (h : l.Pairwise (· < ·)) : (insertList a l).Pairwise (· < ·) := by
  induction l with
  | nil => exact List.pairwise_singleton _ _
  | cons b l ih =>
    have hb := List.pairwise_cons.mp h
    simp only [insertList]
    split
    · next hab =>
      refine List.pairwise_cons.mpr ⟨fun c hc => ?_, h⟩
      rcases List.mem_cons.mp hc with rfl | hc
      · exact hab
      · exact Trans.trans hab (hb.1 c hc)
    · split
      · next hba =>
        refine List.pairwise_cons.mpr ⟨fun c hc => ?_, ih hb.2⟩
        rcases mem_or_eq_of_mem_insertList hc with rfl | hc
        · exact hba
        · exact hb.1 c hc
      · exact h

theorem mem_insertList [Std.Trichotomous (α := α) (· < ·)] {a b : α} {l : List α} :
    b ∈ insertList a l ↔ b = a ∨ b ∈ l := by
  refine ⟨mem_or_eq_of_mem_insertList, fun h => ?_⟩
  induction l with
  | nil => simpa [insertList] using h
  | cons c l ih =>
    simp only [insertList]
    split
    · exact List.mem_cons.mpr h
    · next hac =>
      split
      · rcases h with h | h
        · exact List.mem_cons_of_mem _ (ih (Or.inl h))
        · rcases List.mem_cons.mp h with h | h
          · exact h ▸ List.mem_cons_self ..
          · exact List.mem_cons_of_mem _ (ih (Or.inr h))
      · next hca =>
        rcases h with h | h
        · have hc := Std.Trichotomous.trichotomous (r := ((· < ·) : α → α → Prop)) a c hac hca
          exact h ▸ hc ▸ List.mem_cons_self ..
        · exact h

variable [Trans (α := α) (· < ·) (· < ·) (· < ·)]

def insert (s : Ascending α) (a : α) : Ascending α :=
  ⟨insertList a s.toList, pairwise_insertList s.ascending⟩

def insertMany (s : Ascending α) (l : List α) : Ascending α := l.foldl insert s

/-- The set of the elements of `l`, in whatever order and however often they occur there. -/
def ofList (l : List α) : Ascending α := insertMany ∅ l

instance : Union (Ascending α) where
  union s t := s.insertMany t.toList

variable [Std.Trichotomous (α := α) (· < ·)]

@[simp] theorem mem_insert {a b : α} {s : Ascending α} : b ∈ s.insert a ↔ b = a ∨ b ∈ s :=
  mem_insertList

@[simp] theorem mem_insertMany {a : α} {s : Ascending α} {l : List α} :
    a ∈ s.insertMany l ↔ a ∈ s ∨ a ∈ l := by
  induction l generalizing s with
  | nil => simp [insertMany]
  | cons b l ih =>
    rw [insertMany, List.foldl_cons, ← insertMany, ih, mem_insert, List.mem_cons]
    exact ⟨fun h => by rcases h with (h | h) | h <;> simp [h],
      fun h => by rcases h with h | h | h <;> simp [h]⟩

@[simp] theorem mem_ofList {a : α} {l : List α} : a ∈ ofList l ↔ a ∈ l := by
  simp [ofList]

@[simp] theorem mem_union {a : α} {s t : Ascending α} : a ∈ s ∪ t ↔ a ∈ s ∨ a ∈ t :=
  mem_insertMany

end insertion

/-! ### Equal members, equal sets -/

theorem sublist_of_subset [Std.Irrefl (α := α) (· < ·)] [Trans (α := α) (· < ·) (· < ·) (· < ·)]
    {l m : List α} (hl : l.Pairwise (· < ·)) (hm : m.Pairwise (· < ·)) (h : ∀ a ∈ l, a ∈ m) :
    l.Sublist m := by
  induction m generalizing l with
  | nil =>
    cases l with
    | nil => exact .slnil
    | cons a l => exact absurd (h a (List.mem_cons_self ..)) List.not_mem_nil
  | cons b m ih =>
    cases l with
    | nil => exact List.nil_sublist _
    | cons a l =>
      have ha := List.pairwise_cons.mp hl
      have hb := List.pairwise_cons.mp hm
      rcases List.mem_cons.mp (h a (List.mem_cons_self ..)) with rfl | ham
      · refine (ih ha.2 hb.2 fun c hc => ?_).cons_cons a
        rcases List.mem_cons.mp (h c (List.mem_cons_of_mem _ hc)) with rfl | hcm
        · exact absurd (ha.1 c hc) Std.lt_irrefl
        · exact hcm
      · refine (ih hl hb.2 fun c hc => ?_).cons b
        rcases List.mem_cons.mp (h c hc) with rfl | hcm
        · rcases List.mem_cons.mp hc with rfl | hcl
          · exact ham
          · exact absurd (Trans.trans (hb.1 a ham) (ha.1 c hcl)) Std.lt_irrefl
        · exact hcm

theorem size_le_of_subset [Std.Irrefl (α := α) (· < ·)]
    [Trans (α := α) (· < ·) (· < ·) (· < ·)] {s t : Ascending α} (h : ∀ a ∈ s, a ∈ t) :
    s.size ≤ t.size :=
  (sublist_of_subset s.ascending t.ascending h).length_le

theorem ext [Std.Irrefl (α := α) (· < ·)] [Trans (α := α) (· < ·) (· < ·) (· < ·)]
    {s t : Ascending α} (h : ∀ a, a ∈ s ↔ a ∈ t) : s = t :=
  toList_injective <| (sublist_of_subset s.ascending t.ascending fun a => (h a).mp).eq_of_length_le
    (sublist_of_subset t.ascending s.ascending fun a => (h a).mpr).length_le

end Ascending

/-! ### Alphabets -/

/-- A set of symbols, ordered by code point. -/
abbrev Alphabet := Ascending Char

namespace Alphabet

/-- The ten digits, the point, and the letters `a`, `b` and `c`. -/
def classic : Alphabet := .ofList "0123456789.abc".toList

/-- The place of `c` in the order of the symbols. -/
def index? (S : Alphabet) (c : Char) : Option Nat := S.toList.idxOf? c

theorem isSome_index?_iff {S : Alphabet} {c : Char} : (S.index? c).isSome ↔ c ∈ S := by
  simp [index?]

end Alphabet

end Acceptor
