import Acceptor.Proofs.Regex.Language
import Acceptor.Proofs.Regex.Reading

/-!
# The grammar of patterns

`Denotes` is the grammar: it relates a text, read as one of four categories, to the language that it
stands for. It says nothing about how a pattern is read, and it gives a meaning to exactly the texts
that are well formed.

What `Regex.parse` reads has a derivation with the language of the expression read
(`denotes_of_parse`), and no derivation of the same text has another language (`Denotes.language_eq`).
The proof of the first goes by the recursion of `parse`, that of the second by induction on the
derivation: `parse` reads the text of each category as one piece.
-/

namespace Acceptor

open Computability

/-- What a part of a pattern is read as. -/
inductive Category where
  | atom
  | operand
  | branch
  | alternation
deriving DecidableEq, Repr

/-- The text is of this category and stands for this language. -/
inductive Denotes : Category → List Char → Language Char → Prop
  | literal {c : Char} : c ∉ Token.structural → Denotes .atom [c] {[c]}
  | group {p : List Char} {L : Language Char} :
      Denotes .alternation p L → Denotes .atom ('(' :: (p ++ [')'])) L
  | once {p : List Char} {L : Language Char} : Denotes .atom p L → Denotes .operand p L
  | star {p : List Char} {L : Language Char} : Denotes .atom p L → Denotes .operand (p ++ ['*']) L∗
  | plus {p : List Char} {L : Language Char} :
      Denotes .atom p L → Denotes .operand (p ++ ['+']) (L * L∗)
  | optional {p : List Char} {L : Language Char} :
      Denotes .atom p L → Denotes .operand (p ++ ['?']) (L + 1)
  | nothing : Denotes .branch [] 1
  | append {p q : List Char} {L M : Language Char} :
      Denotes .branch p L → Denotes .operand q M → Denotes .branch (p ++ q) (L * M)
  | single {p : List Char} {L : Language Char} : Denotes .branch p L → Denotes .alternation p L
  | either {p q : List Char} {L M : Language Char} :
      Denotes .branch p L → Denotes .alternation q M → Denotes .alternation (p ++ '|' :: q) (L + M)

/-- The words that a pattern stands for, none if it is not well formed. -/
def patternLanguage (pattern : List Char) : Language Char :=
  {w | ∃ L, Denotes .alternation pattern L ∧ w ∈ L}

theorem Denotes.repeated {p : List Char} {L : Language Char} (h : Denotes .atom p L)
    (op : Repetition) : Denotes .operand (p ++ [(Token.repetition op).toChar]) (op.language L) := by
  cases op with
  | star => exact .star h
  | plus => exact .plus h
  | optional => exact .optional h

/-! ### Branches -/

namespace Branch

variable {b b' : Branch} {r : Regex} {op : Repetition}

def language (b : Branch) : Language Char :=
  b.before.elim 1 Regex.language * b.operand.elim 1 Regex.language

theorem elim_regex? (b : Branch) : b.regex?.elim 1 Regex.language = b.language := by
  obtain ⟨before, operand⟩ := b
  cases before with
  | none => exact (one_mul _).symm
  | some l =>
    cases operand with
    | none => exact (mul_one _).symm
    | some r => rfl

theorem language_regex (b : Branch) : b.regex.language = b.language := by
  rw [← elim_regex?, regex]
  cases b.regex? <;> rfl

@[simp] theorem language_empty : language {} = 1 := one_mul 1

theorem language_push (b : Branch) (r : Regex) : (b.push r).language = b.language * r.language := by
  rw [language, push, elim_regex?]
  rfl

theorem repeat?_push (b : Branch) (r : Regex) (op : Repetition) :
    ∃ b', (b.push r).repeat? op = some b' ∧
      b'.language = b.language * op.language r.language := by
  refine ⟨_, rfl, ?_⟩
  rw [language, elim_regex?, language, Option.elim_none, mul_one]
  show b.regex?.elim 1 Regex.language * _ = _
  rw [elim_regex?]
  rfl

end Branch

/-! ### What is read has a derivation -/

/-- The text `q` is what was read as the branch `b` so far: up to the last operand a branch, and then
an atom if the last operand may still be repeated. -/
def Branch.Reading (b : Branch) (q : List Char) : Prop :=
  match b.operand with
  | none => Denotes .branch q b.language
  | some r => ∃ u v, u ++ v = q ∧ Denotes .branch u (b.before.elim 1 Regex.language) ∧
      Denotes .atom v r.language

namespace Branch.Reading

variable {b b' : Branch} {q v : List Char} {r : Regex} {op : Repetition}

theorem denotes (h : b.Reading q) : Denotes .branch q b.language := by
  obtain ⟨before, operand⟩ := b
  cases operand with
  | none => exact h
  | some r =>
    obtain ⟨u, v, rfl, hu, hv⟩ := h
    exact hu.append (.once hv)

theorem push (h : b.Reading q) (hv : Denotes .atom v r.language) : (b.push r).Reading (q ++ v) := by
  refine ⟨q, v, rfl, ?_, hv⟩
  show Denotes .branch q (b.regex?.elim 1 Regex.language)
  rw [elim_regex?]
  exact h.denotes

theorem repeated (h : b.Reading q) (hop : b.repeat? op = some b') :
    b'.Reading (q ++ [(Token.repetition op).toChar]) := by
  obtain ⟨before, operand⟩ := b
  obtain ⟨r, hr, rfl⟩ := repeat?_eq_some_iff.mp hop
  obtain rfl : operand = some r := hr
  obtain ⟨u, v, rfl, hu, hv⟩ := h
  show Denotes .branch _ (Branch.language _)
  rw [language, elim_regex?, Option.elim_none, mul_one, List.append_assoc]
  exact hu.append (hv.repeated op)

end Branch.Reading

theorem Branch.reading_nil : Branch.Reading {} [] := by
  show Denotes .branch [] (Branch.language {})
  rw [Branch.language_empty]
  exact .nothing

namespace Regex

variable {limit depth position n : Nat} {b b' : Branch} {c : Char} {p q cs rest : List Char}
  {op : Repetition} {r x : Regex} {L : Language Char}

/-- Whatever is read has a derivation for the language of the expression. -/
theorem denotes_of_parse (hb : b.Reading q) (h : parse limit depth position b cs = .ok r) :
    Denotes .alternation (q ++ cs) r.language := by
  fun_induction parse limit depth position b cs generalizing q r with
  | case1 depth position b =>
    cases h
    rw [List.append_nil, Branch.language_regex]
    exact .single hb.denotes
  | case2 depth position b c cs d hc ih =>
    obtain ⟨hliteral, rfl⟩ := Token.ofChar_eq_literal_iff.mp hc
    have := ih (hb.push (r := .literal c) (.literal hliteral)) h
    rwa [List.append_assoc, List.singleton_append] at this
  | case3 depth position b c cs op hc b' hop ih =>
    have := ih (hb.repeated hop) h
    rwa [List.append_assoc, List.singleton_append, ← Token.eq_toChar hc] at this
  | case4 => simp at h
  | case5 depth position b c cs hc ih =>
    cases hr : parse limit depth (position + 1) {} cs with
    | error e => rw [hr] at h; cases h
    | ok r' =>
      rw [hr] at h
      cases h
      have hbranch := hb.denotes
      rw [← Branch.language_regex] at hbranch
      rw [Token.ofChar_eq_bar_iff.mp hc]
      exact .either hbranch (ih Branch.reading_nil hr)
  | case6 => simp at h
  | case7 => simp at h
  | case8 => simp at h
  | case9 => simp at h
  | case10 depth position b c cs hc hdepth n hclosing body hbody ihbody ih =>
    have hgroup := Denotes.group (ihbody Branch.reading_nil hbody)
    have := ih (hb.push (r := .group body) hgroup) h
    rw [List.nil_append, List.append_assoc, List.cons_append, List.append_assoc,
      List.singleton_append, ← eq_append_of_closing? hclosing] at this
    rwa [Token.ofChar_eq_opening_iff.mp hc]

/-! ### What has a derivation is read -/

theorem parse_opening_eq_ok (hclosing : closing? 0 cs = some n)
    (h : parse limit depth position b ('(' :: cs) = .ok x) :
    ∃ body, parse limit (depth + 1) (position + 1) {} (cs.take n) = .ok body ∧
      parse limit depth (position + n + 2) (b.push (.group body)) (cs.drop (n + 1)) = .ok x := by
  rw [parse, Token.ofChar_eq_opening_iff.mpr rfl] at h
  simp only [hclosing] at h
  split at h
  · simp at h
  · split at h
    · simp at h
    · next body hbody => exact ⟨body, hbody, h⟩

/-- How a text of the category is read in front of another text. An alternation extends to the end of
its scope, so nothing stands behind it. -/
def ReadAs (limit : Nat) (p : List Char) (L : Language Char) : Category → Prop
  | .atom => ∀ depth position b rest x, parse limit depth position b (p ++ rest) = .ok x →
      ∃ position' r, parse limit depth position' (b.push r) rest = .ok x ∧ r.language = L
  | .operand | .branch => ∀ depth position b rest x,
      parse limit depth position b (p ++ rest) = .ok x →
      ∃ position' b', parse limit depth position' b' rest = .ok x ∧ b'.language = b.language * L
  | .alternation => ∀ depth position x, parse limit depth position {} p = .ok x → x.language = L

theorem ReadAs.repeated (h : ReadAs limit p L .atom) (op : Repetition) :
    ReadAs limit (p ++ [(Token.repetition op).toChar]) (op.language L) .operand := by
  intro depth position b rest x hparse
  rw [List.append_assoc, List.singleton_append] at hparse
  obtain ⟨position', r, hrest, rfl⟩ := h _ _ _ _ _ hparse
  obtain ⟨b', hop, hlanguage⟩ := b.repeat?_push r op
  rw [parse_repetition hop] at hrest
  exact ⟨_, b', hrest, hlanguage⟩

end Regex

namespace Denotes

open Regex

variable {k : Category} {p : List Char} {L : Language Char}

theorem closing?_append (h : Denotes k p L) (d : Nat) (s : List Char) :
    closing? d (p ++ s) = (closing? d s).map (· + p.length) := by
  induction h generalizing d s with
  | literal hc =>
    rw [List.singleton_append, closing?_cons, Token.ofChar_eq_literal_iff.mpr ⟨hc, rfl⟩]
    rfl
  | @group p L _ ih =>
    rw [List.cons_append, List.append_assoc, List.singleton_append, closing?_cons]
    show (closing? (d + 1) (p ++ ')' :: s)).map (· + 1) = _
    rw [ih, closing?_cons]
    show (((closing? d s).map (· + 1)).map (· + p.length)).map (· + 1) = _
    rw [map_add_map_add, map_add_map_add, List.length_cons, List.length_append,
      List.length_singleton, Nat.add_comm 1]
  | once _ ih => exact ih d s
  | @star p L _ ih | @plus p L _ ih | @optional p L _ ih =>
    rw [List.append_assoc, ih, List.singleton_append, closing?_cons]
    show ((closing? d s).map (· + 1)).map (· + p.length) = _
    rw [map_add_map_add, List.length_append, List.length_singleton, Nat.add_comm]
  | nothing => exact Option.map_id'.symm
  | append _ _ ihp ihq =>
    rw [List.append_assoc, ihp, ihq, map_add_map_add, List.length_append, Nat.add_comm]
  | single _ ih => exact ih d s
  | @either p q L M _ _ ihp ihq =>
    rw [List.append_assoc, ihp, List.cons_append, closing?_cons]
    show ((closing? d (q ++ s)).map (· + 1)).map (· + p.length) = _
    rw [ihq, map_add_map_add, map_add_map_add, List.length_append, List.length_cons]
    congr 1
    funext n
    omega

theorem readAs (h : Denotes k p L) (limit : Nat) : ReadAs limit p L k := by
  induction h with
  | @literal c hc =>
    intro depth position b rest x hparse
    rw [List.singleton_append, parse_literal hc] at hparse
    exact ⟨_, _, hparse, rfl⟩
  | @group p L hbody ih =>
    intro depth position b rest x hparse
    have hclosing : closing? 0 (p ++ ')' :: rest) = some p.length := by
      rw [hbody.closing?_append, closing?_cons]
      exact congrArg some (Nat.zero_add _)
    rw [List.cons_append, List.append_assoc, List.singleton_append] at hparse
    obtain ⟨body, hread, hrest⟩ := parse_opening_eq_ok hclosing hparse
    rw [List.take_left] at hread
    have hdrop : (p ++ ')' :: rest).drop (p.length + 1) = rest := by
      simp
    rw [hdrop] at hrest
    have hlanguage : body.language = L := ih _ _ _ hread
    exact ⟨_, .group body, hrest, hlanguage⟩
  | once _ ih =>
    intro depth position b rest x hparse
    obtain ⟨position', r, hrest, rfl⟩ := ih _ _ _ _ _ hparse
    exact ⟨_, _, hrest, b.language_push r⟩
  | star _ ih => exact ih.repeated .star
  | plus _ ih => exact ih.repeated .plus
  | optional _ ih => exact ih.repeated .optional
  | nothing =>
    intro depth position b rest x hparse
    exact ⟨_, b, hparse, (mul_one _).symm⟩
  | append _ _ ihp ihq =>
    intro depth position b rest x hparse
    rw [List.append_assoc] at hparse
    obtain ⟨_, b₁, hparse₁, hb₁⟩ := ihp _ _ _ _ _ hparse
    obtain ⟨_, b₂, hparse₂, hb₂⟩ := ihq _ _ _ _ _ hparse₁
    exact ⟨_, b₂, hparse₂, by rw [hb₂, hb₁, mul_assoc]⟩
  | @single p L _ ih =>
    intro depth position x hparse
    rw [← List.append_nil p] at hparse
    obtain ⟨_, b, hrest, hb⟩ := ih _ _ _ _ _ hparse
    rw [parse] at hrest
    cases hrest
    rw [Branch.language_regex, hb, Branch.language_empty, one_mul]
  | @either p q L M _ _ ihp ihq =>
    intro depth position x hparse
    obtain ⟨_, b, hrest, hb⟩ := ihp _ _ _ _ _ hparse
    rw [parse_bar] at hrest
    cases hright : parse limit depth (_ + 1) {} q with
    | error e => rw [hright] at hrest; cases hrest
    | ok r =>
      rw [hright] at hrest
      cases hrest
      rw [Regex.language, Branch.language_regex, hb, Branch.language_empty, one_mul,
        ihq _ _ _ hright]

/-- A pattern that is read has one language, that of its expression. -/
theorem language_eq {limit depth position : Nat} {r : Regex} (h : Denotes .alternation p L)
    (hparse : parse limit depth position {} p = .ok r) : r.language = L :=
  h.readAs limit depth position r hparse

end Denotes

theorem patternLanguage_eq {limit : Nat} {pattern : List Char} {r : Regex}
    (h : Regex.parse limit 0 0 {} pattern = .ok r) : patternLanguage pattern = r.language := by
  ext w
  refine ⟨fun h => ?_, fun hw => ?_⟩
  · obtain ⟨L, hL, hw⟩ := h
    rwa [hL.language_eq h]
  · exact ⟨_, Regex.denotes_of_parse Branch.reading_nil h, hw⟩

end Acceptor
