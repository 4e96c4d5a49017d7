/-
Texts cut at a doubled character, such as the blank line two line breaks make.

A separator whose characters are alike can stand on a text's own run of them: `str::split` looks from the left, so
it takes a run in pairs and leaves an odd one over. What decides where the cuts fall is then how many of the
character a text ends in. Nothing in this file names the program.

Results:
- `split_append_pair`: a text that ends in an even run is cut where it was joined;
- `split_append_odd`: one that ends in an odd run is cut one character early;
- `pairs_replace_lt`, `contains_replaced`: writing another character between the two leaves fewer pairs each time,
  until no pair is left;
- `getLast?_replace`: and the text ends as it did.
-/
import Mathlib.Data.List.TakeWhile
import OnePipeline.Core.Text

namespace OnePipeline.Text

variable {a b x : Char} {l rest : List Char}

/-- how many of `a` the text ends in -/
def trailing (a : Char) (l : List Char) : ℕ := (l.reverse.takeWhile (· = a)).length

/-- how many places of the text hold `a` twice in a row -/
def pairs (a : Char) : List Char → ℕ
  | [] => 0
  | x :: l => (if x = a ∧ l.head? = some a then 1 else 0) + pairs a l

/-! ## Where the separator starts -/

theorem startsWith_pair : startsWith [a, a] (a :: a :: l) = true := by simp [startsWith, stripPrefix]

theorem startsWith_single (h : ¬(x = a ∧ l.head? = some a)) : startsWith [a, a] (x :: l) = false := by
  rw [startsWith, stripPrefix]
  split_ifs with hx
  · cases l with
    | nil => rfl
    | cons y l =>
      have hy : a ≠ y := fun hy => h ⟨hx.symm, by rw [hy]; rfl⟩
      rw [stripPrefix, if_neg hy]
      rfl
  · rfl

theorem split_pair : split [a, a] (a :: a :: l) = [] :: split [a, a] l := split_prefix (by simp) l

theorem split_single (h : ¬(x = a ∧ l.head? = some a)) :
    split [a, a] (x :: l) = (x :: (split [a, a] l).headD []) :: (split [a, a] l).tail :=
  split_cons (by simp) (startsWith_single h)

/-! ## What the text ends in -/

theorem trailing_cons [Decidable (∀ y ∈ l, y = a)] :
    trailing a (x :: l) = if ∀ y ∈ l, y = a then l.length + (if x = a then 1 else 0) else trailing a l := by
  rw [trailing, List.reverse_cons, List.takeWhile_append]
  by_cases hall : ∀ y ∈ l, y = a
  · have hwhole : l.reverse.takeWhile (· = a) = l.reverse := by
      rw [List.takeWhile_eq_self_iff]
      simpa using hall
    rw [hwhole, if_pos rfl, if_pos hall, List.length_append, List.length_reverse]
    by_cases hx : x = a <;> simp [hx]
  · have hpart : (l.reverse.takeWhile (· = a)).length ≠ l.reverse.length := by
      intro heq
      have hwhole := (List.takeWhile_prefix (l := l.reverse) (· = a)).eq_of_length heq
      rw [List.takeWhile_eq_self_iff] at hwhole
      exact hall (by simpa using hwhole)
    rw [if_neg hpart, if_neg hall]
    rfl

theorem trailing_of_all (h : ∀ y ∈ l, y = a) : trailing a l = l.length := by
  rw [trailing, List.takeWhile_eq_self_iff.mpr (by simpa using h), List.length_reverse]

theorem trailing_cons_ne (h : x ≠ a) : trailing a (x :: l) = trailing a l := by
  rw [trailing_cons]
  split_ifs with hall
  · exact (trailing_of_all hall).symm
  · rfl

theorem trailing_single (h : ¬(x = a ∧ l.head? = some a)) (hl : l ≠ []) : trailing a (x :: l) = trailing a l := by
  by_cases hx : x = a
  · obtain ⟨y, l, rfl⟩ := List.exists_cons_of_ne_nil hl
    have hy : y ≠ a := fun hy => h ⟨hx, by rw [hy]; rfl⟩
    rw [trailing_cons, if_neg fun hall => hy (hall y (List.mem_cons_self ..))]
  · exact trailing_cons_ne hx

theorem even_trailing_pair : Even (trailing a (a :: a :: l)) ↔ Even (trailing a l) := by
  rw [trailing_cons, trailing_cons]
  by_cases hall : ∀ y ∈ l, y = a
  · have hcons : ∀ y ∈ a :: l, y = a := by simpa using hall
    rw [if_pos hcons, if_pos rfl, trailing_of_all hall, List.length_cons]
    simp only [Nat.even_add_one, not_not]
  · have hcons : ¬∀ y ∈ a :: l, y = a := by simpa using hall
    rw [if_neg hcons, if_neg hall]

theorem trailing_eq_zero (h : l.getLast? ≠ some a) : trailing a l = 0 := by
  rw [trailing]
  cases hrev : l.reverse with
  | nil => rfl
  | cons y m =>
    have hy : y ≠ a := by
      rintro rfl
      apply h
      rw [← List.head?_reverse, hrev]
      rfl
    rw [List.takeWhile_cons_of_neg (by simpa using hy)]
    rfl

/-- a text that ends in an odd run ends in the character, and in an even run before it -/
theorem odd_trailing (h : ¬Even (trailing a l)) : ∃ m, l = m ++ [a] ∧ Even (trailing a m) := by
  cases hrev : l.reverse with
  | nil =>
    refine absurd ?_ h
    rw [trailing, hrev]
    exact Even.zero
  | cons y m =>
    by_cases hy : y = a
    · subst hy
      have hl : l = m.reverse ++ [y] := by rw [← List.reverse_reverse l, hrev, List.reverse_cons]
      refine ⟨m.reverse, hl, ?_⟩
      rw [trailing, hrev, List.takeWhile_cons_of_pos (by simp), List.length_cons, Nat.even_add_one, not_not] at h
      rwa [trailing, List.reverse_reverse]
    · refine absurd ?_ h
      rw [trailing, hrev, List.takeWhile_cons_of_neg (by simpa using hy)]
      exact Even.zero

/-! ## Where a joined text is cut -/

/-- **Cut where it was joined.** What comes before ends in an even run, so no pair takes a character of the separator. -/
theorem split_append_pair (rest : List Char) :
    ∀ {l : List Char}, Even (trailing a l) → split [a, a] (l ++ [a, a] ++ rest) = split [a, a] l ++ split [a, a] rest
  | [], _ => split_pair
  | [x], heven => by
    have hx : x ≠ a := by
      rintro rfl
      rw [trailing_cons] at heven
      simp at heven
    have h (l : List Char) : ¬(x = a ∧ l.head? = some a) := fun h => hx h.1
    rw [List.append_assoc, List.singleton_append, split_single (h _), split_single (h _)]
    change (x :: (split [a, a] (a :: a :: rest)).headD []) :: (split [a, a] (a :: a :: rest)).tail = _
    rw [split_pair]
    rfl
  | x :: y :: l, heven => by
    by_cases hpair : x = a ∧ y = a
    · rw [hpair.1, hpair.2] at heven ⊢
      have ih := split_append_pair rest (even_trailing_pair.mp heven)
      simp only [List.cons_append, split_pair]
      rw [ih]
    · have h (m : List Char) : ¬(x = a ∧ (y :: m).head? = some a) := by simpa using hpair
      have ih := split_append_pair rest (trailing_single (h l) (by simp) ▸ heven)
      simp only [List.cons_append] at ih ⊢
      rw [split_single (h _), ih, split_single (h _)]
      cases hsplit : split [a, a] (y :: l) with
      | nil => exact absurd hsplit (split_ne_nil (by simp) _)
      | cons p pieces => rfl

/-- a text that ends in an odd run is cut one character early, and the separator's last starts the next piece -/
theorem split_append_odd (h : Even (trailing a l)) (rest : List Char) :
    split [a, a] (l ++ [a] ++ [a, a] ++ rest) = split [a, a] l ++ split [a, a] (a :: rest) := by
  rw [← split_append_pair (a :: rest) h]
  simp only [List.append_assoc, List.cons_append, List.nil_append]

/-! ## Taking the separator out -/

theorem replace_pair (by_ : List Char) : replace [a, a] by_ (a :: a :: l) = by_ ++ replace [a, a] by_ l := by
  rw [replace, split_pair, join_cons (split_ne_nil (by simp) l)]
  rfl

theorem replace_single (h : ¬(x = a ∧ l.head? = some a)) (by_ : List Char) :
    replace [a, a] by_ (x :: l) = x :: replace [a, a] by_ l := by
  rw [replace, replace, split_single h]
  cases hsplit : split [a, a] l with
  | nil => exact absurd hsplit (split_ne_nil (by simp) _)
  | cons p pieces =>
    cases pieces with
    | nil => rfl
    | cons q pieces => rfl

theorem head?_replace (m : List Char) : (replace [a, a] (a :: m) l).head? = l.head? := by
  cases l with
  | nil => rfl
  | cons x l =>
    by_cases h : x = a ∧ l.head? = some a
    · obtain ⟨rfl, hhead⟩ := h
      obtain ⟨l, rfl⟩ := List.head?_eq_some_iff.mp hhead
      rw [replace_pair]
      rfl
    · rw [replace_single h]
      rfl

theorem contains_pair : contains [a, a] (a :: a :: l) = true := by
  rw [contains, startsWith_pair]
  rfl

theorem contains_single (h : ¬(x = a ∧ l.head? = some a)) : contains [a, a] (x :: l) = contains [a, a] l := by
  rw [contains, startsWith_single h]
  rfl

theorem pairs_replace_le (hb : b ≠ a) :
    ∀ l : List Char, pairs a (replace [a, a] [a, b, a] l) + (if contains [a, a] l then 1 else 0) ≤ pairs a l
  | [] => Nat.le_refl 0
  | [x] => by
    have h : ¬(x = a ∧ ([] : List Char).head? = some a) := fun h => nomatch h.2
    rw [replace_single h, contains_single h]
    exact Nat.le_of_eq rfl
  | x :: y :: l => by
    by_cases hpair : x = a ∧ y = a
    · rw [hpair.1, hpair.2]
      have ih := pairs_replace_le hb l
      rw [replace_pair, contains_pair]
      simp only [List.cons_append, List.nil_append, pairs, List.head?_cons, head?_replace, hb, Option.some.injEq,
        true_and, false_and, if_false, if_true, and_self]
      omega
    · have h : ¬(x = a ∧ (y :: l).head? = some a) := by simpa using hpair
      have ih := pairs_replace_le hb (y :: l)
      rw [replace_single h, contains_single h, pairs, pairs, head?_replace, if_neg h, Nat.zero_add, Nat.zero_add]
      exact ih

/-- another character written between the two leaves fewer pairs -/
theorem pairs_replace_lt (hb : b ≠ a) (h : contains [a, a] l = true) : pairs a (replace [a, a] [a, b, a] l) < pairs a l := by
  have hle := pairs_replace_le hb l
  rw [if_pos h] at hle
  exact hle

theorem pairs_le_length : pairs a l ≤ l.length := by
  induction l with
  | nil => exact Nat.le_refl 0
  | cons x l ih =>
    rw [pairs, List.length_cons]
    split_ifs <;> omega

theorem getLast?_replace (b : Char) : ∀ l : List Char, (replace [a, a] [a, b, a] l).getLast? = l.getLast?
  | [] => rfl
  | [x] => by
    have h : ¬(x = a ∧ ([] : List Char).head? = some a) := fun h => nomatch h.2
    rw [replace_single h]
    rfl
  | x :: y :: l => by
    by_cases hpair : x = a ∧ y = a
    · rw [hpair.1, hpair.2]
      have ih := getLast?_replace b l
      rw [replace_pair]
      simp only [List.cons_append, List.nil_append, List.getLast?_cons, ih, Option.getD_some]
    · have h : ¬(x = a ∧ (y :: l).head? = some a) := by simpa using hpair
      have ih := getLast?_replace b (y :: l)
      rw [replace_single h, List.getLast?_cons, ih, List.getLast?_cons (a := x)]

end OnePipeline.Text
