/-
What a list leads to under a step, computed with a worklist that marks an entry when it is added: take the last entry
pending, and add each entry it leads to that is not marked.

Results:
- `flood_leads`: what is marked was marked to begin with, or an entry pending leads to it;
- `mem_flood_of_leads`: with the fuel of a finite support, every entry a pending one leads to is marked, where each marked
  entry's next ones are marked or the entry is pending;
- `mem_flood`: both, for one entry pending and marks closed under the step.

Nothing in this file names the program.
-/
import Mathlib.Tactic

namespace OnePipeline.Flood

open Relation

variable {V : Type*} [DecidableEq V] (next : V → List V)

/-- an entry is added to the pending and the marked ones, unless it is marked -/
def mark (acc : List V × List V) (w : V) : List V × List V := if w ∈ acc.2 then acc else (acc.1 ++ [w], acc.2 ++ [w])

/-- entries pending, the last one taken first, and entries marked -/
def flood : ℕ → List V → List V → List V
  | 0, _, marked => marked
  | fuel + 1, pending, marked =>
    match pending.getLast? with
    | none => marked
    | some v =>
      let acc := (next v).foldl mark (pending.dropLast, marked)
      flood fuel acc.1 acc.2

/-- an entry leads to another in one step or more -/
def Leads (a b : V) : Prop := TransGen (fun v w => w ∈ next v) a b

variable {next} {pending marked support : List V} {v w : V}

/-! ## One turn -/

theorem mem_marked_foldl (l : List V) : w ∈ (l.foldl mark (pending, marked)).2 ↔ w ∈ marked ∨ w ∈ l := by
  induction l generalizing pending marked with
  | nil => simp
  | cons a l ih =>
    rw [List.foldl_cons]
    by_cases ha : a ∈ marked
    · rw [show mark (pending, marked) a = (pending, marked) from if_pos ha, ih, List.mem_cons]
      constructor
      · rintro (h | h)
        · exact .inl h
        · exact .inr (.inr h)
      · rintro (h | rfl | h)
        · exact .inl h
        · exact .inl ha
        · exact .inr h
    · rw [show mark (pending, marked) a = (pending ++ [a], marked ++ [a]) from if_neg ha, ih, List.mem_append,
        List.mem_singleton, List.mem_cons, or_assoc]

theorem mem_pending_foldl (l : List V) (h : w ∈ (l.foldl mark (pending, marked)).1) : w ∈ pending ∨ w ∈ l := by
  induction l generalizing pending marked with
  | nil => exact .inl h
  | cons a l ih =>
    rw [List.foldl_cons] at h
    by_cases ha : a ∈ marked
    · rw [show mark (pending, marked) a = (pending, marked) from if_pos ha] at h
      exact (ih h).imp_right (List.mem_cons_of_mem a)
    · rw [show mark (pending, marked) a = (pending ++ [a], marked ++ [a]) from if_neg ha] at h
      rcases ih h with h | h
      · rcases List.mem_append.mp h with h | h
        · exact .inl h
        · exact .inr (List.mem_singleton.mp h ▸ List.mem_cons_self)
      · exact .inr (List.mem_cons_of_mem a h)

theorem pending_subset_foldl (l : List V) (h : w ∈ pending) : w ∈ (l.foldl mark (pending, marked)).1 := by
  induction l generalizing pending marked with
  | nil => exact h
  | cons a l ih =>
    rw [List.foldl_cons]
    unfold mark
    split_ifs
    · exact ih h
    · exact ih (List.mem_append_left _ h)

/-- what a turn marks anew is pending after it -/
theorem pending_of_marked_foldl (l : List V) (h : w ∈ (l.foldl mark (pending, marked)).2) (hnew : w ∉ marked) :
    w ∈ (l.foldl mark (pending, marked)).1 := by
  induction l generalizing pending marked with
  | nil => exact absurd h hnew
  | cons a l ih =>
    rw [List.foldl_cons] at h ⊢
    by_cases ha : a ∈ marked
    · rw [show mark (pending, marked) a = (pending, marked) from if_pos ha] at h ⊢
      exact ih h hnew
    · rw [show mark (pending, marked) a = (pending ++ [a], marked ++ [a]) from if_neg ha] at h ⊢
      by_cases hw : w = a
      · subst hw
        exact pending_subset_foldl l (List.mem_append_right _ (List.mem_singleton_self w))
      · exact ih h fun hin => (List.mem_append.mp hin).elim hnew fun h => hw (List.mem_singleton.mp h)

/-- the entries of the support not marked -/
def unmarked (support marked : List V) : List V := support.filter fun v => v ∉ marked

theorem unmarked_append_lt (hv : v ∈ support) (hnew : v ∉ marked) :
    (unmarked support (marked ++ [v])).length < (unmarked support marked).length := by
  have hsub : unmarked support (marked ++ [v]) = (unmarked support marked).filter fun w => w ≠ v := by
    simp only [unmarked, List.filter_filter]
    refine List.filter_congr fun w _ => ?_
    simp [and_comm]
  rw [hsub]
  refine List.length_filter_lt_length_iff_exists.mpr ⟨v, ?_, by simp⟩
  simpa [unmarked] using And.intro hv hnew

/-- a turn adds to the pending no more than it marks -/
theorem length_foldl_le (l : List V) (hl : ∀ w ∈ l, w ∈ support) :
    (l.foldl mark (pending, marked)).1.length + (unmarked support (l.foldl mark (pending, marked)).2).length ≤
      pending.length + (unmarked support marked).length := by
  induction l generalizing pending marked with
  | nil => exact le_rfl
  | cons a l ih =>
    rw [List.foldl_cons]
    have hrest := fun w hw => hl w (List.mem_cons_of_mem a hw)
    by_cases ha : a ∈ marked
    · rw [show mark (pending, marked) a = (pending, marked) from if_pos ha]
      exact ih hrest
    · rw [show mark (pending, marked) a = (pending ++ [a], marked ++ [a]) from if_neg ha]
      refine (ih hrest).trans ?_
      have hless := unmarked_append_lt (hl a List.mem_cons_self) ha
      rw [List.length_append, List.length_singleton]
      omega

/-! ## The flood -/

/-- **Sound.** -/
theorem flood_leads (fuel : ℕ) (h : w ∈ flood next fuel pending marked) : w ∈ marked ∨ ∃ v ∈ pending, Leads next v w := by
  induction fuel generalizing pending marked with
  | zero => exact .inl h
  | succ fuel ih =>
    unfold flood at h
    cases hl : pending.getLast? with
    | none =>
      rw [hl] at h
      exact .inl h
    | some u =>
      have hu : u ∈ pending := List.mem_of_getLast? hl
      simp only [hl] at h
      rcases ih h with h | ⟨v, hv, hlead⟩
      · rcases (mem_marked_foldl _).mp h with h | h
        · exact .inl h
        · exact .inr ⟨u, hu, .single h⟩
      · rcases mem_pending_foldl _ hv with hv | hv
        · exact .inr ⟨v, List.dropLast_subset _ hv, hlead⟩
        · exact .inr ⟨u, hu, .head hv hlead⟩

theorem marked_subset_flood (fuel : ℕ) (h : w ∈ marked) : w ∈ flood next fuel pending marked := by
  induction fuel generalizing pending marked with
  | zero => exact h
  | succ fuel ih =>
    unfold flood
    cases pending.getLast? with
    | none => exact h
    | some u => exact ih ((mem_marked_foldl _).mpr (.inl h))

/-- with its fuel, what a flood marks is closed under the step, and holds what the pending lead to in one -/
theorem flood_closed (hnext : ∀ v, ∀ w ∈ next v, w ∈ support) (fuel : ℕ)
    (hfuel : pending.length + (unmarked support marked).length < fuel)
    (hinv : ∀ v ∈ marked, ∀ w ∈ next v, w ∈ marked ∨ v ∈ pending) :
    (∀ v ∈ pending, ∀ w ∈ next v, w ∈ flood next fuel pending marked) ∧
      ∀ v ∈ flood next fuel pending marked, ∀ w ∈ next v, w ∈ flood next fuel pending marked := by
  induction fuel generalizing pending marked with
  | zero => omega
  | succ fuel ih =>
    unfold flood
    cases hl : pending.getLast? with
    | none =>
      have hnil : pending = [] := List.getLast?_eq_none_iff.mp hl
      subst hnil
      refine ⟨by simp, fun v hv w hw => ?_⟩
      simpa using hinv v hv w hw
    | some u =>
      have hsplit : pending = pending.dropLast ++ [u] := (List.dropLast_append_getLast? u hl).symm
      have hlen : pending.length = pending.dropLast.length + 1 := by
        conv_lhs => rw [hsplit]
        simp
      simp only
      have hless : ((next u).foldl mark (pending.dropLast, marked)).1.length +
          (unmarked support ((next u).foldl mark (pending.dropLast, marked)).2).length ≤
          pending.dropLast.length + (unmarked support marked).length := length_foldl_le (next u) (hnext u)
      have hinv' : ∀ v ∈ ((next u).foldl mark (pending.dropLast, marked)).2, ∀ w ∈ next v,
          w ∈ ((next u).foldl mark (pending.dropLast, marked)).2 ∨ v ∈ ((next u).foldl mark (pending.dropLast, marked)).1 := by
        intro v hv w hw
        by_cases hwas : v ∈ marked
        · rcases hinv v hwas w hw with h | h
          · exact .inl ((mem_marked_foldl _).mpr (.inl h))
          · rw [hsplit] at h
            rcases List.mem_append.mp h with h | h
            · exact .inr (pending_subset_foldl _ h)
            · rw [List.mem_singleton.mp h] at hw
              exact .inl ((mem_marked_foldl _).mpr (.inr hw))
        · exact .inr (pending_of_marked_foldl _ hv hwas)
      obtain ⟨hp, hc⟩ := ih (by omega) hinv'
      refine ⟨fun v hv w hw => ?_, hc⟩
      rw [hsplit] at hv
      rcases List.mem_append.mp hv with hv | hv
      · exact hp v (pending_subset_foldl _ hv) w hw
      · rw [List.mem_singleton.mp hv] at hw
        exact marked_subset_flood _ ((mem_marked_foldl _).mpr (.inr hw))

theorem mem_flood_of_leads (hnext : ∀ v, ∀ w ∈ next v, w ∈ support) {fuel : ℕ}
    (hfuel : pending.length + (unmarked support marked).length < fuel)
    (hinv : ∀ v ∈ marked, ∀ w ∈ next v, w ∈ marked ∨ v ∈ pending) (hv : v ∈ pending) (hlead : Leads next v w) :
    w ∈ flood next fuel pending marked := by
  obtain ⟨hp, hc⟩ := flood_closed hnext fuel hfuel hinv
  induction hlead with
  | single h => exact hp v hv _ h
  | tail _ h ih => exact hc _ ih _ h

/-- **The flood.** From one entry, over marks closed under the step but for it, what is marked is what was and what it
leads to. -/
theorem mem_flood (hnext : ∀ v, ∀ w ∈ next v, w ∈ support) {fuel : ℕ} (hfuel : support.length + 1 < fuel)
    (hinv : ∀ u ∈ marked, ∀ w ∈ next u, w ∈ marked ∨ u = v) :
    w ∈ flood next fuel [v] marked ↔ w ∈ marked ∨ Leads next v w := by
  constructor
  · intro h
    rcases flood_leads fuel h with h | ⟨u, hu, h⟩
    · exact .inl h
    · rw [List.mem_singleton.mp hu] at h
      exact .inr h
  · rintro (h | h)
    · exact marked_subset_flood fuel h
    · refine mem_flood_of_leads hnext ?_ (fun u hu w hw => ?_) (List.mem_singleton_self v) h
      · have hle : (unmarked support marked).length ≤ support.length := List.length_filter_le _ _
        rw [List.length_singleton]
        omega
      · exact (hinv u hu w hw).imp_right fun h => List.mem_singleton.mpr h

end OnePipeline.Flood
