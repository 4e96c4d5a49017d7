/-
Queues merged by their heads: the earliest head goes next, wherever each queue stands.

Results:
- `Merged.unique`: the heads of two queues sorting apart, a merge has one outcome;
- `Merged.append`: queues extended by values that sort behind everything queued merge to the two merges in a row;
- `Merged.filter_eq`: what a merge holds of one queue is the queue;
- `insertionSort_append`: a stable sort of two lists in a row, the second sorting behind the first.

Nothing in this file names the program.
-/
import Mathlib.Tactic

namespace OnePipeline.Merge

/-! ## A stable sort of two lists in a row -/

section Stable

variable {α : Type*} {r : α → α → Prop} [DecidableRel r]

theorem orderedInsert_append {a : α} (l : List α) {m : List α} (h : ∀ b ∈ m, r a b) :
    List.orderedInsert r a (l ++ m) = List.orderedInsert r a l ++ m := by
  induction l with
  | nil =>
    cases m with
    | nil => rfl
    | cons b m => exact if_pos (h b List.mem_cons_self)
  | cons b l ih =>
    simp only [List.cons_append, List.orderedInsert]
    split_ifs
    · rfl
    · rw [ih, List.cons_append]

theorem insertionSort_append {l m : List α} (h : ∀ a ∈ l, ∀ b ∈ m, r a b) :
    (l ++ m).insertionSort r = l.insertionSort r ++ m.insertionSort r := by
  induction l with
  | nil => rfl
  | cons a l ih =>
    have hrest : (l ++ m).insertionSort r = l.insertionSort r ++ m.insertionSort r :=
      ih fun b hb => h b (List.mem_cons_of_mem _ hb)
    rw [List.cons_append, List.insertionSort_cons, hrest, orderedInsert_append, List.insertionSort_cons]
    intro b hb
    exact h a List.mem_cons_self b ((List.mem_insertionSort r).mp hb)

end Stable

/-! ## The merge -/

variable {σ α π : Type*} [DecidableEq σ] [LinearOrder π] {place : σ → α → π}

variable (place) in
/-- a list the queues merge to: each value the head of a queue, at a place no later than any other head's -/
inductive Merged : (σ → List α) → List α → Prop
  | done {q : σ → List α} (empty : ∀ k, q k = []) : Merged q []
  | take {q : σ → List α} {k : σ} {a : α} {rest out : List α} (head : q k = a :: rest)
      (least : ∀ j b l, q j = b :: l → place k a ≤ place j b) (tail : Merged (Function.update q k rest) out) :
      Merged q (a :: out)

/-- **One outcome.** Where two queues' heads never share a place, which queue goes next is settled at every step. -/
theorem Merged.unique (hplace : ∀ k a j b, place k a = place j b → k = j) {q : σ → List α} {l m : List α}
    (hl : Merged place q l) (hm : Merged place q m) : l = m := by
  induction hl generalizing m with
  | done empty =>
    cases hm with
    | done => rfl
    | take head => rw [empty] at head; cases head
  | @take q k a rest out head least tail ih =>
    cases hm with
    | done empty => rw [empty] at head; cases head
    | @take _ j b rest' out' head' least' tail' =>
      have hk : k = j := hplace k a j b (le_antisymm (least j b rest' head') (least' k a rest head))
      subst hk
      rw [head] at head'
      obtain ⟨rfl, rfl⟩ := List.cons.inj head'
      rw [ih tail']

/-- **Extension.** Values that sort behind everything queued, appended queue by queue, are merged after it all. -/
theorem Merged.append {p t : σ → List α} {l m : List α} (hl : Merged place p l) (hm : Merged place t m)
    (hsep : ∀ k a j b, a ∈ p k → b ∈ t j → place k a ≤ place j b) : Merged place (fun k => p k ++ t k) (l ++ m) := by
  induction hl with
  | @done p empty =>
    have hq : (fun k => p k ++ t k) = t := funext fun k => by rw [empty, List.nil_append]
    rw [hq]
    exact hm
  | @take p k a rest out head least tail ih =>
    have hmem {j : σ} {b : α} (hb : b ∈ Function.update p k rest j) : b ∈ p j := by
      by_cases hj : j = k
      · subst hj
        rw [Function.update_self] at hb
        rw [head]
        exact List.mem_cons_of_mem _ hb
      · rwa [Function.update_of_ne hj] at hb
    have htail : Merged place (fun j => Function.update p k rest j ++ t j) (out ++ m) :=
      ih fun j b i c hb hc => hsep j b i c (hmem hb) hc
    have hupdate : Function.update (fun j => p j ++ t j) k (rest ++ t k) = fun j => Function.update p k rest j ++ t j := by
      funext j
      by_cases hj : j = k
      · subst hj
        rw [Function.update_self, Function.update_self]
      · rw [Function.update_of_ne hj, Function.update_of_ne hj]
    have hhead : p k ++ t k = a :: (rest ++ t k) := by rw [head, List.cons_append]
    refine .take hhead (fun j b l hb => ?_) (hupdate ▸ htail)
    cases hp : p j with
    | nil =>
      rw [hp, List.nil_append] at hb
      exact hsep k a j b (head ▸ List.mem_cons_self) (hb ▸ List.mem_cons_self)
    | cons c l' =>
      rw [hp, List.cons_append] at hb
      obtain ⟨rfl, -⟩ := List.cons.inj hb
      exact least j c l' hp

/-- what a merge holds under a queue's key is the queue -/
theorem Merged.filter_eq {key : α → σ} {q : σ → List α} {l : List α} (h : Merged place q l) (hkey : ∀ k, ∀ a ∈ q k, key a = k) (k : σ) :
    (l.filter fun a => key a = k) = q k := by
  induction h with
  | done empty => rw [empty]; rfl
  | @take q j a rest out head least tail ih =>
    have ha : key a = j := hkey j a (head ▸ List.mem_cons_self)
    have hrest : ∀ i, ∀ b ∈ Function.update q j rest i, key b = i := by
      intro i b hb
      by_cases hi : i = j
      · subst hi
        rw [Function.update_self] at hb
        exact hkey i b (head ▸ List.mem_cons_of_mem _ hb)
      · rw [Function.update_of_ne hi] at hb
        exact hkey i b hb
    have hout := ih hrest
    by_cases hk : k = j
    · subst hk
      rw [Function.update_self] at hout
      rw [List.filter_cons_of_pos (by simpa using ha), hout, head]
    · rw [Function.update_of_ne hk] at hout
      rw [List.filter_cons_of_neg (by simpa [ha] using fun heq => hk heq.symm), hout]

/-- lists that hold the same values under every key hold the same values -/
theorem perm_of_filter (key : α → σ) {l m : List α}
    (h : ∀ k, (l.filter fun a => key a = k).Perm (m.filter fun a => key a = k)) : l.Perm m := by
  classical
  refine List.perm_iff_count.mpr fun a => ?_
  have hkept (l : List α) : (l.filter fun b => key b = key a).count a = l.count a := List.count_filter (by simp)
  rw [← hkept l, ← hkept m]
  exact (h (key a)).count_eq a

end OnePipeline.Merge
