/-
A sequence cut into lines by a terminator, with a fragment after the last: where the last line ends, searched for backwards a chunk at a
time.

Results:
- `exists_holds`, `Holds.unique`: every sequence is lines and a fragment, in one way;
- `boundary_eq`: the search answers where the last line ends, whatever the chunk;
- `Holds.append`: a line appended at that boundary.

Nothing in this file names the program.
-/
import Mathlib.Tactic

namespace OnePipeline.Tail

variable {α : Type*} [DecidableEq α] {c : α} {file fragment line : List α} {lines : List (List α)}

/-- lines, each with the terminator after it -/
def ended (c : α) (lines : List (List α)) : List α := lines.flatMap fun line => line ++ [c]

omit [DecidableEq α] in
@[simp] theorem ended_nil : ended c [] = [] := rfl

omit [DecidableEq α] in
theorem ended_append (l l' : List (List α)) : ended c (l ++ l') = ended c l ++ ended c l' := List.flatMap_append

omit [DecidableEq α] in
@[simp] theorem ended_singleton : ended c [line] = line ++ [c] := by simp [ended]

/-- what a sequence holds: whole lines, and a fragment after them -/
structure Holds (c : α) (file : List α) (lines : List (List α)) (fragment : List α) : Prop where
  eq : file = ended c lines ++ fragment
  whole : ∀ line ∈ lines, c ∉ line
  torn : c ∉ fragment

omit [DecidableEq α] in
theorem Holds.nil : Holds c [] [] [] := ⟨rfl, by simp, by simp⟩

omit [DecidableEq α] in
theorem Holds.append (h : Holds c file lines fragment) {l : List (List α)} {left : List α} (hl : ∀ line ∈ l, c ∉ line) (hleft : c ∉ left) :
    Holds c (ended c lines ++ (ended c l ++ left)) (lines ++ l) left := by
  refine ⟨by rw [ended_append, List.append_assoc], fun line hline => ?_, hleft⟩
  rcases List.mem_append.mp hline with hin | hin
  · exact h.whole line hin
  · exact hl line hin

/-! ## One way -/

/-- what is after the last terminator, and before it -/
theorem last_unique {a b x y : List α} (hb : c ∉ b) (hy : c ∉ y) (h : a ++ c :: b = x ++ c :: y) : a = x ∧ b = y := by
  have htail {a b : List α} (hb : c ∉ b) : ((a ++ c :: b).reverse.takeWhile (· ≠ c)) = b.reverse := by
    have hall : ∀ d ∈ b.reverse, decide (d ≠ c) = true := by
      intro d hd
      exact decide_eq_true fun heq => hb (heq ▸ List.mem_reverse.mp hd)
    rw [List.reverse_append, List.reverse_cons, List.append_assoc, List.takeWhile_append_of_pos hall]
    simp
  have hbs : b = y := by
    have heq := congrArg (fun l => l.reverse.takeWhile (· ≠ c)) h
    simp only [htail hb, htail hy] at heq
    exact List.reverse_injective heq
  subst hbs
  exact ⟨List.append_cancel_right h, rfl⟩

omit [DecidableEq α] in
/-- lines end with a terminator, where there are any -/
theorem ended_eq (h : lines ≠ []) : ∃ before, ended c lines = before ++ [c] := by
  obtain ⟨first, last, rfl⟩ := List.eq_nil_or_concat' lines |>.resolve_left h
  exact ⟨ended c first ++ last, by rw [ended_append, ended_singleton, List.append_assoc]⟩

omit [DecidableEq α] in
theorem mem_ended_of_ne (h : lines ≠ []) : c ∈ ended c lines := by
  obtain ⟨before, heq⟩ := ended_eq (c := c) h
  simp [heq]

/-- the terminator a sequence has last ends its lines -/
theorem Holds.of_last (h : Holds c file lines fragment) {a b : List α} (hfile : file = a ++ c :: b) (hb : c ∉ b) :
    ended c lines = a ++ [c] ∧ fragment = b := by
  have hne : lines ≠ [] := by
    rintro rfl
    have hin : c ∈ fragment := by
      have heq : file = fragment := h.eq
      rw [← heq, hfile]
      simp
    exact h.torn hin
  obtain ⟨before, heq⟩ := ended_eq (c := c) hne
  have hboth : before ++ c :: fragment = a ++ c :: b := by
    rw [← hfile, h.eq, heq, List.append_assoc]
    rfl
  obtain ⟨rfl, rfl⟩ := last_unique h.torn hb hboth
  exact ⟨heq, rfl⟩

omit [DecidableEq α] in
theorem Holds.of_none (h : Holds c file lines fragment) (hfile : c ∉ file) : lines = [] ∧ fragment = file := by
  have hnil : lines = [] := by
    by_contra hne
    exact hfile (h.eq ▸ List.mem_append_left _ (mem_ended_of_ne hne))
  subst hnil
  exact ⟨rfl, h.eq.symm⟩

theorem exists_holds (c : α) (file : List α) : ∃ lines fragment, Holds c file lines fragment := by
  induction file using List.reverseRecOn with
  | nil => exact ⟨[], [], .nil⟩
  | append_singleton file d ih =>
    obtain ⟨lines, fragment, h⟩ := ih
    by_cases hd : d = c
    · refine ⟨lines ++ [fragment], [], ?_⟩
      have hnew : Holds c (ended c lines ++ (ended c [fragment] ++ [])) (lines ++ [fragment]) [] :=
        h.append (by simpa using h.torn) (by simp)
      have heq : file ++ [d] = ended c lines ++ (ended c [fragment] ++ []) := by
        rw [h.eq, hd, ended_singleton, List.append_nil, List.append_assoc]
      exact heq ▸ hnew
    · refine ⟨lines, fragment ++ [d], by rw [h.eq, List.append_assoc], h.whole, ?_⟩
      simp [h.torn, Ne.symm hd]

theorem ended_injective {l l' : List (List α)} (hl : ∀ x ∈ l, c ∉ x) (hl' : ∀ x ∈ l', c ∉ x) (h : ended c l = ended c l') : l = l' := by
  induction l using List.reverseRecOn generalizing l' with
  | nil =>
    by_contra hne
    have hin := mem_ended_of_ne (c := c) (Ne.symm hne)
    rw [← h] at hin
    cases hin
  | append_singleton l x ih =>
    rcases List.eq_nil_or_concat' l' with rfl | ⟨l', x', rfl⟩
    · rw [ended_append, ended_singleton] at h
      simp [ended] at h
    · rw [ended_append, ended_append, ended_singleton, ended_singleton, ← List.append_assoc, ← List.append_assoc] at h
      have hcut := List.append_cancel_right h
      have hsplit : Holds c (ended c l ++ x) l x := ⟨rfl, fun y hy => hl y (List.mem_append_left _ hy), hl x (by simp)⟩
      have hsplit' : Holds c (ended c l ++ x) l' x' := ⟨hcut, fun y hy => hl' y (List.mem_append_left _ hy), hl' x' (by simp)⟩
      obtain ⟨hended, rfl⟩ : ended c l = ended c l' ∧ x = x' := by
        rcases List.eq_nil_or_concat' l with rfl | ⟨before, last, rfl⟩
        · obtain ⟨rfl, rfl⟩ := hsplit'.of_none (by simpa [ended] using hsplit.torn)
          exact ⟨rfl, rfl⟩
        · obtain ⟨pre, hpre⟩ := ended_eq (c := c) (show before ++ [last] ≠ [] by simp)
          obtain ⟨hended, htail⟩ := hsplit'.of_last (a := pre) (b := x) (by rw [hpre, List.append_assoc]; rfl) hsplit.torn
          exact ⟨hpre.trans hended.symm, htail.symm⟩
      rw [ih hsplit.whole hsplit'.whole hended]

/-- **One way.** -/
theorem Holds.unique {lines' : List (List α)} {fragment' : List α} (h : Holds c file lines fragment) (h' : Holds c file lines' fragment') :
    lines = lines' ∧ fragment = fragment' := by
  have hended : ended c lines = ended c lines' ∧ fragment = fragment' := by
    by_cases hne : lines = []
    · subst hne
      have hfile : file = fragment := h.eq
      obtain ⟨rfl, hfragment⟩ := h'.of_none (hfile ▸ h.torn)
      exact ⟨rfl, hfile.symm.trans hfragment.symm⟩
    · obtain ⟨before, hbefore⟩ := ended_eq (c := c) hne
      obtain ⟨heq, htail⟩ := h'.of_last (a := before) (b := fragment) (by rw [h.eq, hbefore, List.append_assoc]; rfl) h.torn
      exact ⟨hbefore.trans heq.symm, htail.symm⟩
  exact ⟨ended_injective h.whole h'.whole hended.1, hended.2⟩

/-! ## The search -/

/-- where a sequence has its last terminator -/
def rposition (c : α) (l : List α) : Option ℕ := (l.reverse.idxOf? c).map fun k => l.length - 1 - k

theorem rposition_eq_none {l : List α} : rposition c l = none ↔ c ∉ l := by
  rw [rposition, Option.map_eq_none_iff, List.idxOf?_eq_none_iff, List.mem_reverse]

theorem idxOf?_append_cons {a b : List α} (ha : c ∉ a) : (a ++ c :: b).idxOf? c = some a.length := by
  induction a with
  | nil => simp [List.idxOf?_cons]
  | cons d a ih =>
    rw [List.mem_cons, not_or] at ha
    simp [List.idxOf?_cons, Ne.symm ha.1, ih ha.2]

theorem rposition_append {a b : List α} (hb : c ∉ b) : rposition c (a ++ c :: b) = some a.length := by
  have hidx : (a ++ c :: b).reverse.idxOf? c = some b.reverse.length := by
    rw [List.reverse_append, List.reverse_cons, List.append_assoc]
    exact idxOf?_append_cons fun hin => hb (List.mem_reverse.mp hin)
  rw [rposition, hidx]
  simp

/-- the search backwards from `stop`, a chunk at a time -/
def boundaryFrom (c : α) (chunk : ℕ) (file : List α) : ℕ → ℕ → ℕ
  | 0, _ => 0
  | fuel + 1, stop =>
    if stop = 0 then 0
    else
      let start := stop - chunk
      match rposition c ((file.drop start).take (stop - start)) with
      | some at' => start + at' + 1
      | none => boundaryFrom c chunk file fuel start

/-- where the last line of a sequence ends: each turn of the search takes a chunk off what is left -/
def boundary (c : α) (chunk : ℕ) (file : List α) : ℕ := boundaryFrom c chunk file (file.length + 1) file.length

theorem exists_last {l : List α} (h : c ∈ l) : ∃ a b, l = a ++ c :: b ∧ c ∉ b := by
  obtain ⟨lines, fragment, hl⟩ := exists_holds c l
  have hne : lines ≠ [] := by
    rintro rfl
    exact hl.torn ((show l = fragment from hl.eq) ▸ h)
  obtain ⟨before, heq⟩ := ended_eq (c := c) hne
  exact ⟨before, fragment, by rw [hl.eq, heq, List.append_assoc]; rfl, hl.torn⟩

theorem boundaryFrom_eq {chunk : ℕ} (hchunk : 0 < chunk) (h : Holds c file lines fragment) {fuel stop : ℕ} (hstop : stop ≤ file.length)
    (hfuel : stop < fuel) (hfree : c ∉ file.drop stop) : boundaryFrom c chunk file fuel stop = (ended c lines).length := by
  induction fuel generalizing stop with
  | zero => omega
  | succ fuel ih =>
    rw [boundaryFrom]
    by_cases hzero : stop = 0
    · subst hzero
      obtain ⟨rfl, -⟩ := h.of_none hfree
      rfl
    · rw [if_neg hzero]
      simp only []
      -- what is not searched yet, the chunk read, and what was searched
      have hdrop : file.drop (stop - chunk) = (file.drop (stop - chunk)).take (stop - (stop - chunk)) ++ file.drop stop := by
        conv_lhs => rw [← List.take_append_drop (stop - (stop - chunk)) (file.drop (stop - chunk))]
        rw [List.drop_drop]
        congr 2
        omega
      have hfile : file = file.take (stop - chunk) ++ ((file.drop (stop - chunk)).take (stop - (stop - chunk)) ++ file.drop stop) := by
        rw [← hdrop, List.take_append_drop]
      cases hposition : rposition c ((file.drop (stop - chunk)).take (stop - (stop - chunk))) with
      | none =>
        have hnone := rposition_eq_none.mp hposition
        refine ih (by omega) (by omega) ?_
        rw [hdrop, List.mem_append, not_or]
        exact ⟨hnone, hfree⟩
      | some at' =>
        have hin : c ∈ (file.drop (stop - chunk)).take (stop - (stop - chunk)) := by
          by_contra hnot
          rw [rposition_eq_none.mpr hnot] at hposition
          cases hposition
        obtain ⟨a, b, hbuffer, hb⟩ := exists_last hin
        rw [hbuffer, rposition_append hb] at hposition
        obtain rfl := Option.some.inj hposition
        have hlast : file = (file.take (stop - chunk) ++ a) ++ c :: (b ++ file.drop stop) := by
          conv_lhs => rw [hfile, hbuffer]
          simp
        obtain ⟨hended, -⟩ := h.of_last hlast (by simp [hb, hfree])
        rw [hended]
        simp only [List.length_append, List.length_take, List.length_singleton]
        omega

/-- **The search.** -/
theorem boundary_eq {chunk : ℕ} (hchunk : 0 < chunk) (h : Holds c file lines fragment) : boundary c chunk file = (ended c lines).length :=
  boundaryFrom_eq hchunk h (le_refl _) (Nat.lt_succ_self _) (by simp)

end OnePipeline.Tail
