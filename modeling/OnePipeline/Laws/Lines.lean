/-
Text read line by line, each line's trailing white space off (`src/plan.rs`: every scanner of a task reads it so).

Results:
- `splitInclusive_append`: the lines of text joined where a line ends;
- `trimmedLines_cons`: the trimmed lines of a text, character by character;
- `trimmedLines_trimEnd`: white space a text ends with is blank lines, and no more;
- `lines_map_trimEnd`: `str::lines` and `str::split_inclusive` read the same.
-/
import Mathlib.Data.List.DropRight
import OnePipeline.Model.Task

namespace OnePipeline

open Text

variable {x y : List Char} {c : Char}

/-! ## Trimming -/

theorem trimEndChars_eq_nil : trimEndChars x = [] ↔ ∀ c ∈ x, isWhitespace c = true := List.rdropWhile_eq_nil_iff

/-- a text is its trimmed text, and white space -/
theorem exists_trimEnd (x : List Char) : ∃ w, (∀ c ∈ w, isWhitespace c = true) ∧ x = trimEndChars x ++ w :=
  ⟨x.rtakeWhile isWhitespace, fun _ hc => List.mem_rtakeWhile_imp hc, (List.rdropWhile_append_rtakeWhile ..).symm⟩

theorem trimEndChars_append_blank {w : List Char} (hw : ∀ c ∈ w, isWhitespace c = true) : trimEndChars (x ++ w) = trimEndChars x := by
  induction w using List.reverseRecOn with
  | nil => rw [List.append_nil]
  | append_singleton w c ih =>
    rw [← List.append_assoc]
    refine (List.rdropWhile_concat_pos _ _ _ (hw c (by simp))).trans (ih fun d hd => hw d (by simp [hd]))

theorem trimEndChars_append_of_ne_nil (h : trimEndChars y ≠ []) : trimEndChars (x ++ y) = x ++ trimEndChars y := by
  induction y using List.reverseRecOn with
  | nil => exact absurd rfl h
  | append_singleton y c ih =>
    by_cases hc : isWhitespace c = true
    · have hy : trimEndChars (y ++ [c]) = trimEndChars y := List.rdropWhile_concat_pos _ _ _ hc
      rw [hy] at h ⊢
      rw [← List.append_assoc, ← ih h]
      exact List.rdropWhile_concat_pos _ _ _ hc
    · have hy : trimEndChars (y ++ [c]) = y ++ [c] := List.rdropWhile_concat_neg _ _ _ hc
      rw [hy, ← List.append_assoc]
      exact List.rdropWhile_concat_neg _ _ _ hc

theorem trimEndChars_cons (c : Char) (x : List Char) :
    trimEndChars (c :: x) = if trimEndChars x = [] then trimEndChars [c] else c :: trimEndChars x := by
  split_ifs with h
  · exact trimEndChars_append_blank (x := [c]) (trimEndChars_eq_nil.mp h)
  · exact trimEndChars_append_of_ne_nil (x := [c]) h

theorem trimEndChars_trimEndChars (x : List Char) : trimEndChars (trimEndChars x) = trimEndChars x := List.rdropWhile_idempotent _ _

/-- trimming at both ends is trimming the trimmed -/
theorem trimChars_trimEndChars (x : List Char) : trimChars (trimEndChars x) = trimChars x := by
  induction x with
  | nil => rfl
  | cons c x ih =>
    rw [trimEndChars_cons]
    unfold trimChars trimStartChars at ih ⊢
    split_ifs with h
    · by_cases hc : isWhitespace c = true
      · have hblank : trimEndChars [c] = [] := trimEndChars_eq_nil.mpr (by simpa using hc)
        rw [hblank, List.dropWhile_cons_of_pos hc, ← ih, h]
      · have hkept : trimEndChars [c] = [c] := List.rdropWhile_concat_neg _ [] _ hc
        rw [hkept, List.dropWhile_cons_of_neg hc, List.dropWhile_cons_of_neg hc, trimEndChars_cons c x, if_pos h, hkept]
    · by_cases hc : isWhitespace c = true
      · rw [List.dropWhile_cons_of_pos hc, List.dropWhile_cons_of_pos hc, ih]
      · rw [List.dropWhile_cons_of_neg hc, List.dropWhile_cons_of_neg hc, trimEndChars_cons c x, if_neg h, trimEndChars_cons,
          trimEndChars_trimEndChars, if_neg h]

/-! ## Lines -/

/-- whether nothing is left of a text's last line -/
def Ended (x : List Char) : Prop := x = [] ∨ ∃ y, x = y ++ ['\n']

theorem Ended.newline (x : List Char) : Ended (x ++ ['\n']) := .inr ⟨x, rfl⟩

theorem Ended.append (hx : Ended x) (hy : Ended y) : Ended (x ++ y) := by
  obtain rfl | ⟨z, rfl⟩ := hy
  · rwa [List.append_nil]
  · exact .inr ⟨x ++ z, by rw [List.append_assoc]⟩

theorem Ended.of_cons (h : Ended (c :: x)) : (x = [] ∧ c = '\n') ∨ (x ≠ [] ∧ Ended x) := by
  obtain h | ⟨y, hy⟩ := h
  · cases h
  · cases y with
    | nil =>
      cases hy
      exact .inl ⟨rfl, rfl⟩
    | cons d y =>
      cases hy
      exact .inr ⟨by simp, .newline y⟩

theorem splitInclusive_newline (x : List Char) : splitInclusive ('\n' :: x) = ['\n'] :: splitInclusive x := by
  rw [splitInclusive, if_pos rfl]

theorem splitInclusive_ne_nil (h : x ≠ []) : splitInclusive x ≠ [] := by
  cases x with
  | nil => exact absurd rfl h
  | cons c x =>
    rw [splitInclusive]
    split_ifs with hc
    · simp
    · cases splitInclusive x <;> simp

theorem splitInclusive_append (h : Ended x) (y : List Char) : splitInclusive (x ++ y) = splitInclusive x ++ splitInclusive y := by
  induction x with
  | nil => rfl
  | cons c x ih =>
    obtain ⟨rfl, rfl⟩ | ⟨hx, hended⟩ := h.of_cons
    · exact splitInclusive_newline y
    · rw [List.cons_append, splitInclusive, splitInclusive, ih hended]
      split_ifs with hc
      · rfl
      · cases hlines : splitInclusive x with
        | nil => exact absurd hlines (splitInclusive_ne_nil hx)
        | cons l ls => rfl

theorem flatten_splitInclusive (x : List Char) : (splitInclusive x).flatten = x := by
  induction x with
  | nil => rfl
  | cons c x ih =>
    rw [splitInclusive]
    split_ifs with hc
    · rw [List.flatten_cons, ih, hc]
      rfl
    · cases hlines : splitInclusive x with
      | nil =>
        rw [hlines] at ih
        rw [← ih]
        rfl
      | cons l ls =>
        rw [hlines] at ih
        rw [← ih]
        rfl

/-- a text's first line, and the rest of it -/
theorem splitInclusive_eq_cons {l : List Char} {ls : List (List Char)} (h : splitInclusive x = l :: ls) :
    splitInclusive l = [l] ∧ splitInclusive ls.flatten = ls ∧ (ls = [] ∨ Ended l) := by
  induction x generalizing l with
  | nil => cases h
  | cons c x ih =>
    rw [splitInclusive] at h
    split_ifs at h with hc
    · cases h
      exact ⟨by rw [hc]; rfl, by rw [flatten_splitInclusive], .inr (by rw [hc]; exact .newline [])⟩
    · cases hlines : splitInclusive x with
      | nil =>
        rw [hlines] at h
        cases h
        exact ⟨by simp [splitInclusive, hc], rfl, .inl rfl⟩
      | cons first rest =>
        rw [hlines] at h
        cases h
        obtain ⟨hone, hrest, hended⟩ := ih hlines
        refine ⟨by rw [splitInclusive, if_neg hc, hone], hrest, hended.imp_right ?_⟩
        rintro (rfl | ⟨y, rfl⟩)
        · cases hone
        · exact .inr ⟨c :: y, rfl⟩

/-- lines of a text, cut between two of them -/
theorem splitInclusive_eq_append {front back : List (List Char)} (h : splitInclusive x = front ++ back) :
    splitInclusive front.flatten = front ∧ splitInclusive back.flatten = back ∧ (back = [] ∨ Ended front.flatten) := by
  induction front generalizing x with
  | nil => exact ⟨rfl, by rw [List.nil_append] at h; rw [← h, flatten_splitInclusive], .inr (.inl rfl)⟩
  | cons l front ih =>
    obtain ⟨hone, hrest, hended⟩ := splitInclusive_eq_cons h
    obtain ⟨hfront, hback, hcut⟩ := ih hrest
    refine ⟨?_, hback, ?_⟩
    · obtain hnil | hended := hended
      · obtain ⟨rfl, -⟩ := List.append_eq_nil_iff.mp hnil
        simpa using hone
      · rw [List.flatten_cons, splitInclusive_append hended, hone, hfront]
        rfl
    · obtain hnil | hended := hended
      · exact .inl (List.append_eq_nil_iff.mp hnil).2
      · refine hcut.imp_right ?_
        rintro (hnil | ⟨y, hy⟩)
        · rwa [List.flatten_cons, hnil, List.append_nil]
        · exact .inr ⟨l ++ y, by rw [List.flatten_cons, hy, List.append_assoc]⟩

theorem splitInclusive_line {l : List Char} (h : '\n' ∉ l) : splitInclusive (l ++ ['\n']) = [l ++ ['\n']] := by
  induction l with
  | nil => rfl
  | cons c l ih =>
    rw [List.mem_cons, not_or] at h
    rw [List.cons_append, splitInclusive, if_neg (Ne.symm h.1), ih h.2]

/-- a line holds no newline but the one that ends it -/
theorem mem_splitInclusive {l : List Char} (h : l ∈ splitInclusive x) : ∃ body, '\n' ∉ body ∧ (l = body ∨ l = body ++ ['\n']) := by
  induction x generalizing l with
  | nil => cases h
  | cons c x ih =>
    rw [splitInclusive] at h
    split_ifs at h with hc
    · obtain rfl | hin := List.mem_cons.mp h
      · exact ⟨[], by simp, .inr (by rw [hc]; rfl)⟩
      · exact ih hin
    · cases hlines : splitInclusive x with
      | nil =>
        rw [hlines] at h
        rw [List.mem_singleton.mp h]
        exact ⟨[c], by simpa using Ne.symm hc, .inl rfl⟩
      | cons first rest =>
        rw [hlines] at h ih
        obtain rfl | hin := List.mem_cons.mp h
        · obtain ⟨body, hbody, heq⟩ := ih List.mem_cons_self
          refine ⟨c :: body, by simpa [hbody] using Ne.symm hc, heq.imp (congrArg _) (congrArg _)⟩
        · exact ih (List.mem_cons_of_mem _ hin)

theorem not_mem_lines {l : List Char} (h : l ∈ lines x) : '\n' ∉ l := by
  obtain ⟨line, hline, rfl⟩ := List.mem_map.mp h
  obtain ⟨body, hbody, rfl | rfl⟩ := mem_splitInclusive hline
  · unfold stripEol
    split
    · rename_i rest hl
      exact absurd (List.mem_reverse.mp (hl ▸ List.mem_cons_self)) hbody
    · rename_i rest _ hl
      exact absurd (List.mem_reverse.mp (hl ▸ List.mem_cons_self)) hbody
    · exact hbody
  · unfold stripEol
    rw [List.reverse_append]
    split
    · rename_i rest hl
      have heq : body.reverse = '\r' :: rest := (List.cons.inj hl).2
      intro hin
      exact hbody (List.mem_reverse.mp (heq ▸ List.mem_cons_of_mem _ (List.mem_reverse.mp hin)))
    · rename_i rest _ hl
      have heq : body.reverse = rest := (List.cons.inj hl).2
      rwa [← heq, List.reverse_reverse]
    · rename_i hnone
      exact absurd rfl (hnone body.reverse)

/-! ## Trimmed lines -/

/-- the lines of a text, each with its trailing white space off -/
def trimmedLines (x : List Char) : List (List Char) := (splitInclusive x).map trimEndChars

theorem trimmedLines_append (h : Ended x) (y : List Char) : trimmedLines (x ++ y) = trimmedLines x ++ trimmedLines y := by
  rw [trimmedLines, splitInclusive_append h, List.map_append]
  rfl

theorem trimmedLines_newline (x : List Char) : trimmedLines ('\n' :: x) = [] :: trimmedLines x := by
  rw [trimmedLines, splitInclusive_newline]
  rfl

theorem trimmedLines_ne_nil (h : x ≠ []) : trimmedLines x ≠ [] := by
  simpa [trimmedLines] using splitInclusive_ne_nil h

theorem trimmedLines_cons (hc : c ≠ '\n') (x : List Char) : trimmedLines (c :: x) =
    match trimmedLines x with
    | [] => [trimEndChars [c]]
    | l :: ls => (if l = [] then trimEndChars [c] else c :: l) :: ls := by
  rw [trimmedLines, trimmedLines, splitInclusive, if_neg hc]
  cases splitInclusive x with
  | nil => rfl
  | cons l ls => rw [List.map_cons, List.map_cons, trimEndChars_cons]

theorem trimmedLines_blank (h : ∀ c ∈ x, isWhitespace c = true) : ∃ n, trimmedLines x = List.replicate n [] := by
  induction x with
  | nil => exact ⟨0, rfl⟩
  | cons c x ih =>
    obtain ⟨n, hn⟩ := ih fun d hd => h d (List.mem_cons_of_mem _ hd)
    have hblank : trimEndChars [c] = [] := trimEndChars_eq_nil.mpr (by simpa using h c)
    by_cases hc : c = '\n'
    · exact ⟨n + 1, by rw [hc, trimmedLines_newline, hn]; rfl⟩
    · rw [trimmedLines_cons hc, hn]
      cases n with
      | zero => exact ⟨1, by rw [hblank]; rfl⟩
      | succ n => exact ⟨n + 1, by rw [List.replicate_succ, hblank]; rfl⟩

theorem not_whitespace_getLast (hne : x ≠ []) (h : trimEndChars x = x) : isWhitespace (x.getLast hne) = false := by
  have hlast := List.rdropWhile_eq_self_iff.mp h hne
  exact Bool.eq_false_iff.mpr hlast

/-- a text and the white space after it: its own lines, and blank ones -/
theorem trimmedLines_append_blank {w : List Char} (hw : ∀ c ∈ w, isWhitespace c = true) (hne : x ≠ []) (hx : trimEndChars x = x) :
    ∃ n, trimmedLines (x ++ w) = trimmedLines x ++ List.replicate n [] := by
  induction x with
  | nil => exact absurd rfl hne
  | cons c x ih =>
    by_cases hrest : x = []
    · subst hrest
      have hword : isWhitespace c = false := not_whitespace_getLast hne hx
      have hc : c ≠ '\n' := by
        rintro rfl
        exact absurd hword (by decide)
      have hkept : trimEndChars [c] = [c] := hx
      obtain ⟨n, hn⟩ := trimmedLines_blank hw
      rw [List.cons_append, List.nil_append, trimmedLines_cons hc, trimmedLines_cons hc, hn, hkept]
      cases n with
      | zero => exact ⟨0, rfl⟩
      | succ n => exact ⟨n, by rw [List.replicate_succ]; rfl⟩
    · have hx' : trimEndChars x = x := by
        rw [trimEndChars_cons] at hx
        split_ifs at hx with hblank
        · have hlast := not_whitespace_getLast (List.cons_ne_nil c x) (by rw [trimEndChars_cons, if_pos hblank, hx])
          rw [List.getLast_cons hrest] at hlast
          rw [trimEndChars_eq_nil.mp hblank _ (List.getLast_mem hrest)] at hlast
          cases hlast
        · exact (List.cons.inj hx).2
      obtain ⟨n, hn⟩ := ih hrest hx'
      refine ⟨n, ?_⟩
      by_cases hc : c = '\n'
      · rw [hc, List.cons_append, trimmedLines_newline, trimmedLines_newline, hn, List.cons_append]
      · rw [List.cons_append, trimmedLines_cons hc, trimmedLines_cons hc, hn]
        cases hlines : trimmedLines x with
        | nil => exact absurd hlines (trimmedLines_ne_nil hrest)
        | cons l ls => rfl

/-- white space a text ends with is blank lines -/
theorem trimmedLines_trimEnd (h : trimEndChars x ≠ []) : ∃ n, trimmedLines x = trimmedLines (trimEndChars x) ++ List.replicate n [] := by
  obtain ⟨w, hw, heq⟩ := exists_trimEnd x
  obtain ⟨n, hn⟩ := trimmedLines_append_blank hw h (trimEndChars_trimEndChars x)
  exact ⟨n, by rw [← heq] at hn; exact hn⟩

/-- `str::lines` reads the same, its terminators being white space -/
theorem lines_map_trimEnd (x : List Char) : (lines x).map trimEndChars = trimmedLines x := by
  rw [lines, trimmedLines, List.map_map]
  refine List.map_congr_left fun l _ => ?_
  show trimEndChars (stripEol l) = trimEndChars l
  unfold stripEol
  split
  · rename_i rest hl
    have heq : l = rest.reverse ++ ['\r', '\n'] := by
      rw [← List.reverse_reverse l, hl]
      simp
    rw [heq, trimEndChars_append_blank (List.all_eq_true.mp rfl)]
  · rename_i rest _ hl
    have heq : l = rest.reverse ++ ['\n'] := by
      rw [← List.reverse_reverse l, hl]
      simp
    rw [heq, trimEndChars_append_blank (List.all_eq_true.mp rfl)]
  · rfl

end OnePipeline
