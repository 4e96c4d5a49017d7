/-
The block a stacked draft keeps in its description (`stack::splice`), written over and over.

A description that opens a block and nowhere closes it has the block appended past the stray marker. The next write takes everything
from that marker to the end of the appended block for the block, and the person's text between goes with it.

Results:
- `block_isBlock`: what the engine writes is a block of the two markers;
- `splice_run`: every further write replaces what the first one put there;
- `splice_untouched_iff`: nothing outside the description's own block moves exactly where no marker is stray, or one block is written;
- `stray_marker_loses_text`: two writes over a half-typed marker.
-/
import Mathlib.Tactic
import OnePipeline.Model.Stack

namespace OnePipeline

open Text Markers

/-- the two markers, as characters -/
abbrev opening : List Char := Stack.blockOpen.toList

abbrev closing : List Char := Stack.blockClose.toList

/-- what stands around a description's own block -/
def ownBlock (description : String) : Option (List Char × List Char) := Markers.cut opening closing description.toList

/-- a description that opens a block and nowhere closes it -/
def HoldsStray (description : String) : Prop := Markers.Stray opening closing description.toList

/-- a stack whose block holds neither marker between its own two -/
structure Stack.Plain (stack : Stack) : Prop where
  opens : contains opening stack.inner.toList = false
  closes : contains closing stack.inner.toList = false

/-- a description which a block has been put into: in the place of its own, or after it and at most two line breaks -/
def Spliced (description spliced block : String) : Prop :=
  match ownBlock description with
  | some (before, after) => spliced = String.ofList before ++ block ++ String.ofList after
  | none =>
    ∃ lines : List Char, lines.length ≤ 2 ∧ (∀ c ∈ lines, c = '\n') ∧ spliced = description ++ String.ofList lines ++ block

/-- a description after each of several blocks is written into it -/
def spliceAll (description : String) (writes : List Stack) : String := writes.foldl (fun d stack => splice d stack.block) description

/-! ## The markers and the block -/

theorem marks : Marks opening closing '\n' := ⟨by decide, by decide, by decide, by decide, by decide⟩

variable {d : String} {stack : Stack} {writes : List Stack}

theorem block_isBlock (h : stack.Plain) : IsBlock opening closing '\n' stack.block.toList := by
  refine ⟨"## Stack\n\n".toList ++ stack.draftedAgainst.toList, ?_, ?_⟩
  · have hinner : stack.inner.toList = [] ++ '\n' :: ("## Stack\n\n".toList ++ stack.draftedAgainst.toList ++ '\n' :: []) := by
      show ("\n## Stack\n\n" ++ stack.draftedAgainst ++ "\n").toList = _
      simp [String.toList_append]
    have hcloses := h.closes
    rw [hinner, contains_cut marks.cl_line, contains_cut marks.cl_line] at hcloses
    simp only [Bool.or_eq_false_iff] at hcloses
    exact hcloses.2.1
  · show (Stack.blockOpen ++ ("\n## Stack\n\n" ++ stack.draftedAgainst ++ "\n") ++ Stack.blockClose).toList = _
    simp [String.toList_append]

theorem blankLine_lines (d : String) : (blankLine d).toList.length ≤ 2 ∧ ∀ c ∈ (blankLine d).toList, c = '\n' := by
  unfold blankLine
  split_ifs <;> simp

theorem blankLine_ends (d : String) : EndsLine '\n' (d.toList ++ (blankLine d).toList) := by
  unfold blankLine
  split_ifs with hended hline
  · rcases hended with hempty | ⟨u, hu⟩
    · exact .inl (by simpa using hempty)
    · exact .inr ⟨u ++ ['\n'], by simp [← hu]⟩
  · obtain ⟨u, hu⟩ := hline
    exact .inr ⟨u ++ ['\n'], by simp [← hu]⟩
  · exact .inr ⟨d.toList ++ ['\n'], by simp⟩

/-! ## One write, and every further one -/

theorem splice_own {before after : List Char} (h : ownBlock d = some (before, after)) (block : String) :
    splice d block = String.ofList before ++ block ++ String.ofList after := by
  unfold splice
  rw [show Markers.cut Stack.blockOpen.toList Stack.blockClose.toList d.toList = some (before, after) from h]

theorem splice_none (h : ownBlock d = none) (block : String) : splice d block = d ++ blankLine d ++ block := by
  unfold splice
  rw [show Markers.cut Stack.blockOpen.toList Stack.blockClose.toList d.toList = none from h]

/-- the block put in the place of another is the one found there next -/
theorem ownBlock_spliced {before after : List Char} (h : ownBlock d = some (before, after)) (hplain : stack.Plain) :
    ownBlock (String.ofList before ++ stack.block ++ String.ofList after) = some (before, after) := by
  have hreplaced := cut_of_replaced marks (block_isBlock hplain) h
  unfold ownBlock
  rwa [String.toList_append, String.toList_append, String.toList_ofList, String.toList_ofList]

/-- **A run of writes.** With a block in the description, each write replaces the last, and the last one written stays. -/
theorem splice_run {before after : List Char} (h : ownBlock d = some (before, after)) (hplain : ∀ t ∈ writes, t.Plain) :
    spliceAll d (writes ++ [stack]) = String.ofList before ++ stack.block ++ String.ofList after := by
  induction writes generalizing d with
  | nil => exact splice_own h stack.block
  | cons t writes ih =>
    have hnext : ownBlock (splice d t.block) = some (before, after) := by
      rw [splice_own h]
      exact ownBlock_spliced h (hplain t List.mem_cons_self)
    exact ih hnext fun t ht => hplain t (List.mem_cons_of_mem _ ht)

/-- a block appended to a description with no marker is found at its end -/
theorem ownBlock_appended (h : ownBlock d = none) (hstray : ¬HoldsStray d) (hplain : stack.Plain) :
    ownBlock (d ++ blankLine d ++ stack.block) = some (d.toList ++ (blankLine d).toList, []) := by
  have hopens : contains opening d.toList = false := by
    by_contra hopens
    exact hstray ⟨by simpa using hopens, h⟩
  have hlines : contains opening (d.toList ++ (blankLine d).toList) = false := by
    rw [contains_lines marks.op_stated marks.op_line (blankLine_lines d).2, hopens]
  have happended := cut_of_appended marks (block_isBlock hplain) (blankLine_ends d) hlines
  unfold ownBlock
  rwa [String.toList_append, String.toList_append]

/-- a block appended past a stray marker is found from that marker on -/
theorem ownBlock_stray (hstray : HoldsStray d) (hplain : stack.Plain) :
    ∃ before, before.length < d.toList.length ∧ ownBlock (d ++ blankLine d ++ stack.block) = some (before, []) := by
  obtain ⟨before, hbefore, hcut⟩ :=
    cut_of_stray marks (block_isBlock hplain) hstray (blankLine_ends d) (blankLine_lines d).2
  refine ⟨before, ?_, ?_⟩
  · have hlen := hbefore.length_le
    have hopen : opening.length = 26 := by decide
    rw [List.length_append, hopen] at hlen
    omega
  · unfold ownBlock
    rwa [String.toList_append, String.toList_append]

/-! ## What every run comes to -/

theorem spliced_of_lines (h : ownBlock d = none) (block : String) : Spliced d (d ++ blankLine d ++ block) block := by
  unfold Spliced
  rw [h]
  exact ⟨(blankLine d).toList, (blankLine_lines d).1, (blankLine_lines d).2, by rw [String.ofList_toList]⟩

/-- a description cut short is not the description with line breaks after it -/
theorem not_spliced_of_short {before : List Char} (h : ownBlock d = none) (hshort : before.length < d.toList.length) (block : String) :
    ¬Spliced d (String.ofList before ++ block ++ String.ofList []) block := by
  unfold Spliced
  rw [h]
  rintro ⟨lines, -, -, heq⟩
  have hlen := congrArg (fun s : String => s.toList.length) heq
  simp only [String.toList_append, String.toList_ofList, List.length_append, List.length_nil] at hlen
  omega

/-- **The Stack block.** However many blocks are written, what is left of the description is what stood outside its own block, with at
most line breaks added, and writing one twice is writing it once: exactly where no marker of the description is stray, or, for the
first, where one block is written. -/
theorem splice_untouched_iff (d : String) (writes : List Stack) (stack : Stack) (hplain : ∀ t ∈ writes, t.Plain)
    (hlast : stack.Plain) :
    (Spliced d (spliceAll d (writes ++ [stack])) stack.block ↔ (HoldsStray d → writes = [])) ∧
      (splice (splice d stack.block) stack.block = splice d stack.block ↔ ¬HoldsStray d) := by
  cases hown : ownBlock d with
  | some p =>
    obtain ⟨before, after⟩ := p
    have hstray : ¬HoldsStray d := fun h => Option.some_ne_none _ (hown.symm.trans h.2)
    refine ⟨⟨fun _ h => absurd h hstray, fun _ => ?_⟩, ⟨fun _ => hstray, fun _ => ?_⟩⟩
    · rw [splice_run hown hplain, Spliced, hown]
    · rw [splice_own hown, splice_own (ownBlock_spliced hown hlast)]
  | none =>
    by_cases hstray : HoldsStray d
    · refine ⟨⟨fun h _ => ?_, fun h => ?_⟩, ⟨fun h => ?_, fun h => absurd hstray h⟩⟩
      · by_contra hne
        obtain ⟨t, rest, rfl⟩ := List.exists_cons_of_ne_nil hne
        obtain ⟨before, hshort, hnext⟩ := ownBlock_stray hstray (hplain t List.mem_cons_self)
        refine not_spliced_of_short hown hshort stack.block ?_
        rw [← splice_run hnext fun t ht => hplain t (List.mem_cons_of_mem _ ht), ← splice_none hown]
        exact h
      · rw [h hstray]
        show Spliced d (splice d stack.block) stack.block
        rw [splice_none hown]
        exact spliced_of_lines hown stack.block
      · obtain ⟨before, hshort, hnext⟩ := ownBlock_stray hstray hlast
        rw [splice_none hown, splice_own hnext] at h
        exact absurd (h ▸ spliced_of_lines hown stack.block) (not_spliced_of_short hown hshort stack.block)
    · refine ⟨⟨fun _ h => absurd h hstray, fun _ => ?_⟩, ⟨fun _ => hstray, fun _ => ?_⟩⟩
      · have hlines (t : Stack) : String.ofList (d.toList ++ (blankLine d).toList) ++ t.block ++ String.ofList [] =
            d ++ blankLine d ++ t.block := by
          rw [String.ofList_append, String.ofList_toList, String.ofList_toList]
          exact String.append_empty
        cases writes with
        | nil =>
          show Spliced d (splice d stack.block) stack.block
          rw [splice_none hown]
          exact spliced_of_lines hown stack.block
        | cons t rest =>
          show Spliced d (spliceAll (splice d t.block) (rest ++ [stack])) stack.block
          rw [splice_none hown, splice_run (ownBlock_appended hown hstray (hplain t List.mem_cons_self))
            fun t ht => hplain t (List.mem_cons_of_mem _ ht), hlines stack]
          exact spliced_of_lines hown stack.block
      · rw [splice_none hown, splice_own (ownBlock_appended hown hstray hlast), String.ofList_append, String.ofList_toList,
          String.ofList_toList]
        exact String.append_empty

/-! ## Two writes over a half-typed marker -/

def onA : Stack := .onParent { node := "a", branch := "feat/a", head := "0", changeUrl := none }

theorem opening_chars : opening = ("<!-- onepipeline:stack -->").toList := rfl

theorem closing_chars : closing = ("<!-- /onepipeline:stack -->").toList := rfl

/-- what stands between the markers of the block, character by character -/
theorem onA_inner_chars : onA.inner.toList = "\n## Stack\n\n".toList ++ ("Drafted against `".toList ++ "feat/a".toList ++
    "`, the branch of `".toList ++ "a".toList ++ "`: ".toList ++ "(no change request on the record)".toList) ++ "\n".toList := by
  show ("\n## Stack\n\n" ++ ("Drafted against `" ++ "feat/a" ++ "`, the branch of `" ++ "a" ++ "`: " ++
    "(no change request on the record)") ++ "\n").toList = _
  rw [String.toList_append, String.toList_append, String.toList_append, String.toList_append, String.toList_append,
    String.toList_append, String.toList_append]

theorem onA_plain : onA.Plain := by
  constructor
  · rw [opening_chars, onA_inner_chars]
    repeat rw [String.toList_ofList]
    decide
  · rw [closing_chars, onA_inner_chars]
    repeat rw [String.toList_ofList]
    decide

/-- a reviewer's text with a block in it -/
def reviewed : String := "before\n\n<!-- onepipeline:stack --> old <!-- /onepipeline:stack --> after"

theorem splice_untouched_review : Spliced reviewed (spliceAll reviewed ([onA] ++ [onA])) onA.block := by
  have hplain : ∀ t ∈ [onA], t.Plain := fun t ht => List.mem_singleton.mp ht ▸ onA_plain
  have hown : (ownBlock reviewed).isSome = true := by
    unfold ownBlock reviewed
    rw [opening_chars, closing_chars]
    repeat rw [String.toList_ofList]
    decide
  refine (splice_untouched_iff reviewed [onA] onA hplain onA_plain).1.mpr fun hstray => ?_
  rw [show ownBlock reviewed = none from hstray.2] at hown
  cases hown

/-- a description with half a block typed into it -/
def halfTyped : String := "text <!-- onepipeline:stack --> and more"

/-- no block closes what was typed -/
theorem halfTyped_unclosed : ownBlock halfTyped = none := by
  unfold ownBlock halfTyped
  rw [opening_chars, closing_chars]
  repeat rw [String.toList_ofList]
  decide

/-- the block the first write appends is found from the half-typed marker on -/
theorem halfTyped_next : ownBlock (halfTyped ++ blankLine halfTyped ++ onA.block) = some ("text ".toList, []) := by
  have hlines : blankLine halfTyped = "\n\n" := by decide
  unfold ownBlock Stack.block
  rw [hlines, String.toList_append, String.toList_append, String.toList_append, String.toList_append, onA_inner_chars, opening_chars,
    closing_chars]
  unfold halfTyped Stack.blockOpen Stack.blockClose
  repeat rw [String.toList_ofList]
  decide +kernel

theorem spliceAll_pair (d : String) (s t : Stack) : spliceAll d ([s] ++ [t]) = splice (splice d s.block) t.block := rfl

/-- the second write takes what the person wrote after the marker with it -/
theorem stray_marker_loses_text :
    onA.Plain ∧ spliceAll halfTyped ([onA] ++ [onA]) = "text " ++ onA.block ∧
      ¬Spliced halfTyped (spliceAll halfTyped ([onA] ++ [onA])) onA.block ∧
      splice (splice halfTyped onA.block) onA.block ≠ splice halfTyped onA.block := by
  have hsame : String.ofList "text ".toList ++ onA.block ++ String.ofList [] = "text " ++ onA.block := by
    rw [String.ofList_toList, String.ofList_nil, String.append_empty]
  have htwice : splice (splice halfTyped onA.block) onA.block = "text " ++ onA.block := by
    rw [splice_none halfTyped_unclosed onA.block, splice_own halfTyped_next onA.block, hsame]
  have hshort := @not_spliced_of_short halfTyped "text ".toList halfTyped_unclosed (by decide) onA.block
  rw [hsame, ← htwice] at hshort
  rw [spliceAll_pair halfTyped onA onA]
  refine ⟨onA_plain, htwice, hshort, fun hsteady => hshort ?_⟩
  rw [hsteady, splice_none halfTyped_unclosed onA.block]
  exact spliced_of_lines halfTyped_unclosed onA.block

end OnePipeline
