/-
The one criteria section of a task, and text the engine closes it with (`src/plan.rs`: `check_criteria`, `criteria_section_end`, `amended`,
`with_merge_resolution`).

Results:
- `checkCriteria_iff`: what an accepted task's lines are;
- `exists_sections`, `criteriaSectionEnd_eq`: a task is cut before and after its section where the section's end is found;
- `amended_eq`, `withMergeResolution_eq`: what is added to a task is added to the end of its section;
- `Sections.closed`, `accepted_closed`: so it stays one section, and one that is accepted.
-/
import OnePipeline.Model.Criteria
import OnePipeline.Laws.Lines

namespace OnePipeline

open Text

variable {task before section_ after block : List Char}

/-! ## Headings -/

theorem startsWith_iff {p l : List Char} : startsWith p l = true ↔ ∃ rest, l = p ++ rest := by
  constructor
  · intro h
    obtain ⟨rest, hrest⟩ := Option.isSome_iff_exists.mp h
    exact ⟨rest, stripPrefix_eq_some hrest⟩
  · rintro ⟨rest, rfl⟩
    rw [startsWith, stripPrefix_append]
    rfl

theorem of_mem_takeWhile {α : Type*} {p : α → Prop} [DecidablePred p] {a : α} {l : List α} (h : a ∈ l.takeWhile fun b => decide (p b)) : p a :=
  of_decide_eq_true (List.mem_takeWhile_imp (p := fun b => decide (p b)) h)

theorem isSectionHeading_criteria : isSectionHeading criteriaHeading.toList = true := by decide

theorem isSectionHeading_of_opens {l : List Char} (h : startsWith "## ".toList l = true) : isSectionHeading l = true := by
  obtain ⟨rest, rfl⟩ := startsWith_iff.mp h
  rfl

theorem not_isSectionHeading_nil : isSectionHeading [] = false := rfl

/-! ## An accepted task -/

/-- what the check finds of a task's lines: one heading, and an item listed under it -/
structure Listed (rows : List (List Char)) : Prop where
  once : ∃ above below, rows = above ++ criteriaHeading.toList :: below ∧ criteriaHeading.toList ∉ above ∧
    criteriaHeading.toList ∉ below ∧
    (below.takeWhile fun l => !startsWith "## ".toList l).any (fun l => criterionListed (trimStartChars l)) = true

theorem dropWhile_eq_append {rows above below : List (List Char)} {l : List Char} (hrows : rows = above ++ l :: below) (habove : l ∉ above) :
    rows.dropWhile (fun r => decide (r ≠ l)) = l :: below := by
  subst hrows
  have hpass : ∀ r ∈ above, decide (r ≠ l) = true := by
    intro r hr
    exact decide_eq_true fun heq => habove (heq ▸ hr)
  rw [List.dropWhile_append_of_pos hpass, List.dropWhile_cons_of_neg (by simp)]

theorem checkCriteria_iff (task : List Char) : checkCriteria (String.ofList task) = .ok () ↔ Listed (trimmedLines task) := by
  unfold checkCriteria
  rw [String.toList_ofList, lines_map_trimEnd]
  constructor
  · intro h
    have hsplit := List.takeWhile_append_dropWhile (p := fun r => decide (r ≠ criteriaHeading.toList)) (l := trimmedLines task)
    cases hdrop : (trimmedLines task).dropWhile fun r => decide (r ≠ criteriaHeading.toList) with
    | nil =>
      simp only [hdrop] at h
      cases h
    | cons first rest =>
      simp only [hdrop] at h
      have hfirst : first = criteriaHeading.toList := by
        have hhead := List.head?_dropWhile_not (fun r => decide (r ≠ criteriaHeading.toList)) (trimmedLines task)
        rw [hdrop] at hhead
        simpa using hhead
      split_ifs at h with hrepeated hlisted
      refine ⟨_, rest, by rw [← hfirst, ← hdrop, hsplit], fun hin => ?_, hrepeated, hlisted⟩
      exact of_mem_takeWhile hin rfl
  · rintro ⟨above, below, hrows, habove, hbelow, hlisted⟩
    simp only [dropWhile_eq_append hrows habove, if_neg hbelow, if_pos hlisted]

/-! ## Sections -/

/-- a task cut before its criteria section and after it -/
structure Sections (task before section_ after : List Char) : Prop where
  eq : task = before ++ (section_ ++ after)
  beforeEnded : Ended before
  unopened : criteriaHeading.toList ∉ trimmedLines before
  opens : ∃ rows, trimmedLines section_ = criteriaHeading.toList :: rows ∧ ∀ l ∈ rows, isSectionHeading l = false
  closes : after = [] ∨ Ended section_ ∧ ∃ l rows, trimmedLines after = l :: rows ∧ isSectionHeading l = true

theorem Sections.trimmed (h : Sections task before section_ after) :
    trimmedLines task = trimmedLines before ++ (trimmedLines section_ ++ trimmedLines after) := by
  rw [h.eq, trimmedLines_append h.beforeEnded]
  obtain hnone | ⟨hended, -⟩ := h.closes
  · rw [hnone, List.append_nil]
    simp [trimmedLines, splitInclusive]
  · rw [trimmedLines_append hended]

/-- a list cut where a test first fails -/
theorem exists_cut {α : Type*} (p : α → Bool) (l : List α) :
    ∃ front back, l = front ++ back ∧ (∀ a ∈ front, p a = true) ∧ (back = [] ∨ ∃ a rest, back = a :: rest ∧ p a = false) := by
  induction l with
  | nil => exact ⟨[], [], rfl, by simp, .inl rfl⟩
  | cons a l ih =>
    cases ha : p a with
    | false => exact ⟨[], a :: l, rfl, by simp, .inr ⟨a, l, rfl, ha⟩⟩
    | true =>
      obtain ⟨front, back, rfl, hfront, hback⟩ := ih
      exact ⟨a :: front, back, rfl, List.forall_mem_cons.mpr ⟨ha, hfront⟩, hback⟩

/-- a task whose lines hold the heading is cut before its section and after it -/
theorem exists_sections (h : criteriaHeading.toList ∈ trimmedLines task) : ∃ before section_ after, Sections task before section_ after := by
  obtain ⟨front, back, hlines, hfront, hback⟩ := exists_cut (fun l => trimEndChars l != criteriaHeading.toList) (splitInclusive task)
  have hunopened : criteriaHeading.toList ∉ front.map trimEndChars := by
    intro hin
    obtain ⟨l, hl, heq⟩ := List.mem_map.mp hin
    exact bne_iff_ne.mp (hfront l hl) heq
  obtain rfl | ⟨first, rest, rfl, hfirst⟩ := hback
  · rw [List.append_nil] at hlines
    rw [trimmedLines, hlines] at h
    exact absurd h hunopened
  · have hheading : trimEndChars first = criteriaHeading.toList := by simpa using hfirst
    obtain ⟨own, later, rfl, hown, hlater⟩ := exists_cut (fun l => !isSectionHeading (trimEndChars l)) rest
    obtain ⟨hbefore, hback, hended⟩ := splitInclusive_eq_append hlines
    have hback' : splitInclusive (first :: (own ++ later)).flatten = (first :: own) ++ later := hback
    obtain ⟨hsection, hafter, hended'⟩ := splitInclusive_eq_append hback'
    refine ⟨front.flatten, (first :: own).flatten, later.flatten, ?_, hended.resolve_left (List.cons_ne_nil _ _), ?_,
      ⟨own.map trimEndChars, ?_, ?_⟩, ?_⟩
    · rw [← flatten_splitInclusive task, hlines]
      simp
    · rwa [trimmedLines, hbefore]
    · rw [trimmedLines, hsection, List.map_cons, hheading]
    · intro l hl
      obtain ⟨line, hline, rfl⟩ := List.mem_map.mp hl
      simpa using hown line hline
    · obtain rfl | ⟨l, ls, rfl, hl⟩ := hlater
      · exact .inl rfl
      · refine .inr ⟨hended'.resolve_left (List.cons_ne_nil _ _), trimEndChars l, ls.map trimEndChars, ?_, by simpa using hl⟩
        rw [trimmedLines, hafter, List.map_cons]

/-! ## The section's end -/

theorem sectionEndFrom_unopened {rows back : List (List Char)} (h : ∀ l ∈ rows, trimEndChars l ≠ criteriaHeading.toList) (n : ℕ) :
    sectionEndFrom false n (rows ++ back) = sectionEndFrom false (n + rows.flatten.length) back := by
  induction rows generalizing n with
  | nil => rfl
  | cons l rows ih =>
    have hl : decide (trimEndChars l = criteriaHeading.toList) = false := decide_eq_false (h l List.mem_cons_self)
    rw [List.cons_append, sectionEndFrom]
    simp only [Bool.false_and, Bool.false_eq_true, if_false, Bool.false_or, hl]
    rw [ih (fun r hr => h r (List.mem_cons_of_mem _ hr)), List.flatten_cons, List.length_append, Nat.add_assoc]

theorem sectionEndFrom_inside {rows back : List (List Char)} (h : ∀ l ∈ rows, isSectionHeading (trimEndChars l) = false) (n : ℕ) :
    sectionEndFrom true n (rows ++ back) = sectionEndFrom true (n + rows.flatten.length) back := by
  induction rows generalizing n with
  | nil => rfl
  | cons l rows ih =>
    rw [List.cons_append, sectionEndFrom]
    simp only [h l List.mem_cons_self, Bool.and_false, Bool.false_eq_true, if_false, Bool.true_or]
    rw [ih (fun r hr => h r (List.mem_cons_of_mem _ hr)), List.flatten_cons, List.length_append, Nat.add_assoc]

theorem criteriaSectionEnd_eq (h : Sections task before section_ after) : criteriaSectionEnd task = some (before ++ section_).length := by
  obtain ⟨rows, hrows, hinside⟩ := h.opens
  have hlines : splitInclusive task = splitInclusive before ++ (splitInclusive section_ ++ splitInclusive after) := by
    rw [h.eq, splitInclusive_append h.beforeEnded]
    obtain hnone | ⟨hended, -⟩ := h.closes
    · rw [hnone, List.append_nil]
      simp [splitInclusive]
    · rw [splitInclusive_append hended]
  have hbefore : ∀ l ∈ splitInclusive before, trimEndChars l ≠ criteriaHeading.toList :=
    fun l hl heq => h.unopened (List.mem_map.mpr ⟨l, hl, heq⟩)
  have hlength := congrArg List.length (flatten_splitInclusive section_)
  rw [criteriaSectionEnd, hlines, sectionEndFrom_unopened hbefore, flatten_splitInclusive, Nat.zero_add]
  rw [trimmedLines] at hrows
  cases hsection : splitInclusive section_ with
  | nil =>
    rw [hsection] at hrows
    cases hrows
  | cons first rest =>
    rw [hsection, List.map_cons] at hrows
    rw [hsection, List.flatten_cons, List.length_append] at hlength
    obtain ⟨hfirst, hrest⟩ := List.cons.inj hrows
    rw [List.cons_append, sectionEndFrom]
    simp only [Bool.false_and, Bool.false_eq_true, if_false, Bool.false_or, hfirst, decide_true]
    rw [sectionEndFrom_inside (fun l hl => hinside _ (hrest ▸ List.mem_map_of_mem hl)), Nat.add_assoc, hlength, List.length_append]
    obtain rfl | ⟨-, l, ls, hafter, hcloses⟩ := h.closes
    · rfl
    · rw [trimmedLines] at hafter
      cases hback : splitInclusive after with
      | nil =>
        rw [hback] at hafter
        cases hafter
      | cons line lines =>
        rw [hback, List.map_cons] at hafter
        rw [sectionEndFrom, (List.cons.inj hafter).1]
        simp [hcloses]

/-! ## Text closing a section -/

/-- a section with a block at its end -/
def closedWith (section_ block after : List Char) : List Char :=
  trimEndChars section_ ++ "\n\n".toList ++ block ++ (if after = [] then [] else ['\n'])

theorem Sections.section_kept (h : Sections task before section_ after) : trimEndChars section_ ≠ [] := by
  obtain ⟨rows, hrows, -⟩ := h.opens
  intro hblank
  obtain ⟨n, hn⟩ := trimmedLines_blank (trimEndChars_eq_nil.mp hblank)
  rw [hn] at hrows
  have hin : criteriaHeading.toList ∈ List.replicate n ([] : List Char) := hrows ▸ List.mem_cons_self
  exact absurd (List.eq_of_mem_replicate hin) (by decide)

theorem Sections.blank_after (h : Sections task before section_ after) : (trimChars after).isEmpty = decide (after = []) := by
  obtain rfl | ⟨-, l, rows, hafter, hcloses⟩ := h.closes
  · rfl
  · have hne : after ≠ [] := by
      rintro rfl
      cases hafter
    have hkept : trimChars after ≠ [] := by
      intro hblank
      have hall : ∀ c ∈ after, isWhitespace c = true := by
        have hdrop := trimEndChars_eq_nil.mp hblank
        intro c hc
        by_contra hword
        exact hword (hdrop c (mem_dropWhile hc (Bool.eq_false_iff.mpr hword)))
      obtain ⟨n, hn⟩ := trimmedLines_blank hall
      have hin : l ∈ List.replicate n ([] : List Char) := by
        rw [← hn, hafter]
        exact List.mem_cons_self
      rw [List.eq_of_mem_replicate hin] at hcloses
      cases hcloses
    rw [decide_eq_false hne, List.isEmpty_eq_false_iff]
    exact hkept

/-- the bar and the rest of a task are its section's -/
theorem Sections.cut (h : Sections task before section_ after) :
    trimEndChars (task.take (before ++ section_).length) = before ++ trimEndChars section_ ∧ task.drop (before ++ section_).length = after := by
  rw [h.eq, ← List.append_assoc, List.take_left, List.drop_left, trimEndChars_append_of_ne_nil h.section_kept]
  exact ⟨rfl, rfl⟩

/-- what `amended` closes a section with -/
def amendmentBlock (amendment : List Char) : List Char :=
  amendmentHeading.toList ++ ['\n'] ++ amendmentPrecedence.toList ++ "\n\n".toList ++ amendmentClauses amendment

theorem amended_eq (h : Sections task before section_ after) (amendment : List Char) :
    amended task amendment = before ++ (closedWith section_ (amendmentBlock amendment) after ++ after) := by
  obtain ⟨hbar, hrest⟩ := h.cut
  unfold amended closedWith amendmentBlock
  simp only [criteriaSectionEnd_eq h, hbar, hrest, h.blank_after, decide_eq_true_eq]
  split_ifs with hnone
  · simp only [hnone, List.append_assoc, List.append_nil]
  · simp only [List.append_assoc]

def mergeBlock (merge : MergeInProgress) : List Char :=
  mergeResolutionHeading.toList ++ ['\n'] ++ mergeResolutionPreamble.toList ++ "\n\n".toList ++ ("- ".toList ++ mergeResolutionCriterion merge ++ ['\n'])

theorem withMergeResolution_eq (h : Sections task before section_ after) (merge : MergeInProgress) :
    withMergeResolution task merge = before ++ (closedWith section_ (mergeBlock merge) after ++ after) := by
  obtain ⟨hbar, hrest⟩ := h.cut
  unfold withMergeResolution closedWith mergeBlock
  simp only [criteriaSectionEnd_eq h, hbar, hrest, h.blank_after, decide_eq_true_eq]
  split_ifs with hnone
  · simp only [hnone, List.append_assoc, List.append_nil]
  · simp only [List.append_assoc]

/-- the lines of a section before and after a block closes it: its own, blank ones, and the block's -/
theorem Sections.closedWith_trimmed (h : Sections task before section_ after) (hblock : Ended block) :
    ∃ rows, (∀ l ∈ rows, isSectionHeading l = false) ∧
      (∃ n, trimmedLines section_ = criteriaHeading.toList :: rows ++ List.replicate n []) ∧
      ∃ m j, trimmedLines (closedWith section_ block after) =
        criteriaHeading.toList :: rows ++ List.replicate m [] ++ trimmedLines block ++ List.replicate j [] := by
  obtain ⟨own, hown, hinside⟩ := h.opens
  obtain ⟨n, hn⟩ := trimmedLines_trimEnd h.section_kept
  obtain ⟨m, hm⟩ := trimmedLines_append_blank (List.all_eq_true.mp rfl : ∀ c ∈ "\n\n".toList, isWhitespace c = true) h.section_kept (trimEndChars_trimEndChars section_)
  cases hkept : trimmedLines (trimEndChars section_) with
  | nil => exact absurd hkept (trimmedLines_ne_nil h.section_kept)
  | cons first rows =>
    rw [hown, hkept, List.cons_append] at hn
    obtain ⟨rfl, hrows⟩ := List.cons.inj hn
    refine ⟨rows, fun l hl => hinside l (hrows ▸ List.mem_append_left _ hl), ⟨n, by rw [hown, hrows]; rfl⟩, m, ?_⟩
    have hgap : Ended (trimEndChars section_ ++ "\n\n".toList) := .inr ⟨trimEndChars section_ ++ ['\n'], by simp⟩
    obtain ⟨j, hj⟩ := trimmedLines_blank (show ∀ c ∈ (if after = [] then [] else ['\n']), isWhitespace c = true by split_ifs <;> exact List.all_eq_true.mp rfl)
    refine ⟨j, ?_⟩
    rw [closedWith, List.append_assoc, trimmedLines_append hgap, trimmedLines_append hblock, hm, hkept, hj]
    simp only [List.append_assoc]

/-- **One section.** A task closed with a block is cut where it was. -/
theorem Sections.closed (h : Sections task before section_ after) (hblock : Ended block)
    (hrows : ∀ l ∈ trimmedLines block, isSectionHeading l = false) :
    Sections (before ++ (closedWith section_ block after ++ after)) before (closedWith section_ block after) after := by
  obtain ⟨rows, hinside, -, m, j, hclosing⟩ := h.closedWith_trimmed hblock
  have hclosed : trimmedLines (closedWith section_ block after) = criteriaHeading.toList ::
      (rows ++ List.replicate m [] ++ trimmedLines block ++ List.replicate j []) := by simpa using hclosing
  refine ⟨rfl, h.beforeEnded, h.unopened, ⟨_, hclosed, ?_⟩, h.closes.imp_right fun hrest => ⟨?_, hrest.2⟩⟩
  · intro l hl
    simp only [List.mem_append] at hl
    obtain ((hl | hl) | hl) | hl := hl
    · exact hinside l hl
    · rw [List.eq_of_mem_replicate hl]
      rfl
    · exact hrows l hl
    · rw [List.eq_of_mem_replicate hl]
      rfl
  · have hne : after ≠ [] := by
      rintro rfl
      obtain ⟨-, l, rows, hafter, -⟩ := hrest
      cases hafter
    rw [closedWith, if_neg hne]
    exact .newline _

theorem not_opens_of_inside {l : List Char} (h : isSectionHeading l = false) : (!startsWith "## ".toList l) = true := by
  cases hopens : startsWith "## ".toList l with
  | false => rfl
  | true =>
    rw [isSectionHeading_of_opens hopens] at h
    cases h

theorem ne_heading_of_inside {l : List Char} (h : isSectionHeading l = false) : l ≠ criteriaHeading.toList := by
  rintro rfl
  rw [isSectionHeading_criteria] at h
  cases h

/-- lines that open no section, above a heading's: an item listed is among them, or under them -/
theorem any_listed_append {rows back : List (List Char)} (h : ∀ l ∈ rows, isSectionHeading l = false) :
    ((rows ++ back).takeWhile fun l => !startsWith "## ".toList l).any (fun l => criterionListed (trimStartChars l)) = true ↔
      (∃ l ∈ rows, criterionListed (trimStartChars l) = true) ∨
        (back.takeWhile fun l => !startsWith "## ".toList l).any (fun l => criterionListed (trimStartChars l)) = true := by
  rw [List.takeWhile_append_of_pos fun l hl => not_opens_of_inside (h l hl), List.any_append, Bool.or_eq_true, List.any_eq_true]

/-- what the check finds is found in a task closed with a block -/
theorem listed_closed (h : Sections task before section_ after) (hblock : Ended block)
    (hrows : ∀ l ∈ trimmedLines block, isSectionHeading l = false) (hlisted : Listed (trimmedLines task)) :
    Listed (trimmedLines (before ++ (closedWith section_ block after ++ after))) := by
  obtain ⟨own, hinside, ⟨n, hsection⟩, m, j, hclosing⟩ := h.closedWith_trimmed hblock
  obtain ⟨above, below, hrows', habove, hbelow, hany⟩ := hlisted
  have hblank (k : ℕ) : ∀ l ∈ List.replicate k ([] : List Char), isSectionHeading l = false := by
    intro l hl
    rw [List.eq_of_mem_replicate hl]
    rfl
  have htask : trimmedLines task = trimmedLines before ++ criteriaHeading.toList :: (own ++ List.replicate n [] ++ trimmedLines after) := by
    rw [h.trimmed, hsection]
    simp
  have hsame := (dropWhile_eq_append hrows' habove).symm.trans (dropWhile_eq_append htask h.unopened)
  obtain rfl : below = own ++ List.replicate n [] ++ trimmedLines after := (List.cons.inj hsame).2
  have hfront : ∀ l ∈ own ++ List.replicate n [], isSectionHeading l = false :=
    fun l hl => (List.mem_append.mp hl).elim (hinside l) (hblank n l)
  have hback : ∀ l ∈ own ++ List.replicate m [] ++ trimmedLines block ++ List.replicate j [], isSectionHeading l = false := by
    intro l hl
    simp only [List.mem_append] at hl
    obtain ((hl | hl) | hl) | hl := hl
    · exact hinside l hl
    · exact hblank m l hl
    · exact hrows l hl
    · exact hblank j l hl
  refine ⟨trimmedLines before, own ++ List.replicate m [] ++ trimmedLines block ++ List.replicate j [] ++ trimmedLines after, ?_,
    h.unopened, ?_, ?_⟩
  · rw [(h.closed hblock hrows).trimmed, hclosing]
    simp
  · intro hin
    obtain hin | hin := List.mem_append.mp hin
    · exact ne_heading_of_inside (hback _ hin) rfl
    · exact hbelow (List.mem_append_right _ hin)
  · rw [any_listed_append hfront] at hany
    rw [any_listed_append hback]
    refine hany.imp_left ?_
    rintro ⟨l, hl, hitem⟩
    obtain hl | hl := List.mem_append.mp hl
    · exact ⟨l, by simp [hl], hitem⟩
    · rw [List.eq_of_mem_replicate hl] at hitem
      cases hitem

/-! ## What is rendered -/

/-- a line of a block: blank, or of a character no heading starts with -/
def Plain (l : List Char) : Prop := l = [] ∨ ∃ c rest, l = c :: rest ∧ c ≠ '#' ∧ isWhitespace c = false

theorem Plain.trimEnd {l : List Char} (h : Plain l) : Plain (trimEndChars l) := by
  obtain rfl | ⟨c, rest, rfl, hc, hword⟩ := h
  · exact .inl rfl
  · rw [trimEndChars_cons]
    split_ifs with hblank
    · exact .inr ⟨c, [], List.rdropWhile_concat_neg _ [] _ (by simpa using hword), hc, hword⟩
    · exact .inr ⟨c, _, rfl, hc, hword⟩

theorem Plain.inside {l : List Char} (h : Plain l) : isSectionHeading l = false := by
  obtain rfl | ⟨c, rest, rfl, hc, -⟩ := h
  · rfl
  · simp [isSectionHeading, startsWith, stripPrefix, Ne.symm hc]

theorem trimmedLines_line {l : List Char} (h : '\n' ∉ l) : trimmedLines (l ++ ['\n']) = [trimEndChars l] := by
  rw [trimmedLines, splitInclusive_line h, List.map_singleton, trimEndChars_append_blank (List.all_eq_true.mp rfl)]

/-- rendered lines are blank or the ones rendered, each ended -/
theorem trimmedLines_renderLines (blank : Bool) {ls : List (List Char)} (hls : ∀ l ∈ ls, '\n' ∉ l) :
    Ended (renderLines blank ls) ∧ ∀ r ∈ trimmedLines (renderLines blank ls), r = [] ∨ ∃ l ∈ ls, r = trimEndChars l := by
  induction ls generalizing blank with
  | nil => exact ⟨.inl rfl, by simp [renderLines, trimmedLines, splitInclusive]⟩
  | cons l ls ih =>
    obtain ⟨hl, hls⟩ := List.forall_mem_cons.mp hls
    rw [renderLines]
    split_ifs with hnil hblank
    · obtain ⟨hended, hrows⟩ := ih true hls
      rw [List.nil_append]
      exact ⟨hended, fun r hr => (hrows r hr).imp_right (Exists.imp fun _ h => ⟨List.mem_cons_of_mem _ h.1, h.2⟩)⟩
    · obtain ⟨hended, hrows⟩ := ih true hls
      refine ⟨.append (.newline []) hended, fun r hr => ?_⟩
      rw [List.singleton_append, trimmedLines_newline] at hr
      obtain rfl | hr := List.mem_cons.mp hr
      · exact .inl rfl
      · exact (hrows r hr).imp_right (Exists.imp fun _ h => ⟨List.mem_cons_of_mem _ h.1, h.2⟩)
    · obtain ⟨hended, hrows⟩ := ih false hls
      refine ⟨.append (.newline l) hended, fun r hr => ?_⟩
      rw [trimmedLines_append (.newline l), trimmedLines_line hl] at hr
      obtain rfl | hr := List.mem_cons.mp hr
      · exact .inr ⟨l, List.mem_cons_self, rfl⟩
      · exact (hrows r hr).imp_right (Exists.imp fun _ h => ⟨List.mem_cons_of_mem _ h.1, h.2⟩)

theorem mem_of_mem_trimChars {c : Char} {l : List Char} (h : c ∈ trimChars l) : c ∈ l :=
  (List.dropWhile_suffix _).subset ((List.rdropWhile_prefix _ _).subset h)

theorem mem_of_mem_headingText {c : Char} {l text : List Char} (h : headingText l = some text) (hc : c ∈ text) : c ∈ l := by
  unfold headingText at h
  simp only [] at h
  split_ifs at h
  cases h
  exact (List.dropWhile_suffix _).subset (mem_of_mem_trimChars hc)

theorem mem_of_stripPrefix {c : Char} {p l rest : List Char} (h : stripPrefix p l = some rest) (hc : c ∈ rest) : c ∈ l := by
  rw [stripPrefix_eq_some h]
  exact List.mem_append_right _ hc

theorem mem_of_mem_listItem {c : Char} {l item : List Char} (h : listItem l = some item) (hc : c ∈ item) : c ∈ l := by
  unfold listItem at h
  simp only [Option.map_eq_some_iff, Option.or_eq_some_iff] at h
  obtain ⟨rest, hrest, rfl⟩ := h
  have hin := mem_of_mem_trimChars hc
  obtain h | ⟨-, h | ⟨-, h | ⟨-, h⟩⟩⟩ := hrest
  · exact mem_of_stripPrefix h hin
  · exact mem_of_stripPrefix h hin
  · exact mem_of_stripPrefix h hin
  · split_ifs at h
    obtain h | ⟨-, h⟩ := Option.or_eq_some_iff.mp h
    · exact List.mem_of_mem_drop (mem_of_stripPrefix h hin)
    · exact List.mem_of_mem_drop (mem_of_stripPrefix h hin)

/-- an amendment's rendered lines so far: each a line, of no heading -/
structure Clauses.Rendered (c : Clauses) : Prop where
  lines : ∀ l ∈ c.lines, '\n' ∉ l ∧ Plain l
  «open» : ∀ clause, c.open = some clause → '\n' ∉ clause

theorem Clauses.Rendered.close {c : Clauses} (h : c.Rendered) : c.close.Rendered := by
  unfold Clauses.close
  cases hopen : c.open with
  | none => exact h
  | some clause =>
    refine ⟨fun l hl => ?_, fun _ hnone => nomatch hnone⟩
    obtain hl | hl := List.mem_append.mp hl
    · exact h.lines l hl
    · rw [List.mem_singleton.mp hl]
      exact ⟨by simpa using h.open clause hopen, .inr ⟨'-', ' ' :: clause, rfl, by decide, by decide⟩⟩

theorem Clauses.Rendered.take {c : Clauses} (h : c.Rendered) {line : List Char} (hline : '\n' ∉ line) : (c.take line).Rendered := by
  have htrimmed : '\n' ∉ trimChars line := fun hin => hline (mem_of_mem_trimChars hin)
  unfold Clauses.take
  simp only []
  split_ifs with hblank
  · exact h.close
  · cases hheading : headingText (trimChars line) with
    | some text =>
      simp only []
      split_ifs with hempty
      · exact h.close
      · refine ⟨fun l hl => ?_, h.close.open⟩
        obtain hl | hl := List.mem_append.mp hl
        · exact h.close.lines l hl
        · simp only [List.mem_cons, List.not_mem_nil, or_false] at hl
          obtain rfl | rfl | rfl := hl
          · exact ⟨by simp, .inl rfl⟩
          · exact ⟨by simpa using fun hin => htrimmed (mem_of_mem_headingText hheading hin),
              .inr ⟨'*', '*' :: (text ++ "**".toList), rfl, by decide, by decide⟩⟩
          · exact ⟨by simp, .inl rfl⟩
    | none =>
      cases hitem : listItem (trimChars line) with
      | some item =>
        refine ⟨h.close.lines, fun clause hclause => ?_⟩
        cases hclause
        exact fun hin => htrimmed (mem_of_mem_listItem hitem hin)
      | none =>
        cases hopen : c.open with
        | some clause =>
          refine ⟨h.lines, fun joined hjoined => ?_⟩
          cases hjoined
          simpa using ⟨h.open clause hopen, htrimmed⟩
        | none =>
          refine ⟨h.lines, fun joined hjoined => ?_⟩
          cases hjoined
          exact htrimmed

/-- an amendment's clauses end their last line, and no line of theirs is a heading -/
theorem amendmentClauses_plain (amendment : List Char) :
    Ended (amendmentClauses amendment) ∧ ∀ r ∈ trimmedLines (amendmentClauses amendment), Plain r := by
  have hall : ∀ ls : List (List Char), (∀ l ∈ ls, '\n' ∉ l) → (ls.foldl Clauses.take {}).Rendered := by
    intro ls
    induction ls using List.reverseRecOn with
    | nil => exact fun _ => ⟨fun _ hl => (List.not_mem_nil hl).elim, fun _ hnone => nomatch hnone⟩
    | append_singleton ls l ih =>
      intro hls
      rw [List.foldl_append]
      exact (ih fun l hl => hls l (List.mem_append_left _ hl)).take (hls l (by simp))
  have hclosed := (hall (lines amendment) fun l hl => not_mem_lines hl).close
  obtain ⟨hended, hrows⟩ := trimmedLines_renderLines true fun l hl => (hclosed.lines l hl).1
  refine ⟨hended, fun r hr => ?_⟩
  obtain rfl | ⟨l, hl, rfl⟩ := hrows r hr
  · exact .inl rfl
  · exact (hclosed.lines l hl).2.trimEnd

end OnePipeline
