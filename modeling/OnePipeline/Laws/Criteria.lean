/-
An amendment joins the one bar (`src/plan.rs`: `amended`, `with_merge_resolution`; `src/criteria.rs`: `criteria_in`).

The check and the section's end read a heading at the margin; the criteria reader reads an indented one too, so an indented heading inside
the section ends it for the reader alone (`indented_heading_loses_amendment`).

Results:
- `criteriaIn_eq`: the reader over a task's trimmed lines;
- `criteriaIn_closed`: what it reads of a task closed with a block;
- `amended_joins`: when an amended task's criteria are the task's and then the amendment's.
-/
import Mathlib.Data.List.ModifyLast
import OnePipeline.Laws.Bar

namespace OnePipeline

open Text

variable {isAlphanumeric : Char → Bool} {task before section_ after block : List Char} {s t : CriteriaReader}

namespace CriteriaReader

/-! ## One line -/

theorem read_trimEnd (s : CriteriaReader) (line : List Char) : s.read isAlphanumeric (trimEndChars line) = s.read isAlphanumeric line := by
  have hmargin : ((trimChars line).isEmpty || (trimEndChars line).head?.any isAlphanumeric) =
      ((trimChars line).isEmpty || line.head?.any isAlphanumeric) := by
    obtain ⟨w, hw, heq⟩ := exists_trimEnd line
    cases hkept : trimEndChars line with
    | nil =>
      rw [← trimChars_trimEndChars, hkept]
      rfl
    | cons c rest =>
      rw [hkept] at heq
      rw [heq]
      rfl
  unfold read
  simp only [trimChars_trimEndChars, hmargin]

theorem read_heading {line : List Char} (h : startsWith ['#'] (trimChars line) = true) : s.read isAlphanumeric line =
    { s with
      inside := if isSectionHeading (trimChars line) then trimChars line = criteriaHeading.toList else s.inside
      «open» := false } := by
  unfold read
  simp only [h, if_true]

theorem read_outside {line : List Char} (h : startsWith ['#'] (trimChars line) = false) (houtside : s.inside = false) :
    s.read isAlphanumeric line = s := by
  unfold read
  simp [h, houtside]

theorem read_blank : s.read isAlphanumeric [] = if s.inside then { s with «open» := false } else s := by
  unfold read
  cases s.inside <;> rfl

variable (isAlphanumeric) in
/-- what one line does, whatever was read before it: it ends a bullet, does nothing, is a bullet, or goes on with one -/
theorem read_cases (line : List Char) (inside «open» : Bool) :
    (∃ i, (isSectionHeading (trimChars line) = false → i = inside) ∧
      ∀ c, read isAlphanumeric ⟨c, inside, «open»⟩ line = ⟨c, i, false⟩) ∨
    (∀ c, read isAlphanumeric ⟨c, inside, «open»⟩ line = ⟨c, inside, «open»⟩) ∨
    (∃ bullet, ∀ c, read isAlphanumeric ⟨c, inside, «open»⟩ line = ⟨c ++ [bullet], inside, true⟩) ∨
    («open» = true ∧ ∃ f, ∀ c, read isAlphanumeric ⟨c, inside, «open»⟩ line = ⟨c.modifyLast f, inside, true⟩) := by
  cases hheading : startsWith ['#'] (trimChars line) with
  | true =>
    refine .inl ⟨if isSectionHeading (trimChars line) then trimChars line = criteriaHeading.toList else inside, fun hinside => ?_,
      fun c => read_heading hheading⟩
    rw [hinside]
    rfl
  | false =>
    cases inside with
    | false => exact .inr (.inl fun c => read_outside hheading rfl)
    | true =>
      cases hbullet : (stripPrefix "- ".toList (trimChars line)).or (stripPrefix "* ".toList (trimChars line)) with
      | some bullet =>
        refine .inr (.inr (.inl ⟨trimChars bullet, fun c => ?_⟩))
        simp only [read, hheading, hbullet, Bool.not_true, Bool.false_eq_true, if_false]
      | none =>
        cases hmargin : ((trimChars line).isEmpty || line.head?.any isAlphanumeric) with
        | true =>
          refine .inl ⟨true, fun _ => rfl, fun c => ?_⟩
          simp only [read, hheading, hbullet, hmargin, Bool.not_true, Bool.false_eq_true, if_false, if_true]
        | false =>
          cases «open» with
          | false =>
            refine .inr (.inl fun c => ?_)
            simp only [read, hheading, hbullet, hmargin, Bool.not_true, Bool.false_eq_true, if_false]
          | true =>
            refine .inr (.inr (.inr ⟨rfl, fun last => last ++ ' ' :: trimChars line, fun c => ?_⟩))
            simp only [read, hheading, hbullet, hmargin, Bool.not_true, Bool.false_eq_true, if_false, if_true]

/-- criteria read before the reader's own -/
def prepend (a : List (List Char)) (s : CriteriaReader) : CriteriaReader := { s with criteria := a ++ s.criteria }

/-- a bullet being read is one that was -/
def Sound (s : CriteriaReader) : Prop := s.open = true → s.criteria ≠ []

theorem Sound.read (h : s.Sound) (line : List Char) : (s.read isAlphanumeric line).Sound := by
  obtain ⟨c, inside, «open»⟩ := s
  obtain ⟨i, -, hread⟩ | hread | ⟨bullet, hread⟩ | ⟨hopen, f, hread⟩ := read_cases isAlphanumeric line inside «open»
  · rw [hread]
    exact fun hopen => nomatch hopen
  · rwa [hread]
  · rw [hread]
    exact fun _ => by simp
  · rw [hread]
    intro _ hnil
    obtain ⟨front, last, rfl⟩ := (List.eq_nil_or_concat' c).resolve_left (h hopen)
    rw [List.modifyLast_concat] at hnil
    exact List.append_ne_nil_of_right_ne_nil front (List.cons_ne_nil _ _) hnil

/-- a bullet goes on with one the reader read itself -/
theorem read_prepend (h : s.Sound) (a : List (List Char)) (line : List Char) :
    (s.prepend a).read isAlphanumeric line = (s.read isAlphanumeric line).prepend a := by
  obtain ⟨c, inside, «open»⟩ := s
  show CriteriaReader.read isAlphanumeric ⟨a ++ c, inside, «open»⟩ line = _
  obtain ⟨i, -, hread⟩ | hread | ⟨bullet, hread⟩ | ⟨hopen, f, hread⟩ := read_cases isAlphanumeric line inside «open»
  · rw [hread, hread]
    rfl
  · rw [hread, hread]
    rfl
  · rw [hread, hread, List.append_assoc]
    rfl
  · rw [hread, hread, List.modifyLast_append_of_right_ne_nil _ _ _ (h hopen)]
    rfl

theorem foldl_prepend (h : s.Sound) (a rows : List (List Char)) :
    rows.foldl (CriteriaReader.read isAlphanumeric) (s.prepend a) = (rows.foldl (CriteriaReader.read isAlphanumeric) s).prepend a := by
  induction rows generalizing s with
  | nil => rfl
  | cons row rows ih => rw [List.foldl_cons, List.foldl_cons, read_prepend h, ih (h.read row)]

/-! ## Runs of lines -/

variable (isAlphanumeric) in
/-- blank lines end a bullet, and no more -/
theorem foldl_blank (s : CriteriaReader) (n : ℕ) :
    ((List.replicate n []).foldl (CriteriaReader.read isAlphanumeric) s).criteria = s.criteria ∧
      ((List.replicate n []).foldl (CriteriaReader.read isAlphanumeric) s).inside = s.inside := by
  induction n generalizing s with
  | zero => exact ⟨rfl, rfl⟩
  | succ n ih =>
    obtain ⟨hcriteria, hinside⟩ := ih (s.read isAlphanumeric [])
    rw [List.replicate_succ, List.foldl_cons, hcriteria, hinside, read_blank]
    split_ifs <;> exact ⟨rfl, rfl⟩

theorem startsWith_of_section {l : List Char} (h : isSectionHeading l = true) : startsWith ['#'] l = true := by
  have hopens : startsWith "##".toList l = true := (Bool.and_eq_true_iff.mp h).1
  exact startsWith_of_append (q := ['#']) hopens

theorem inside_read {line : List Char} (h : isSectionHeading (trimChars line) = false) :
    (s.read isAlphanumeric line).inside = s.inside := by
  obtain ⟨c, inside, «open»⟩ := s
  obtain ⟨i, hi, hread⟩ | hread | ⟨bullet, hread⟩ | ⟨-, f, hread⟩ := read_cases isAlphanumeric line inside «open»
  · rw [hread]
    exact hi h
  · rw [hread]
  · rw [hread]
  · rw [hread]

/-- whether the reader is in the section is what the last section heading says, at the margin or not -/
theorem inside_foldl (rows : List (List Char)) : (rows.foldl (CriteriaReader.read isAlphanumeric) {}).inside =
    decide (((rows.map trimChars).filter isSectionHeading).getLast? = some criteriaHeading.toList) := by
  induction rows using List.reverseRecOn with
  | nil => rfl
  | append_singleton rows row ih =>
    rw [List.foldl_append, List.map_append, List.filter_append, List.foldl_cons, List.foldl_nil, List.map_singleton]
    cases hsection : isSectionHeading (trimChars row) with
    | true =>
      rw [read_heading (startsWith_of_section hsection), List.filter_cons_of_pos hsection, List.filter_nil, List.getLast?_concat]
      simp [hsection]
    | false =>
      rw [List.filter_cons_of_neg (Bool.eq_false_iff.mp hsection), List.filter_nil, List.append_nil, ← ih]
      exact inside_read hsection

/-- a blank line, or one of text, opens no section -/
theorem startsWith_of_plain {l : List Char} (h : Plain l) : startsWith ['#'] (trimChars l) = false := by
  obtain rfl | ⟨c, rest, rfl, hc, hword⟩ := h
  · rfl
  · unfold trimChars trimStartChars
    rw [List.dropWhile_cons_of_neg (Bool.eq_false_iff.mp hword), trimEndChars_cons]
    have hkept : trimEndChars [c] = [c] := List.rdropWhile_concat_neg _ [] _ (Bool.eq_false_iff.mp hword)
    split_ifs
    · rw [hkept]
      simp [startsWith, stripPrefix, Ne.symm hc]
    · simp [startsWith, stripPrefix, Ne.symm hc]

theorem isSectionHeading_trim_of_plain {l : List Char} (h : Plain l) : isSectionHeading (trimChars l) = false := by
  cases hsection : isSectionHeading (trimChars l) with
  | false => rfl
  | true =>
    have hheading := startsWith_of_section hsection
    rw [startsWith_of_plain h] at hheading
    cases hheading

theorem inside_foldl_plain {rows : List (List Char)} (h : ∀ l ∈ rows, Plain l) (s : CriteriaReader) :
    (rows.foldl (CriteriaReader.read isAlphanumeric) s).inside = s.inside := by
  induction rows generalizing s with
  | nil => rfl
  | cons row rows ih =>
    obtain ⟨hrow, hrows⟩ := List.forall_mem_cons.mp h
    rw [List.foldl_cons, ih hrows, inside_read (isSectionHeading_trim_of_plain hrow)]

theorem foldl_outside {rows : List (List Char)} (h : ∀ l ∈ rows, Plain l) (houtside : s.inside = false) :
    rows.foldl (CriteriaReader.read isAlphanumeric) s = s := by
  induction rows with
  | nil => rfl
  | cons row rows ih =>
    obtain ⟨hrow, hrows⟩ := List.forall_mem_cons.mp h
    rw [List.foldl_cons, read_outside (startsWith_of_plain hrow) houtside, ih hrows]

end CriteriaReader

/-! ## A task's criteria -/

theorem criteriaIn_eq (isAlphanumeric : Char → Bool) (task : List Char) :
    criteriaIn isAlphanumeric task = ((trimmedLines task).foldl (CriteriaReader.read isAlphanumeric) {}).criteria := by
  rw [criteriaIn, ← lines_map_trimEnd, List.foldl_map]
  simp only [CriteriaReader.read_trimEnd]

/-- the reader where a criteria section ends -/
def atSectionEnd (isAlphanumeric : Char → Bool) (before section_ : List Char) : CriteriaReader :=
  (trimmedLines before ++ trimmedLines section_).foldl (CriteriaReader.read isAlphanumeric) {}

theorem trim_of_mem_trimmedLines {l : List Char} (hl : l ∈ trimmedLines task) (h : isSectionHeading l = true) : trimChars l = l := by
  obtain ⟨line, -, rfl⟩ := List.mem_map.mp hl
  obtain ⟨rest, hrest⟩ := startsWith_iff.mp (CriteriaReader.startsWith_of_section h)
  unfold trimChars trimStartChars
  rw [hrest, List.singleton_append, List.dropWhile_cons_of_neg (by decide), ← List.singleton_append, ← hrest, trimEndChars_trimEndChars]

/-- what is read after a section is read on its own -/
theorem foldl_closes (h : Sections task before section_ after) (s : CriteriaReader) :
    ((trimmedLines after).foldl (CriteriaReader.read isAlphanumeric) s).criteria = s.criteria ++ criteriaIn isAlphanumeric after := by
  obtain rfl | ⟨-, l, rows, hafter, hcloses⟩ := h.closes
  · exact (List.append_nil _).symm
  · have hl : trimChars l = l := trim_of_mem_trimmedLines (hafter ▸ List.mem_cons_self) hcloses
    have hheading : startsWith ['#'] (trimChars l) = true := by
      rw [hl]
      exact CriteriaReader.startsWith_of_section hcloses
    have hfirst : s.read isAlphanumeric l = (CriteriaReader.read isAlphanumeric {} l).prepend s.criteria := by
      rw [CriteriaReader.read_heading hheading, CriteriaReader.read_heading hheading, hl, if_pos hcloses, if_pos hcloses]
      simp [CriteriaReader.prepend]
    have hsound : (CriteriaReader.read isAlphanumeric {} l).Sound := by
      rw [CriteriaReader.read_heading hheading]
      exact fun hopen => nomatch hopen
    rw [criteriaIn_eq, hafter, List.foldl_cons, List.foldl_cons, hfirst, CriteriaReader.foldl_prepend hsound]
    rfl

theorem criteriaIn_of_sections (h : Sections task before section_ after) :
    criteriaIn isAlphanumeric task = (atSectionEnd isAlphanumeric before section_).criteria ++ criteriaIn isAlphanumeric after := by
  rw [criteriaIn_eq, h.trimmed, ← List.append_assoc, List.foldl_append, foldl_closes h]
  rfl

/-! ## A block -/

/-- the criteria of a section that holds only some clauses -/
theorem criteriaIn_section (clauses : List Char) :
    criteriaIn isAlphanumeric (criteriaHeading.toList ++ "\n\n".toList ++ clauses) =
      ((trimmedLines clauses).foldl (CriteriaReader.read isAlphanumeric) ⟨[], true, false⟩).criteria := by
  have hended : Ended (criteriaHeading.toList ++ "\n\n".toList) := .inr ⟨criteriaHeading.toList ++ ['\n'], by simp⟩
  have hheading : trimmedLines (criteriaHeading.toList ++ "\n\n".toList) = [criteriaHeading.toList, []] := by decide
  have hopened : CriteriaReader.read isAlphanumeric {} criteriaHeading.toList = ⟨[], true, false⟩ := by
    rw [CriteriaReader.read_heading (by decide)]
    have hsection : isSectionHeading (trimChars criteriaHeading.toList) = true := by decide
    have hsame : trimChars criteriaHeading.toList = criteriaHeading.toList := by decide
    rw [if_pos hsection]
    simp [hsame]
  rw [criteriaIn_eq, trimmedLines_append hended, hheading]
  simp only [List.cons_append, List.nil_append, List.foldl_cons, hopened, CriteriaReader.read_blank, if_true]

/-- one line of the engine's own: nothing to trim, and of the letter its sentences start with -/
def Prose (l : List Char) : Prop := '\n' ∉ l ∧ trimEndChars l = l ∧ l.head? = some 'T'

/-- a heading deeper than a section's -/
def SubHeading (l : List Char) : Prop := '\n' ∉ l ∧ trimEndChars l = l ∧ startsWith "###".toList l = true

/-- a sub-heading, a line of prose, and clauses -/
structure Block (block clauses : List Char) : Prop where
  ended : Ended clauses
  plain : ∀ r ∈ trimmedLines clauses, Plain r
  lines : ∃ heading prose, block = heading ++ ['\n'] ++ prose ++ "\n\n".toList ++ clauses ∧ SubHeading heading ∧ Prose prose

theorem SubHeading.reads {l : List Char} (h : SubHeading l) :
    isSectionHeading l = false ∧ trimChars l = l ∧ startsWith ['#'] l = true := by
  obtain ⟨-, htrim, hopens⟩ := h
  obtain ⟨rest, rfl⟩ := startsWith_iff.mp hopens
  refine ⟨rfl, ?_, rfl⟩
  unfold trimChars trimStartChars
  exact htrim

theorem Prose.reads {l : List Char} (h : Prose l) :
    Plain l ∧ (stripPrefix "- ".toList (trimChars l)).or (stripPrefix "* ".toList (trimChars l)) = none := by
  obtain ⟨-, htrim, hstarts⟩ := h
  obtain ⟨rest, rfl⟩ : ∃ rest, l = 'T' :: rest := by
    obtain ⟨rest, hrest⟩ := List.head?_eq_some_iff.mp hstarts
    exact ⟨rest, hrest⟩
  have hsame : trimChars ('T' :: rest) = 'T' :: rest := by
    unfold trimChars trimStartChars
    exact htrim
  rw [hsame]
  exact ⟨.inr ⟨'T', rest, rfl, by decide, by decide⟩, rfl⟩

namespace Block

variable {clauses : List Char}

/-- a block's lines: its heading, its prose, a blank one, and its clauses' -/
theorem trimmedLines_eq (h : Block block clauses) : ∃ heading prose, SubHeading heading ∧ Prose prose ∧ Ended block ∧
    trimmedLines block = heading :: prose :: [] :: trimmedLines clauses := by
  obtain ⟨heading, prose, rfl, hheading, hprose⟩ := h.lines
  have hended : Ended (heading ++ ['\n'] ++ (prose ++ ['\n'] ++ ['\n'])) := .inr ⟨heading ++ ['\n'] ++ (prose ++ ['\n']), by simp⟩
  have heq : heading ++ ['\n'] ++ prose ++ "\n\n".toList ++ clauses = heading ++ ['\n'] ++ (prose ++ ['\n'] ++ ['\n']) ++ clauses := by
    simp
  refine ⟨heading, prose, hheading, hprose, ?_, ?_⟩
  · rw [heq]
    exact hended.append h.ended
  · rw [heq, trimmedLines_append hended, trimmedLines_append (.newline heading), trimmedLines_append (.newline prose),
      trimmedLines_line hheading.1, trimmedLines_line hprose.1, hheading.2.1, hprose.2.1]
    rfl

theorem trimmed (h : Block block clauses) : Ended block ∧ ∀ r ∈ trimmedLines block, isSectionHeading r = false := by
  obtain ⟨heading, prose, hheading, hprose, hended, hlines⟩ := h.trimmedLines_eq
  refine ⟨hended, fun r hr => ?_⟩
  rw [hlines] at hr
  simp only [List.mem_cons] at hr
  obtain rfl | rfl | rfl | hr := hr
  · exact hheading.reads.1
  · exact hprose.reads.1.inside
  · rfl
  · exact (h.plain r hr).inside

/-- the reader comes to a block's clauses as to a section's -/
theorem foldl (h : Block block clauses) (s : CriteriaReader) :
    (trimmedLines block).foldl (CriteriaReader.read isAlphanumeric) s =
      (trimmedLines clauses).foldl (CriteriaReader.read isAlphanumeric) { s with «open» := false } := by
  obtain ⟨heading, prose, hheading, hprose, -, hlines⟩ := h.trimmedLines_eq
  obtain ⟨hsection, hsame, hopens⟩ := hheading.reads
  obtain ⟨hplain, hbullet⟩ := hprose.reads
  have hfirst : s.read isAlphanumeric heading = { s with «open» := false } := by
    rw [CriteriaReader.read_heading (hsame.symm ▸ hopens), hsame, hsection]
    rfl
  have hmiddle : CriteriaReader.read isAlphanumeric { s with «open» := false } prose = { s with «open» := false } := by
    unfold CriteriaReader.read
    simp only [CriteriaReader.startsWith_of_plain hplain, hbullet, Bool.false_eq_true, if_false]
    split_ifs <;> rfl
  have hlast : CriteriaReader.read isAlphanumeric { s with «open» := false } [] = { s with «open» := false } := by
    rw [CriteriaReader.read_blank]
    split_ifs <;> rfl
  rw [hlines]
  simp only [List.foldl_cons, hfirst, hmiddle, hlast]

end Block

variable (isAlphanumeric) in
/-- **The reader.** A block's clauses are read where the reader is still in the section, and a section is left as it was entered. -/
theorem atSectionEnd_closedWith {clauses : List Char} (h : Sections task before section_ after) (hblock : Block block clauses) :
    (atSectionEnd isAlphanumeric before (closedWith section_ block after)).inside = (atSectionEnd isAlphanumeric before section_).inside ∧
      (atSectionEnd isAlphanumeric before (closedWith section_ block after)).criteria =
        (atSectionEnd isAlphanumeric before section_).criteria ++
          if (atSectionEnd isAlphanumeric before section_).inside then
            criteriaIn isAlphanumeric (criteriaHeading.toList ++ "\n\n".toList ++ clauses) else [] := by
  obtain ⟨rows, -, ⟨n, hsection⟩, m, j, hclosing⟩ := h.closedWith_trimmed hblock.trimmed.1
  unfold atSectionEnd
  rw [hsection, hclosing]
  simp only [List.foldl_append]
  generalize (criteriaHeading.toList :: rows).foldl (CriteriaReader.read isAlphanumeric)
    ((trimmedLines before).foldl (CriteriaReader.read isAlphanumeric) {}) = s
  obtain ⟨hcriteria, hinside⟩ := CriteriaReader.foldl_blank isAlphanumeric s n
  obtain ⟨hcriteria', hinside'⟩ := CriteriaReader.foldl_blank isAlphanumeric s m
  rw [(CriteriaReader.foldl_blank isAlphanumeric _ j).1, (CriteriaReader.foldl_blank isAlphanumeric _ j).2, hblock.foldl,
    CriteriaReader.inside_foldl_plain hblock.plain, hcriteria, hinside, hcriteria', hinside']
  refine ⟨rfl, ?_⟩
  cases hin : s.inside with
  | false =>
    rw [CriteriaReader.foldl_outside hblock.plain rfl]
    exact (List.append_nil _).symm
  | true =>
    have hstart : (⟨s.criteria, true, false⟩ : CriteriaReader) = CriteriaReader.prepend s.criteria ⟨[], true, false⟩ := by
      simp [CriteriaReader.prepend]
    have hsound : CriteriaReader.Sound ⟨[], true, false⟩ := fun hopen => Bool.noConfusion hopen
    rw [hstart, CriteriaReader.foldl_prepend hsound, if_pos rfl, criteriaIn_section]
    rfl

theorem amendmentPrecedence_prose : Prose amendmentPrecedence.toList := by
  unfold amendmentPrecedence Prose
  rw [String.toList_append, String.toList_append, String.toList_ofList, String.toList_ofList, String.toList_ofList]
  decide +kernel

theorem amendmentHeading_sub : SubHeading amendmentHeading.toList := by
  unfold amendmentHeading SubHeading
  rw [String.toList_ofList]
  decide

theorem amendmentBlock_block (amendment : List Char) : Block (amendmentBlock amendment) (amendmentClauses amendment) where
  ended := (amendmentClauses_plain amendment).1
  plain := (amendmentClauses_plain amendment).2
  lines := ⟨_, _, by rw [amendmentBlock], amendmentHeading_sub, amendmentPrecedence_prose⟩

theorem mergeResolutionPreamble_prose : Prose mergeResolutionPreamble.toList := by
  unfold mergeResolutionPreamble Prose
  rw [String.toList_ofList]
  decide

theorem mergeResolutionHeading_sub : SubHeading mergeResolutionHeading.toList := by
  unfold mergeResolutionHeading SubHeading
  rw [String.toList_ofList]
  decide

/-- the template is one line, of a letter no name in it starts with -/
theorem mergeResolutionTemplate_line : (∃ rest, mergeResolutionTemplate.toList = 'T' :: rest) ∧ '\n' ∉ mergeResolutionTemplate.toList := by
  unfold mergeResolutionTemplate
  rw [String.toList_append, String.toList_append, String.toList_ofList, String.toList_ofList, String.toList_ofList]
  exact ⟨⟨_, rfl⟩, by decide⟩

theorem mergeResolutionCriterion_line (merge : MergeInProgress) : '\n' ∉ mergeResolutionCriterion merge := by
  have hnames := merge.oneLine
  have hpaths : '\n' ∉ listedPaths merge.paths := by
    intro hin
    obtain hin | ⟨piece, hpiece, hin⟩ := mem_join hin
    · exact absurd hin (by decide)
    · obtain ⟨path, hpath, rfl⟩ := List.mem_map.mp hpiece
      have hnot := hnames path (List.mem_cons_of_mem _ (List.mem_cons_of_mem _ hpath))
      simp [hnot] at hin
  intro hin
  obtain hin | hin := mem_replace (by decide) hin
  · exact hpaths hin
  · obtain hin | hin := mem_replace (by decide) hin
    · exact hnames _ List.mem_cons_self hin
    · obtain hin | hin := mem_replace (by decide) hin
      · exact hnames _ (List.mem_cons_of_mem _ List.mem_cons_self) hin
      · exact mergeResolutionTemplate_line.2 hin

theorem mergeResolutionCriterion_starts (merge : MergeInProgress) : ∃ rest, mergeResolutionCriterion merge = 'T' :: rest := by
  obtain ⟨rest, hrest⟩ := mergeResolutionTemplate_line.1
  unfold mergeResolutionCriterion
  rw [hrest, replace_cons (by decide) rfl, replace_cons (by decide) rfl, replace_cons (by decide) rfl]
  exact ⟨_, rfl⟩

theorem mergeResolutionCriterion_kept (merge : MergeInProgress) : trimEndChars (mergeResolutionCriterion merge) ≠ [] := by
  obtain ⟨rest, hrest⟩ := mergeResolutionCriterion_starts merge
  intro hblank
  exact absurd (trimEndChars_eq_nil.mp hblank 'T' (hrest ▸ List.mem_cons_self)) (by decide)

theorem mergeClauses_trimmed (merge : MergeInProgress) : trimmedLines ("- ".toList ++ mergeResolutionCriterion merge ++ ['\n']) =
    ["- ".toList ++ trimEndChars (mergeResolutionCriterion merge)] := by
  rw [trimmedLines_line (by simpa using mergeResolutionCriterion_line merge),
    trimEndChars_append_of_ne_nil (mergeResolutionCriterion_kept merge)]

theorem plain_bullet (text : List Char) : Plain ("- ".toList ++ text) := .inr ⟨'-', ' ' :: text, rfl, by decide, by decide⟩

theorem mergeBlock_block (merge : MergeInProgress) : Block (mergeBlock merge) ("- ".toList ++ mergeResolutionCriterion merge ++ ['\n']) where
  ended := .newline _
  plain r hr := by
    rw [mergeClauses_trimmed, List.mem_singleton] at hr
    exact hr ▸ plain_bullet _
  lines := ⟨_, _, by rw [mergeBlock], mergeResolutionHeading_sub, mergeResolutionPreamble_prose⟩

/-- the merge's one criterion, as the reader reads it -/
theorem criteriaIn_merge (merge : MergeInProgress) :
    criteriaIn isAlphanumeric (criteriaHeading.toList ++ "\n\n".toList ++ ("- ".toList ++ mergeResolutionCriterion merge ++ ['\n'])) =
      [trimChars (mergeResolutionCriterion merge)] := by
  have hrow : trimChars ("- ".toList ++ trimEndChars (mergeResolutionCriterion merge)) =
      "- ".toList ++ trimEndChars (mergeResolutionCriterion merge) := by
    have hkept : trimEndChars (trimEndChars (mergeResolutionCriterion merge)) ≠ [] := by
      rw [trimEndChars_trimEndChars]
      exact mergeResolutionCriterion_kept merge
    have htrim := trimEndChars_append_of_ne_nil (x := "- ".toList) hkept
    rw [trimEndChars_trimEndChars] at htrim
    exact htrim
  have hplain : startsWith ['#'] ("- ".toList ++ trimEndChars (mergeResolutionCriterion merge)) = false := rfl
  rw [criteriaIn_section, mergeClauses_trimmed, List.foldl_cons, List.foldl_nil]
  unfold CriteriaReader.read
  simp only [hrow, hplain, stripPrefix_append, Option.some_or, trimChars_trimEndChars, Bool.not_true, Bool.false_eq_true, if_false, List.nil_append]

/-! ## The bar -/

/-- a task with criteria added: the check accepts it, they are the last that are read, and outside its section it is as it was -/
structure Joins (isAlphanumeric : Char → Bool) (task result : List Char) (added : List (List Char)) : Prop where
  accepted : checkCriteria (String.ofList result) = .ok ()
  criteria : criteriaIn isAlphanumeric result = criteriaIn isAlphanumeric task ++ added
  outside : ∃ before section_ after more, Sections task before section_ after ∧
    Sections result before (trimEndChars section_ ++ more) after

/-- whether the reader reads a task's section to its end, and no criterion after it: no section heading it reads there is another's, and
none after is the criteria's -/
def KeptByReader (isAlphanumeric : Char → Bool) (task : List Char) : Prop :=
  ∃ e, criteriaSectionEnd task = some e ∧
    (((lines (task.take e)).map trimChars).filter isSectionHeading).getLast? = some criteriaHeading.toList ∧
    criteriaIn isAlphanumeric (task.drop e) = []

theorem keptByReader_iff (h : Sections task before section_ after) :
    KeptByReader isAlphanumeric task ↔ (atSectionEnd isAlphanumeric before section_).inside = true ∧ criteriaIn isAlphanumeric after = [] := by
  have hbar : task.take (before ++ section_).length = before ++ section_ := by
    rw [h.eq, ← List.append_assoc, List.take_left]
  have hlines : (lines (before ++ section_)).map trimChars = (trimmedLines before ++ trimmedLines section_).map trimChars := by
    rw [← trimmedLines_append h.beforeEnded, ← lines_map_trimEnd, List.map_map]
    exact List.map_congr_left fun l _ => (trimChars_trimEndChars l).symm
  rw [atSectionEnd, CriteriaReader.inside_foldl, decide_eq_true_iff, ← hlines]
  constructor
  · rintro ⟨e, hend, hinside, hafter⟩
    obtain rfl := Option.some.inj ((criteriaSectionEnd_eq h).symm.trans hend)
    rw [hbar] at hinside
    rw [h.cut.2] at hafter
    exact ⟨hinside, hafter⟩
  · rintro ⟨hinside, hafter⟩
    refine ⟨_, criteriaSectionEnd_eq h, ?_, ?_⟩
    · rwa [hbar]
    · rwa [h.cut.2]

theorem sections_of_accepted (h : checkCriteria (String.ofList task) = .ok ()) : ∃ before section_ after, Sections task before section_ after := by
  obtain ⟨above, below, hrows, -⟩ := (checkCriteria_iff task).mp h
  exact exists_sections (hrows ▸ by simp)

/-- a task closed with a block is accepted, and is as it was outside its section -/
theorem accepted_closedWith {clauses : List Char} (h : Sections task before section_ after)
    (htask : checkCriteria (String.ofList task) = .ok ()) (hblock : Block block clauses) :
    checkCriteria (String.ofList (before ++ (closedWith section_ block after ++ after))) = .ok () ∧
      Sections (before ++ (closedWith section_ block after ++ after)) before (closedWith section_ block after) after := by
  obtain ⟨hended, hrows⟩ := hblock.trimmed
  exact ⟨(checkCriteria_iff _).mpr (listed_closed h hended hrows ((checkCriteria_iff task).mp htask)), h.closed hended hrows⟩

variable (isAlphanumeric) in
/-- what a block adds joins a task exactly where the reader's criteria say so -/
theorem joins_iff {clauses : List Char} (h : Sections task before section_ after) (htask : checkCriteria (String.ofList task) = .ok ())
    (hblock : Block block clauses) {added : List (List Char)}
    (hadded : criteriaIn isAlphanumeric (criteriaHeading.toList ++ "\n\n".toList ++ clauses) = added) :
    Joins isAlphanumeric task (before ++ (closedWith section_ block after ++ after)) added ↔
      (if (atSectionEnd isAlphanumeric before section_).inside then added else []) ++ criteriaIn isAlphanumeric after =
        criteriaIn isAlphanumeric after ++ added := by
  obtain ⟨haccepted, hsections⟩ := accepted_closedWith h htask hblock
  have hread := (atSectionEnd_closedWith isAlphanumeric h hblock).2
  rw [hadded] at hread
  have hcriteria : criteriaIn isAlphanumeric (before ++ (closedWith section_ block after ++ after)) =
      criteriaIn isAlphanumeric task ++ added ↔
      (if (atSectionEnd isAlphanumeric before section_).inside then added else []) ++ criteriaIn isAlphanumeric after =
        criteriaIn isAlphanumeric after ++ added := by
    rw [criteriaIn_of_sections hsections, criteriaIn_of_sections h, hread, List.append_assoc, List.append_assoc, List.append_cancel_left_eq]
  have hclosing : closedWith section_ block after =
      trimEndChars section_ ++ ("\n\n".toList ++ block ++ if after = [] then [] else ['\n']) := by
    rw [closedWith]
    simp only [List.append_assoc]
  exact ⟨fun hjoins => hcriteria.mp hjoins.criteria,
    fun heq => ⟨haccepted, hcriteria.mpr heq, before, section_, after, _, h, by rw [← hclosing]; exact hsections⟩⟩

/-- two merges of one base into two branches -/
def mergeInto (branch : String) (h : '\n' ∉ branch.toList) : MergeInProgress where
  branchName := branch
  baseCommit := "c0ffee"
  paths := ["Cargo.lock"]
  oneLine := by
    intro named hnamed
    simp only [List.mem_cons, List.not_mem_nil, or_false] at hnamed
    obtain rfl | rfl | rfl := hnamed
    · exact h
    · decide
    · decide

theorem mergeInto_differ : trimChars (mergeResolutionCriterion (mergeInto "a" (by decide))) ≠
    trimChars (mergeResolutionCriterion (mergeInto "b" (by decide))) := by
  let filled (branch : String) (template : List Char) :=
    replace "\x7bpaths\x7d".toList (listedPaths ["Cargo.lock"]) <|
      replace "\x7bbranch\x7d".toList branch.toList <| replace "\x7bbase_commit\x7d".toList "c0ffee".toList template
  have hfilled : ∃ template, mergeResolutionTemplate.toList = template ∧ trimChars (filled "a" template) ≠ trimChars (filled "b" template) := by
    unfold mergeResolutionTemplate
    rw [String.toList_append, String.toList_append, String.toList_ofList, String.toList_ofList, String.toList_ofList]
    exact ⟨_, rfl, by decide +kernel⟩
  obtain ⟨template, htemplate, hdiffer⟩ := hfilled
  unfold mergeResolutionCriterion
  rw [htemplate]
  exact hdiffer

/-- **The one bar.** An amended task is accepted, its criteria are the task's and then the amendment's, and outside its section it is the
task's own text, and so of a merge's criterion over it, exactly where the criteria reader reads the task's section to its end and no
criterion after it. -/
theorem amended_joins (htask : checkCriteria (String.ofList task) = .ok ()) (amendment : List Char) :
    (Joins isAlphanumeric task (amended task amendment)
        (criteriaIn isAlphanumeric (criteriaHeading.toList ++ "\n\n".toList ++ amendmentClauses amendment)) ∧
      ∀ merge, Joins isAlphanumeric (amended task amendment) (withMergeResolution (amended task amendment) merge)
        [trimChars (mergeResolutionCriterion merge)]) ↔
      KeptByReader isAlphanumeric task := by
  obtain ⟨before, section_, after, h⟩ := sections_of_accepted htask
  have hblock := amendmentBlock_block amendment
  obtain ⟨haccepted, hsections⟩ := accepted_closedWith h htask hblock
  have hinside := (atSectionEnd_closedWith isAlphanumeric h hblock).1
  rw [amended_eq h, keptByReader_iff h, joins_iff isAlphanumeric h htask hblock rfl]
  have hmerge (merge : MergeInProgress) := (withMergeResolution_eq hsections merge).symm ▸
    joins_iff isAlphanumeric hsections haccepted (mergeBlock_block merge) (criteriaIn_merge merge)
  rw [forall_congr' hmerge, hinside]
  constructor
  · rintro ⟨-, hmerges⟩
    have hin : (atSectionEnd isAlphanumeric before section_).inside = true := by
      by_contra houtside
      have hlength := congrArg List.length (hmerges (mergeInto "a" (by decide)))
      rw [if_neg houtside] at hlength
      simp at hlength
    refine ⟨hin, ?_⟩
    cases hafter : criteriaIn isAlphanumeric after with
    | nil => rfl
    | cons first rest =>
      have ha := hmerges (mergeInto "a" (by decide))
      have hb := hmerges (mergeInto "b" (by decide))
      rw [if_pos hin, hafter] at ha hb
      exact absurd ((List.cons.inj ha).1.trans (List.cons.inj hb).1.symm) mergeInto_differ
  · rintro ⟨hin, hafter⟩
    rw [if_pos hin, hafter]
    exact ⟨(List.append_nil _), fun merge => by rw [if_pos hin]; rfl⟩

def boundedTask : String := "## What\n\nA cache.\n\n## Acceptance criteria\n\n- It is bounded.\n\n## Additional info\n\nNone.\n"

theorem amended_joins_bounded :
    Joins Char.isAlphanum boundedTask.toList (amended boundedTask.toList "- The bound is 8.".toList)
        (criteriaIn Char.isAlphanum (criteriaHeading.toList ++ "\n\n".toList ++ amendmentClauses "- The bound is 8.".toList)) ∧
      ∀ merge, Joins Char.isAlphanum (amended boundedTask.toList "- The bound is 8.".toList)
        (withMergeResolution (amended boundedTask.toList "- The bound is 8.".toList) merge) [trimChars (mergeResolutionCriterion merge)] := by
  have htask : checkCriteria (String.ofList boundedTask.toList) = .ok () := by
    rw [String.ofList_toList]
    decide
  have hend : criteriaSectionEnd boundedTask.toList = some 61 := by decide
  have hinside : (((lines (boundedTask.toList.take 61)).map trimChars).filter isSectionHeading).getLast? = some criteriaHeading.toList := by
    decide
  have hafter : criteriaIn Char.isAlphanum (boundedTask.toList.drop 61) = [] := by decide
  exact (amended_joins htask _).mpr ⟨61, hend, hinside, hafter⟩

/-! ## An indented heading -/

/-- an indented heading inside the criteria section, which the check and the section's end read as text -/
def indentedTask : String := "## Acceptance criteria\n\n- It is bounded.\n\n  ## Notes\n\nNone.\n"

/-- the amendment goes after the indented heading, where the reader is no longer in the section -/
theorem indented_heading_loses_amendment : checkCriteria (String.ofList indentedTask.toList) = .ok () ∧
    trimChars "- The bound is 8.".toList ≠ [] ∧
    criteriaIn Char.isAlphanum (criteriaHeading.toList ++ "\n\n".toList ++ amendmentClauses "- The bound is 8.".toList) ≠ [] ∧
    criteriaIn Char.isAlphanum (amended indentedTask.toList "- The bound is 8.".toList) =
      criteriaIn Char.isAlphanum indentedTask.toList := by
  have htask : checkCriteria (String.ofList indentedTask.toList) = .ok () := by
    rw [String.ofList_toList]
    decide
  have hopens : trimmedLines indentedTask.toList = criteriaHeading.toList :: (trimmedLines indentedTask.toList).tail ∧
      ∀ l ∈ (trimmedLines indentedTask.toList).tail, isSectionHeading l = false := by decide
  have hsections : Sections indentedTask.toList [] indentedTask.toList [] :=
    ⟨(List.append_nil _).symm, Or.inl rfl, List.not_mem_nil, ⟨_, hopens⟩, Or.inl rfl⟩
  have houtside : (atSectionEnd Char.isAlphanum [] indentedTask.toList).inside = false := by decide
  obtain ⟨-, hclosed⟩ := accepted_closedWith hsections htask (amendmentBlock_block "- The bound is 8.".toList)
  have hread := (atSectionEnd_closedWith Char.isAlphanum hsections (amendmentBlock_block "- The bound is 8.".toList)).2
  rw [houtside] at hread
  refine ⟨htask, by decide, by decide, ?_⟩
  rw [amended_eq hsections, criteriaIn_of_sections hclosed, hread]
  simp [criteriaIn_of_sections hsections]

end OnePipeline
