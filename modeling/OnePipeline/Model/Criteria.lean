/-
The criteria the engine reads off a task (`src/criteria.rs`: `criteria_in`), and the one the engine adds to a dispatch whose session opened
with a merge unfinished (`src/plan.rs`: `with_merge_resolution`).

Which characters are alphanumeric is given.
-/
import Mathlib.Tactic
import OnePipeline.Model.Task

namespace OnePipeline

open Text

/-! ## The reader -/

/-- the bullets read so far, whether the line is in the criteria section, and whether the last bullet is still being read -/
structure CriteriaReader where
  criteria : List (List Char) := []
  inside : Bool := false
  «open» : Bool := false
deriving DecidableEq

def CriteriaReader.read (isAlphanumeric : Char → Bool) (s : CriteriaReader) (line : List Char) : CriteriaReader :=
  let trimmed := trimChars line
  if startsWith ['#'] trimmed then
    { s with
      inside := if isSectionHeading trimmed then trimmed = criteriaHeading.toList else s.inside
      «open» := false }
  else if !s.inside then s
  else
    match (stripPrefix "- ".toList trimmed).or (stripPrefix "* ".toList trimmed) with
    | some bullet => { s with criteria := s.criteria ++ [trimChars bullet], «open» := true }
    | none =>
      if trimmed.isEmpty || line.head?.any isAlphanumeric then { s with «open» := false }
      else if s.open then { s with criteria := s.criteria.modifyLast fun last => last ++ ' ' :: trimmed }
      else s

/-- the criteria of one task, as bullets, in the order they were written -/
def criteriaIn (isAlphanumeric : Char → Bool) (task : List Char) : List (List Char) :=
  ((lines task).foldl (CriteriaReader.read isAlphanumeric) {}).criteria

/-! ## A merge left unfinished -/

/-- a merge a session opened with; what git names it by is one line each -/
structure MergeInProgress where
  branchName : String
  baseCommit : String
  paths : List String
  oneLine : ∀ named ∈ branchName :: baseCommit :: paths, '\n' ∉ named.toList

def mergeResolutionHeading : String := "### Merge resolution"

def mergeResolutionPreamble : String :=
  "The engine added this criterion because this dispatch's session opened with an unfinished merge of its base into its branch."

def mergeResolutionTemplate : String :=
  "The merge of `\x7bbase_commit\x7d` into `\x7bbranch\x7d` is concluded by a commit on `\x7bbranch\x7d` whose parents include " ++
    "`\x7bbase_commit\x7d`; no merge is in progress; no path is unmerged; no conflict marker remains in \x7bpaths\x7d; and the " ++
    "checks that exercise the files the resolution touched are green over the finished tree."

def listedPaths (paths : List String) : List Char := join ", ".toList (paths.map fun path => "`".toList ++ path.toList ++ "`".toList)

def mergeResolutionCriterion (merge : MergeInProgress) : List Char :=
  replace "\x7bpaths\x7d".toList (listedPaths merge.paths) <|
    replace "\x7bbranch\x7d".toList merge.branchName.toList <|
      replace "\x7bbase_commit\x7d".toList merge.baseCommit.toList mergeResolutionTemplate.toList

def crossRepoReferencesHeading : String := "## Cross-repository references"

/-- the offset of the last line that reads a heading -/
def lastLineFrom (heading : String) : ℕ → List (List Char) → Option ℕ
  | _, [] => none
  | at_, l :: ls => (lastLineFrom heading (at_ + l.length) ls).or (if trimEndChars l = heading.toList then some at_ else none)

def lastLineAt (task : List Char) (heading : String) : Option ℕ := lastLineFrom heading 0 (splitInclusive task)

/-- the merge's criterion closing a task's criteria section, or in a section above its notes where it states none -/
def withMergeResolution (task : List Char) (merge : MergeInProgress) : List Char :=
  let gap := "\n\n".toList
  let block := mergeResolutionHeading.toList ++ ['\n'] ++ mergeResolutionPreamble.toList ++ gap ++ "- ".toList ++
    mergeResolutionCriterion merge ++ ['\n']
  match criteriaSectionEnd task with
  | some e =>
    let bar := task.take e
    let rest := task.drop e
    if (trimChars rest).isEmpty then trimEndChars bar ++ gap ++ block
    else trimEndChars bar ++ gap ++ block ++ ['\n'] ++ rest
  | none =>
    let block := criteriaHeading.toList ++ gap ++ block
    let rendered := [plannerContextHeading, crossRepoReferencesHeading].filterMap (lastLineAt task)
    match (additionalInfoAt task).or rendered.min? with
    | some i => trimEndChars (task.take i) ++ gap ++ block ++ ['\n'] ++ task.drop i
    | none => trimEndChars task ++ gap ++ block

end OnePipeline
