/-
Task prose (`src/plan.rs`, `src/note.rs`): the one bar a task states (C6b), the task a dispatch receives with its
amendment and planner context rendered into it, and the planner context carried notes accumulate in.

Text is cut and joined as lists of characters; offsets the source counts in bytes are counted here in characters,
since they are only ever used to cut the same text again.
-/
import Mathlib.Tactic
import OnePipeline.Model.Plan

namespace OnePipeline

open Text

/-! ## Lines -/

/-- `str::split_inclusive('\n')` -/
def splitInclusive : List Char → List (List Char)
  | [] => []
  | c :: cs =>
    if c = '\n' then [c] :: splitInclusive cs
    else
      match splitInclusive cs with
      | [] => [[c]]
      | l :: ls => (c :: l) :: ls

/-- a line without the terminator `str::lines` takes off: `\n`, or `\r\n` -/
def stripEol (l : List Char) : List Char :=
  match l.reverse with
  | '\n' :: '\r' :: rest => rest.reverse
  | '\n' :: rest => rest.reverse
  | _ => l

/-- `str::lines` -/
def lines (l : List Char) : List (List Char) := (splitInclusive l).map stripEol

def trimChars (l : List Char) : List Char := trimEndChars (trimStartChars l)

def isAsciiDigit (c : Char) : Bool := 48 ≤ c.toNat && c.toNat ≤ 57

/-! ## The one bar -/

def criteriaHeading : String := "## Acceptance criteria"

def additionalInfoHeading : String := "## Additional info"

inductive CriteriaRule where
  | noSection
  | repeated
  | noneListed
deriving DecidableEq, Repr

def CriteriaRule.asStr : CriteriaRule → String
  | noSection => "no criteria section"
  | repeated => "criteria section repeated"
  | noneListed => "no criteria listed"

/-- whether a line is a list item the bar counts: `- `, `* ` or `N. `, and text that is not blank -/
def criterionListed (line : List Char) : Bool :=
  let digits := line.takeWhile isAsciiDigit
  let text :=
    (stripPrefix "- ".toList line).or <| (stripPrefix "* ".toList line).or <|
      if digits.isEmpty then none else stripPrefix ". ".toList (line.drop digits.length)
  match text with
  | some t => !(trimChars t).isEmpty
  | none => false

/-- C6b over one task: one criteria section, with at least one criterion listed in it -/
def checkCriteria (task : String) : Except CriteriaRule Unit :=
  let ls := (lines task.toList).map trimEndChars
  match ls.dropWhile (· ≠ criteriaHeading.toList) with
  | [] => .error .noSection
  | _ :: rest =>
    if criteriaHeading.toList ∈ rest then .error .repeated
    else if (rest.takeWhile fun l => !startsWith "## ".toList l).any fun l => criterionListed (trimStartChars l) then
      .ok ()
    else .error .noneListed

/-! ## Amendments -/

def amendmentHeading : String := "### Amendment"

def amendmentPrecedence : String :=
  "This node's manager amended its bar. Every clause below is an acceptance criterion of this node and takes " ++
    "precedence over the whole task: where a clause here contradicts a criterion above it, anything the task says " ++
    "elsewhere, or an operational note below, the clause here wins and the contradicted one no longer binds."

def headingText (line : List Char) : Option (List Char) :=
  let text := line.dropWhile (· = '#')
  if text.length = line.length then none
  else if text.isEmpty || startsWith [' '] text then some (trimChars text)
  else none

def listItem (line : List Char) : Option (List Char) :=
  let digits := line.takeWhile isAsciiDigit
  let rest := line.drop digits.length
  let marked :=
    (stripPrefix "- ".toList line).or <| (stripPrefix "* ".toList line).or <| (stripPrefix "+ ".toList line).or <|
      if digits.isEmpty then none else (stripPrefix ". ".toList rest).or (stripPrefix ") ".toList rest)
  marked.map trimChars

/-- the lines of a rendered amendment so far, and the clause still open -/
structure Clauses where
  lines : List (List Char) := []
  «open» : Option (List Char) := none

def Clauses.close (c : Clauses) : Clauses :=
  match c.open with
  | some clause => { lines := c.lines ++ ["- ".toList ++ clause], «open» := none }
  | none => c

def Clauses.take (c : Clauses) (line : List Char) : Clauses :=
  let trimmed := trimChars line
  if trimmed.isEmpty then c.close
  else
    match headingText trimmed with
    | some text =>
      if text.isEmpty then c.close
      else { c.close with lines := c.close.lines ++ [[], "**".toList ++ text ++ "**".toList, []] }
    | none =>
      match listItem trimmed with
      | some item => { c.close with «open» := some item }
      | none =>
        match c.open with
        | some clause => { c with «open» := some (clause ++ [' '] ++ trimmed) }
        | none => { c with «open» := some trimmed }

/-- the rendered lines, with no two blank ones together and none in front; `blank` is whether the last was -/
def renderLines : Bool → List (List Char) → List Char
  | _, [] => []
  | blank, l :: ls =>
    if l.isEmpty then (if blank then [] else ['\n']) ++ renderLines true ls
    else l ++ ['\n'] ++ renderLines false ls

def amendmentClauses (amendment : List Char) : List Char :=
  renderLines true ((lines amendment).foldl Clauses.take {}).close.lines

def isSectionHeading (line : List Char) : Bool := startsWith "##".toList line && !startsWith "###".toList line

/-- where the criteria section of a task ends, walking its lines from offset `at_` -/
def sectionEndFrom : Bool → ℕ → List (List Char) → Option ℕ
  | inside, at_, [] => if inside then some at_ else none
  | inside, at_, l :: ls =>
    let trimmed := trimEndChars l
    if inside && isSectionHeading trimmed then some at_
    else sectionEndFrom (inside || trimmed = criteriaHeading.toList) (at_ + l.length) ls

def criteriaSectionEnd (task : List Char) : Option ℕ := sectionEndFrom false 0 (splitInclusive task)

def infoFrom : ℕ → List (List Char) → Option ℕ
  | _, [] => none
  | at_, l :: ls => if trimEndChars l = additionalInfoHeading.toList then some at_ else infoFrom (at_ + l.length) ls

def additionalInfoAt (task : List Char) : Option ℕ := infoFrom 0 (splitInclusive task)

def amended (task amendment : List Char) : List Char :=
  let gap := "\n\n".toList
  let block := amendmentHeading.toList ++ ['\n'] ++ amendmentPrecedence.toList ++ gap ++ amendmentClauses amendment
  match criteriaSectionEnd task with
  | some e =>
    let bar := task.take e
    let rest := task.drop e
    if (trimChars rest).isEmpty then trimEndChars bar ++ gap ++ block
    else trimEndChars bar ++ gap ++ block ++ ['\n'] ++ rest
  | none =>
    let block := criteriaHeading.toList ++ gap ++ block
    match additionalInfoAt task with
    | some i => trimEndChars (task.take i) ++ gap ++ block ++ ['\n'] ++ task.drop i
    | none => trimEndChars task ++ gap ++ block

/-! ## The rendered task -/

def plannerContextHeading : String := "## Planner context"

def observedState : String := "This reports observed state and adds no acceptance criteria."

/-- the task prose a node's dispatch receives, of a node with no dependency outside its repository -/
def renderTask (task : String) (amendment context : Option String) : String :=
  let body :=
    match amendment.map fun t => trimChars t.toList with
    | some t => if t.isEmpty then task.toList else amended task.toList t
    | none => task.toList
  match context.map fun t => trimChars t.toList with
  | some t =>
    if t.isEmpty then String.ofList body
    else
      String.ofList (trimEndChars body ++ "\n\n".toList ++ plannerContextHeading.toList ++ ['\n'] ++
        observedState.toList ++ "\n\n".toList ++ t ++ ['\n'])
  | none => String.ofList body

def Node.renderedTask (n : Node) : String := renderTask (n.task.getD "") n.amendment n.context

/-! ## Carried notes -/

def carriedSeparator : List Char := "\n\n".toList

/-- the text with no separator left in it: each pass writes a space between the line breaks of every pair -/
def unseparated : ℕ → List Char → List Char
  | 0, l => l
  | fuel + 1, l =>
    if contains carriedSeparator l then unseparated fuel (replace carriedSeparator "\n \n".toList l) else l

/-- a carried note as its node's planner context holds it -/
def entryOf (text : String) : List Char :=
  let t := trimChars text.toList
  unseparated t.length t

/-- the planner context a node holds once a note no turn took is carried onto it -/
def withCarried (context : Option String) (text : String) : String :=
  match context with
  | some c =>
    if isBlank c then String.ofList (entryOf text)
    else String.ofList (c.toList ++ carriedSeparator ++ entryOf text)
  | none => String.ofList (entryOf text)

/-- the indices of the entries reading `entry` -/
def alike (entry : List Char) (entries : List (List Char)) : List ℕ :=
  entries.zipIdx.filterMap fun p => if p.1 = entry then some p.2 else none

/-- the planner context left once the carried note reading `text` is withdrawn from it -/
def withoutCarried (context text : String) (alikeAfter : ℕ) : Option String :=
  let entries := split carriedSeparator context.toList
  match (alike (entryOf text) entries).reverse[alikeAfter]? with
  | none => some context
  | some i =>
    let left := join carriedSeparator (entries.eraseIdx i)
    if (trimChars left).isEmpty then none else some (String.ofList left)

example : withCarried (some "one") "two\n\nthree" = "one\n\ntwo\n \nthree" := by decide

example : withoutCarried "one\n\ntwo\n\none" "one" 1 = some "two\n\none" := by decide

end OnePipeline
