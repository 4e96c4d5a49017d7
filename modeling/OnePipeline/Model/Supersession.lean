/-
What a landed retry superseded (`src/supersession.rs`): the lineages that landed with the earlier attempts of each, and what
`onevcs` is asked to record of them, by a run's drivers as each lineage lands and by `supersessions --record`.

What `onevcs` answers and whether the journal takes a record are each call's own. A record of what was superseded is kept
beside its envelope; one whose payload does not read is kept as such.
-/
import OnePipeline.Model.Journal
import OnePipeline.Model.Lineage
import OnePipeline.Model.Run

namespace OnePipeline.Supersession

open RunState

/-! ## The walk -/

/-- one earlier attempt of a landed lineage -/
structure Attempt where
  node : String
  branch : String
deriving DecidableEq, Repr

/-- a lineage whose head landed, and the earlier attempts on other branches it superseded, root first -/
structure Lineage where
  node : String
  branch : String
  repo : String
  landing : StatedLanding
  superseded : List Attempt
deriving DecidableEq, Repr

/-- whether the run recorded a node's work reaching its base -/
def landed (s : RunState) (node : String) : Bool :=
  s.landings[node]? = some .landed || node ∈ s.landingCommits

/-- the branch a node's attempt left: its settlement's, else its session's -/
def branchOf (s : RunState) (node : String) : Option String :=
  (s.branches[node]?.filter fun branch => branch ≠ "").or
    ((s.sessions[node]?.or s.abandoned[node]?).map DispatchSession.branch)

/-- where a node's work landed: a commit, else a change request's URL -/
def landingOf (sib : Siblings) (s : RunState) (node : String) : Option StatedLanding :=
  match s.statedLandings[node]? with
  | some (.commit reference) => some (.commit reference)
  | stated =>
    ((s.landingCommits[node]?.bind (StatedLanding.parse sib)).or stated).or
      ((s.knownChangeUrl sib node).bind (StatedLanding.parse sib))

/-- the node each replacement superseded; of two with one replacement, the later -/
def predecessors (s : RunState) : StrMap String := s.superseded.toList.foldl (fun m p => m.insert p.2 p.1) ∅

/-- the attempts before a head, newest first: each once, and never the head -/
def chain (s : RunState) (head : String) : List String :=
  (Chase.gather (fun id => (predecessors s)[id]?) (s.superseded.size + 1) [head] head).tail

/-- the nodes with a landing that superseded another -/
def heads (s : RunState) : List String :=
  ((s.landings.keys ++ s.landingCommits.keys).foldl (fun m id => m.insert id) (∅ : StrSet)).toList.filter fun node =>
    node ∈ predecessors s

/-- one head's lineage, where its branch, its landing and its repository are all on record -/
def lineageOf (sib : Siblings) (s : RunState) (node : String) : Option Lineage := do
  let branch ← branchOf s node
  let landing ← landingOf sib s node
  let repo ← (s.graph.get node).bind Node.repo
  let superseded := (chain s node).reverse.filterMap fun attempt =>
    ((branchOf s attempt).filter fun left => left ≠ branch).map fun left => { node := attempt, branch := left }
  pure { node, branch, repo, landing, superseded }

/-- every landed lineage that has earlier attempts, in head order -/
def lineages (sib : Siblings) (s : RunState) : List Lineage :=
  ((heads s).filter fun node => landed s node).filterMap (lineageOf sib s)

/-! ## What is recorded -/

/-- one attempt `onevcs` would not record, and what it answered -/
structure Unrecorded where
  attempt : Attempt
  error : String
deriving DecidableEq, Repr

/-- what a `branches-superseded` record says -/
structure BranchesSuperseded where
  node : String
  landing : StatedLanding
  superseded : List Attempt
  failed : List Unrecorded

/-- a line of the journal, and what a `branches-superseded` record's payload reads as -/
structure Entry where
  record : Envelope
  payload : Option BranchesSuperseded := none

/-- the node that landed, its landing's reference, and the attempt -/
abbrev RecordedPair : Type := String × String × Attempt

/-- the pairs one entry says `onevcs` recorded -/
def Entry.pairs (entry : Entry) : List RecordedPair :=
  match entry.record.body, entry.payload with
  | .report .branchesSuperseded, some stated =>
    (stated.superseded.filter fun attempt => attempt.node ≠ "" && attempt.branch ≠ "").map fun attempt =>
      (stated.node, stated.landing.reference, attempt)
  | _, _ => []

def recordedIn (journal : List Entry) : List RecordedPair := journal.flatMap Entry.pairs

/-- a lineage's earlier attempts that are not recorded under its head at its landing -/
def unrecorded (lineage : Lineage) (recorded : List RecordedPair) : List Attempt :=
  lineage.superseded.filter fun attempt => (lineage.node, lineage.landing.reference, attempt) ∉ recorded

/-- what `onevcs` is told -/
structure Told where
  repo : String
  branch : String
  supersededBy : String
  landing : String
  run : String
  node : String
  byNode : String

/-- what `onevcs` answers: nothing where it recorded the supersession, or its error -/
abbrev Answers : Type := Told → Option String

/-- what `onevcs` is told of one attempt -/
def tell (run : String) (lineage : Lineage) (attempt : Attempt) : Told where
  repo := lineage.repo
  branch := attempt.branch
  supersededBy := lineage.branch
  landing := lineage.landing.reference
  run := run
  node := attempt.node
  byNode := lineage.node

/-- what one landed lineage's recording did -/
structure Recorded where
  recorded : List Attempt
  failed : List Unrecorded

def record (run : String) (answers : Answers) (lineage : Lineage) (attempts : List Attempt) : Recorded where
  recorded := attempts.filter fun attempt => (answers (tell run lineage attempt)).isNone
  failed := attempts.filterMap fun attempt => (answers (tell run lineage attempt)).map fun error => { attempt, error }

/-- the record of what one lineage's recording did -/
def entryOf (seq : ℕ) (lineage : Lineage) (done : Recorded) : Entry where
  record := .own seq none (.report .branchesSuperseded)
  payload := some { node := lineage.node, landing := lineage.landing, superseded := done.recorded, failed := done.failed }

/-! ## Who asks -/

/-- one question put to `onevcs`: whether it recorded the attempt, and whether the journal took the record of it -/
structure Asked where
  lineage : Lineage
  attempt : Attempt
  accepted : Bool
  journalled : Bool

def Asked.pair (asked : Asked) : RecordedPair := (asked.lineage.node, asked.lineage.landing.reference, asked.attempt)

/-- what a driver holds of it: the pairs it knows recorded, and the heads it has answered -/
structure Watch where
  recorded : List RecordedPair := []
  answered : List String := []

/-- what the process asking is answered: by `onevcs`, and by the journal as it appends a lineage's record -/
structure Service where
  run : String
  answers : Answers
  takes : Lineage → Bool

/-- a turn over lineages as far as it has come: it is over where the journal took no record -/
structure Turn where
  watch : Watch
  journal : List Entry
  asked : List Asked := []
  ended : Bool := false

/-- one lineage's pending attempts asked and journalled -/
def Turn.ask (service : Service) (t : Turn) (lineage : Lineage) (pending : List Attempt) : Turn :=
  let done := record service.run service.answers lineage pending
  let asked := pending.map fun attempt =>
    { lineage, attempt, accepted := attempt ∈ done.recorded, journalled := service.takes lineage : Asked }
  if service.takes lineage then
    { t with
      watch := { t.watch with
        recorded := t.watch.recorded ++ done.recorded.map fun attempt => (lineage.node, lineage.landing.reference, attempt) }
      journal := t.journal ++ [entryOf t.journal.length lineage done]
      asked := t.asked ++ asked }
  else { t with asked := t.asked ++ asked, ended := true }

/-- one lineage in a driver's pass: answered once, whether or not anything was pending -/
def Turn.passOver (service : Service) (t : Turn) (lineage : Lineage) : Turn :=
  if t.ended || lineage.node ∈ t.watch.answered then t
  else
    let t := { t with watch := { t.watch with answered := t.watch.answered ++ [lineage.node] } }
    match unrecorded lineage t.watch.recorded with
    | [] => t
    | pending => t.ask service lineage pending

/-- `Watch::pass` -/
def Watch.pass (service : Service) (watch : Watch) (lineages : List Lineage) (journal : List Entry) : Turn :=
  lineages.foldl (Turn.passOver service) { watch, journal }

/-- one lineage in a `supersessions --record`: asked of what the journal did not record as the call read it -/
def Turn.recordOver (service : Service) (already : List RecordedPair) (t : Turn) (lineage : Lineage) : Turn :=
  if t.ended then t
  else
    match unrecorded lineage already with
    | [] => t
    | pending => t.ask service lineage pending

/-! ## A run, its drivers and the calls beside it -/

structure World where
  journal : List Entry := []
  driver : Option Watch := none
  /-- every question put to `onevcs`, in the order they were -/
  asked : List Asked := []

inductive Op where
  /-- a record of the run's own writers -/
  | append (record : Envelope)
  | launch
  | exits
  | pass (service : Service)
  /-- a reply that applied a settle with nothing driving the run -/
  | recordLanded (service : Service)
  /-- `supersessions --record` -/
  | supersessions (service : Service)

/-- the run's state, as its journal folds in the order it was appended in -/
def World.state (host : Host) (w : World) : RunState := fold host (w.journal.map Entry.record)

/-- the run's state, as `supersessions` reads it -/
def World.read (host : Host) (w : World) : RunState := fold host (mergeOrder (w.journal.map Entry.record))

/-- the turn one step takes over the lineages it reads; the two calls are refused where a driver holds the run -/
def World.turn (host : Host) (w : World) : Op → Option Turn
  | .pass service => w.driver.map fun watch => watch.pass service (lineages host.toSiblings (w.state host)) w.journal
  | .recordLanded service =>
    if w.driver.isSome then none
    else some (Watch.pass service { recorded := recordedIn w.journal } (lineages host.toSiblings (w.state host)) w.journal)
  | .supersessions service =>
    if w.driver.isSome then none
    else some ((lineages host.toSiblings (w.read host)).foldl (Turn.recordOver service (recordedIn w.journal))
      { watch := {}, journal := w.journal })
  | _ => none

/-- what a step asks of `onevcs` -/
def World.asks (host : Host) (w : World) (op : Op) : List Asked := ((w.turn host op).map Turn.asked).getD []

def World.step (host : Host) (w : World) (op : Op) : World :=
  match op with
  | .append record => { w with journal := w.journal ++ [{ record }] }
  | .launch => { w with driver := w.driver.or (some { recorded := recordedIn w.journal }) }
  | .exits => { w with driver := none }
  | op =>
    match w.turn host op with
    | none => w
    | some t => { journal := t.journal, driver := w.driver.map fun _ => t.watch, asked := w.asked ++ t.asked }

end OnePipeline.Supersession
