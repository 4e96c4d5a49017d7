/-
A run's changes (`src/changes.rs`): each lineage of nodes from its first dispatch to its landing, folded from the records
that name it, and its interval divided among the segments.

Times are natural numbers of milliseconds, the document's seconds among them: each is a number of milliseconds over a
thousand, in the document and in a gate run's own record.
-/
import Mathlib.Tactic
import OnePipeline.Core.Chase
import OnePipeline.Core.Cuts
import OnePipeline.Model.Projection
import OnePipeline.Model.Telemetry
import OnePipeline.Model.Timestamp

namespace OnePipeline.Changes

open Telemetry (Source)

/-! ## Records -/

/-- one record as the view reads it -/
structure Event where
  ts : String
  source : Source
  kind : String
  node : Option String := none
  member : Option String := none
  /-- the repository its labels name -/
  identity : Option Value := none
  payload : Fields := ∅
  /-- the milliseconds a payload's `seconds` is exactly, where it is exactly some -/
  ms : Option ℕ := none

/-- a payload's text of a name -/
def Event.text (event : Event) (name : String) : Option String := event.payload[name]?.bind Value.asStr

/-- an instant as every producer stamps one -/
structure Stamp where
  spelled : String
deriving DecidableEq, Repr

namespace Stamp

def «at» (millis : ℕ) : Stamp := ⟨rfc3339FromMillis millis⟩

/-- a stamp in the one shape this view reads -/
def read (spelled : String) : Option Stamp := (millisOf spelled).map fun _ => ⟨spelled⟩

def millis (stamp : Stamp) : ℕ := (millisOf stamp.spelled).getD 0

end Stamp

/-! ## Gate runs -/

inductive GateName where
  | prePush
  | requiredChecks
deriving DecidableEq, Repr

def GateName.parse : String → Option GateName
  | "pre-push" => some .prePush
  | "required-checks" => some .requiredChecks
  | _ => none

inductive GateVerdict where
  | passed
  | failed
  | noVerdict
  | passedWithSkipped
deriving DecidableEq, Repr

def GateVerdict.parse : String → Option GateVerdict
  | "passed" => some .passed
  | "failed" => some .failed
  | "no-verdict" => some .noVerdict
  | "passed-with-skipped" => some .passedWithSkipped
  | _ => none

/-- one completed gate run, over an interval that holds together -/
structure GateRun where
  gate : GateName
  attempt : ℕ
  startedAt : Stamp
  endedAt : Stamp
  ms : ℕ
  verdict : GateVerdict
  ordered : startedAt.millis ≤ endedAt.millis
  exact : ms = endedAt.millis - startedAt.millis

def GateRun.span (run : GateRun) : ℕ × ℕ := (run.startedAt.millis, run.endedAt.millis)

/-- a `u64` as JSON carries one -/
def u64 : Value → Option ℕ
  | .num n => if 0 ≤ n ∧ n < 2 ^ 64 then some n.toNat else none
  | _ => none

/-- one `gate-run` payload, where it reads -/
def gateRun (event : Event) : Option GateRun := do
  let gate ← (event.text "gate").bind GateName.parse
  let attempt ← event.payload["attempt"]?.bind u64
  let startedAt ← (event.text "started_at").bind Stamp.read
  let endedAt ← (event.text "ended_at").bind Stamp.read
  let ms ← event.ms
  let verdict ← (event.text "verdict").bind GateVerdict.parse
  if h : startedAt.millis ≤ endedAt.millis ∧ ms = endedAt.millis - startedAt.millis then
    some { gate, attempt, startedAt, endedAt, ms, verdict, ordered := h.1, exact := h.2 }
  else none

/-! ## Segments -/

inductive Segment where
  | agent
  | scheduling
  | gate
  | publication
  | reviewWait
  | mergeQueue
  | releaseWait
  | other
deriving DecidableEq, Repr

namespace Segment

def all : List Segment := [agent, scheduling, gate, publication, reviewWait, mergeQueue, releaseWait, other]

def asStr : Segment → String
  | agent => "agent"
  | scheduling => "scheduling"
  | gate => "gate"
  | publication => "publication"
  | reviewWait => "review_wait"
  | mergeQueue => "merge_queue"
  | releaseWait => "release_wait"
  | other => "other"

end Segment

/-- where a change's interval went -/
structure Segments where
  agent : ℕ := 0
  scheduling : ℕ := 0
  gate : ℕ := 0
  publication : ℕ := 0
  reviewWait : ℕ := 0
  mergeQueue : ℕ := 0
  releaseWait : ℕ := 0
  other : ℕ := 0
deriving DecidableEq, Repr

namespace Segments

def get (segments : Segments) : Segment → ℕ
  | .agent => segments.agent
  | .scheduling => segments.scheduling
  | .gate => segments.gate
  | .publication => segments.publication
  | .reviewWait => segments.reviewWait
  | .mergeQueue => segments.mergeQueue
  | .releaseWait => segments.releaseWait
  | .other => segments.other

/-- more milliseconds of one segment -/
def add (segments : Segments) (segment : Segment) (ms : ℕ) : Segments :=
  match segment with
  | .agent => { segments with agent := segments.agent + ms }
  | .scheduling => { segments with scheduling := segments.scheduling + ms }
  | .gate => { segments with gate := segments.gate + ms }
  | .publication => { segments with publication := segments.publication + ms }
  | .reviewWait => { segments with reviewWait := segments.reviewWait + ms }
  | .mergeQueue => { segments with mergeQueue := segments.mergeQueue + ms }
  | .releaseWait => { segments with releaseWait := segments.releaseWait + ms }
  | .other => { segments with other := segments.other + ms }

def total (segments : Segments) : ℕ := (Segment.all.map segments.get).sum

@[simp] theorem get_add (segments : Segments) (segment name : Segment) (ms : ℕ) :
    (segments.add segment ms).get name = segments.get name + if name = segment then ms else 0 := by
  cases segment <;> cases name <;> simp [add, get]

@[simp] theorem total_add (segments : Segments) (segment : Segment) (ms : ℕ) :
    (segments.add segment ms).total = segments.total + ms := by
  cases segment <;> simp [total, Segment.all, add, get] <;> omega

end Segments

/-! ## The division -/

/-- what a change is doing, carried forward from the record that put it there -/
inductive State where
  | agent
  | scheduling
  | publication
  | reviewWait
  | mergeQueue
  | releaseWait
  | awaitingMerge
  | finished
deriving DecidableEq, Repr

/-- the segment of a slice no gate covers -/
def segmentOf : Option State → Segment
  | some .agent => .agent
  | some .scheduling => .scheduling
  | some .publication => .publication
  | some .reviewWait => .reviewWait
  | some .mergeQueue => .mergeQueue
  | some .releaseWait => .releaseWait
  | some .awaitingMerge => .other
  | some .finished => .other
  | none => .other

/-- a division under way: the transitions not come to, the state last come to, and what was spent -/
structure Slicing where
  rest : List (ℕ × State)
  now : Option State := none
  spent : Segments := {}
  awaiting : ℕ := 0

/-- the transitions at or before an instant come to -/
def Slicing.reach (st : Slicing) (from' : ℕ) : Slicing :=
  { st with
    rest := st.rest.dropWhile fun p => p.1 ≤ from'
    now := ((st.rest.takeWhile fun p => p.1 ≤ from').getLast?.map Prod.snd).or st.now }

/-- one slice, named and spent -/
def Slicing.slice (gates : List (ℕ × ℕ)) (st : Slicing) (w : ℕ × ℕ) : Slicing :=
  let st := st.reach w.1
  if Cuts.covered gates w then { st with spent := st.spent.add .gate (w.2 - w.1) }
  else
    { st with
      spent := st.spent.add (segmentOf st.now) (w.2 - w.1)
      awaiting := if st.now = some .awaitingMerge then st.awaiting + (w.2 - w.1) else st.awaiting }

/-- an interval divided among the segments, and how much of `other` was a change request awaiting its merge -/
def slices (start stop : ℕ) (transitions : List (ℕ × State)) (gates : List (ℕ × ℕ)) : Segments × ℕ :=
  let sorted := transitions.insertionSort fun a b => a.1 ≤ b.1
  let cuts := Cuts.within start stop (sorted.map Prod.fst ++ gates.flatMap fun g => [g.1, g.2])
  let st := (Cuts.windows cuts).foldl (Slicing.slice gates) { rest := sorted }
  (st.spent, st.awaiting)

/-! ## One lineage's records -/

/-- the records a publication writes and nothing else does -/
def publishingKinds : List String :=
  ["published", "push", "gate-run", "change-opened", "checks-settled", "merge-queued", "merge-completed", "change-merged",
    "sync-conflict", "draft-kept-for-review"]

def landedKinds : List String := ["merge-completed", "change-merged"]

def openedKinds : List String := ["change-opened", "change-drafted"]

/-- a lineage's records, read so far -/
structure Cycling where
  dispatchedAt : Option ℕ := none
  dispatches : ℕ := 0
  publicationAttempts : ℕ := 0
  /-- per member: whether its current dispatch's closeout has published yet -/
  publishing : StrMap Bool := ∅
  transitions : List (ℕ × State) := []
  stateNow : Option State := none
  openMembers : StrSet := ∅
  openedChange : Bool := false
  /-- what a change request opened as a draft for a reason is waiting on -/
  heldFor : Option State := none
  gateRuns : List GateRun := []
  landed : Option (Option Stamp × Option String) := none
  repository : Option String := none
  sessionBranch : Option String := none
  openedUrl : Option String := none

namespace Cycling

/-- the earlier of an instant and the ones before it -/
def firstOf (first : Option ℕ) (ms : ℕ) : ℕ := first.elim ms fun first => min first ms

/-- a dispatch: the one before it of the same node is over -/
def dispatched (c : Cycling) (node : String) (ms : Option ℕ) : Cycling :=
  { c with
    dispatches := c.dispatches + 1
    dispatchedAt := match ms with
      | some ms => some (firstOf c.dispatchedAt ms)
      | none => c.dispatchedAt
    publishing := c.publishing.insert node false
    publicationAttempts := if c.publishing[node]? = some true then c.publicationAttempts + 1 else c.publicationAttempts
    openMembers := ∅ }

/-- what a settlement leaves the change doing -/
def settledTo (c : Cycling) (event : Event) : State :=
  match event.text "outcome" with
  | some "change-review-draft" => .reviewWait
  | some "change-draft" => c.heldFor.getD .releaseWait
  | some "held-for-release" => .releaseWait
  | some "queued" => .mergeQueue
  | some "change-open" => .awaitingMerge
  | _ => if event.text "status" ≠ some "done" then .scheduling else .finished

/-- one of this crate's own records -/
def pipeline (c : Cycling) (event : Event) (node : String) (ms : Option ℕ) : Cycling × Option State :=
  match event.kind with
  | "node-dispatched" => (c.dispatched node ms, some .agent)
  | "node-settled" => (c, some (c.settledTo event))
  | "node-requeued" => (c, some .scheduling)
  | "node-held" => (c, some .scheduling)
  | "release-wait" => (c, some .releaseWait)
  | _ => (c, none)

/-- one of a dispatch's own records: a node that publishes is in its closeout once every member it started has settled -/
def agentgraph (c : Cycling) (lifecycle : Bool) (event : Event) : Cycling × Option State :=
  match event.kind with
  | "member-started" =>
    ({ c with openMembers := match event.member with
        | some member => c.openMembers.insert member
        | none => c.openMembers }, some .agent)
  | "member-settled" =>
    let c := { c with openMembers := match event.member with
      | some member => c.openMembers.erase member
      | none => c.openMembers }
    (c, if lifecycle ∧ c.openMembers = ∅ ∧ c.stateNow = some .agent then some .publication else none)
  | _ => (c, none)

/-- what a session record says of its repository, its branch and its change request -/
def named (c : Cycling) (event : Event) (node : String) (closing : Bool) : Cycling :=
  { c with
    repository := ((event.identity.or event.payload["identity"]?).bind Value.asStr).or c.repository
    sessionBranch := if event.kind = "session-opened" then (event.text "branch").or c.sessionBranch else c.sessionBranch
    publishing := if closing ∧ event.kind ∈ publishingKinds then c.publishing.insert node true else c.publishing
    openedChange := c.openedChange || event.kind ∈ openedKinds
    openedUrl := if event.kind ∈ openedKinds then (event.text "url").or c.openedUrl else c.openedUrl
    heldFor :=
      if event.kind = "change-drafted" then
        match event.text "kind" with
        | some "held" => some .reviewWait
        | some "awaiting-release" => some .releaseWait
        | _ => c.heldFor
      else c.heldFor }

/-- what a session record says of a gate and of the landing -/
def measured (c : Cycling) (event : Event) : Cycling :=
  { c with
    gateRuns := if event.kind = "gate-run" then c.gateRuns ++ (gateRun event).toList else c.gateRuns
    landed :=
      if event.kind ∈ landedKinds ∧ c.landed = none then
        some ((event.text "landed_at").bind Stamp.read,
          (event.payload["landing"]?.or event.payload["sha"]?).bind Value.asStr)
      else c.landed }

/-- what a session record of a closeout leaves the change doing -/
def closeoutTo (c : Cycling) (event : Event) : Option State :=
  match event.kind with
  | "checks-settled" => if c.heldFor.isSome then c.heldFor else if c.openedChange then some .awaitingMerge else none
  | "draft-kept-for-review" => some .reviewWait
  | "merge-queued" => some .mergeQueue
  | "push" => some .publication
  | "change-opened" => some .publication
  | "change-drafted" => some .publication
  | "draft-lifted" => some .publication
  | "sync-conflict" => some .publication
  | _ => none

/-- one of a session's records -/
def vcs (c : Cycling) (event : Event) (node : String) : Cycling × Option State :=
  let closing := c.stateNow.any fun now => now ≠ .agent
  let c := (c.named event node closing).measured event
  (c, if closing then c.closeoutTo event else none)

/-- a draft kept for its user's review: what the change has waited on since its checks settled is the review -/
def keptForReview (transitions : List (ℕ × State)) : List (ℕ × State) :=
  match transitions.getLast? with
  | some (ms, .awaitingMerge) => transitions.dropLast ++ [(ms, .reviewWait)]
  | _ => transitions

/-- the state a record leaves, and when -/
def moved (c : Cycling) (event : Event) (ms : Option ℕ) (to' : Option State) : Cycling :=
  let transitions := if event.kind = "draft-kept-for-review" then keptForReview c.transitions else c.transitions
  match to' with
  | some state =>
    { c with
      stateNow := some state
      transitions := match ms with
        | some ms => transitions ++ [(ms, state)]
        | none => transitions }
  | none => { c with transitions }

/-- one record -/
def record (lifecycle : Bool) (c : Cycling) (event : Event) : Cycling :=
  match event.node with
  | none => c
  | some node =>
    let ms := millisOf event.ts
    let (c, to') := match event.source with
      | .pipeline => c.pipeline event node ms
      | .agentgraph => c.agentgraph lifecycle event
      | .vcs => c.vcs event node
    c.moved event ms to'

end Cycling

/-! ## A change -/

structure ChangeCycle where
  node : String
  lineage : List String
  repository : Option String
  branch : Option String
  changeUrl : Option String
  outcome : String
  dispatchedAt : Stamp
  landedAt : Option Stamp
  landing : Option String
  cycleMs : Option ℕ
  dispatches : ℕ
  publicationAttempts : ℕ
  gateRuns : List GateRun
  gateMs : ℕ
  segments : Segments
  notMeasured : List Segment

/-- whether any of a lineage publishes -/
def publishes (s : RunState) (lineage : List String) (records : List Event) : Bool :=
  (lineage.any fun member => (s.graph.get member).any fun node => node.repo.isSome) || records.any fun event => event.source = .vcs

/-- the segments, where no gate run says what of a publication was a gate's -/
def undecided (gatesRecorded lifecycle : Bool) (spent : Segments) : Segments :=
  if !gatesRecorded && lifecycle then { spent with publication := 0, other := spent.other + spent.publication } else spent

def notMeasured (gatesRecorded lifecycle : Bool) (awaiting : ℕ) : List Segment :=
  (if gatesRecorded then [] else if lifecycle then [.gate, .publication] else [.gate]) ++
    if 0 < awaiting then [.reviewWait] else []

/-- one lineage's change, where it was dispatched -/
def cycle (s : RunState) (lineage : List String) (records : List Event) (last : ℕ) (gatesRecorded : Bool) :
    Option ChangeCycle := do
  let head ← lineage.getLast?
  let lifecycle := publishes s lineage records
  let c := records.foldl (Cycling.record lifecycle) {}
  let start ← c.dispatchedAt
  let (at', landing) := c.landed.getD (none, none)
  let landedAt := at'.filter fun at' => landing.isSome && start ≤ at'.millis
  let landedMs := landedAt.map Stamp.millis
  let stop := max (landedMs.getD last) start
  let gateRuns := c.gateRuns.insertionSort fun a b => a.startedAt.millis ≤ b.startedAt.millis
  let (spent, awaiting) := slices start stop c.transitions (c.gateRuns.map GateRun.span)
  some {
    node := head
    lineage
    repository := c.repository
    branch := (lineage.reverse.findSome? fun member => s.branches[member]?).or c.sessionBranch
    changeUrl := (lineage.reverse.findSome? fun member => s.changeUrls[member]?).or c.openedUrl
    outcome := s.outcomes[head]?.getD ((s.recorded[head]?.map fun r => r.status.asStr).getD "pending")
    dispatchedAt := .at start
    landedAt
    landing
    cycleMs := landedMs.map fun _ => stop - start
    dispatches := c.dispatches
    publicationAttempts := c.publicationAttempts + (c.publishing.values.countP fun published => published)
    gateRuns
    gateMs := (gateRuns.map GateRun.ms).sum
    segments := undecided gatesRecorded lifecycle spent
    notMeasured := notMeasured gatesRecorded lifecycle awaiting }

/-! ## A run's lineages -/

/-- the nodes a lineage may start from: each dispatched, and each superseded -/
def lineageNodes (s : RunState) (dispatchedAt : StrMap ℕ) (events : List Event) : StrSet :=
  let dispatched := events.filterMap fun event => if event.kind = "node-dispatched" then event.node else none
  (dispatchedAt.keys ++ s.superseded.keys ++ dispatched).foldl (fun m id => m.insert id) ∅

/-- every lineage the run holds, first id first -/
def lineages (s : RunState) (dispatchedAt : StrMap ℕ) (events : List Event) : List (List String) :=
  ((lineageNodes s dispatchedAt events).toList.filter fun node => node ∉ s.superseded.values).map fun root =>
    Chase.gather (fun id : String => s.superseded[id]?) (s.superseded.size + 1) [root] root

/-- every change one run made -/
def changes (s : RunState) (dispatchedAt : StrMap ℕ) (events : List Event) : List ChangeCycle :=
  let lineages := lineages s dispatchedAt events
  let owner : StrMap ℕ := lineages.zipIdx.foldl (fun m p => p.1.foldl (fun m member => m.insert member p.2) m) ∅
  let last := (events.filterMap fun event => millisOf event.ts).foldl max 0
  let gatesRecorded := events.any fun event => event.source = .vcs ∧ event.kind = "gate-run"
  let recordsOf (index : ℕ) := events.filter fun event => event.node.any fun node => owner[node]? = some index
  (lineages.zipIdx.filterMap fun p => cycle s p.1 (recordsOf p.2) last gatesRecorded).insertionSort fun a b =>
    a.dispatchedAt.spelled < b.dispatchedAt.spelled ∨ (a.dispatchedAt.spelled = b.dispatchedAt.spelled ∧ a.node ≤ b.node)

end OnePipeline.Changes
